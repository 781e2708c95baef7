import HevTunnel.MappedDNSLookup
import HevTunnel.MappedDNSResponse

/-! # From the name of a query to the name of a request

A query puts names into the cache, and a connection to the address of a name is requested from the
server by name.  The label loop bounds a name by the length of the message only, while a `SOCKS5`
address has one byte for the length of a name.

* `Encodes s port beyond a`: the address `a` that `hev_socks5_addr_from_name` makes carries the name
  `s` and the port, for all who read it.
* `Faithful s`: every destination that the cache takes for `s` is encoded that way.
* `names_faithful_iff`: the names of a query are carried over if they have at most 255 bytes. -/

namespace HevTunnel
namespace MappedDNS

/-- `sizeof (HevSocks5Addr)`. -/
def sizeofAddr : ℕ := 1 + 1 + (256 + 2)

structure Encodes (s : CStr) (port : UInt16) (beyond : ℕ) (a : Addr) : Prop where
  /-- The field `domain.len`. -/
  domainLen : nameLen s beyond = s.bytes.length
  /-- The result of `hev_socks5_addr_from_name`. -/
  result : 4 + nameLen s beyond = a.len
  fits : a.bytes.length = a.len ∧ a.len ≤ sizeofAddr
  sockaddr : ∀ resolve, addrIntoSockaddr6 resolve a = (resolve s).map (fun addr => ⟨addr, port⟩)
  /-- What the server reads. -/
  server : ∃ short, Addr.ofBytes a.atype a.data = some (.name s.bytes short port)

/-- A destination for which the cache has the name is encoded with this name. -/
def Faithful (s : CStr) : Prop :=
  ∀ (d d' : MappedDNS) ip port beyond, d.lookup ip = some (d', some s) →
    ∃ a, addrFromLwip (some d) (.v4 ip) port beyond = some (some d', some a) ∧
      Encodes s port beyond a

theorem cstrOf_bytes (s : CStr) : cstrOf s.bytes = s := by
  apply CStr.ext
  exact List.takeWhile_eq_self_iff.mpr (fun b hb => by
    have : b ≠ 0 := fun h => s.noNul (h ▸ hb)
    simpa using this)

theorem nameLen_of_short {s : CStr} (h : s.bytes.length ≤ 255) (beyond : ℕ) :
    nameLen s beyond = s.bytes.length := by
  rw [nameLen, if_pos (by omega), Nat.mod_eq_of_lt (by omega)]

/-- A name of at most 255 bytes is encoded as it is. -/
theorem addrFromName_of_short {s : CStr} (h : s.bytes.length ≤ 255) (port : UInt16) (beyond : ℕ) :
    addrFromName s port beyond = .name s.bytes h port := by
  simp [addrFromName, nameLen_of_short h]

theorem encodes_of_short {s : CStr} (h : s.bytes.length ≤ 255) (port : UInt16) (beyond : ℕ) :
    Encodes s port beyond (addrFromName s port beyond) := by
  rw [addrFromName_of_short h]
  refine ⟨nameLen_of_short h beyond, ?_, ⟨?_, ?_⟩, ?_, h, Addr.ofBytes_data _⟩
  · rw [nameLen_of_short h, Addr.len]
  · simp [Addr.bytes, Addr.len]
    omega
  · simp only [Addr.len, sizeofAddr]
    omega
  · intro resolve
    rw [addrIntoSockaddr6, cstrOf_bytes]

/-- The length that is stored is one byte. -/
theorem short_of_encodes {s : CStr} {port : UInt16} {beyond : ℕ} {a : Addr}
    (h : Encodes s port beyond a) : s.bytes.length ≤ 255 := by
  rw [← h.domainLen, nameLen]
  omega

/-- A name is looked up under the address that it has been given. -/
theorem Inv.lookup_of_find {d : MappedDNS} (h : d.Inv) (hc : Contiguous d.mask)
    (hn : d.net &&& ~~~d.mask = 0) (hmax : 0 < d.max.toNat) (hm : d.max ≤ (~~~d.mask).toInt)
    (s : CStr) : ∃ d₁ idx d', d.find s .ok = some (d₁, idx) ∧ 0 ≤ idx ∧
      d₁.lookup (d.net ||| BitVec.ofInt 32 idx) = some (d', some s) := by
  obtain ⟨d₁, hf, hi, hcache, hcfg⟩ := h.find_sim hmax s
  obtain ⟨hmax₁, hnet₁, hmask₁⟩ : d₁.max = d.max ∧ d₁.net = d.net ∧ d₁.mask = d.mask := by
    simpa [config] using hcfg
  have hmem := (Lru.find_recent h.wf hmax s).mem
  rw [← hcache] at hmem
  obtain ⟨⟨d', hl⟩, -⟩ := hi.entry_resolves (by rwa [hmask₁]) (by rwa [hnet₁, hmask₁])
    (by rwa [hmax₁]) (by rwa [hmax₁, hmask₁]) hmem
  rw [hnet₁] at hl
  exact ⟨d₁, _, d', hf, Int.natCast_nonneg _, hl⟩

/-- The cache of the examples. -/
theorem lookup_of_construct {d : MappedDNS} (h : construct 0x64400000#32 0xffc00000#32 4 = some d)
    (s : CStr) : ∃ d₁ idx d', d.find s .ok = some (d₁, idx) ∧ 0 ≤ idx ∧
      d₁.lookup (0x64400000#32 ||| BitVec.ofInt 32 idx) = some (d', some s) := by
  obtain ⟨-, hcfg, -⟩ := construct_eq_some h
  obtain ⟨hmax, hnet, hmask⟩ : d.max = 4 ∧ d.net = 0x64400000#32 ∧ d.mask = 0xffc00000#32 := by
    simpa [config] using hcfg
  have hl := (construct_inv h).lookup_of_find (by rw [hmask]; exact ⟨22, by decide⟩)
    (by rw [hnet, hmask]; decide) (by rw [hmax]; decide) (by rw [hmax, hmask]; decide) s
  rwa [hnet] at hl

theorem ask_singleton {d d' : MappedDNS} {off : ℕ} {q : DNS.Question} {idx : Int} (hq : q.AsksA)
    (hf : d.find q.cname .ok = some (d', idx)) (hidx : 0 ≤ idx) :
    ask (fun _ => .ok) d off [q] = some (d', [⟨off, q, idx⟩]) := by
  simp [ask, if_pos hq, hf, hidx]

theorem faithful_iff (s : CStr) : Faithful s ↔ s.bytes.length ≤ 255 := by
  constructor
  · intro h
    obtain ⟨d, hd⟩ : ∃ d, construct 0x64400000#32 0xffc00000#32 4 = some d := ⟨_, rfl⟩
    obtain ⟨d₁, idx, d', -, -, hl⟩ := lookup_of_construct hd s
    obtain ⟨a, -, ha⟩ := h d₁ d' _ 0 0 hl
    exact short_of_encodes ha
  · intro h d d' ip port beyond hl
    refine ⟨_, ?_, encodes_of_short h port beyond⟩
    simp [addrFromLwip, hl]

/-- The names that an accepted query puts into the cache. -/
theorem names_faithful_iff {d : MappedDNS} {req res sb : Mem} {qlen slen n : ℕ} {h : Handled}
    (hh : d.handle req qlen res slen (fun _ => .ok) = some h) (hres : h.res = some (sb, n)) :
    d.exec ((questionNames qlen (readU16 req 4) req 12).map .find) = some h.self ∧
      ((∀ s ∈ questionNames qlen (readU16 req 4) req 12, Faithful s) ↔
        ∀ s ∈ questionNames qlen (readU16 req 4) req 12, s.bytes.length ≤ 255) := by
  have hin : ¬ (slen < qlen ∨ 32 < readU16 req 4) := by
    intro hout
    rw [handle_refused _ _ _ _ _ _ hout] at hh
    cases hh
    cases hres
  rw [not_or] at hin
  refine ⟨?_, forall₂_congr (fun s _ => faithful_iff s)⟩
  rw [← questions_exec qlen _ d req 12 [], ← handle_self d req qlen res slen _ hin.1 hin.2, hh]
  rfl

theorem names_faithful_sampleQuery : ∃ d h sb n, construct 0x64400000#32 0xffc00000#32 4 = some d ∧
    d.handle sampleQuery 19 sampleQuery 512 (fun _ => .ok) = some h ∧ h.res = some (sb, n) ∧
    ∀ s ∈ questionNames 19 1 sampleQuery 12, Faithful s := by
  obtain ⟨d, hd⟩ : ∃ d, construct 0x64400000#32 0xffc00000#32 4 = some d := ⟨_, rfl⟩
  obtain ⟨d₁, idx, d', hf, hidx, -⟩ := lookup_of_construct hd sampleQuestion.cname
  obtain ⟨h, sb, hh, -, hres⟩ := exists_handle carries_sampleQuery (show 19 ≤ 512 by decide)
    (ask_singleton (by decide) hf hidx) (by simp; decide)
  refine ⟨d, h, sb, _, hd, hh, hres, (names_faithful_iff hh hres).2.mpr ?_⟩
  decide +kernel

/-- A question for a name of 257 bytes. -/
def longNameQuestion : DNS.Question :=
  ⟨[longLabel, longLabel, longLabel, longLabel] ++ sampleQuestion.name, 1, 1⟩

/-- A query for it, of 275 bytes. -/
def longNameQuery : Mem := fun i =>
  ([0, 1, 1, 0, 0, 1, 0, 0, 0, 0, 0, 0] ++ DNS.sectionBytes [longNameQuestion]).getD i 0

theorem carries_longNameQuery : Carries longNameQuery 275 [longNameQuestion] :=
  ⟨by decide, by decide, by decide, Mem.has_getD [0, 1, 1, 0, 0, 1, 0, 0, 0, 0, 0, 0] _,
    by decide +kernel⟩

/-- The query is answered with an address, and a connection to this address is requested with an
empty name. -/
theorem long_name_lost : ∃ d h sb s d' ip, construct 0x64400000#32 0xffc00000#32 4 = some d ∧
    d.handle longNameQuery 275 longNameQuery 512 (fun _ => .ok) = some h ∧
    h.res = some (sb, 291) ∧ s ∈ questionNames 275 1 longNameQuery 12 ∧ s.bytes.length = 257 ∧
    h.self.lookup ip = some (d', some s) ∧
    addrFromLwip (some h.self) (.v4 ip) 80 0 =
      some (some d', some (.name [] (by decide) 80)) ∧ ¬ Faithful s := by
  have hlength : longNameQuestion.cname.bytes.length = 257 := by decide +kernel
  have hname : longNameQuestion.cname ∈ questionNames 275 1 longNameQuery 12 := by decide +kernel
  have hsize : DNS.sectionSize [longNameQuestion] = 263 := by decide +kernel
  obtain ⟨d, hd⟩ : ∃ d, construct 0x64400000#32 0xffc00000#32 4 = some d := ⟨_, rfl⟩
  obtain ⟨d₁, idx, d', hf, hidx, hl⟩ := lookup_of_construct hd longNameQuestion.cname
  obtain ⟨h, sb, hh, rfl, hres⟩ := exists_handle carries_longNameQuery
    (show 275 ≤ 512 by decide) (ask_singleton (by decide) hf hidx) (by simp [hsize])
  rw [hsize] at hres
  refine ⟨d, h, sb, _, d', _, hd, hh, hres, hname, hlength, hl, ?_, ?_⟩
  · simp [addrFromLwip, hl, addrFromName, nameLen, hlength]
  · rw [faithful_iff, hlength]
    decide

end MappedDNS
end HevTunnel
