import HevTunnel.MappedDNSInv

/-! # Runs of the mapped DNS cache

A run is a list of calls of `hev_mapped_dns_handle` and `hev_mapped_dns_lookup`.  What a call
does to the cache is a list of events, single searches and lookups: the names a message asks
for depend on the message only (`handle_exec`), so the moments between the questions of one
message are moments of the run as well.

The two results are about every run from a constructed cache:

* `recent_name_resolves`: a name that was found stays at its address until `max` other names
  have been touched.
* `lookupSound_iff`: which addresses are looked up as they should. -/

namespace HevTunnel
namespace MappedDNS

/-- One search or lookup. -/
inductive Event where
  | find (name : CStr)
  | lookup (ip : BitVec 32)
deriving DecidableEq

/-- The cache after an event with successful allocation. -/
def react (d : MappedDNS) : Event → Option MappedDNS
  | .find name => (d.find name .ok).map Prod.fst
  | .lookup ip => (d.lookup ip).map Prod.fst

def exec (d : MappedDNS) : List Event → Option MappedDNS
  | [] => some d
  | e :: es => do
      let d ← d.react e
      exec d es

/-- The name an event makes the most recent one. -/
def touchedName (d : MappedDNS) : Event → Option CStr
  | .find name => some name
  | .lookup ip => (d.lookup ip).bind Prod.snd

/-- The names that events make the most recent one at some time. -/
def touchedBy (d : MappedDNS) : List Event → Finset CStr
  | [] => ∅
  | e :: es =>
      (d.touchedName e).toFinset ∪
        match d.react e with
        | some d => touchedBy d es
        | none => ∅

/-- The address a name is mapped to. -/
def address (d : MappedDNS) (name : CStr) : Option (BitVec 32) :=
  (d.cache.find? (fun e => e.1 = name)).map (fun e => d.net ||| BitVec.ofNat 32 e.2)

/-! ### The calls -/

inductive Call where
  | handle (req : Mem) (qlen : ℕ) (res : Mem) (slen : ℕ)
  | lookup (ip : BitVec 32)

/-- The cache after a call; `alloc` tells how its allocations end. -/
def call (d : MappedDNS) (alloc : ℕ → Alloc) : Call → Option MappedDNS
  | .handle req qlen res slen => (d.handle req qlen res slen alloc).map Handled.self
  | .lookup ip => (d.lookup ip).map Prod.fst

/-- The cache after calls with successful allocation. -/
def calls (d : MappedDNS) : List Call → Option MappedDNS
  | [] => some d
  | c :: cs => do
      let d ← d.call (fun _ => .ok) c
      calls d cs

/-- The names `questions` searches for. -/
def questionNames (qlen : ℕ) : ℕ → Mem → ℕ → List CStr
  | 0, _, _ => []
  | n + 1, rb, ipo =>
      match skipName qlen (qlen + 1) rb ipo with
      | (_, none) => []
      | (rb, some stop) =>
          let off := stop + 1
          if qlen ≤ off + 3 then []
          else if readU16 rb off = 1 ∧ readU16 rb (off + 2) = 1 then
            questionName rb ipo qlen :: questionNames qlen n rb (off + 4)
          else questionNames qlen n rb (off + 4)

/-- The events of a call. -/
def Call.events : Call → List Event
  | .handle req qlen _ slen =>
      if slen < qlen ∨ 32 < readU16 req 4 then []
      else (questionNames qlen (readU16 req 4) req 12).map .find
  | .lookup ip => [.lookup ip]

/-- The events of a run. -/
def events (cs : List Call) : List Event := cs.flatMap Call.events

theorem exec_append (d : MappedDNS) (es es' : List Event) :
    d.exec (es ++ es') = (d.exec es).bind (fun d => d.exec es') := by
  induction es generalizing d with
  | nil => rfl
  | cons e es ih =>
      simp only [List.cons_append, exec, Option.bind_eq_bind, Option.bind_assoc]
      congr 1
      funext d'
      exact ih d'

theorem questions_exec (qlen n : ℕ) (d : MappedDNS) (rb : Mem) (off : ℕ)
    (out : List (ℕ × BitVec 32)) :
    (questions qlen (fun _ => .ok) n d rb off out).map Prod.fst =
      d.exec ((questionNames qlen n rb off).map .find) := by
  induction n generalizing d rb off out with
  | zero => rfl
  | succ n ih =>
      unfold questions questionNames
      rcases skipName qlen (qlen + 1) rb off with ⟨rb', _ | stop⟩
      · rfl
      · simp only
        split_ifs
        · rfl
        · simp only [List.map_cons, exec, react, Option.bind_eq_bind]
          cases hf : d.find (questionName rb' off qlen) .ok with
          | none => rfl
          | some r => exact ih ..
        · exact ih ..

/-- A message that does not fit the response, or has too many questions, is not looked at. -/
theorem handle_refused (d : MappedDNS) (req : Mem) (qlen : ℕ) (res : Mem) (slen : ℕ)
    (alloc : ℕ → Alloc) (h : slen < qlen ∨ 32 < readU16 req 4) :
    d.handle req qlen res slen alloc = some ⟨d, req, none⟩ := by
  unfold handle
  by_cases hlen : slen < qlen
  · rw [if_pos hlen]
  · have hqd : 32 < readU16 req 4 := h.resolve_left hlen
    simp only [if_neg hlen, if_pos hqd]

/-- What a message leaves in the cache is what its questions leave. -/
theorem handle_self (d : MappedDNS) (req : Mem) (qlen : ℕ) (res : Mem) (slen : ℕ)
    (alloc : ℕ → Alloc) (hlen : ¬ slen < qlen) (hqd : ¬ 32 < readU16 req 4) :
    (d.handle req qlen res slen alloc).map Handled.self =
      (questions qlen alloc (readU16 req 4) d req 12 []).map Prod.fst := by
  unfold handle
  simp only [if_neg hlen, if_neg hqd, Option.bind_eq_bind, Option.pure_def]
  rcases questions qlen alloc (readU16 req 4) d req 12 [] with _ | ⟨d', rb, _ | ⟨off, out⟩⟩
  · rfl
  · rfl
  · simp only [Option.bind_some, Option.map_some]
    split <;> rfl

/-- A call changes the cache by its events. -/
theorem call_exec (d : MappedDNS) (c : Call) : d.call (fun _ => .ok) c = d.exec c.events := by
  cases c with
  | handle req qlen res slen =>
      unfold Call.events call
      by_cases h : slen < qlen ∨ 32 < readU16 req 4
      · simp only [if_pos h, handle_refused d req qlen res slen _ h]
        rfl
      · simp only [if_neg h]
        rw [not_or] at h
        rw [handle_self d req qlen res slen _ h.1 h.2, questions_exec]
  | lookup ip =>
      show d.react (.lookup ip) = (d.react (.lookup ip)).bind some
      rw [Option.bind_fun_some]

theorem calls_exec (d : MappedDNS) (cs : List Call) : d.calls cs = d.exec (events cs) := by
  induction cs generalizing d with
  | nil => rfl
  | cons c cs ih =>
      rw [events, List.flatMap_cons, exec_append, ← call_exec]
      unfold calls
      rw [Option.bind_eq_bind]
      congr 1
      funext d'
      exact ih d'

/-! ### The abstract run -/

/-- The abstract operation of an event. -/
def op (mask : BitVec 32) : Event → Lru.Op CStr
  | .find name => .find name
  | .lookup ip => .lookup (ip &&& ~~~mask).toInt.toNat

/-- The host part of an address is not negative when that of the whole mask is not. -/
theorem hostIndex_nonneg {d : MappedDNS} (hm : 0 ≤ (~~~d.mask).toInt) (ip : BitVec 32) :
    0 ≤ d.hostIndex ip := by
  have h : (~~~d.mask).msb = false := by
    rw [BitVec.msb_eq_toInt]
    exact decide_eq_false (by omega)
  have h' : (ip &&& ~~~d.mask).msb = false := by rw [BitVec.msb_and, h, Bool.and_false]
  rw [BitVec.msb_eq_toInt] at h'
  have := of_decide_eq_false h'
  unfold hostIndex
  omega

section sim
variable {d : MappedDNS}

/-- An event is a step of the abstract cache. -/
theorem Inv.react_sim (h : d.Inv) (hmax : 0 < d.max.toNat) (hm : 0 ≤ (~~~d.mask).toInt)
    (e : Event) :
    ∃ d', d.react e = some d' ∧ d'.Inv ∧ d'.config = d.config ∧
      d'.cache = Lru.step d.max.toNat d.cache (op d.mask e) ∧
      (d.touchedName e).toFinset = Lru.touched d.cache (op d.mask e) := by
  cases e with
  | find name =>
      obtain ⟨d', hf, hi, hc, hcfg⟩ := h.find_sim hmax name
      exact ⟨d', by simp [react, hf], hi, hcfg, hc, rfl⟩
  | lookup ip =>
      have hidx : d.hostIndex ip = ((ip &&& ~~~d.mask).toInt.toNat : Int) :=
        (Int.toNat_of_nonneg (hostIndex_nonneg hm ip)).symm
      obtain ⟨d', hf, hi, hc, hcfg⟩ := h.lookup_sim hidx
      exact ⟨d', by simp [react, hf], hi, hcfg, hc, by simp [touchedName, hf, Lru.touched, op]⟩

/-- Events run the abstract cache. -/
theorem Inv.exec_sim (h : d.Inv) (hmax : 0 < d.max.toNat) (hm : 0 ≤ (~~~d.mask).toInt)
    (es : List Event) :
    ∃ d', d.exec es = some d' ∧ d'.Inv ∧ d'.config = d.config ∧
      d'.cache = Lru.run d.max.toNat d.cache (es.map (op d.mask)) ∧
      d.touchedBy es = Lru.touchedBy d.max.toNat d.cache (es.map (op d.mask)) := by
  induction es generalizing d with
  | nil => exact ⟨d, rfl, h, rfl, rfl, rfl⟩
  | cons e es ih =>
      obtain ⟨d₁, hr, hi, hcfg, hc, ht⟩ := h.react_sim hmax hm e
      obtain ⟨hmx, hnt, hmk⟩ : d₁.max = d.max ∧ d₁.net = d.net ∧ d₁.mask = d.mask := by
        simpa [config] using hcfg
      obtain ⟨d', he, hi', hcfg', hc', ht'⟩ := ih hi (by rwa [hmx]) (by rwa [hmk])
      rw [hmx, hmk, hc] at hc' ht'
      refine ⟨d', by simp [exec, hr, he], hi', hcfg'.trans hcfg, hc', ?_⟩
      simp only [touchedBy, hr, ht, ht', List.map_cons, Lru.touchedBy]

end sim

/-! ### Addresses -/

/-- The masks whose ones precede their zeros. -/
def Contiguous (mask : BitVec 32) : Prop := ∃ k ≤ 32, mask = BitVec.allOnes 32 <<< k

theorem not_contiguous_toNat : ∀ k ≤ 32, (~~~(BitVec.allOnes 32 <<< k)).toNat = 2 ^ k - 1 := by
  decide

theorem toInt_le_toNat (x : BitVec 32) : x.toInt ≤ x.toNat := by
  rw [BitVec.toInt_eq_toNat_cond]
  split_ifs <;> omega

/-- An index that is not above the host mask is the host part of its address. -/
theorem and_host {net mask : BitVec 32} (hc : Contiguous mask) (hn : net &&& ~~~mask = 0)
    {i : ℕ} (hi : (i : Int) ≤ (~~~mask).toInt) :
    (net ||| BitVec.ofNat 32 i) &&& ~~~mask = BitVec.ofNat 32 i := by
  rw [BitVec.and_or_distrib_right, hn]
  obtain ⟨k, hk, rfl⟩ := hc
  have hle := toInt_le_toNat (~~~(BitVec.allOnes 32 <<< k))
  have hpow : 2 ^ k ≤ 2 ^ 32 := Nat.pow_le_pow_right (by decide) hk
  have hpos : 0 < 2 ^ k := Nat.two_pow_pos k
  rw [not_contiguous_toNat k hk] at hle
  have hik : i < 2 ^ k := by omega
  apply BitVec.eq_of_toNat_eq
  simp only [BitVec.toNat_or, BitVec.toNat_and, BitVec.toNat_ofNat, not_contiguous_toNat k hk,
    Nat.and_two_pow_sub_one_eq_mod]
  rw [Nat.mod_eq_of_lt (by omega : i < 2 ^ 32), Nat.mod_eq_of_lt hik]
  simp

/-- The host part of the address of an index. -/
theorem hostIndex_address {d : MappedDNS} (hc : Contiguous d.mask) (hn : d.net &&& ~~~d.mask = 0)
    {i : ℕ} (hi : (i : Int) ≤ (~~~d.mask).toInt) :
    d.hostIndex (d.net ||| BitVec.ofNat 32 i) = i := by
  have hlt := BitVec.toInt_lt (x := ~~~d.mask)
  unfold hostIndex
  rw [and_host hc hn hi, BitVec.toInt_eq_toNat_cond, BitVec.toNat_ofNat,
    Nat.mod_eq_of_lt (by omega), if_pos (by omega)]

/-- Caches with the same entries map names to the same addresses. -/
theorem address_of_perm {d d' : MappedDNS} (h : d.Inv) (h' : d'.Inv)
    (hp : d'.cache.Perm d.cache) (hnet : d'.net = d.net) (name : CStr) :
    d'.address name = d.address name := by
  unfold address
  rw [hnet]
  by_cases hmem : name ∈ d.cache.map Prod.fst
  · obtain ⟨e, he, rfl⟩ := List.mem_map.mp hmem
    rw [Lru.find?_key h.wf.names he, Lru.find?_key h'.wf.names (hp.mem_iff.mpr he)]
  · rw [Lru.find?_notMem hmem, Lru.find?_notMem (fun hm => hmem ((hp.map _).mem_iff.mp hm))]

theorem address_of_mem {d : MappedDNS} (h : d.Inv) {e : CStr × ℕ} (he : e ∈ d.cache) :
    d.address e.1 = some (d.net ||| BitVec.ofNat 32 e.2) := by
  unfold address
  rw [Lru.find?_key h.wf.names he]
  rfl

/-! ### The round trip -/

/-- What a constructed cache for at least one name starts with. -/
theorem construct_eq_some {net mask : BitVec 32} {max : Int} {d : MappedDNS}
    (h : construct net mask max = some d) :
    max ≤ (~~~mask).toInt ∧ d.config = (max, net, mask) ∧ d.list = [] := by
  unfold construct at h
  split_ifs at h with hm
  cases h
  exact ⟨by omega, rfl, rfl⟩

/-- A cached entry is looked up under its address, and found again with every address kept. -/
theorem Inv.entry_resolves {d : MappedDNS} (h : d.Inv) (hc : Contiguous d.mask)
    (hn : d.net &&& ~~~d.mask = 0) (hmax : 0 < d.max.toNat) (hm : d.max ≤ (~~~d.mask).toInt)
    {e : CStr × ℕ} (he : e ∈ d.cache) :
    (∃ d', d.lookup (d.net ||| BitVec.ofNat 32 e.2) = some (d', some e.1)) ∧
    ∃ d', d.find e.1 .ok = some (d', (e.2 : Int)) ∧ ∀ t, d'.address t = d.address t := by
  have hlt : e.2 < d.max.toNat := lt_of_lt_of_le (h.wf.slot_lt he) h.wf.size
  constructor
  · obtain ⟨d', hl, -⟩ := h.lookup_sim (hostIndex_address hc hn (by omega : (e.2 : Int) ≤ _))
    rw [h.wf.lookup_mem he] at hl
    exact ⟨d', hl⟩
  · obtain ⟨d', hf, hi, hcache, hcfg⟩ := h.find_sim hmax e.1
    rw [h.wf.find_mem he] at hf hcache
    have hnet : d'.net = d.net := congrArg (fun c => c.2.1) hcfg
    refine ⟨d', hf, address_of_perm h hi ?_ hnet⟩
    rw [hcache]
    exact Lru.touch_perm he

/-- The mapped DNS round trip: a name that was found at some moment of a run, also between two
questions of one message, resolves from its address as long as fewer than `max` other names
have been touched since, and finding it again changes no address. -/
theorem recent_name_resolves {net mask : BitVec 32} {max : Int} {d₀ : MappedDNS}
    (hc : Contiguous mask) (hn : net &&& ~~~mask = 0) (hmax : 1 ≤ max)
    (h₀ : construct net mask max = some d₀) (cs : List Call) (pre post rest : List Event)
    (s : CStr) (hcs : events cs = pre ++ .find s :: (post ++ rest)) :
    ∃ d₁ d₂ idx d, d₀.exec pre = some d₁ ∧ d₁.find s .ok = some (d₂, idx) ∧
      0 ≤ idx ∧ d₂.address s = some (net ||| BitVec.ofInt 32 idx) ∧
      d₂.exec post = some d ∧ (rest = [] → d₀.calls cs = some d) ∧
      (((d₂.touchedBy post).erase s).card < max.toNat →
        (∃ d', d.lookup (net ||| BitVec.ofInt 32 idx) = some (d', some s)) ∧
        ∃ d', d.find s .ok = some (d', idx) ∧ ∀ t, t ≠ s → d'.address t = d.address t) := by
  obtain ⟨hm, hcfg₀, -⟩ := construct_eq_some h₀
  have hcfg : ∀ d : MappedDNS, d.config = d₀.config → d.max = max ∧ d.net = net ∧ d.mask = mask :=
    fun d hd => by simpa [config] using hd.trans hcfg₀
  have hpos : 0 < max.toNat := by omega
  have hneg : 0 ≤ (~~~mask).toInt := by omega
  have hi₀ := construct_inv h₀
  obtain ⟨hmx₀, -, hmk₀⟩ := hcfg d₀ rfl
  -- up to the search for `s`, that search, and from there on
  obtain ⟨d₁, he₁, hi₁, hcfg₁, -⟩ := hi₀.exec_sim (by rwa [hmx₀]) (by rwa [hmk₀]) pre
  obtain ⟨hmx₁, -, -⟩ := hcfg d₁ hcfg₁
  obtain ⟨d₂, hf, hi₂, hcache₂, hcfg₂⟩ := hi₁.find_sim (by rwa [hmx₁]) s
  obtain ⟨hmx₂, hnt₂, hmk₂⟩ := hcfg d₂ (hcfg₂.trans hcfg₁)
  obtain ⟨d, he, hi, hcfg', hcache, htouched⟩ := hi₂.exec_sim (by rwa [hmx₂]) (by rwa [hmk₂]) post
  obtain ⟨hmx, hnt, hmk⟩ := hcfg d (hcfg'.trans (hcfg₂.trans hcfg₁))
  have hrec := Lru.find_recent hi₁.wf (by rwa [hmx₁]) s
  rw [← hcache₂, hmx₁] at hrec
  rw [hmx₁] at hf
  rw [hmx₂, hmk₂] at hcache htouched
  have hofInt : ∀ i : ℕ, BitVec.ofInt 32 (i : Int) = BitVec.ofNat 32 i := fun i => rfl
  refine ⟨d₁, d₂, _, d, he₁, hf, Int.natCast_nonneg _, ?_, he, ?_, ?_⟩
  · rw [address_of_mem hi₂ hrec.mem, hnt₂, hofInt]
  · rintro rfl
    rw [calls_exec, hcs, exec_append, he₁, List.append_nil]
    show (d₁.react (.find s)).bind (fun d => d.exec post) = some d
    rw [show d₁.react (.find s) = some d₂ by simp [react, hf]]
    exact he
  · intro hfew
    have hr := hrec.run (hmx₂ ▸ hi₂.wf) hpos (post.map (op mask))
      (by rwa [Finset.empty_union, ← htouched])
    rw [← hcache] at hr
    have := hi.entry_resolves (by rwa [hmk]) (by rwa [hnt, hmk]) (by rwa [hmx]) (by rwa [hmx, hmk])
      hr.mem
    rw [hnt] at this
    exact ⟨this.1, this.2.imp (fun d' h => ⟨h.1, fun t _ => h.2 t⟩)⟩

/-- A query with the single question `a`, type `A`, class `IN`. -/
def sampleQuery : Mem := fun i =>
  [0, 1, 1, 0, 0, 1, 0, 0, 0, 0, 0, 0, 1, 97, 0, 0, 1, 0, 1].getD i 0

/-- A query with the questions `b` and `c`. -/
def pairQuery : Mem := fun i =>
  [0, 1, 1, 0, 0, 2, 0, 0, 0, 0, 0, 0, 1, 98, 0, 0, 1, 0, 1, 1, 99, 0, 0, 1, 0, 1].getD i 0

theorem pairQuery_events :
    events [.handle sampleQuery 19 sampleQuery 512, .handle pairQuery 26 pairQuery 512] =
      [.find ⟨[97], by decide⟩, .find ⟨[98], by decide⟩, .find ⟨[99], by decide⟩] := by
  decide +kernel

/-- In a cache for two names, the second of three names resolves although the third one has driven out
the first. -/
theorem pairQuery_resolves : ∃ d₀ d₁ d₂ d idx d',
    construct 0x64400000#32 0xffc00000#32 2 = some d₀ ∧
    d₀.exec [.find ⟨[97], by decide⟩] = some d₁ ∧ (d₁.address ⟨[97], by decide⟩).isSome ∧
    d₁.find ⟨[98], by decide⟩ .ok = some (d₂, idx) ∧
    d₂.exec [.find ⟨[99], by decide⟩] = some d ∧ d.address ⟨[97], by decide⟩ = none ∧
    d.lookup (0x64400000#32 ||| BitVec.ofInt 32 idx) = some (d', some ⟨[98], by decide⟩) := by
  obtain ⟨d₀, h₀⟩ : ∃ d₀, construct 0x64400000#32 0xffc00000#32 2 = some d₀ := ⟨_, rfl⟩
  obtain ⟨d₁, d₂, idx, d, h₁, hf, -, -, h₂, hcalls, h⟩ :=
    recent_name_resolves (show Contiguous 0xffc00000#32 from ⟨22, by decide⟩)
      (show 0x64400000#32 &&& ~~~0xffc00000#32 = 0 by decide) (show (1 : Int) ≤ 2 by decide) h₀
      [.handle sampleQuery 19 sampleQuery 512, .handle pairQuery 26 pairQuery 512]
      [.find ⟨[97], by decide⟩] [.find ⟨[99], by decide⟩] [] ⟨[98], by decide⟩ pairQuery_events
  have hone : d₂.touchedBy [.find ⟨[99], by decide⟩] = {⟨[99], by decide⟩} := by
    simp only [touchedBy, touchedName]
    split <;> rfl
  obtain ⟨⟨d', hl⟩, -⟩ := h (by rw [hone]; decide)
  have hfirst : (d₀.exec [.find ⟨[97], by decide⟩]).map
      (fun d => (d.address ⟨[97], by decide⟩).isSome) = some true := by
    cases h₀
    decide +kernel
  have hout : (d₀.calls [.handle sampleQuery 19 sampleQuery 512, .handle pairQuery 26 pairQuery 512]).map
      (fun d => (d.address ⟨[97], by decide⟩).isSome) = some false := by
    cases h₀
    decide +kernel
  rw [h₁] at hfirst
  rw [hcalls rfl] at hout
  refine ⟨d₀, d₁, d₂, d, idx, d', h₀, h₁, Option.some.inj hfirst, hf, h₂, ?_, hl⟩
  simpa using hout

end MappedDNS
end HevTunnel
