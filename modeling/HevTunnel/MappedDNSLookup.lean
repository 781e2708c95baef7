import HevTunnel.Addr
import HevTunnel.MappedDNSRun

/-! # What a lookup of the mapped DNS cache answers

`Reachable` are the caches that calls of `handle` and `lookup` lead to, with any outcome of
every allocation.  `LookupSound d ip` is what a lookup is for: it answers the name of an address
of the mapped network, and has no effect on any other address.

The code compares only the host part of the address with the cached indices.
`resolveSound_iff` says for every reachable cache which addresses that is right for: those whose
host part is free, and those of the mapped network.  The remaining condition is about a cached
node without a name, which `strdup` may leave behind: it is touched, but not answered. -/

namespace HevTunnel

namespace MappedDNS

inductive Reachable (net mask : BitVec 32) (max : Int) : MappedDNS → Prop where
  | new {d : MappedDNS} : construct net mask max = some d → Reachable net mask max d
  | call {d d' : MappedDNS} (alloc : ℕ → Alloc) (c : Call) :
      Reachable net mask max d → d.call alloc c = some d' → Reachable net mask max d'

theorem questions_linked {qlen : ℕ} {alloc : ℕ → Alloc} {n : ℕ} {d : MappedDNS} {rb : Mem}
    {off : ℕ} {out : List (ℕ × BitVec 32)} {r : MappedDNS × Mem × Option (ℕ × List (ℕ × BitVec 32))}
    (hl : d.Linked) (h : questions qlen alloc n d rb off out = some r) :
    r.1.Linked ∧ r.1.config = d.config := by
  induction n generalizing d rb off out with
  | zero =>
      cases h
      exact ⟨hl, rfl⟩
  | succ n ih =>
      unfold questions at h
      generalize skipName qlen (qlen + 1) rb off = scan at h
      rcases scan with ⟨rb', _ | stop⟩
      · cases h
        exact ⟨hl, rfl⟩
      · simp only at h
        split_ifs at h
        · cases h
          exact ⟨hl, rfl⟩
        · rw [Option.bind_eq_bind, Option.bind_eq_some_iff] at h
          obtain ⟨⟨d', idx⟩, hf, h⟩ := h
          obtain ⟨hl', hcfg⟩ := hl.find hf
          obtain ⟨hr, hcfg'⟩ := ih hl' h
          exact ⟨hr, hcfg'.trans hcfg⟩
        · exact ih hl h

theorem call_linked {d d' : MappedDNS} {alloc : ℕ → Alloc} {c : Call} (hl : d.Linked)
    (h : d.call alloc c = some d') : d'.Linked ∧ d'.config = d.config := by
  cases c with
  | handle req qlen res slen =>
      simp only [call] at h
      by_cases href : slen < qlen ∨ 32 < readU16 req 4
      · rw [handle_refused d req qlen res slen alloc href] at h
        cases h
        exact ⟨hl, rfl⟩
      · rw [not_or] at href
        rw [handle_self d req qlen res slen alloc href.1 href.2, Option.map_eq_some_iff] at h
        obtain ⟨r, hr, rfl⟩ := h
        exact questions_linked hl hr
  | lookup ip =>
      simp only [call, Option.map_eq_some_iff] at h
      obtain ⟨⟨_, r⟩, hr, rfl⟩ := h
      exact hl.lookup hr

section reachable
variable {net mask : BitVec 32} {max : Int} {d : MappedDNS}

/-- In every reachable cache the structures agree, and the configuration is the given one. -/
theorem Reachable.linked (h : Reachable net mask max d) :
    d.Linked ∧ d.config = (max, net, mask) := by
  induction h with
  | new h => exact ⟨construct_linked h, (construct_eq_some h).2.1⟩
  | call alloc c _ h ih =>
      obtain ⟨hl, hcfg⟩ := call_linked ih.1 h
      exact ⟨hl, hcfg.trans ih.2⟩

theorem Reachable.accepted (h : Reachable net mask max d) : max ≤ (~~~mask).toInt := by
  induction h with
  | new h => exact (construct_eq_some h).1
  | call _ _ _ _ ih => exact ih

end reachable

/-- `name` is cached under `i`. -/
def Cached (d : MappedDNS) (name : CStr) (i : ℕ) : Prop :=
  ∃ p ∈ d.list, d.heap p = some ⟨some name, i⟩

/-- A lookup answers the name cached for an address of the network, and for every other address
answers nothing and keeps the order of recency. -/
def LookupSound (d : MappedDNS) (ip : BitVec 32) : Prop :=
  ∃ d' r, d.lookup ip = some (d', r) ∧
    (∀ name, r = some name ↔
      ip &&& d.mask = d.net ∧ ∃ i, d.Cached name i ∧ ip = d.net ||| BitVec.ofNat 32 i) ∧
    (r = none → d'.list = d.list)

end MappedDNS

/-- `hev_socks5_addr_from_lwip`, with the cache that `hev_mapped_dns_get` returns: the cache
afterwards and the address, unless the type of the address is unknown. -/
def addrFromLwip (dns : Option MappedDNS) (ip : IpAddr) (port : UInt16) (beyond : ℕ) :
    Option (Option MappedDNS × Option Addr) :=
  match ip with
  | .v4 addr =>
      match dns with
      | none => some (none, some (addrFromIpv4 addr port))
      | some d => do
          let (d, name) ← d.lookup addr
          match name with
          | some name => pure (some d, some (addrFromName name port beyond))
          | none => pure (some d, some (addrFromIpv4 addr port))
  | .v6 addr => some (dns, some (addrFromIpv6 addr port))
  | .any => some (dns, none)

namespace MappedDNS

/-- A lookup is sound, and a destination outside the network is not turned into a name. -/
def ResolveSound (d : MappedDNS) (ip : BitVec 32) : Prop :=
  d.LookupSound ip ∧
    (ip &&& d.mask ≠ d.net → ∀ port beyond dns addr,
      addrFromLwip (some d) (.v4 ip) port beyond = some (dns, some addr) → ¬ addr.IsName)

/-- The addresses that a lookup treats as it should: reading the array stays inside, and the
node of the host part, if there is one, belongs to this address, or has no name and is the most
recent one already. -/
def Resolvable (d : MappedDNS) (ip : BitVec 32) : Prop :=
  (d.hostIndex ip < 0 → d.max ≤ d.hostIndex ip) ∧
  ∀ p ∈ d.list, ∀ node, d.heap p = some node → (node.idx : Int) = d.hostIndex ip →
    (node.name ≠ none → ip &&& d.mask = d.net) ∧ (node.name = none → d.list.getLast? = some p)

/-! ### The address of an index -/

section linked
variable {d : MappedDNS}

/-- An address is its network and host part. -/
theorem eq_net_or_index {ip : BitVec 32} (hnet : ip &&& d.mask = d.net) {i : ℕ}
    (hi : d.hostIndex ip = i) : ip = d.net ||| BitVec.ofNat 32 i := by
  have hhost : ip &&& ~~~d.mask = BitVec.ofNat 32 i := by
    rw [← BitVec.ofInt_toInt (x := ip &&& ~~~d.mask)]
    show BitVec.ofInt 32 (d.hostIndex ip) = _
    rw [hi]
    rfl
  have hones : d.mask ||| ~~~d.mask = BitVec.allOnes 32 := by simp
  rw [← hnet, ← hhost, ← BitVec.and_or_distrib_left, hones, BitVec.and_allOnes]

theorem Linked.index_inj (hl : d.Linked) {p q : Ptr} (hp : p ∈ d.list) (hq : q ∈ d.list)
    (h : d.index p = d.index q) : p = q :=
  List.inj_on_of_nodup_map (hl.slots.nodup_iff.mpr List.nodup_range) hp hq h

/-- The node that is cached under an address is the node of its host part. -/
theorem Linked.cached_index (hl : d.Linked) (hc : Contiguous d.mask)
    (hn : d.net &&& ~~~d.mask = 0) (hmax : d.max ≤ (~~~d.mask).toInt) {name : CStr} {i : ℕ}
    (h : d.Cached name i) :
    ∃ q ∈ d.list, d.heap q = some ⟨some name, i⟩ ∧
      d.hostIndex (d.net ||| BitVec.ofNat 32 i) = d.index q ∧ d.index q < d.use := by
  obtain ⟨q, hq, hheap⟩ := h
  have hi : d.index q = i := index_of_heap hheap
  have hlt := hl.index_lt hq
  have hsize := hl.size
  refine ⟨q, hq, hheap, ?_, hlt⟩
  rw [hi]
  exact hostIndex_address hc hn (by omega)

theorem erase_append_eq_self {l : List Ptr} (hn : l.Nodup) {p : Ptr} (hp : p ∈ l) :
    l.erase p ++ [p] = l ↔ l.getLast? = some p := by
  constructor
  · intro h
    rw [← h]
    simp
  · intro h
    obtain ⟨init, rfl⟩ : ∃ init, l = init ++ [p] := by
      obtain ⟨init, x, rfl⟩ := (List.eq_nil_or_concat' l).resolve_left (List.ne_nil_of_mem hp)
      rw [List.getLast?_concat, Option.some.injEq] at h
      exact ⟨init, by rw [h]⟩
    have hni : p ∉ init := by
      rw [List.nodup_append] at hn
      exact fun hpi => hn.2.2 p hpi p (by simp) rfl
    rw [List.erase_append_right _ hni]
    simp

/-- The destination after a lookup that answers no name. -/
theorem addrFromLwip_of_none {ip : BitVec 32} {d' : MappedDNS} (h : d.lookup ip = some (d', none))
    {port : UInt16} {beyond : ℕ} {dns : Option MappedDNS} {addr : Addr}
    (ha : addrFromLwip (some d) (.v4 ip) port beyond = some (dns, some addr)) : ¬ addr.IsName := by
  simp only [addrFromLwip, h, Option.bind_eq_bind, Option.bind_some, Option.pure_def,
    Option.some.injEq, Prod.mk.injEq] at ha
  rw [← ha.2]
  exact id

/-- A cached name belongs to the node that the lookup touches. -/
theorem Linked.cached_unique (hl : d.Linked) (hc : Contiguous d.mask)
    (hn : d.net &&& ~~~d.mask = 0) (hmax : d.max ≤ (~~~d.mask).toInt) {ip : BitVec 32} {p : Ptr}
    (hp : p ∈ d.list) (hip : d.hostIndex ip = d.index p) {name : CStr} {i : ℕ}
    (h : d.Cached name i) (heq : ip = d.net ||| BitVec.ofNat 32 i) :
    d.heap p = some ⟨some name, i⟩ := by
  obtain ⟨q, hq, hheap, hqi, -⟩ := hl.cached_index hc hn hmax h
  rw [← heq, hip] at hqi
  rw [hl.index_inj hp hq (Int.ofNat_inj.mp hqi)]
  exact hheap

/-- A lookup that touches a node is sound when the address belongs to the node's name, or the
node has no name and is the most recent one. -/
theorem Linked.resolveSound_touch (hl : d.Linked) (hc : Contiguous d.mask)
    (hn : d.net &&& ~~~d.mask = 0) (hmax : d.max ≤ (~~~d.mask).toInt) {ip : BitVec 32} {p : Ptr}
    {node : DNSNode} (hp : p ∈ d.list) (hnode : d.heap p = some node)
    (hip : d.hostIndex ip = d.index p) (hf : d.lookup ip = some (d.touch p, node.name)) :
    d.ResolveSound ip ↔ (node.name ≠ none → ip &&& d.mask = d.net) ∧
      (node.name = none → d.list.getLast? = some p) := by
  have hcached : ∀ name i, d.Cached name i → ip = d.net ||| BitVec.ofNat 32 i →
      node.name = some name := by
    intro name i h heq
    have := hl.cached_unique hc hn hmax hp hip h heq
    rw [hnode] at this
    cases this
    rfl
  cases hname : node.name with
  | some name =>
      have hidx : d.index p = node.idx := index_of_heap hnode
      rw [hname] at hf hcached
      simp only [ne_eq, reduceCtorEq, not_false_eq_true, forall_const, false_implies, and_true]
      constructor
      · rintro ⟨⟨d', r, hf', hr, -⟩, -⟩
        rw [hf] at hf'
        cases hf'
        exact ((hr name).mp rfl).1
      · intro hnet
        refine ⟨⟨_, _, hf, ?_, by simp⟩, fun h => absurd hnet h⟩
        intro name'
        constructor
        · intro h
          cases h
          rw [hidx] at hip
          refine ⟨hnet, node.idx, ⟨p, hp, ?_⟩, eq_net_or_index hnet hip⟩
          rw [hnode, ← hname]
        · rintro ⟨-, i, hc', heq⟩
          exact hcached name' i hc' heq
  | none =>
      rw [hname] at hf hcached
      simp only [ne_eq, not_true_eq_false, false_implies, forall_const, true_and]
      rw [← erase_append_eq_self hl.nodup hp]
      constructor
      · rintro ⟨⟨d', r, hf', -, hr⟩, -⟩
        rw [hf] at hf'
        cases hf'
        exact hr rfl
      · intro hlast
        refine ⟨⟨_, _, hf, ?_, fun _ => hlast⟩, fun _ _ _ _ _ => addrFromLwip_of_none hf⟩
        intro name
        refine ⟨by simp, ?_⟩
        rintro ⟨-, i, hc', heq⟩
        exact hcached name i hc' heq

/-- Which lookups are sound, for a cache whose structures agree. -/
theorem Linked.sound_iff_resolvable (hl : d.Linked) (hc : Contiguous d.mask)
    (hn : d.net &&& ~~~d.mask = 0) (hmax : d.max ≤ (~~~d.mask).toInt) (ip : BitVec 32) :
    d.ResolveSound ip ↔ d.Resolvable ip := by
  obtain ⟨hneg, hlt, hf⟩ | ⟨hge, hf⟩ | ⟨p, hp, node, hnode, hip, -, hf⟩ := hl.lookup_cases ip
  · -- the array is read before its start
    constructor
    · rintro ⟨⟨d', r, hf', -⟩, -⟩
      rw [hf] at hf'
      cases hf'
    · rintro ⟨hr, -⟩
      have := hr hneg
      omega
  · -- the host part is free
    have hsize := hl.size
    constructor
    · intro _
      refine ⟨by omega, ?_⟩
      intro p hp node hnode hidx
      have := hl.index_lt hp
      rw [index_of_heap hnode] at this
      omega
    · intro _
      refine ⟨⟨d, none, hf, ?_, fun _ => rfl⟩, fun _ _ _ _ _ => addrFromLwip_of_none hf⟩
      intro name
      refine ⟨by simp, ?_⟩
      rintro ⟨-, i, hcached, rfl⟩
      obtain ⟨q, -, -, hqi, hlt⟩ := hl.cached_index hc hn hmax hcached
      omega
  · have hidx : d.index p = node.idx := index_of_heap hnode
    have huniq : ∀ q ∈ d.list, ∀ node', d.heap q = some node' →
        (node'.idx : Int) = d.hostIndex ip → q = p ∧ node' = node := by
      intro q hq node' hq' hqi
      have : q = p := hl.index_inj hq hp (by rw [index_of_heap hq']; omega)
      subst this
      rw [hnode] at hq'
      exact ⟨rfl, (Option.some.inj hq').symm⟩
    have hres : d.Resolvable ip ↔ (node.name ≠ none → ip &&& d.mask = d.net) ∧
        (node.name = none → d.list.getLast? = some p) := by
      constructor
      · intro h
        exact h.2 p hp node hnode (by omega)
      · intro h
        refine ⟨by omega, ?_⟩
        intro q hq node' hq' hqi
        obtain ⟨rfl, rfl⟩ := huniq q hq node' hq' hqi
        exact h
    rw [hres]
    exact hl.resolveSound_touch hc hn hmax hp hnode hip hf

end linked

/-- For every configuration and every reachable cache, the addresses that a lookup resolves as it
should are the resolvable ones.  Every other address of a cached host part, in particular one
outside the mapped network, is taken for the cached name. -/
theorem resolveSound_iff {net mask : BitVec 32} {max : Int} (hc : Contiguous mask)
    (hn : net &&& ~~~mask = 0) {d : MappedDNS} (h : Reachable net mask max d) (ip : BitVec 32) :
    d.ResolveSound ip ↔ d.Resolvable ip := by
  obtain ⟨hl, hcfg⟩ := h.linked
  obtain ⟨rfl, rfl, rfl⟩ : d.max = max ∧ d.net = net ∧ d.mask = mask := by
    simpa [config] using hcfg
  exact hl.sound_iff_resolvable hc hn h.accepted ip

/-- After queries for three names, the address of the third one resolves to it. -/
theorem resolveSound_pairQuery : ∃ d d', Reachable 0x64400000#32 0xffc00000#32 4 d ∧ d.list.length = 3 ∧
    d.lookup 0x64400002#32 = some (d', some ⟨[99], by decide⟩) ∧ d.ResolveSound 0x64400002#32 := by
  have h : ((construct 0x64400000#32 0xffc00000#32 4).bind (fun d₀ =>
      (d₀.call (fun _ => .ok) (.handle sampleQuery 19 sampleQuery 512)).bind (fun d₁ =>
        (d₁.call (fun _ => .ok) (.handle pairQuery 26 pairQuery 512)).bind (fun d =>
          (d.lookup 0x64400002#32).map (fun r => (d.list.length, r.2, d.list.all (fun p =>
            (d.heap p).all (fun node => node.name.isSome)))))))) = some (3, some ⟨[99], by decide⟩, true) := by
    decide +kernel
  simp only [Option.bind_eq_some_iff, Option.map_eq_some_iff] at h
  obtain ⟨d₀, h₀, d₁, h₁, d, h₂, ⟨d', r⟩, hf, hr⟩ := h
  obtain ⟨hlen, hr⟩ := Prod.mk.inj hr
  obtain ⟨rfl, hnames⟩ := Prod.mk.inj hr
  have hreach : Reachable 0x64400000#32 0xffc00000#32 4 d := .call _ _ (.call _ _ (.new h₀) h₁) h₂
  refine ⟨d, d', hreach, hlen, hf, (resolveSound_iff ⟨22, by decide⟩ (by decide) hreach _).mpr ?_⟩
  obtain ⟨-, hcfg⟩ := hreach.linked
  obtain ⟨-, hnet, hmask⟩ : d.max = 4 ∧ d.net = 0x64400000#32 ∧ d.mask = 0xffc00000#32 := by
    simpa [config] using hcfg
  rw [Resolvable, hostIndex, hnet, hmask]
  refine ⟨fun h => absurd h (by decide), fun p hp node hnode _ => ⟨fun _ => by decide, fun hnone => ?_⟩⟩
  have := List.all_eq_true.mp hnames p hp
  rw [hnode, Option.all_some, hnone] at this
  cases this

/-- After one query for a name, the address `8.0.0.0` outside the network is taken for it. -/
theorem real_address_resolves_to_name : ∃ d d' name,
    Reachable 0x64400000#32 0xffc00000#32 4 d ∧ d.lookup 0x08000000#32 = some (d', some name) ∧
    0x08000000#32 &&& d.mask ≠ d.net ∧ ¬ d.ResolveSound 0x08000000#32 := by
  have h : ((construct 0x64400000#32 0xffc00000#32 4).bind (fun d₀ =>
      (d₀.call (fun _ => .ok) (.handle sampleQuery 19 sampleQuery 512)).bind (fun d =>
        (d.lookup 0x08000000#32).map Prod.snd))) = some (some ⟨[97], by decide⟩) := by
    decide +kernel
  rw [Option.bind_eq_some_iff] at h
  obtain ⟨d₀, h₀, h⟩ := h
  rw [Option.bind_eq_some_iff] at h
  obtain ⟨d, hcall, h⟩ := h
  rw [Option.map_eq_some_iff] at h
  obtain ⟨⟨d', r⟩, hf, rfl⟩ := h
  have hr : Reachable 0x64400000#32 0xffc00000#32 4 d := .call _ _ (.new h₀) hcall
  obtain ⟨-, hcfg⟩ := hr.linked
  have hout : 0x08000000#32 &&& d.mask ≠ d.net := by
    obtain ⟨-, hnet, hmask⟩ : d.max = 4 ∧ d.net = 0x64400000#32 ∧ d.mask = 0xffc00000#32 := by
      simpa [config] using hcfg
    rw [hnet, hmask]
    decide
  refine ⟨d, d', _, hr, hf, hout, ?_⟩
  rintro ⟨⟨d'', r, hf', hiff, -⟩, -⟩
  rw [hf] at hf'
  cases hf'
  exact hout ((hiff _).mp rfl).1

end MappedDNS

end HevTunnel
