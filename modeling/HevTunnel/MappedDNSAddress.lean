import HevTunnel.MappedDNSLookup
import HevTunnel.MappedDNSRep

/-! # Configurations of the mapped DNS cache

The address of the name with index `i` is `net | i`, and a lookup takes the index back out of an
address as `ip & ~mask`.  `hev_mapped_dns_construct` refuses a cache that is larger than the host
part of the mask.  It compares signed numbers, and it looks neither at the network nor at the single
bits of the mask.

`Usable` is what the rest of the program needs of an accepted configuration: every index has an
address of its own, lookups take it back, and the cache never has to evict the node that it adds.
`usable_iff`: an accepted configuration is usable exactly if its size is positive, its network has
no host bits, and all powers of two below the size are host bits. -/

namespace HevTunnel
namespace MappedDNS

/-- The address of an index. -/
def addressOf (d : MappedDNS) (i : ℕ) : BitVec 32 := d.net ||| BitVec.ofNat 32 i

/-- A search that adds a node keeps this node, and stores it inside `records`. -/
def AddsSafely (d : MappedDNS) : Prop :=
  ∀ {name slot nm d₁ d₂ idx}, d.tree.descend (d.compare name) [] = some (none, slot) →
    d.insert slot nm = some d₁ → d₁.takeIndex = some (d₂, idx) →
    d.brk ∈ d₂.list ∧ (idx : Int) < d.max ∧ idx < d₂.records.length

/-- Every index has an address of its own and is taken back from it, also over all runs: no two
cached nodes share an address, and nodes are added safely. -/
structure Usable (d : MappedDNS) : Prop where
  max_pos : 0 < d.max
  injOn : Set.InjOn d.addressOf {i | (i : Int) < d.max}
  inverted : ∀ i : ℕ, (i : Int) < d.max → d.hostIndex (d.addressOf i) = i
  distinct : ∀ {xs d'}, runSteps apply d xs = some d' → ∀ p ∈ d'.list, ∀ q ∈ d'.list,
    d'.addressOf (d'.index p) = d'.addressOf (d'.index q) → p = q
  adds : ∀ {xs d'}, runSteps apply d xs = some d' → d'.AddsSafely

/-! ### Bits of indices -/

section bits
variable {net mask : BitVec 32}

/-- The host part of the address of `i` is `i`, if no host bit is set in the network and every bit
of `i` is a host bit. -/
theorem and_not_of_bits (hnet : net &&& ~~~mask = 0) {i : ℕ}
    (hbits : ∀ j, 2 ^ j ≤ i → mask.getLsbD j = false) :
    (net ||| BitVec.ofNat 32 i) &&& ~~~mask = BitVec.ofNat 32 i := by
  rw [BitVec.and_or_distrib_right, hnet]
  change 0#32 ||| BitVec.ofNat 32 i &&& ~~~mask = BitVec.ofNat 32 i
  rw [BitVec.zero_or]
  apply BitVec.eq_of_getLsbD_eq
  intro j hj
  simp only [BitVec.getLsbD_and, BitVec.getLsbD_not, BitVec.getLsbD_ofNat, hj, decide_true,
    Bool.true_and]
  cases hbit : i.testBit j with
  | false => rfl
  | true => rw [hbits j (Nat.ge_two_pow_of_testBit hbit)]; rfl

/-- A single bit that is its own host part is a host bit. -/
theorem getLsbD_of_twoPow {j : ℕ} (hj : j < 32)
    (h : (net ||| BitVec.ofNat 32 (2 ^ j)) &&& ~~~mask = BitVec.ofNat 32 (2 ^ j)) :
    mask.getLsbD j = false := by
  have hbit := congrArg (fun x => x.getLsbD j) h
  simp only [BitVec.getLsbD_and, BitVec.getLsbD_or, BitVec.getLsbD_not, BitVec.getLsbD_ofNat, hj,
    decide_true, Bool.true_and, Nat.testBit_two_pow_self, Bool.or_true] at hbit
  simpa using hbit

theorem toInt_ofNat_of_lt {i : ℕ} (hi : i < 2 ^ 31) : (BitVec.ofNat 32 i).toInt = i := by
  rw [BitVec.toInt_eq_toNat_cond, BitVec.toNat_ofNat]
  have : i % 2 ^ 32 = i := Nat.mod_eq_of_lt (by omega)
  rw [this, if_pos (by omega)]

/-- All indices below `max` are the host parts of their addresses exactly if the network has no host
bits and the powers of two below `max` are host bits. -/
theorem hostParts_iff {max : Int} (hpos : 0 < max) (hlt : max < 2 ^ 31) :
    (∀ i : ℕ, (i : Int) < max → (net ||| BitVec.ofNat 32 i) &&& ~~~mask = BitVec.ofNat 32 i) ↔
      net &&& ~~~mask = 0 ∧ ∀ j : ℕ, ((2 ^ j : ℕ) : Int) < max → mask.getLsbD j = false := by
  constructor
  · intro hhost
    refine ⟨by simpa using hhost 0 hpos, fun j hj => ?_⟩
    apply getLsbD_of_twoPow _ (hhost _ hj)
    by_contra hge
    have : 2 ^ 32 ≤ 2 ^ j := Nat.pow_le_pow_right (by decide) (by omega)
    omega
  · rintro ⟨hnet, hbits⟩ i hi
    exact and_not_of_bits hnet (fun j hj => hbits j (by omega))

end bits

/-! ### Runs -/

section runs
variable {d d' : MappedDNS}

theorem apply_linked {x : Op} (hl : d.Linked) (h : d.apply x = some d') :
    d'.Linked ∧ d'.config = d.config := by
  cases x with
  | find name alloc =>
      obtain ⟨⟨d₁, r⟩, hf, rfl⟩ := Option.map_eq_some_iff.mp h
      exact hl.find hf
  | lookup ip =>
      obtain ⟨⟨d₁, r⟩, hf, rfl⟩ := Option.map_eq_some_iff.mp h
      exact hl.lookup hf

theorem runSteps_linked {xs : List Op} (hl : d.Linked) (h : runSteps apply d xs = some d') :
    d'.Linked ∧ d'.config = d.config := by
  apply runSteps_invariant (fun d' => d'.Linked ∧ d'.config = d.config) _ ⟨hl, rfl⟩ h
  intro d₁ x d₂ h₁ hx
  obtain ⟨hl₂, hcfg⟩ := apply_linked h₁.1 hx
  exact ⟨hl₂, hcfg.trans h₁.2⟩

/-- With a positive size there is always another node to evict. -/
theorem Linked.addsSafely (hl : d.Linked) (hmax : 0 < d.max) : d.AddsSafely := by
  intro name slot nm d₁ d₂ idx _ hinsert htake
  have huse := hl.use_eq
  have hsize := hl.size
  have hlen := hl.records_length
  simp only [insert, Option.bind_eq_bind, Option.bind_eq_some_iff, Option.pure_def,
    Option.some.injEq] at hinsert
  obtain ⟨tree, -, rfl⟩ := hinsert
  unfold takeIndex at htake
  split_ifs at htake with hroom
  · cases htake
    refine ⟨by simp, hroom, ?_⟩
    show d.use < d.records.length
    simp only at hroom
    omega
  · simp only [Option.bind_eq_bind, Option.bind_eq_some_iff, Option.pure_def,
      Option.some.injEq, Prod.mk.injEq] at htake
    obtain ⟨q, hq, nf, hnf, tree', -, rfl, rfl⟩ := htake
    cases hlist : d.list with
    | nil =>
        simp only [hlist, List.length_nil] at huse
        simp only [huse] at hroom
        omega
    | cons x rest =>
        obtain rfl : x = q := by simpa [hlist] using hq
        have hx : x ∈ d.list := by simp [hlist]
        have hxb : x ≠ d.brk := Nat.ne_of_lt (hl.fresh x hx)
        have hidx : nf.idx < d.use := by
          have hheap : d.heap x = some nf := by simpa [hxb] using hnf
          rw [← index_of_heap hheap]
          exact hl.index_lt hx
        refine ⟨?_, by omega, ?_⟩
        · show d.brk ∈ (x :: rest ++ [d.brk]).erase x
          exact (List.mem_erase_of_ne hxb.symm).mpr (by simp)
        · show nf.idx < d.records.length
          omega

/-- An index that is taken back from its address makes the configuration usable. -/
theorem usable_of_inverted {net mask : BitVec 32} {max : Int} (h : construct net mask max = some d)
    (hpos : 0 < d.max) (hinv : ∀ i : ℕ, (i : Int) < d.max → d.hostIndex (d.addressOf i) = i) :
    d.Usable := by
  have hinj : Set.InjOn d.addressOf {i | (i : Int) < d.max} := by
    intro i hi j hj hij
    have := congrArg d.hostIndex hij
    rw [hinv i hi, hinv j hj] at this
    omega
  have hrun : ∀ {xs d'}, runSteps apply d xs = some d' →
      d'.Linked ∧ d'.max = d.max ∧ d'.net = d.net := by
    intro xs d' hrun
    obtain ⟨hl, hcfg⟩ := runSteps_linked (construct_linked h) hrun
    obtain ⟨hmax, hnet, -⟩ : d'.max = d.max ∧ d'.net = d.net ∧ d'.mask = d.mask := by
      simpa [config] using hcfg
    exact ⟨hl, hmax, hnet⟩
  refine ⟨hpos, hinj, hinv, ?_, ?_⟩
  · intro xs d' hxs p hp q hq heq
    obtain ⟨hl, hmax, hnet⟩ := hrun hxs
    have hlt : ∀ r ∈ d'.list, (d'.index r : Int) < d.max := by
      intro r hr
      have hr' := hl.index_lt hr
      have hsize := hl.size
      omega
    apply hl.index_inj hp hq
    apply hinj (hlt p hp) (hlt q hq)
    rwa [addressOf, addressOf, hnet] at heq
  · intro xs d' hxs
    obtain ⟨hl, hmax, -⟩ := hrun hxs
    exact hl.addsSafely (by omega)

end runs

/-- An accepted configuration is usable exactly if its size is positive, its network has no host
bits, and the powers of two below the size are host bits. -/
theorem usable_iff {net mask : BitVec 32} {max : Int} {d : MappedDNS}
    (h : construct net mask max = some d) :
    d.Usable ↔ 0 < max ∧ net &&& ~~~mask = 0 ∧
      ∀ j : ℕ, ((2 ^ j : ℕ) : Int) < max → mask.getLsbD j = false := by
  obtain ⟨hle, hcfg, -⟩ := construct_eq_some h
  obtain ⟨rfl, rfl, rfl⟩ : d.max = max ∧ d.net = net ∧ d.mask = mask := by simpa [config] using hcfg
  have hlt : d.max < 2 ^ 31 := lt_of_le_of_lt hle BitVec.toInt_lt
  have hhost : ∀ i : ℕ, (i : Int) < d.max → (d.hostIndex (d.addressOf i) = i ↔
      (d.net ||| BitVec.ofNat 32 i) &&& ~~~d.mask = BitVec.ofNat 32 i) := by
    intro i hi
    rw [← BitVec.toInt_inj, toInt_ofNat_of_lt (by omega)]
    rfl
  constructor
  · intro hu
    refine ⟨hu.max_pos, (hostParts_iff hu.max_pos hlt).mp ?_⟩
    exact fun i hi => (hhost i hi).mp (hu.inverted i hi)
  · rintro ⟨hpos, hbits⟩
    apply usable_of_inverted h hpos
    exact fun i hi => (hhost i hi).mpr ((hostParts_iff hpos hlt).mpr hbits i hi)

/-- The configuration of the documentation. -/
theorem usable_documented :
    ∃ d, construct 0x64400000#32 0xffc00000#32 10000 = some d ∧ d.Usable := by
  obtain ⟨d, hd⟩ : ∃ d, construct 0x64400000#32 0xffc00000#32 10000 = some d := ⟨_, rfl⟩
  refine ⟨d, hd, (usable_iff hd).mpr ⟨by decide, by decide, ?_⟩⟩
  intro j hj
  have hlt : j < 14 := by
    by_contra hge
    have : 2 ^ 14 ≤ 2 ^ j := Nat.pow_le_pow_right (by decide) (by omega)
    omega
  have hbits : ∀ j < 14, (0xffc00000#32).getLsbD j = false := by decide
  exact hbits j hlt

/-- With a host bit in the network, the first two names get the same address. -/
theorem host_bit_in_network : ∃ d d', construct 0x64400001#32 0xffc00000#32 4 = some d ∧
    runSteps apply d [.find ⟨[97], by decide⟩ .ok, .find ⟨[98], by decide⟩ .ok] = some d' ∧
    d'.Cached ⟨[97], by decide⟩ 0 ∧ d'.Cached ⟨[98], by decide⟩ 1 ∧
    d'.addressOf 0 = d'.addressOf 1 ∧ ¬ d.Usable := by
  refine ⟨_, _, rfl, rfl, ⟨0, by decide, rfl⟩, ⟨1, by decide, rfl⟩, by decide, ?_⟩
  intro hu
  have h01 : (0 : ℕ) = 1 := by
    apply hu.injOn
    · show (0 : Int) < 4
      decide
    · show (1 : Int) < 4
      decide
    · decide
  cases h01

end MappedDNS
end HevTunnel
