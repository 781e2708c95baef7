import HevTunnel.ConfigHistory
import HevTunnel.ConfigReorder

/-! # The order of the keys

Whether `hev_config_parse_doc` gives the same result for a document in every order of its keys.  The
loops over the entries of a section end at a value that is not a scalar, and the entries behind it
are ignored.

`Config.orderFree_iff`: the order does not matter exactly if the document is rejected in every order,
or if the sections that end early have scalars only or no entry that could be ignored. -/

namespace HevTunnel

namespace YamlDoc
variable (doc : YamlDoc)

/-- The section with a key is this mapping. -/
def SectionAt (key : CStr) (i : ℕ) (ps : List (ℕ × ℕ)) : Prop :=
  ∃ root k, doc.getRootNode = some (.mapping root) ∧ (k, i) ∈ root ∧ doc.scalarAt k = some key ∧
    doc.getNode i = some (.mapping ps)

/-- A SOCKS5 section that is not accepted in any order. -/
def Incomplete (ps : List (ℕ × ℕ)) : Prop :=
  (∀ value, ¬ doc.Entry ps (lit "port") value) ∨ (∀ value, ¬ doc.Entry ps (lit "address") value) ∨
    (doc.Scalars ps ∧
      ¬ ((∃ value, doc.Entry ps (lit "username") value) ↔ ∃ value, doc.Entry ps (lit "password") value))

/-- The keys of the sections. -/
def IsSectionKey (key : CStr) : Prop :=
  key = lit "tunnel" ∨ key = lit "socks5" ∨ key = lit "mapdns" ∨ key = lit "misc"

/-- A document that is not accepted in any order. -/
def Rejected : Prop :=
  (∀ root, doc.getRootNode ≠ some (.mapping root)) ∨
  (∃ root p key, doc.getRootNode = some (.mapping root) ∧ p ∈ root ∧ doc.scalarAt p.1 = some key ∧
    IsSectionKey key ∧ ∀ ps, doc.getNode p.2 ≠ some (.mapping ps)) ∨
  ∃ i ps, doc.SectionAt (lit "socks5") i ps ∧ doc.Incomplete ps

/-- A document in which no loop that ends at a value that is not a scalar can miss an entry.  The
mapping of an address counts if it is also a section. -/
structure Settled (pton : CStr → Option (Vector Byte 4)) : Prop where
  socks5 : ∀ i ps, doc.SectionAt (lit "socks5") i ps → doc.Scalars ps
  mapdns : ∀ i ps, doc.SectionAt (lit "mapdns") i ps → doc.Scalars ps ∨
    ∀ key value, doc.Entry ps key value → mapdnsPair pton key value = []
  misc : ∀ i ps, doc.SectionAt (lit "misc") i ps → doc.Scalars ps ∨
    ∀ key value, doc.Entry ps key value → miscEntry key value = []
  tunnel : ∀ i ps, doc.SectionAt (lit "tunnel") i ps → ∀ p ∈ ps,
    doc.scalarAt p.1 = some (lit "ipv4") ∨ doc.scalarAt p.1 = some (lit "ipv6") →
    doc.IsSection p.2 → ∀ qs, doc.getNode p.2 = some (.mapping qs) →
      doc.Scalars qs ∨ ∀ value, ¬ doc.Entry qs (lit "address") value

end YamlDoc

section document
variable {pton : CStr → Option (Vector Byte 4)} {doc doc' : YamlDoc} {root : List (ℕ × ℕ)}

theorem YamlDoc.DistinctKeys.rootKeyed (hd : doc.DistinctKeys)
    (hroot : doc.getRootNode = some (.mapping root)) : doc.Keyed root :=
  hd 1 root (.inl rfl) (by rw [← YamlDoc.getRootNode_eq, hroot])

theorem YamlDoc.Reordered.rootMapping (h : doc.Reordered doc')
    (hroot : doc.getRootNode = some (.mapping root)) :
    ∃ root', doc'.getRootNode = some (.mapping root') ∧ root.Perm root' := by
  rw [YamlDoc.getRootNode_eq] at hroot ⊢
  exact h.mapping hroot

/-- The sections of a document that is settled are the same in another order. -/
theorem sectionOf_reordered (hd : doc.DistinctKeys) (h : doc.Reordered doc')
    (hset : doc.Settled pton) (hroot : doc.getRootNode = some (.mapping root)) {p : ℕ × ℕ}
    (hp : p ∈ root) : SameSection (sectionOf pton doc p) (sectionOf pton doc' p) := by
  have hk := hd.rootKeyed hroot
  obtain ⟨key, hkey⟩ := Option.isSome_iff_exists.mp (hk.scalar p hp)
  rw [sectionOf_eq hkey, sectionOf_eq ((h.scalarAt p.1).trans hkey)]
  by_cases hmap : ∃ ps, doc.getNode p.2 = some (.mapping ps)
  · obtain ⟨ps, hnode⟩ := hmap
    obtain ⟨qs, hnode', hperm⟩ := h.mapping hnode
    have hps : doc.Keyed ps := hd p.2 ps (.inr ⟨root, p.1, hroot, hp⟩) hnode
    have hat : doc.SectionAt key p.2 ps := ⟨root, p.1, hroot, hp, hkey, hnode⟩
    rw [hnode, hnode']
    unfold parseSection
    split_ifs with htunnel hsocks5 hmapdns hmisc
    · exact parseTunnel_reordered h hps hperm hd (hset.tunnel p.2 ps (htunnel ▸ hat))
    · rw [parseSocks5_reordered h hps hperm (hset.socks5 p.2 ps (hsocks5 ▸ hat))]
      exact ⟨rfl, fun _ => rfl⟩
    · exact parseMapdns_reordered h hps hperm (hset.mapdns p.2 ps (hmapdns ▸ hat))
    · exact parseMisc_reordered h hps hperm (hset.misc p.2 ps (hmisc ▸ hat))
    · exact ⟨rfl, fun _ => rfl⟩
  · have hnone := parse_not_mapping pton doc (not_exists.mp hmap)
    have hnone' := parse_not_mapping pton doc' (h.not_mapping (not_exists.mp hmap))
    unfold parseSection
    rw [hnone.1, hnone.2.1, hnone.2.2.1, hnone.2.2.2, hnone'.1, hnone'.2.1, hnone'.2.2.1, hnone'.2.2.2]
    exact ⟨rfl, fun _ => rfl⟩

/-! ### Settled and rejected documents -/

theorem parseDoc_of_root (hroot : doc.getRootNode = some (.mapping root)) :
    parseDoc pton doc = parseDocPairs pton doc root := by
  rw [parseDoc, hroot]

/-- A document that is rejected in every order is rejected. -/
theorem parseDoc_rejected (hd : doc.DistinctKeys) (h : doc.Reordered doc') (hrej : doc.Rejected) :
    (parseDoc pton doc').2 = false := by
  obtain hroot | ⟨root, p, key, hroot, hp, hkey, hsec, hnode⟩ |
    ⟨i, ps, ⟨root, k, hroot, hp, hkey, hnode⟩, hinc⟩ := hrej
  · have hroot' : ∀ root', doc'.getRootNode ≠ some (.mapping root') := by
      intro root'
      rw [YamlDoc.getRootNode_eq]
      exact h.not_mapping (fun root => by rw [← YamlDoc.getRootNode_eq]; exact hroot root) root'
    unfold parseDoc
    split
    · exact absurd ‹_› (hroot' _)
    · rfl
  all_goals
    obtain ⟨root', hroot', hperm⟩ := h.rootMapping hroot
    have hk' := h.keyed ((hd.rootKeyed hroot).perm hperm)
    rw [parseDoc_of_root hroot', Bool.eq_false_iff, ne_eq, parseDocPairs_accepted hk']
    intro hall
    have hsome := hall _ (hperm.mem_iff.mp hp)
    rw [sectionOf_eq ((h.scalarAt _).trans hkey)] at hsome
  · have hnone := parse_not_mapping pton doc' (h.not_mapping hnode)
    obtain rfl | rfl | rfl | rfl := hsec
    · exact absurd hsome (by rw [show parseSection pton doc' (lit "tunnel") _ = _ from hnone.1]; simp)
    · exact absurd hsome (by rw [show parseSection pton doc' (lit "socks5") _ = _ from hnone.2.1]; simp)
    · exact absurd hsome (by rw [show parseSection pton doc' (lit "mapdns") _ = _ from hnone.2.2.1]; simp)
    · exact absurd hsome (by rw [show parseSection pton doc' (lit "misc") _ = _ from hnone.2.2.2]; simp)
  · obtain ⟨qs, hnode', hqs⟩ := h.mapping hnode
    have hps : doc.Keyed ps := hd i ps (.inr ⟨root, k, hroot, hp⟩) hnode
    rw [hnode'] at hsome
    change (parseSocks5 doc' (some (.mapping qs))).isSome = true at hsome
    rw [parseSocks5_isSome, YamlDoc.scalarPairs_congr h.scalarAt] at hsome
    obtain ⟨⟨port, hport⟩, ⟨addr, haddr⟩, hauth⟩ := hsome
    obtain hnone | hnone | ⟨hs, hne⟩ := hinc
    · exact hnone port ((YamlDoc.entry_of_mem_scalarPairs hport).perm hqs.symm)
    · exact hnone addr ((YamlDoc.entry_of_mem_scalarPairs haddr).perm hqs.symm)
    · refine hne ?_
      have hs' : doc.Scalars qs := fun q hq => hs q (hqs.mem_iff.mpr hq)
      simpa only [YamlDoc.mem_scalarPairs_iff (hps.perm hqs) hs', ← YamlDoc.entry_perm hqs] using hauth

end document

/-! ### What an entry sets -/

/-- The assignment of an entry sets a variable, because `ntohl` changes the variables of two keys. -/
theorem EntryAssign.exists_sets {sec key : CStr} {a : Assign} (h : EntryAssign sec key a) :
    ∃ x, a.Sets x := by
  cases a with
  | str v s => exact ⟨.str v, rfl⟩
  | int v n => exact ⟨.int v, rfl⟩
  | auth user pass => exact ⟨.auth, rfl⟩
  | ntohl =>
      have hnetwork := (h (.int .mapdnsNetwork) (.inl rfl)).2
      have hnetmask := (h (.int .mapdnsNetmask) (.inr rfl)).2
      exact absurd (hnetwork.trans hnetmask.symm) (by decide)

theorem miscEntry_sets {key value : CStr} {a : Assign} (ha : a ∈ miscEntry key value) :
    ∃ x, a.Sets x := by
  obtain ha | ha := List.mem_append.mp ha
  · exact (miscPair_writes a ha).exists_sets
  · cases a with
    | str v s => exact ⟨.str v, rfl⟩
    | int v n => exact ⟨.int v, rfl⟩
    | auth user pass => exact ⟨.auth, rfl⟩
    | ntohl =>
        have hx := timeouts_writes ha (x := .int .mapdnsNetwork) (.inl rfl)
        exact absurd hx (by decide)

/-- The variable of an address of the tunnel, and what its mapping assigns. -/
theorem exists_tunnelAddress {doc : YamlDoc} {p : ℕ × ℕ}
    (hip : doc.scalarAt p.1 = some (lit "ipv4") ∨ doc.scalarAt p.1 = some (lit "ipv6")) :
    ∃ (v : StrVar) (size : ℕ), doc.scalarAt p.1 = some (ConfigVar.str v).entryKey ∧
      ∀ doc' : YamlDoc, doc'.scalarAt p.1 = doc.scalarAt p.1 →
        ∀ {qs}, doc'.getNode p.2 = some (.mapping qs) → tunnelBlock doc' p =
          (doc'.scalarPairs qs).flatMap (fun e =>
            if e.1 = lit "address" then [.str v (strncpy e.2 (size - 1))] else []) := by
  obtain hip | hip := hip
  · refine ⟨.tunIpv4Address, 16, hip, fun doc' hkey qs hnode => ?_⟩
    rw [tunnelBlock, hkey, hip, hnode]
    rfl
  · refine ⟨.tunIpv6Address, 64, hip, fun doc' hkey qs hnode => ?_⟩
    rw [tunnelBlock, hkey, hip, hnode]
    rfl

namespace Config
variable {pton : CStr → Option (Vector Byte 4)} {doc doc' : YamlDoc} {root : List (ℕ × ℕ)}

/-- Both documents are rejected, or both are accepted with the same settings. -/
def Agree (r r' : Int × Config) : Prop := r.1 = r'.1 ∧ (r.1 = 0 → r.2 = r'.2)

/-- The order of the keys of a document does not matter. -/
def OrderFree (pton : CStr → Option (Vector Byte 4)) (doc : YamlDoc) : Prop :=
  ∀ doc', doc.Reordered doc' → ∀ c : Config, Agree (c.load pton (some doc)) (c.load pton (some doc'))

theorem agree_load_iff (c : Config) :
    Agree (c.load pton (some doc)) (c.load pton (some doc')) ↔
      (parseDoc pton doc).2 = (parseDoc pton doc').2 ∧
      ((parseDoc pton doc).2 = true →
        (c.exec (parseDoc pton doc).1).finish = (c.exec (parseDoc pton doc').1).finish) := by
  unfold Agree
  rw [load_eq, load_eq]
  simp only [parsed, finishIf]
  by_cases hok : (parseDoc pton doc).2 = true <;> by_cases hok' : (parseDoc pton doc').2 = true <;>
    simp [hok, hok']

theorem orderFree_of_rejected (hd : doc.DistinctKeys) (hrej : doc.Rejected) : OrderFree pton doc := by
  intro doc' h c
  rw [agree_load_iff, parseDoc_rejected hd h hrej, parseDoc_rejected hd (.refl doc) hrej]
  exact ⟨rfl, fun hfalse => by cases hfalse⟩

theorem orderFree_of_settled (hd : doc.DistinctKeys) (hset : doc.Settled pton) :
    OrderFree pton doc := by
  intro doc' h c
  rw [agree_load_iff]
  by_cases hmap : ∃ root, doc.getRootNode = some (.mapping root)
  · obtain ⟨root, hroot⟩ := hmap
    obtain ⟨root', hroot', hperm⟩ := h.rootMapping hroot
    have hk := hd.rootKeyed hroot
    have hk' := h.keyed (hk.perm hperm)
    have hsame : ∀ p ∈ root, SameSection (sectionOf pton doc p) (sectionOf pton doc' p) :=
      fun p hp => sectionOf_reordered hd h hset hroot hp
    rw [parseDoc_of_root hroot, parseDoc_of_root hroot']
    have hok : (parseDocPairs pton doc root).2 = (parseDocPairs pton doc' root').2 := by
      rw [Bool.eq_iff_iff, parseDocPairs_accepted hk, parseDocPairs_accepted hk']
      constructor
      · intro hall p hp
        rw [← (hsame p (hperm.mem_iff.mpr hp)).1]
        exact hall p (hperm.mem_iff.mpr hp)
      · intro hall p hp
        rw [(hsame p hp).1]
        exact hall p (hperm.mem_iff.mp hp)
    refine ⟨hok, fun htrue => ?_⟩
    rw [parseDocPairs_assigns hk htrue, parseDocPairs_assigns hk' (hok ▸ htrue),
      exec_flatMap_congr (fun p hp => (hsame p hp).2)]
    refine congrArg finish (exec_flatMap_perm hperm (fun p hp q hq hne a ha b hb x hx hx' => hne ?_) c)
    exact (h.keyed hk).eq_of_key hp hq ((sectionOf_writes (h.keyed hk) hp ha hx).trans
      (sectionOf_writes (h.keyed hk) hq hb hx').symm)
  · have hrej : doc.Rejected := .inl (not_exists.mp hmap)
    rw [parseDoc_rejected hd h hrej, parseDoc_rejected hd (.refl doc) hrej]
    exact ⟨rfl, fun hfalse => by cases hfalse⟩

/-! ### Entries that are missed -/

/-- A configuration with another value of a variable. -/
def put (c : Config) : (x : ConfigVar) → x.Value → Config
  | .str v, s => { c with str := fun w => if w = v then s else c.str w }
  | .int v, n => { c with int := fun w => if w = v then n else c.int w }
  | .auth, auth => { c with auth }

theorem get_put_self (c : Config) (x : ConfigVar) (y : x.Value) : (c.put x y).get x = y := by
  cases x with
  | str v => exact if_pos rfl
  | int v => exact if_pos rfl
  | auth => rfl

theorem get_put_of_ne (c : Config) {x z : ConfigVar} (hne : z ≠ x) (y : x.Value) :
    (c.put x y).get z = c.get z := by
  cases x with
  | str v =>
      cases z with
      | str w => exact if_neg (fun hw => hne (congrArg ConfigVar.str hw))
      | _ => rfl
  | int v =>
      cases z with
      | int w => exact if_neg (fun hw => hne (congrArg ConfigVar.int hw))
      | _ => rfl
  | auth =>
      cases z with
      | auth => exact absurd rfl hne
      | _ => rfl

theorem exists_values_ne (x : ConfigVar) : ∃ y y' : x.Value, y ≠ y' := by
  cases x with
  | str v => exact ⟨lit "a", lit "b", (by decide : lit "a" ≠ lit "b")⟩
  | int v => exact ⟨(0 : BitVec 32), (1 : BitVec 32), (by decide : (0 : BitVec 32) ≠ 1)⟩
  | auth => exact ⟨none, some (lit "a", lit "b"), Option.some_ne_none _ |>.symm⟩

/-- If two orders give the same result in every state, and the second one sets a variable, then the
first one gives the same result whatever the variable was before. -/
theorem finish_put_eq {as bs : List Assign}
    (hsame : ∀ c : Config, (c.exec as).finish = (c.exec bs).finish) {x : ConfigVar}
    (hset : ∃ a ∈ bs, a.Sets x) (y y' : x.Value) :
    ((fresh.put x y).exec as).finish = ((fresh.put x y').exec as).finish := by
  have hhidden : (fresh.put x y).exec bs = (fresh.put x y').exec bs := by
    apply eq_of_get
    intro z
    rw [get_exec_eq_iff]
    obtain rfl | hz := eq_or_ne z x
    · exact .inl hset
    · exact .inr (by rw [get_put_of_ne _ hz, get_put_of_ne _ hz])
  rw [hsame, hsame, hhidden]

section same
variable {as bs : List Assign} (hsame : ∀ c : Config, (c.exec as).finish = (c.exec bs).finish)
include hsame

/-- Then the first one sets the size of the TCP buffer too, because the limit leaves small sizes as
they are. -/
theorem exists_sets_tcp (hset : ∃ a ∈ bs, a.Sets (.int .tcpBufferSize)) :
    ∃ a ∈ as, a.Sets (.int .tcpBufferSize) := by
  by_contra hnone
  have hval : ∀ y : BitVec 32,
      ((fresh.put (.int .tcpBufferSize) y).exec as).finish.int .tcpBufferSize = limitTcp y := by
    intro y
    rw [finish_tcp, exec_int_of_not_sets hnone (by decide)]
    rfl
  have h := congrArg (fun c : Config => c.int .tcpBufferSize)
    (finish_put_eq hsame hset (1 : BitVec 32) (2 : BitVec 32))
  exact absurd ((hval 1).symm.trans (h.trans (hval 2))) (by decide)

/-- The same of the size of the stack, because the limit leaves large sizes as they are.  The buffers
must be those of the start, because the limit depends on them. -/
theorem exists_sets_stack (hset : ∃ a ∈ bs, a.Sets (.int .taskStackSize))
    (hsizes : ∀ a ∈ as, ¬ a.Sets (.int .tcpBufferSize) ∧ ¬ a.Sets (.int .udpCopyBufferNums)) :
    ∃ a ∈ as, a.Sets (.int .taskStackSize) := by
  by_contra hnone
  have hval : ∀ y : BitVec 32,
      ((fresh.put (.int .taskStackSize) y).exec as).finish.int .taskStackSize =
        limitStack y fresh.minStack := by
    intro y
    have hmin : ((fresh.put (.int .taskStackSize) y).exec as).minStack = fresh.minStack := by
      unfold minStack
      rw [exec_int_of_not_sets (fun ⟨a, ha, hs⟩ => (hsizes a ha).1 hs) (by decide),
        exec_int_of_not_sets (fun ⟨a, ha, hs⟩ => (hsizes a ha).2 hs) (by decide)]
      rfl
    rw [finish_stack, hmin, exec_int_of_not_sets hnone (by decide)]
    rfl
  have h := congrArg (fun c : Config => c.int .taskStackSize)
    (finish_put_eq hsame hset (90000 : BitVec 32) (100000 : BitVec 32))
  exact absurd ((hval 90000).symm.trans (h.trans (hval 100000))) (by decide)

/-- The same of every variable: the others have no limit. -/
theorem exists_sets {x : ConfigVar} (hset : ∃ a ∈ bs, a.Sets x)
    (hsizes : x = .int .taskStackSize → ∀ a ∈ as, ¬ a.Sets (.int .tcpBufferSize) ∧
      ¬ a.Sets (.int .udpCopyBufferNums)) : ∃ a ∈ as, a.Sets x := by
  by_cases htcp : x = .int .tcpBufferSize
  · subst htcp
    exact exists_sets_tcp hsame hset
  by_cases hstack : x = .int .taskStackSize
  · subst hstack
    exact exists_sets_stack hsame hset (hsizes rfl)
  · obtain ⟨y, y', hne⟩ := exists_values_ne x
    have h := congrArg (fun c : Config => c.get x) (finish_put_eq hsame hset y y')
    simp only [get_finish _ htcp hstack] at h
    refine ((get_exec_eq_iff as _ _ x).mp h).resolve_right ?_
    rw [get_put_self, get_put_self]
    exact hne

end same

theorem OrderFree.finish_eq (hfree : OrderFree pton doc) {doc₁ doc₂ : YamlDoc}
    (h₁ : doc.Reordered doc₁) (h₂ : doc.Reordered doc₂) (hok : (parseDoc pton doc₁).2 = true)
    (c : Config) :
    (c.exec (parseDoc pton doc₁).1).finish = (c.exec (parseDoc pton doc₂).1).finish := by
  have ha₁ := (agree_load_iff c).mp (hfree doc₁ h₁ c)
  have ha₂ := (agree_load_iff c).mp (hfree doc₂ h₂ c)
  have hok := ha₁.1.trans hok
  exact (ha₁.2 hok).symm.trans (ha₂.2 hok)

/-! ### Documents that are accepted in some order -/

/-- A section other than that of the server is accepted if it is a mapping. -/
theorem sectionOf_isSome (h : doc.Reordered doc') (hrej : ¬ doc.Rejected)
    (hroot : doc.getRootNode = some (.mapping root)) {p : ℕ × ℕ} (hp : p ∈ root) {key : CStr}
    (hkey : doc.scalarAt p.1 = some key) (hne : key ≠ lit "socks5") :
    (sectionOf pton doc' p).isSome := by
  rw [sectionOf_eq ((h.scalarAt p.1).trans hkey)]
  have hmapping : YamlDoc.IsSectionKey key → ∃ qs, doc'.getNode p.2 = some (.mapping qs) := by
    intro hsec
    by_contra hnone
    refine hrej (.inr (.inl ⟨root, p, key, hroot, hp, hkey, hsec, fun ps hnode => hnone ?_⟩))
    obtain ⟨qs, hnode', -⟩ := h.mapping hnode
    exact ⟨qs, hnode'⟩
  unfold parseSection
  split_ifs with htunnel hmapdns hmisc
  · obtain ⟨qs, hnode⟩ := hmapping (.inl htunnel)
    rw [hnode]
    rfl
  · obtain ⟨qs, hnode⟩ := hmapping (.inr (.inr (.inl hmapdns)))
    rw [hnode]
    rfl
  · obtain ⟨qs, hnode⟩ := hmapping (.inr (.inr (.inr hmisc)))
    rw [hnode]
    rfl
  · rfl

/-- Such a document is accepted if its server is. -/
theorem parseDoc_accepted_iff (hd : doc.DistinctKeys) (h : doc.Reordered doc')
    (hrej : ¬ doc.Rejected) (hroot : doc.getRootNode = some (.mapping root)) :
    (parseDoc pton doc').2 = true ↔ ∀ p ∈ root, doc.scalarAt p.1 = some (lit "socks5") →
      (sectionOf pton doc' p).isSome := by
  obtain ⟨root', hroot', hperm⟩ := h.rootMapping hroot
  have hk := hd.rootKeyed hroot
  rw [parseDoc_of_root hroot', parseDocPairs_accepted (h.keyed (hk.perm hperm))]
  constructor
  · exact fun hall p hp _ => hall p (hperm.mem_iff.mp hp)
  · intro hsocks5 p hp
    have hp := hperm.mem_iff.mpr hp
    obtain ⟨key, hkey⟩ := Option.isSome_iff_exists.mp (hk.scalar p hp)
    obtain rfl | hne := eq_or_ne key (lit "socks5")
    · exact hsocks5 p hp hkey
    · exact sectionOf_isSome h hrej hroot hp hkey hne

/-- The assignments of a document that is accepted are those of its sections. -/
theorem mem_parseDoc_iff (hd : doc.DistinctKeys) (h : doc.Reordered doc')
    (hok : (parseDoc pton doc').2 = true) (hroot : doc.getRootNode = some (.mapping root))
    {a : Assign} :
    a ∈ (parseDoc pton doc').1 ↔ ∃ p ∈ root, a ∈ (sectionOf pton doc' p).getD [] := by
  obtain ⟨root', hroot', hperm⟩ := h.rootMapping hroot
  rw [parseDoc_of_root hroot'] at hok ⊢
  rw [parseDocPairs_assigns (h.keyed ((hd.rootKeyed hroot).perm hperm)) hok, List.mem_flatMap]
  simp only [hperm.mem_iff]

section necessary
variable (hfree : OrderFree pton doc) (hd : doc.DistinctKeys) (hrej : ¬ doc.Rejected)
include hfree hd hrej

/-- A section with a value that is not a scalar can be read as one without a server and as one with
a port and an address alone. -/
theorem OrderFree.socks5 {i : ℕ} {ps : List (ℕ × ℕ)} (hat : doc.SectionAt (lit "socks5") i ps) :
    doc.Scalars ps := by
  by_contra hs
  obtain ⟨root, k, hroot, hp, hkey, hnode⟩ := id hat
  have hsec : doc.IsSection i := .inr ⟨root, k, hroot, hp⟩
  have hcomplete : ¬ doc.Incomplete ps := fun hinc => hrej (.inr (.inr ⟨i, ps, hat, hinc⟩))
  unfold YamlDoc.Incomplete at hcomplete
  push Not at hcomplete
  obtain ⟨⟨port, e, he, hekey, hevalue⟩, ⟨addr, f, hf, hfkey, hfvalue⟩, -⟩ := hcomplete
  have hef : e ≠ f := by
    rintro rfl
    rw [hekey, Option.some.injEq] at hfkey
    exact absurd hfkey (by decide)
  obtain ⟨doc₁, qs₁, h₁, hnode₁, hseen₁⟩ := YamlDoc.exists_unseen hsec hnode hs
  obtain ⟨doc₂, qs₂, h₂, hnode₂, hseen₂⟩ := YamlDoc.exists_seen hsec hnode hs (l := [e, f])
    (by simp [hef]) (by simp [he, hf]) (by simp [YamlDoc.Scalars, hevalue, hfvalue])
  have hnone : ¬ (parseDoc pton doc₁).2 = true := by
    rw [parseDoc_accepted_iff hd h₁ hrej hroot]
    intro hall
    have hsome := hall _ hp hkey
    rw [sectionOf_eq ((h₁.scalarAt _).trans hkey), hnode₁] at hsome
    change (parseSocks5 doc₁ (some (.mapping qs₁))).isSome = true at hsome
    rw [parseSocks5_isSome, hseen₁] at hsome
    simp at hsome
  have hsome : (parseDoc pton doc₂).2 = true := by
    rw [parseDoc_accepted_iff hd h₂ hrej hroot]
    intro p hp' hkey'
    obtain rfl := (hd.rootKeyed hroot).eq_of_key hp' hp (hkey'.trans hkey.symm)
    rw [sectionOf_eq ((h₂.scalarAt _).trans hkey), hnode₂]
    show (parseSocks5 doc₂ (some (.mapping qs₂))).isSome = true
    rw [parseSocks5_isSome, hseen₂, YamlDoc.scalarPairs_cons_entry hekey hevalue,
      YamlDoc.scalarPairs_cons_entry hfkey hfvalue]
    refine ⟨⟨port, by simp⟩, ⟨addr, by simp⟩, ?_⟩
    simp [YamlDoc.scalarPairs, show lit "username" ≠ lit "port" by decide,
      show lit "username" ≠ lit "address" by decide, show lit "password" ≠ lit "port" by decide,
      show lit "password" ≠ lit "address" by decide]
  have ha₁ := ((agree_load_iff fresh).mp (hfree doc₁ h₁ fresh)).1
  have ha₂ := ((agree_load_iff fresh).mp (hfree doc₂ h₂ fresh)).1
  exact hnone (ha₁.symm.trans (ha₂.trans hsome))

/-- So the document is accepted in every order. -/
theorem OrderFree.accepted (h : doc.Reordered doc') : (parseDoc pton doc').2 = true := by
  obtain ⟨root, hroot⟩ : ∃ root, doc.getRootNode = some (.mapping root) := by
    by_contra hnone
    exact hrej (.inl (not_exists.mp hnone))
  rw [parseDoc_accepted_iff hd h hrej hroot]
  rintro ⟨k, i⟩ hp hkey
  obtain ⟨ps, hnode⟩ : ∃ ps, doc.getNode i = some (.mapping ps) := by
    by_contra hnone
    exact hrej (.inr (.inl ⟨root, (k, i), _, hroot, hp, hkey, .inr (.inl rfl), not_exists.mp hnone⟩))
  have hat : doc.SectionAt (lit "socks5") i ps := ⟨root, k, hroot, hp, hkey, hnode⟩
  have hscalars := hfree.socks5 hd hrej hat
  have hk : doc.Keyed ps := hd i ps (.inr ⟨root, k, hroot, hp⟩) hnode
  obtain ⟨qs, hnode', hperm⟩ := h.mapping hnode
  rw [sectionOf_eq ((h.scalarAt _).trans hkey), hnode']
  show (parseSocks5 doc' (some (.mapping qs))).isSome = true
  rw [← parseSocks5_reordered h hk hperm hscalars, parseSocks5_isSome]
  simp only [YamlDoc.mem_scalarPairs_iff hk hscalars]
  have hcomplete : ¬ doc.Incomplete ps := fun hinc => hrej (.inr (.inr ⟨i, ps, hat, hinc⟩))
  unfold YamlDoc.Incomplete at hcomplete
  push Not at hcomplete
  exact ⟨hcomplete.1, hcomplete.2.1, hcomplete.2.2 hscalars⟩

/-- A variable that a section sets in one order it sets in every order. -/
theorem OrderFree.sectionOf_sets {doc₁ doc₂ : YamlDoc} (h₁ : doc.Reordered doc₁)
    (h₂ : doc.Reordered doc₂) (hroot : doc.getRootNode = some (.mapping root)) {p : ℕ × ℕ}
    (hp : p ∈ root) {a : Assign} (ha : a ∈ (sectionOf pton doc₂ p).getD []) {x : ConfigVar}
    (hx : a.Sets x)
    (hsizes : x = .int .taskStackSize → ∀ b ∈ (sectionOf pton doc₁ p).getD [],
      ¬ b.Sets (.int .tcpBufferSize) ∧ ¬ b.Sets (.int .udpCopyBufferNums)) :
    ∃ b ∈ (sectionOf pton doc₁ p).getD [], b.Sets x := by
  have hk := hd.rootKeyed hroot
  have hok₁ : (parseDoc pton doc₁).2 = true := hfree.accepted hd hrej h₁
  have hok₂ : (parseDoc pton doc₂).2 = true := hfree.accepted hd hrej h₂
  have hkey : doc.scalarAt p.1 = some x.sectionKey := by
    rw [← h₂.scalarAt]
    exact sectionOf_writes (h₂.keyed hk) hp ha hx.writes
  -- another section has other variables
  have hsame : ∀ b ∈ (parseDoc pton doc₁).1, ∀ y : ConfigVar, y.sectionKey = x.sectionKey →
      b.Sets y → b ∈ (sectionOf pton doc₁ p).getD [] := by
    intro b hb y hy hset
    obtain ⟨q, hq, hb⟩ := (mem_parseDoc_iff hd h₁ hok₁ hroot).mp hb
    have hkey' := sectionOf_writes (h₁.keyed hk) hq hb hset.writes
    rw [h₁.scalarAt, hy, ← hkey] at hkey'
    exact hk.eq_of_key hq hp hkey' ▸ hb
  obtain ⟨b, hb, hset⟩ := exists_sets (hfree.finish_eq h₁ h₂ hok₁)
    ⟨a, (mem_parseDoc_iff hd h₂ hok₂ hroot).mpr ⟨p, hp, ha⟩, hx⟩ (by
      rintro rfl b hb
      constructor
      · intro hset
        exact (hsizes rfl b (hsame b hb (.int .tcpBufferSize) rfl hset)).1 hset
      · intro hset
        exact (hsizes rfl b (hsame b hb (.int .udpCopyBufferNums) rfl hset)).2 hset)
  exact ⟨b, hsame b hb x rfl hset, hset⟩

/-- A section with a value that is not a scalar can be read as an empty one and as one with a single
entry: if the first sets nothing, neither does the second. -/
theorem OrderFree.entry {f : List (CStr × CStr) → List Assign} {key : CStr} {i : ℕ}
    {ps : List (ℕ × ℕ)} (hat : doc.SectionAt key i ps)
    (hparse : ∀ doc' qs, parseSection pton doc' key (some (.mapping qs)) =
      some (f (doc'.scalarPairs qs)))
    (hempty : ∀ a ∈ f [], ∀ x, ¬ a.Sets x) (hs : ¬ doc.Scalars ps) {k value : CStr}
    (hentry : doc.Entry ps k value) : ∀ a ∈ f [(k, value)], ∀ x, ¬ a.Sets x := by
  intro a ha x hx
  obtain ⟨root, j, hroot, hp, hkey, hnode⟩ := hat
  have hsec : doc.IsSection i := .inr ⟨root, j, hroot, hp⟩
  obtain ⟨doc₁, qs₁, h₁, hnode₁, hseen₁⟩ := YamlDoc.exists_unseen hsec hnode hs
  obtain ⟨doc₂, qs₂, h₂, hnode₂, hseen₂⟩ := YamlDoc.exists_seen_entry hsec hnode hs hentry
  have hsec₁ : (sectionOf pton doc₁ (j, i)).getD [] = f [] := by
    rw [sectionOf_eq ((h₁.scalarAt _).trans hkey), hnode₁, hparse, hseen₁]
    rfl
  have hsec₂ : (sectionOf pton doc₂ (j, i)).getD [] = f [(k, value)] := by
    rw [sectionOf_eq ((h₂.scalarAt _).trans hkey), hnode₂, hparse, hseen₂]
    rfl
  obtain ⟨b, hb, hset⟩ := hfree.sectionOf_sets hd hrej h₁ h₂ hroot hp (hsec₂ ▸ ha) hx
    (fun _ b hb => ⟨hempty b (hsec₁ ▸ hb) _, hempty b (hsec₁ ▸ hb) _⟩)
  exact hempty b (hsec₁ ▸ hb) x hset

theorem OrderFree.mapdns {i : ℕ} {ps : List (ℕ × ℕ)} (hat : doc.SectionAt (lit "mapdns") i ps) :
    doc.Scalars ps ∨ ∀ key value, doc.Entry ps key value → mapdnsPair pton key value = [] := by
  refine or_iff_not_imp_left.mpr (fun hs key value hentry => List.eq_nil_iff_forall_not_mem.mpr ?_)
  intro a ha
  obtain ⟨x, hx⟩ := (mapdnsPair_writes a ha).exists_sets
  refine hfree.entry hd hrej (f := fun es => es.flatMap (fun e => mapdnsPair pton e.1 e.2) ++
    [.ntohl]) hat (fun _ _ => rfl) ?_ hs hentry a (by simp [ha]) x hx
  simp [Assign.Sets]

theorem OrderFree.misc {i : ℕ} {ps : List (ℕ × ℕ)} (hat : doc.SectionAt (lit "misc") i ps) :
    doc.Scalars ps ∨ ∀ key value, doc.Entry ps key value → miscEntry key value = [] := by
  refine or_iff_not_imp_left.mpr (fun hs key value hentry => List.eq_nil_iff_forall_not_mem.mpr ?_)
  intro a ha
  obtain ⟨x, hx⟩ := miscEntry_sets ha
  refine hfree.entry hd hrej (f := fun es => es.flatMap (fun e => miscPair e.1 e.2) ++
    (es.foldl MiscTimeouts.pair {}).assigns) hat (fun _ _ => rfl) ?_ hs hentry a ?_ x hx
  · intro b hb
    change b ∈ MiscTimeouts.assigns {} at hb
    rw [MiscTimeouts.assigns_empty] at hb
    exact absurd hb List.not_mem_nil
  · simpa [miscEntry] using ha

/-- The same of the mapping of an address of the tunnel, if it is also a section. -/
theorem OrderFree.tunnel {i : ℕ} {ps : List (ℕ × ℕ)} (hat : doc.SectionAt (lit "tunnel") i ps)
    {p : ℕ × ℕ} (hp : p ∈ ps)
    (hip : doc.scalarAt p.1 = some (lit "ipv4") ∨ doc.scalarAt p.1 = some (lit "ipv6"))
    (hsec : doc.IsSection p.2) {qs : List (ℕ × ℕ)} (hqs : doc.getNode p.2 = some (.mapping qs)) :
    doc.Scalars qs ∨ ∀ value, ¬ doc.Entry qs (lit "address") value := by
  refine or_iff_not_imp_left.mpr (fun hs value hentry => ?_)
  obtain ⟨root, j, hroot, hj, hkey, hnode⟩ := hat
  have hps : doc.Keyed ps := hd i ps (.inr ⟨root, j, hroot, hj⟩) hnode
  obtain ⟨v, size, hkey', hblock⟩ := exists_tunnelAddress hip
  obtain ⟨doc₁, qs₁, h₁, hnode₁, hseen₁⟩ := YamlDoc.exists_unseen hsec hqs hs
  obtain ⟨doc₂, qs₂, h₂, hnode₂, hseen₂⟩ := YamlDoc.exists_seen_entry hsec hqs hs hentry
  have hmem : ∀ {doc'}, doc.Reordered doc' → ∀ a,
      a ∈ (sectionOf pton doc' (j, i)).getD [] ↔ ∃ q ∈ ps, a ∈ tunnelBlock doc' q := by
    intro doc' h a
    obtain ⟨ps', hnode', hperm⟩ := h.mapping hnode
    rw [sectionOf_eq ((h.scalarAt _).trans hkey), hnode']
    show a ∈ parseTunnelPairs doc' ps' ↔ _
    rw [parseTunnelPairs_flatMap (h.keyed (hps.perm hperm)), List.mem_flatMap]
    simp only [hperm.mem_iff]
  obtain ⟨b, hb, hset⟩ := hfree.sectionOf_sets hd hrej h₁ h₂ hroot hj (x := .str v)
    ((hmem h₂ (.str v (strncpy value (size - 1)))).mpr ⟨p, hp, by
      rw [hblock doc₂ (h₂.scalarAt _) hnode₂, hseen₂]
      simp⟩) rfl (fun hx => by cases hx)
  obtain ⟨q, hq, hb⟩ := (hmem h₁ b).mp hb
  -- the variable is that of the same key
  have hqkey := (tunnelBlock_writes hb hset.writes).2
  rw [h₁.scalarAt] at hqkey
  obtain rfl := hps.eq_of_key hq hp (hqkey.trans hkey'.symm)
  rw [hblock doc₁ (h₁.scalarAt _) hnode₁, hseen₁] at hb
  simp at hb

end necessary

/-- The order of the keys does not matter exactly if the document is rejected in every order, or if
no loop that ends at a value that is not a scalar can miss an entry. -/
theorem orderFree_iff (pton : CStr → Option (Vector Byte 4)) (doc : YamlDoc)
    (hd : doc.DistinctKeys) : OrderFree pton doc ↔ doc.Rejected ∨ doc.Settled pton := by
  constructor
  · intro hfree
    refine or_iff_not_imp_left.mpr (fun hrej => ⟨?_, ?_, ?_, ?_⟩)
    · exact fun i ps hat => hfree.socks5 hd hrej hat
    · exact fun i ps hat => hfree.mapdns hd hrej hat
    · exact fun i ps hat => hfree.misc hd hrej hat
    · exact fun i ps hat p hp hip hsec qs hqs => hfree.tunnel hd hrej hat hp hip hsec hqs
  · rintro (hrej | hset)
    · exact orderFree_of_rejected hd hrej
    · exact orderFree_of_settled hd hset

/-- A document with the section `misc`, of which the pairs `(4, 5)` and `(6, 7)` have scalars and
`(8, 9)` has a sequence. -/
def limitsDoc (ps : List (ℕ × ℕ)) : YamlDoc where
  nodes := [.mapping [(2, 3)], .scalar (lit "misc"), .mapping ps, .scalar (lit "tcp-buffer-size"),
    .scalar (lit "4096"), .scalar (lit "log-level"), .scalar (lit "debug"), .scalar (lit "limits"),
    .sequence]

theorem limitsDoc_isSection {ps : List (ℕ × ℕ)} {i : ℕ} (h : (limitsDoc ps).IsSection i) :
    i = 1 ∨ i = 3 := by
  obtain h | ⟨root, k, hroot, hmem⟩ := h
  · exact .inl h
  · obtain rfl : [(2, 3)] = root := YamlNode.mapping.inj (Option.some.inj hroot)
    right
    exact (Prod.mk.inj (List.mem_singleton.mp hmem)).2

theorem limitsDoc_distinctKeys {ps : List (ℕ × ℕ)} (h : (limitsDoc ps).Keyed ps) :
    (limitsDoc ps).DistinctKeys := by
  intro i qs hsec hnode
  obtain rfl | rfl := limitsDoc_isSection hsec
  · obtain rfl : [(2, 3)] = qs := YamlNode.mapping.inj (Option.some.inj hnode)
    exact ⟨by simp [limitsDoc, YamlDoc.scalarAt, YamlDoc.getNode], by simp,
      by simp [limitsDoc, YamlDoc.getNode]⟩
  · obtain rfl : ps = qs := YamlNode.mapping.inj (Option.some.inj hnode)
    exact h

theorem limitsDoc_sectionAt {ps qs : List (ℕ × ℕ)} {key : CStr} {i : ℕ}
    (h : (limitsDoc ps).SectionAt key i qs) : key = lit "misc" ∧ qs = ps := by
  obtain ⟨root, k, hroot, hmem, hkey, hnode⟩ := h
  obtain rfl : [(2, 3)] = root := YamlNode.mapping.inj (Option.some.inj hroot)
  obtain ⟨rfl, rfl⟩ := Prod.mk.inj (List.mem_singleton.mp hmem)
  exact ⟨(Option.some.inj hkey).symm, (YamlNode.mapping.inj (Option.some.inj hnode)).symm⟩

theorem orderFree_scalars :
    (limitsDoc [(4, 5), (6, 7)]).DistinctKeys ∧
      OrderFree (fun _ => none) (limitsDoc [(4, 5), (6, 7)]) :=
  have hd : (limitsDoc [(4, 5), (6, 7)]).DistinctKeys :=
    limitsDoc_distinctKeys ⟨by decide, by decide, by decide⟩
  ⟨hd, (orderFree_iff _ _ hd).mpr (.inr {
    socks5 := fun _ _ h => absurd (limitsDoc_sectionAt h).1 (by decide)
    mapdns := fun _ _ h => absurd (limitsDoc_sectionAt h).1 (by decide)
    misc := fun _ _ h => by
      rw [(limitsDoc_sectionAt h).2]
      exact .inl (by unfold YamlDoc.Scalars; decide)
    tunnel := fun _ _ h => absurd (limitsDoc_sectionAt h).1 (by decide) })⟩

/-- Both orders are accepted, but behind the sequence the size of the TCP buffer is ignored. -/
theorem size_behind_sequence :
    (limitsDoc [(4, 5), (8, 9)]).DistinctKeys ∧
    (limitsDoc [(4, 5), (8, 9)]).Reordered (limitsDoc [(8, 9), (4, 5)]) ∧
    (fresh.load (fun _ => none) (some (limitsDoc [(4, 5), (8, 9)]))).1 = 0 ∧
    (fresh.load (fun _ => none) (some (limitsDoc [(8, 9), (4, 5)]))).1 = 0 ∧
    (fresh.load (fun _ => none) (some (limitsDoc [(4, 5), (8, 9)]))).2.int .tcpBufferSize = 4096 ∧
    (fresh.load (fun _ => none) (some (limitsDoc [(8, 9), (4, 5)]))).2.int .tcpBufferSize = 65528 ∧
    ¬ OrderFree (fun _ => none) (limitsDoc [(4, 5), (8, 9)]) := by
  have hre : (limitsDoc [(4, 5), (8, 9)]).Reordered (limitsDoc [(8, 9), (4, 5)]) :=
    YamlDoc.reordered_reorder (.inr ⟨_, 2, rfl, by simp⟩) (i := 3) rfl (List.Perm.swap _ _ _)
  refine ⟨limitsDoc_distinctKeys ⟨by decide, by decide, by decide⟩, hre, by decide +kernel,
    by decide +kernel, by decide +kernel, by decide +kernel, fun hfree => ?_⟩
  have hsame := (hfree _ hre fresh).2 (by decide +kernel)
  have hsize := congrArg (fun c : Config => c.int .tcpBufferSize) hsame
  exact absurd hsize (by decide +kernel)

end Config

end HevTunnel
