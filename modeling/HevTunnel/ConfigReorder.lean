import HevTunnel.ConfigEntries
import HevTunnel.YamlReorder

/-! # Sections in another order

What the parsers of `hev-config.c` make of a section when its pairs, and those of the other sections,
stand in another order.

* The entries of a section with scalar values are read in any order with the same result: those of
  `mapdns` and `misc` assign different variables, and the values that `hev_config_parse_socks5` and
  `hev_config_parse_misc` collect are those of different keys (`FieldOf.comm`).
* The section `tunnel` and the root mapping are read to their end, whatever their values are
  (`parseTunnelPairs_flatMap`, `parseDocPairs_assigns`). -/

namespace HevTunnel

/-! ### Values that a loop collects -/

/-- Entries with different keys can be collected in any order. -/
theorem foldl_entries_perm {σ : Type*} {step : σ → CStr × CStr → σ}
    (hcomm : ∀ e e' : CStr × CStr, e.1 ≠ e'.1 → ∀ s, step (step s e) e' = step (step s e') e)
    {es es' : List (CStr × CStr)} (hperm : es.Perm es') (hkeys : (es.map Prod.fst).Nodup) (s : σ) :
    es.foldl step s = es'.foldl step s := by
  apply hperm.foldl_eq'
  intro e he e' he' s
  by_cases hkey : e.1 = e'.1
  · rw [List.inj_on_of_nodup_map hkeys he he' hkey]
  · exact hcomm e e' hkey s

namespace Socks5Values

theorem pair_comm (e e' : CStr × CStr) (hne : e.1 ≠ e'.1) (v : Socks5Values) :
    (v.pair e).pair e' = (v.pair e').pair e := by
  have haddr := fieldOf_addr.comm hne v
  have hport := fieldOf_port.comm hne v
  have hudpm := fieldOf_udpm.comm hne v
  have hudpa := fieldOf_udpa.comm hne v
  have huser := fieldOf_user.comm hne v
  have hpass := fieldOf_pass.comm hne v
  have hmark := fieldOf_mark.comm hne v
  have hpipe := fieldOf_pipe.comm hne v
  generalize (v.pair e).pair e' = w at *
  generalize (v.pair e').pair e = w' at *
  obtain ⟨⟩ := w
  obtain ⟨⟩ := w'
  simp_all

end Socks5Values

namespace MiscTimeouts

theorem pair_comm (e e' : CStr × CStr) (hne : e.1 ≠ e'.1) (t : MiscTimeouts) :
    (t.pair e).pair e' = (t.pair e').pair e := by
  have hrw := fieldOf_rw.comm hne t
  have htcp := fieldOf_tcp.comm hne t
  have hudp := fieldOf_udp.comm hne t
  generalize (t.pair e).pair e' = u at *
  generalize (t.pair e').pair e = u' at *
  obtain ⟨⟩ := u
  obtain ⟨⟩ := u'
  simp_all

end MiscTimeouts

/-! ### A section in another order -/

/-- The parsers reject both sections, or make the same of them. -/
def SameSection (r r' : Option (List Assign)) : Prop :=
  r.isSome = r'.isSome ∧ ∀ c : Config, c.exec (r.getD []) = c.exec (r'.getD [])

theorem sameSection_some {as bs : List Assign} (h : ∀ c : Config, c.exec as = c.exec bs) :
    SameSection (some as) (some bs) := ⟨rfl, h⟩

/-- What an entry of the section `misc` assigns if it is the only one. -/
def miscEntry (key value : CStr) : List Assign :=
  miscPair key value ++ (MiscTimeouts.pair {} (key, value)).assigns

/-- No timeout is set if none of them is positive. -/
theorem MiscTimeouts.assigns_eq_nil_iff (t : MiscTimeouts) :
    t.assigns = [] ↔ t.rw.toInt ≤ 0 ∧ t.tcp.toInt ≤ 0 ∧ t.udp.toInt ≤ 0 := by
  unfold assigns
  by_cases htcp : t.tcp.toInt ≤ 0 <;> by_cases hudp : t.udp.toInt ≤ 0 <;>
    by_cases hrw : t.rw.toInt ≤ 0 <;> simp [htcp, hudp, hrw]

theorem MiscTimeouts.assigns_empty : MiscTimeouts.assigns {} = [] :=
  (assigns_eq_nil_iff _).mpr (by decide)

/-- Entries that set no timeout on their own set none together. -/
theorem MiscTimeouts.foldl_assigns_eq_nil {es : List (CStr × CStr)}
    (h : ∀ e ∈ es, (MiscTimeouts.pair {} e).assigns = []) {t : MiscTimeouts} (ht : t.assigns = []) :
    (es.foldl pair t).assigns = [] := by
  induction es generalizing t with
  | nil => exact ht
  | cons e es ih =>
      refine ih (fun e' he' => h e' (List.mem_cons_of_mem _ he')) ?_
      have he := h e (by simp)
      rw [assigns_eq_nil_iff, fieldOf_rw, fieldOf_tcp, fieldOf_udp] at he ⊢
      rw [assigns_eq_nil_iff] at ht
      refine ⟨?_, ?_, ?_⟩
      · split_ifs with hkey
        · exact (if_pos hkey ▸ he.1 : _)
        · exact ht.1
      · split_ifs with hkey
        · exact (if_pos hkey ▸ he.2.1 : _)
        · exact ht.2.1
      · split_ifs with hkey
        · exact (if_pos hkey ▸ he.2.2 : _)
        · exact ht.2.2

section sections
variable {pton : CStr → Option (Vector Byte 4)} {doc doc' : YamlDoc} {ps qs : List (ℕ × ℕ)}

/-- A loop over the entries that assigns different variables for different keys. -/
theorem exec_entries {f : CStr → CStr → List Assign} (hk : doc.Keyed ps) (hperm : ps.Perm qs)
    (hf : ∀ k v k' v', k ≠ k' → ∀ a ∈ f k v, ∀ b ∈ f k' v', ∀ x, a.Writes x → ¬ b.Writes x)
    (hs : doc.Scalars ps ∨ ∀ key value, doc.Entry ps key value → f key value = []) (c : Config) :
    c.exec ((doc.scalarPairs ps).flatMap (fun e => f e.1 e.2)) =
      c.exec ((doc.scalarPairs qs).flatMap (fun e => f e.1 e.2)) := by
  obtain hs | hidle := hs
  · refine Config.exec_flatMap_perm (YamlDoc.scalarPairs_perm hk hs hperm) ?_ c
    intro e he e' he' hne
    exact hf _ _ _ _ (fun hkey => hne (YamlDoc.scalarPairs_eq_of_key hk he he' hkey))
  · have hnil : ∀ rs, ps.Perm rs → (doc.scalarPairs rs).flatMap (fun e => f e.1 e.2) = [] := by
      intro rs hrs
      refine List.flatMap_eq_nil_iff.mpr (fun e he => hidle _ _ ?_)
      exact (YamlDoc.entry_of_mem_scalarPairs he).perm hrs.symm
    rw [hnil ps (List.Perm.refl ps), hnil qs hperm]

theorem disjoint_of_entryAssign {f : CStr → CStr → List Assign} {sec : CStr}
    (hf : ∀ k v, ∀ a ∈ f k v, EntryAssign sec k a) (k v k' v' : CStr) (hne : k ≠ k') :
    ∀ a ∈ f k v, ∀ b ∈ f k' v', ∀ x, a.Writes x → ¬ b.Writes x := by
  intro a ha b hb x hx hx'
  exact hne ((hf k v a ha x hx).2.symm.trans (hf k' v' b hb x hx').2)

variable (h : doc.Reordered doc') (hk : doc.Keyed ps) (hperm : ps.Perm qs)
include h hk hperm

theorem parseSocks5_reordered (hs : doc.Scalars ps) :
    parseSocks5 doc (some (.mapping ps)) = parseSocks5 doc' (some (.mapping qs)) := by
  have hfold := foldl_entries_perm Socks5Values.pair_comm (YamlDoc.scalarPairs_perm hk hs hperm)
    (YamlDoc.nodup_scalarPairs hk) {}
  unfold parseSocks5 YamlDoc.sectionPairs
  simp only [YamlDoc.scalarPairs_congr h.scalarAt, Option.bind_eq_bind, Option.bind_some, hfold]

theorem parseMapdns_reordered
    (hs : doc.Scalars ps ∨ ∀ key value, doc.Entry ps key value → mapdnsPair pton key value = []) :
    SameSection (parseMapdns pton doc (some (.mapping ps)))
      (parseMapdns pton doc' (some (.mapping qs))) := by
  refine sameSection_some fun c => ?_
  show c.exec ((doc.scalarPairs ps).flatMap _ ++ _) = c.exec ((doc'.scalarPairs qs).flatMap _ ++ _)
  rw [Config.exec_append, Config.exec_append, YamlDoc.scalarPairs_congr h.scalarAt]
  exact congrArg (Config.exec _) (exec_entries (f := mapdnsPair pton) hk hperm
    (disjoint_of_entryAssign (fun _ _ => mapdnsPair_writes)) hs c)

theorem parseMisc_reordered
    (hs : doc.Scalars ps ∨ ∀ key value, doc.Entry ps key value → miscEntry key value = []) :
    SameSection (parseMisc doc (some (.mapping ps))) (parseMisc doc' (some (.mapping qs))) := by
  have htimeouts : ((doc.scalarPairs ps).foldl MiscTimeouts.pair {}).assigns =
      ((doc.scalarPairs qs).foldl MiscTimeouts.pair {}).assigns := by
    obtain hs | hidle := hs
    · rw [foldl_entries_perm MiscTimeouts.pair_comm (YamlDoc.scalarPairs_perm hk hs hperm)
        (YamlDoc.nodup_scalarPairs hk)]
    · have hnil : ∀ rs, ps.Perm rs → ((doc.scalarPairs rs).foldl MiscTimeouts.pair {}).assigns = [] := by
        intro rs hrs
        refine MiscTimeouts.foldl_assigns_eq_nil (fun e he => ?_)
          MiscTimeouts.assigns_empty
        have hentry := (YamlDoc.entry_of_mem_scalarPairs he).perm hrs.symm
        exact (List.append_eq_nil_iff.mp (hidle _ _ hentry)).2
      rw [hnil ps (List.Perm.refl ps), hnil qs hperm]
  refine sameSection_some fun c => ?_
  show c.exec ((doc.scalarPairs ps).flatMap _ ++ _) = c.exec ((doc'.scalarPairs qs).flatMap _ ++ _)
  rw [Config.exec_append, Config.exec_append, YamlDoc.scalarPairs_congr h.scalarAt, ← htimeouts]
  have hidle : (∀ key value, doc.Entry ps key value → miscEntry key value = []) →
      ∀ key value, doc.Entry ps key value → miscPair key value = [] :=
    fun hidle key value hentry => (List.append_eq_nil_iff.mp (hidle key value hentry)).1
  exact congrArg (Config.exec _) (exec_entries (f := miscPair) hk hperm
    (disjoint_of_entryAssign (fun _ _ => miscPair_writes)) (hs.imp_right hidle) c)

/-- The loop of `hev_config_parse_tunnel_ipv4` and `hev_config_parse_tunnel_ipv6`. -/
theorem parseTunnelAddress_reordered (v : StrVar) (size : ℕ)
    (hs : doc.Scalars ps ∨ ∀ value, ¬ doc.Entry ps (lit "address") value) (c : Config) :
    c.exec ((parseTunnelAddress doc v size (some (.mapping ps))).getD []) =
      c.exec ((parseTunnelAddress doc' v size (some (.mapping qs))).getD []) := by
  show c.exec ((doc.scalarPairs ps).flatMap _) = c.exec ((doc'.scalarPairs qs).flatMap _)
  rw [YamlDoc.scalarPairs_congr h.scalarAt]
  refine exec_entries (f := fun key value =>
    if key = lit "address" then [.str v (strncpy value (size - 1))] else []) hk hperm ?_
    (hs.imp_right ?_) c
  · -- of two different keys one is not the address
    intro k value k' value' hne a ha b hb
    split_ifs at ha with hkey
    · rw [if_neg (fun hkey' => hne (hkey.trans hkey'.symm))] at hb
      simp at hb
    · simp at ha
  · intro hnone key value hentry
    exact if_neg (fun hkey : key = lit "address" => hnone value (hkey ▸ hentry))

omit h hperm in
/-- The section `tunnel` is read to its end. -/
theorem parseTunnelPairs_flatMap : parseTunnelPairs doc ps = ps.flatMap (tunnelBlock doc) := by
  have hscalar := hk.scalar
  have hvalue := hk.value
  clear hk
  induction ps with
  | nil => rfl
  | cons p ps ih =>
      rw [parseTunnelPairs_cons, if_pos ⟨hscalar p (by simp), hvalue p (by simp)⟩, List.flatMap_cons,
        ih (fun q hq => hscalar q (List.mem_cons_of_mem _ hq))
          (fun q hq => hvalue q (List.mem_cons_of_mem _ hq))]

omit hk hperm in
/-- The assignments for one pair, where the mapping of an address is not a section or has an order
that does not matter. -/
theorem tunnelBlock_reordered (hd : doc.DistinctKeys) {p : ℕ × ℕ}
    (hs : doc.scalarAt p.1 = some (lit "ipv4") ∨ doc.scalarAt p.1 = some (lit "ipv6") →
      doc.IsSection p.2 → ∀ qs, doc.getNode p.2 = some (.mapping qs) →
        doc.Scalars qs ∨ ∀ value, ¬ doc.Entry qs (lit "address") value) (c : Config) :
    c.exec (tunnelBlock doc p) = c.exec (tunnelBlock doc' p) := by
  unfold tunnelBlock
  rw [h.scalarAt]
  cases hkey : doc.scalarAt p.1 with
  | none => rfl
  | some key =>
      have hrel := h.getNode p.2
      generalize hnode : doc.getNode p.2 = node at hrel ⊢
      generalize hnode' : doc'.getNode p.2 = node' at hrel ⊢
      cases hrel with
      | none => rfl
      | some hrel =>
          cases hrel with
          | scalar value => rfl
          | sequence => rfl
          | @mapping ps qs hperm =>
              have haddress : ∀ v size, key = lit "ipv4" ∨ key = lit "ipv6" →
                  c.exec ((parseTunnelAddress doc v size (some (.mapping ps))).getD []) =
                    c.exec ((parseTunnelAddress doc' v size (some (.mapping qs))).getD []) := by
                intro v size hip
                by_cases hsec : doc.IsSection p.2
                · refine parseTunnelAddress_reordered h (hd p.2 ps hsec hnode) hperm v size ?_ c
                  exact hs (by rwa [hkey, Option.some.injEq, Option.some.injEq]) hsec ps hnode
                · have hsame := h.others p.2 hsec
                  rw [hnode, hnode', Option.some.injEq, YamlNode.mapping.injEq] at hsame
                  rw [hsame]
                  show c.exec ((doc.scalarPairs ps).flatMap _) = c.exec ((doc'.scalarPairs ps).flatMap _)
                  rw [YamlDoc.scalarPairs_congr h.scalarAt]
              show c.exec (tunnelNode doc key (.mapping ps)) = c.exec (tunnelNode doc' key (.mapping qs))
              unfold tunnelNode parseTunnelIpv4 parseTunnelIpv6
              split_ifs with h4 h6
              · exact haddress _ _ (.inl h4)
              · exact haddress _ _ (.inr h6)
              · rfl

theorem parseTunnel_reordered (hd : doc.DistinctKeys)
    (hs : ∀ p ∈ ps, doc.scalarAt p.1 = some (lit "ipv4") ∨ doc.scalarAt p.1 = some (lit "ipv6") →
      doc.IsSection p.2 → ∀ qs, doc.getNode p.2 = some (.mapping qs) →
        doc.Scalars qs ∨ ∀ value, ¬ doc.Entry qs (lit "address") value) :
    SameSection (parseTunnel doc (some (.mapping ps))) (parseTunnel doc' (some (.mapping qs))) := by
  refine sameSection_some fun c => ?_
  rw [parseTunnelPairs_flatMap hk, parseTunnelPairs_flatMap (h.keyed (hk.perm hperm)),
    Config.exec_flatMap_congr (fun p hp => tunnelBlock_reordered h hd (hs p hp))]
  refine Config.exec_flatMap_perm hperm (fun p hp q hq hne a ha b hb x hx hx' => hne ?_) c
  exact (h.keyed hk).eq_of_key hp hq
    ((tunnelBlock_writes ha hx).2.trans (tunnelBlock_writes hb hx').2.symm)

end sections

/-! ### The root mapping -/

section document
variable (pton : CStr → Option (Vector Byte 4)) {doc doc' : YamlDoc} {root : List (ℕ × ℕ)}

/-- The assignments for one pair of the root mapping. -/
def sectionOf (doc : YamlDoc) (p : ℕ × ℕ) : Option (List Assign) :=
  parseSection pton doc ((doc.scalarAt p.1).getD (lit "")) (doc.getNode p.2)

variable {pton}

theorem sectionOf_eq {p : ℕ × ℕ} {key : CStr} (hkey : doc.scalarAt p.1 = some key) :
    sectionOf pton doc p = parseSection pton doc key (doc.getNode p.2) := by
  rw [sectionOf, hkey, Option.getD_some]

theorem parseDocPairs_cons (p : ℕ × ℕ) (ps : List (ℕ × ℕ)) (hk : (doc.scalarAt p.1).isSome)
    (hv : (doc.getNode p.2).isSome) :
    parseDocPairs pton doc (p :: ps) = (sectionOf pton doc p).elim ([], false)
      (fun as => (as ++ (parseDocPairs pton doc ps).1, (parseDocPairs pton doc ps).2)) := by
  obtain ⟨k, v⟩ := p
  obtain ⟨key, hkey⟩ := Option.isSome_iff_exists.mp hk
  have hne : v ≠ 0 := by
    rintro rfl
    simp [YamlDoc.getNode] at hv
  rw [sectionOf_eq hkey, parseDocPairs]
  cases hs : parseSection pton doc key (doc.getNode v) <;> simp [hkey, hne, hs]

/-- A root mapping is read to its end: it is accepted if all of its sections are. -/
theorem parseDocPairs_accepted (hk : doc.Keyed root) :
    (parseDocPairs pton doc root).2 = true ↔ ∀ p ∈ root, (sectionOf pton doc p).isSome := by
  have hscalar := hk.scalar
  have hvalue := hk.value
  clear hk
  induction root with
  | nil => simp [parseDocPairs]
  | cons p ps ih =>
      have ih := ih (fun q hq => hscalar q (List.mem_cons_of_mem _ hq))
        (fun q hq => hvalue q (List.mem_cons_of_mem _ hq))
      rw [parseDocPairs_cons p ps (hscalar p (by simp)) (hvalue p (by simp)), List.forall_mem_cons]
      cases sectionOf pton doc p with
      | none => simp
      | some as => simp [ih]

theorem parseDocPairs_assigns (hk : doc.Keyed root)
    (hok : (parseDocPairs pton doc root).2 = true) :
    (parseDocPairs pton doc root).1 = root.flatMap (fun p => (sectionOf pton doc p).getD []) := by
  have hscalar := hk.scalar
  have hvalue := hk.value
  clear hk
  induction root with
  | nil => rfl
  | cons p ps ih =>
      rw [parseDocPairs_cons p ps (hscalar p (by simp)) (hvalue p (by simp))] at hok ⊢
      rw [List.flatMap_cons]
      cases hs : sectionOf pton doc p with
      | none =>
          rw [hs] at hok
          cases hok
      | some as =>
          rw [hs] at hok
          exact congrArg (as ++ ·) (ih hok (fun q hq => hscalar q (List.mem_cons_of_mem _ hq))
            (fun q hq => hvalue q (List.mem_cons_of_mem _ hq)))

theorem sectionOf_writes (hk : doc.Keyed root) {p : ℕ × ℕ} (hp : p ∈ root) {a : Assign}
    (ha : a ∈ (sectionOf pton doc p).getD []) {x : ConfigVar} (hx : a.Writes x) :
    doc.scalarAt p.1 = some x.sectionKey := by
  obtain ⟨key, hkey⟩ := Option.isSome_iff_exists.mp (hk.scalar p hp)
  rw [sectionOf_eq hkey] at ha
  cases hs : parseSection pton doc key (doc.getNode p.2) with
  | none => simp [hs] at ha
  | some as =>
      rw [hs, Option.getD_some] at ha
      rw [hkey, parseSection_writes hs ha hx]

/-- A section that is not a mapping is rejected. -/
theorem parse_not_mapping (pton : CStr → Option (Vector Byte 4)) (doc : YamlDoc)
    {node : Option YamlNode} (h : ∀ ps, node ≠ some (.mapping ps)) :
    parseTunnel doc node = none ∧ parseSocks5 doc node = none ∧ parseMapdns pton doc node = none ∧
      parseMisc doc node = none := by
  rcases node with _ | _ | _ | ps
  · exact ⟨rfl, rfl, rfl, rfl⟩
  · exact ⟨rfl, rfl, rfl, rfl⟩
  · exact ⟨rfl, rfl, rfl, rfl⟩
  · exact absurd rfl (h ps)

/-- When a SOCKS5 section is accepted. -/
theorem parseSocks5_isSome (ps : List (ℕ × ℕ)) :
    (parseSocks5 doc (some (.mapping ps))).isSome ↔
      (∃ value, (lit "port", value) ∈ doc.scalarPairs ps) ∧
      (∃ value, (lit "address", value) ∈ doc.scalarPairs ps) ∧
      ((∃ value, (lit "username", value) ∈ doc.scalarPairs ps) ↔
        ∃ value, (lit "password", value) ∈ doc.scalarPairs ps) := by
  rw [← isSome_lastValue, ← isSome_lastValue, ← isSome_lastValue, ← isSome_lastValue,
    Config.parseSocks5_eq]
  simp only [YamlDoc.sectionPairs, Option.bind_some]
  cases lastValue (lit "port") (doc.scalarPairs ps) with
  | none => simp
  | some port =>
      cases lastValue (lit "address") (doc.scalarPairs ps) with
      | none => simp
      | some addr =>
          cases lastValue (lit "username") (doc.scalarPairs ps) <;>
            cases lastValue (lit "password") (doc.scalarPairs ps) <;> simp

end document

end HevTunnel
