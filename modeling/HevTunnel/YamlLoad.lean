import HevTunnel.ConfigEntries
import HevTunnel.YamlText

/-! # Loading a configuration from its text

What libyaml makes of the texts of `Yaml.read`, and what `hev_config_parse_doc` makes of the document that
it returns.

`Conforms` says this of a parser that gets the bytes of a file, in UTF-8.  It says nothing about texts
of another form, and nothing about texts that do not fit into the raw buffer of libyaml, which decodes
its buffer as a whole.  `loadText` is such a parser, which refuses all texts of another form.

The sections of a document that represents a text are those of the text
(`YamlDoc.Represents.sections_eq`), so the configuration depends on them alone. -/

namespace HevTunnel

/-- The bytes of a text in UTF-8. -/
def utf8 (s : List Char) : List Byte := s.flatMap String.utf8EncodeChar

/-- The C string with this text. -/
def cText (s : List Char) : CStr := cstrOf (utf8 s)

/-- A section of a configuration: its name, and its keys and values. -/
abbrev Section := List Char × List (List Char × List Char)

namespace YamlDoc

/-- The nodes of a pair of scalars. -/
def HasEntry (doc : YamlDoc) (pair : ℕ × ℕ) (entry : List Char × List Char) : Prop :=
  doc.scalarAt pair.1 = some (cText entry.1) ∧ doc.scalarAt pair.2 = some (cText entry.2)

/-- The nodes of a section. -/
def HasSection (doc : YamlDoc) (pair : ℕ × ℕ) (sec : Section) : Prop :=
  doc.scalarAt pair.1 = some (cText sec.1) ∧
    ∃ pairs, doc.getNode pair.2 = some (.mapping pairs) ∧ List.Forall₂ doc.HasEntry pairs sec.2

/-- The document is the mapping of these sections. -/
def Represents (doc : YamlDoc) (secs : List Section) : Prop :=
  ∃ pairs, doc.getRootNode = some (.mapping pairs) ∧ List.Forall₂ doc.HasSection pairs secs

end YamlDoc

/-- `INPUT_RAW_BUFFER_SIZE` of libyaml. -/
def rawBufferSize : ℕ := 16384

/-- What libyaml does with the texts of `Yaml.read`. -/
structure Conforms (load : ByteArray → Option YamlDoc) : Prop where
  refuses : ∀ text : List Char, text.utf8Encode.size ≤ rawBufferSize →
    Yaml.read text = .error .refused → load text.utf8Encode = none
  accepts : ∀ (text : List Char) es secs, text.utf8Encode.size ≤ rawBufferSize →
    Yaml.read text = .ok es → Yaml.sections es = some secs →
    ∃ doc, load text.utf8Encode = some doc ∧ doc.Represents secs

/-! ### A parser -/

/-- The pairs of a mapping of scalars whose nodes start at an index. -/
def entryPairs (i : ℕ) : List (List Char × List Char) → List (ℕ × ℕ)
  | [] => []
  | _ :: es => (i, i + 1) :: entryPairs (i + 2) es

def entryNodes : List (List Char × List Char) → List YamlNode
  | [] => []
  | e :: es => .scalar (cText e.1) :: .scalar (cText e.2) :: entryNodes es

def sectionPairs (i : ℕ) : List Section → List (ℕ × ℕ)
  | [] => []
  | sec :: secs => (i, i + 1) :: sectionPairs (i + 2 + (entryNodes sec.2).length) secs

def sectionNodes (i : ℕ) : List Section → List YamlNode
  | [] => []
  | sec :: secs =>
      .scalar (cText sec.1) :: .mapping (entryPairs (i + 2) sec.2) ::
        (entryNodes sec.2 ++ sectionNodes (i + 2 + (entryNodes sec.2).length) secs)

def buildDoc (secs : List Section) : YamlDoc :=
  ⟨.mapping (sectionPairs 2 secs) :: sectionNodes 2 secs⟩

/-- A parser for the texts of `Yaml.read`. -/
def loadText (bytes : ByteArray) : Option YamlDoc := do
  let text ← bytes.utf8Decode?
  let es ← (Yaml.read text.toList).toOption
  let secs ← Yaml.sections es
  pure (buildDoc secs)

theorem getNode_of_nodes {doc : YamlDoc} {pre post : List YamlNode} {node : YamlNode}
    (h : doc.nodes = pre ++ node :: post) : doc.getNode (pre.length + 1) = some node := by
  simp [YamlDoc.getNode, h]

theorem scalarAt_of_nodes {doc : YamlDoc} {pre post : List YamlNode} {s : CStr}
    (h : doc.nodes = pre ++ .scalar s :: post) : doc.scalarAt (pre.length + 1) = some s := by
  rw [YamlDoc.scalarAt, getNode_of_nodes h]

theorem hasEntry_entryPairs {doc : YamlDoc} {pre post : List YamlNode}
    {es : List (List Char × List Char)} (h : doc.nodes = pre ++ (entryNodes es ++ post)) :
    List.Forall₂ doc.HasEntry (entryPairs (pre.length + 1) es) es := by
  induction es generalizing pre with
  | nil => exact .nil
  | cons e es ih =>
      have hvalue : doc.nodes = (pre ++ [.scalar (cText e.1)]) ++
          .scalar (cText e.2) :: (entryNodes es ++ post) := by simp [h, entryNodes]
      have hrest : doc.nodes = (pre ++ [.scalar (cText e.1), .scalar (cText e.2)]) ++
          (entryNodes es ++ post) := by simp [h, entryNodes]
      refine .cons ⟨scalarAt_of_nodes h, ?_⟩ ?_
      · simpa using scalarAt_of_nodes hvalue
      · simpa using ih hrest

theorem hasSection_sectionPairs {doc : YamlDoc} {pre : List YamlNode} {secs : List Section}
    (h : doc.nodes = pre ++ sectionNodes (pre.length + 1) secs) :
    List.Forall₂ doc.HasSection (sectionPairs (pre.length + 1) secs) secs := by
  induction secs generalizing pre with
  | nil => exact .nil
  | cons sec secs ih =>
      obtain ⟨pairs, hpairs⟩ : ∃ pairs, entryPairs (pre.length + 1 + 2) sec.2 = pairs := ⟨_, rfl⟩
      have hnode : doc.nodes = (pre ++ [.scalar (cText sec.1)]) ++ .mapping pairs :: (entryNodes sec.2 ++
          sectionNodes (pre.length + 1 + 2 + (entryNodes sec.2).length) secs) := by
        simp [h, sectionNodes, hpairs]
      have hentries : doc.nodes = (pre ++ [.scalar (cText sec.1), .mapping pairs]) ++
          (entryNodes sec.2 ++ sectionNodes (pre.length + 1 + 2 + (entryNodes sec.2).length) secs) := by
        simp [h, sectionNodes, hpairs]
      have hrest : doc.nodes = (pre ++ .scalar (cText sec.1) :: .mapping pairs :: entryNodes sec.2) ++
          sectionNodes ((pre ++ .scalar (cText sec.1) :: .mapping pairs ::
            entryNodes sec.2).length + 1) secs := by
        have hlen : (pre ++ .scalar (cText sec.1) :: .mapping pairs :: entryNodes sec.2).length + 1 =
            pre.length + 1 + 2 + (entryNodes sec.2).length := by
          simp only [List.length_append, List.length_cons]
          omega
        rw [hlen]
        simp [h, sectionNodes, hpairs]
      refine .cons ⟨scalarAt_of_nodes h, pairs, ?_, ?_⟩ ?_
      · simpa using getNode_of_nodes hnode
      · have := hasEntry_entryPairs hentries
        simp only [List.length_append, List.length_cons, List.length_nil] at this
        rw [← hpairs]
        exact this
      · have := ih hrest
        simp only [List.length_append, List.length_cons] at this
        convert this using 2
        omega

theorem buildDoc_represents (secs : List Section) : (buildDoc secs).Represents secs :=
  ⟨_, rfl, hasSection_sectionPairs (List.singleton_append).symm⟩

theorem conforms_loadText : Conforms loadText where
  refuses := by
    intro text _ h
    rw [loadText, List.utf8Decode?_utf8Encode]
    simp [h, Except.toOption]
  accepts := by
    intro text es secs _ h hsecs
    refine ⟨buildDoc secs, ?_, buildDoc_represents secs⟩
    rw [loadText, List.utf8Decode?_utf8Encode]
    simp [h, Except.toOption, hsecs]

/-! ### The sections of a document -/

/-- The keys and values of a section as the parsers see them. -/
def cPairs (es : List (List Char × List Char)) : List (CStr × CStr) :=
  es.map (fun e => (cText e.1, cText e.2))

def ConfigSection.ofText (sec : Section) : ConfigSection := ⟨cText sec.1, some (cPairs sec.2)⟩

namespace YamlDoc
variable {doc : YamlDoc} {pairs : List (ℕ × ℕ)} {es : List (List Char × List Char)}

theorem scalarPairs_eq (h : List.Forall₂ doc.HasEntry pairs es) : doc.scalarPairs pairs = cPairs es := by
  induction h with
  | nil => rfl
  | cons he _ ih =>
      rw [scalarPairs, he.1, he.2, ih]
      rfl

theorem tunnelEntries_eq (h : List.Forall₂ doc.HasEntry pairs es) :
    doc.tunnelEntries pairs = cPairs es := by
  induction h with
  | nil => rfl
  | @cons pair e _ _ he _ ih =>
      have hvalue : doc.getNode pair.2 = some (.scalar (cText e.2)) := by
        have := he.2
        rw [scalarAt] at this
        split at this
        · rename_i value hnode
          rw [hnode, Option.some.inj this]
        · cases this
      rw [tunnelEntries, he.1, hvalue, ih]
      rfl

theorem sectionsOf_eq {secs : List Section} (h : List.Forall₂ doc.HasSection pairs secs) :
    doc.sectionsOf pairs = secs.map ConfigSection.ofText := by
  induction h with
  | nil => rfl
  | @cons pair sec _ _ hsec _ ih =>
      obtain ⟨hkey, entries, hnode, hentries⟩ := hsec
      have hne : pair.2 ≠ 0 := by
        intro h0
        rw [h0] at hnode
        cases hnode
      simp only [sectionsOf, hkey, hne, if_false, hnode, sectionEntries, tunnelEntries_eq hentries,
        scalarPairs_eq hentries, ite_self, ih, List.map_cons]
      rfl

theorem Represents.sections_eq {secs : List Section} (h : doc.Represents secs) :
    doc.sections = some (secs.map ConfigSection.ofText) := by
  obtain ⟨pairs, hroot, hpairs⟩ := h
  rw [sections, hroot]
  exact congrArg some (sectionsOf_eq hpairs)

end YamlDoc

namespace Config
variable {pton : CStr → Option (Vector Byte 4)} {x : ConfigVar}

open ConfigSection

section represents
variable {doc : YamlDoc} {secs : List Section} (hdoc : doc.Represents secs)
include hdoc

theorem parsed_of_represents :
    (parsed pton (some doc)).2 = (secs.map ofText).all ConfigSection.accepted := by
  rw [parsed_accepted, accepted, Option.bind_some, hdoc.sections_eq, Option.any_some]

/-- A document with a section that is not accepted is refused. -/
theorem load_of_not_accepted (h : (secs.map ofText).all ConfigSection.accepted = false) (c : Config) :
    (c.load pton (some doc)).1 = -1 := by
  rw [load_eq, parsed_of_represents hdoc, h]
  rfl

/-- A variable after a document is loaded: the sections overwrite it, one after the other. -/
theorem load_of_accepted (h : (secs.map ofText).all ConfigSection.accepted) (c : Config) :
    (c.load pton (some doc)).1 = 0 ∧
      (x ≠ .int .tcpBufferSize → x ≠ .int .taskStackSize →
        (c.load pton (some doc)).2.get x =
          (secs.map ofText).foldl (overwrite (ConfigSection.given pton x) (inPlace x)) (c.get x)) := by
  have hread : sectionsRead (some doc) = secs.map ofText := by
    rw [sectionsRead, Option.bind_some, hdoc.sections_eq, Option.getD_some,
      List.takeWhile_eq_self_iff.mpr (List.all_eq_true.mp h)]
  rw [load_eq, parsed_of_represents hdoc, h]
  refine ⟨rfl, fun htcp hstack => ?_⟩
  rw [get_finishIf _ _ htcp hstack, get_exec_parsed, hread]

end represents

/-- Sections with other names leave a variable as it is. -/
theorem foldl_overwrite_of_ne {secs : List ConfigSection} (h : ∀ sec ∈ secs, sec.name ≠ x.sectionKey)
    (y : x.Value) : secs.foldl (overwrite (ConfigSection.given pton x) (inPlace x)) y = y := by
  induction secs with
  | nil => rfl
  | cons sec secs ih =>
      have hsec : overwrite (ConfigSection.given pton x) (inPlace x) y sec = y := by
        unfold overwrite ConfigSection.given inPlace
        rw [if_neg (h sec List.mem_cons_self), if_neg (h sec List.mem_cons_self)]
        rfl
      rw [List.foldl_cons, hsec, ih (fun sec' hsec' => h sec' (List.mem_cons_of_mem _ hsec'))]

/-- The only section with the name of a variable gives its value. -/
theorem foldl_overwrite_of_eq (pton : CStr → Option (Vector Byte 4)) {front rest : List ConfigSection}
    (es : List (CStr × CStr))
    (hfront : ∀ sec ∈ front, sec.name ≠ x.sectionKey) (hrest : ∀ sec ∈ rest, sec.name ≠ x.sectionKey)
    (y : x.Value) :
    (front ++ ⟨x.sectionKey, some es⟩ :: rest).foldl
        (overwrite (ConfigSection.given pton x) (inPlace x)) y =
      Assign.ntohl.eff x ((value pton es x).getD y) := by
  rw [List.foldl_append, foldl_overwrite_of_ne hfront, List.foldl_cons, foldl_overwrite_of_ne hrest]
  unfold overwrite ConfigSection.given inPlace
  rw [if_pos rfl, if_pos rfl]
  rfl

end Config

end HevTunnel
