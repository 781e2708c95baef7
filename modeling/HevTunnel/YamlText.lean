import HevTunnel.YamlQuoted
import Mathlib.Data.List.Nodup

/-! # Block mappings in the text of a YAML document

A part of YAML, as libyaml reads it: mappings of two levels, whose entries are plain words or
single-quoted scalars.

```
name:
  key: word
  key: 'any text, with '' for a quote'
```

`read` goes through the characters of a text and stops at the first one that leaves this form.  A text is
`refused` if the parser ends with an error whatever follows: a character is not printable, a quoted
scalar does not end or has a document indicator, or something other than a comment is behind it.  A text
is `beyond` if it has another form, about which nothing is said here.  Otherwise `read` lists the events
of the text.

A text that stands for itself is read as it is (`Reader.verdict_field`).  If a text has quotes of its own,
the document is refused, or the value has fewer quotes, or the scalar goes on behind the line
(`Reader.ends_field`). -/

namespace HevTunnel
namespace Yaml

/-! ### Words -/

/-- The letters and digits of ASCII. -/
def alphanumeric (c : Char) : Bool :=
  (48 ≤ c.toNat ∧ c.toNat ≤ 57) ∨ (65 ≤ c.toNat ∧ c.toNat ≤ 90) ∨ (97 ≤ c.toNat ∧ c.toNat ≤ 122)

def wordChar (c : Char) : Bool := alphanumeric c ∨ c = '-' ∨ c = '.'

/-- The plain scalars that are considered here. -/
def isWord (s : List Char) : Bool := s.head?.any alphanumeric && s.all wordChar

/-- The words that can be keys: the colon has to be found within 1024 characters. -/
def isKey (s : List Char) : Bool := isWord s && decide (s.length ≤ 1024)

/-- A key, and what is behind its colon. -/
def splitKey (line : List Char) : Option (List Char × List Char) :=
  if isKey (line.takeWhile wordChar) then
    match line.dropWhile wordChar with
    | ':' :: value => some (line.takeWhile wordChar, value)
    | _ => none
  else none

/-! ### Characters -/

inductive Event where
  | header (name : List Char)
  | entry (key value : List Char)
deriving DecidableEq

inductive Stop where
  | refused
  | beyond
deriving DecidableEq

inductive Mode where
  /-- On a line that starts with these characters. -/
  | line (cs : List Char)
  | inside (key : List Char) (sc : Scalar)
  /-- Behind a quote, which ends the scalar if no other one follows. -/
  | quoted (key : List Char) (sc : Scalar)
  /-- Behind a quoted scalar. -/
  | behind
  | comment

structure Reader where
  events : List Event
  mode : Mode

namespace Reader

def endLine (es : List Event) : List Char → Except Stop Reader
  | [] => .ok ⟨es, .line []⟩
  | ' ' :: ' ' :: entry =>
      match splitKey entry with
      | some (key, ' ' :: value) =>
          if isWord value then .ok ⟨es ++ [.entry key value], .line []⟩ else .error .beyond
      | _ => .error .beyond
  | line =>
      match splitKey line with
      | some (name, []) => .ok ⟨es ++ [.header name], .line []⟩
      | _ => .error .beyond

/-- A quote behind these characters of a line. -/
def openQuote (es : List Event) : List Char → Except Stop Reader
  | ' ' :: ' ' :: entry =>
      match splitKey entry with
      | some (key, [' ']) => .ok ⟨es, .inside key .start⟩
      | _ => .error .beyond
  | _ => .error .beyond

/-- A character behind a quoted scalar. -/
def afterQuoted (es : List Event) (c : Char) : Except Stop Reader :=
  if c = '\n' then .ok ⟨es, .line []⟩
  else if lineBreak c then .error .beyond
  else if blank c then .ok ⟨es, .behind⟩
  else if c = '#' then .ok ⟨es, .comment⟩
  else .error .refused

def step (r : Reader) (c : Char) : Except Stop Reader :=
  match r.mode with
  | .line cs =>
      if c = '\n' then endLine r.events cs
      else if c = quote then openQuote r.events cs
      else .ok ⟨r.events, .line (cs ++ [c])⟩
  | .inside key sc =>
      if c = quote then .ok ⟨r.events, .quoted key sc⟩
      else
        match sc.read c with
        | some sc' => .ok ⟨r.events, .inside key sc'⟩
        | none => .error .refused
  | .quoted key sc =>
      if c = quote then .ok ⟨r.events, .inside key (sc.push quote)⟩
      else afterQuoted (r.events ++ [.entry key sc.out]) c
  | .behind => afterQuoted r.events c
  | .comment =>
      if c = '\n' then .ok ⟨r.events, .line []⟩
      else if lineBreak c then .error .beyond
      else .ok ⟨r.events, .comment⟩

/-- The end of the text. -/
def finish (r : Reader) : Except Stop (List Event) :=
  match r.mode with
  | .line cs => (endLine r.events cs).map Reader.events
  | .inside _ _ => .error .refused
  | .quoted key sc => .ok (r.events ++ [.entry key sc.out])
  | .behind => .ok r.events
  | .comment => .ok r.events

def verdict (r : Reader) : List Char → Except Stop (List Event)
  | [] => r.finish
  | c :: cs =>
      match r.step c with
      | .ok r' => r'.verdict cs
      | .error stop => .error stop

end Reader

/-! ### Texts -/

def read (text : List Char) : Except Stop (List Event) :=
  if text.all printable then Reader.verdict ⟨[], .line []⟩ (lineFeeds text) else .error .refused

/-- The entries in front of the first header, and the mappings behind the headers. -/
def grouped : List Event → List (List Char × List Char) × List (List Char × List (List Char × List Char))
  | [] => ([], [])
  | .entry key value :: es =>
      let (entries, secs) := grouped es
      ((key, value) :: entries, secs)
  | .header name :: es =>
      let (entries, secs) := grouped es
      ([], (name, entries) :: secs)

/-- The mappings of a document, if all keys are different and no mapping is empty. -/
def sections (es : List Event) : Option (List (List Char × List (List Char × List Char))) :=
  let (entries, secs) := grouped es
  if entries = [] ∧ secs ≠ [] ∧ (secs.map Prod.fst).Nodup ∧
      ∀ s ∈ secs, s.2 ≠ [] ∧ (s.2.map Prod.fst).Nodup then
    some secs
  else none

/-- The quotes come in pairs. -/
def paired : List Char → Bool
  | [] => true
  | c :: cs =>
      if c ≠ quote then paired cs
      else
        match cs with
        | [] => false
        | d :: ds => d = quote && paired ds

/-! ### Clean texts -/

/-- The characters that stand for themselves on any line. -/
def ordinary (c : Char) : Bool :=
  printable c && !foreignBreak c && !lineBreak c && !decide (c = quote)

def Clean (s : List Char) : Prop := ∀ c ∈ s, ordinary c

instance (s : List Char) : Decidable (Clean s) :=
  decidable_of_iff (s.all ordinary = true) List.all_eq_true

theorem ordinary_iff {c : Char} :
    ordinary c ↔ printable c ∧ foreignBreak c = false ∧ lineBreak c = false ∧ c ≠ quote := by
  simp [ordinary, and_assoc]

theorem ordinary_of_wordChar {c : Char} (hc : wordChar c) : ordinary c := by
  have hn : (48 ≤ c.toNat ∧ c.toNat ≤ 57) ∨ (65 ≤ c.toNat ∧ c.toNat ≤ 90) ∨
      (97 ≤ c.toNat ∧ c.toNat ≤ 122) ∨ c.toNat = 45 ∨ c.toNat = 46 := by
    simp only [wordChar, alphanumeric, decide_eq_true_eq] at hc
    rcases hc with (h | h | h) | rfl | rfl
    · exact Or.inl h
    · exact Or.inr (Or.inl h)
    · exact Or.inr (Or.inr (Or.inl h))
    · exact Or.inr (Or.inr (Or.inr (Or.inl rfl)))
    · exact Or.inr (Or.inr (Or.inr (Or.inr rfl)))
  have hq : c ≠ quote := by
    rintro rfl
    exact absurd hc (by decide)
  have hl : c ≠ '\n' := by
    rintro rfl
    exact absurd hc (by decide)
  rw [ordinary_iff]
  simp only [printable, foreignBreak, lineBreak, hl, false_or, decide_eq_true_eq, decide_eq_false_iff_not]
  refine ⟨?_, ?_, ?_, hq⟩ <;> omega

theorem clean_of_isWord {s : List Char} (hs : isWord s) : Clean s := by
  intro c hc
  rw [isWord, Bool.and_eq_true, List.all_eq_true] at hs
  exact ordinary_of_wordChar (hs.2 c hc)

theorem isWord_of_isKey {s : List Char} (hs : isKey s) : isWord s := by
  rw [isKey, Bool.and_eq_true] at hs
  exact hs.1

namespace Clean
variable {s t : List Char}

theorem append (hs : Clean s) (ht : Clean t) : Clean (s ++ t) := by
  intro c hc
  rcases List.mem_append.mp hc with hc | hc
  · exact hs c hc
  · exact ht c hc

theorem printable (hs : Clean s) : ∀ c ∈ s, printable c := fun c hc => (ordinary_iff.mp (hs c hc)).1

theorem foreignBreak (hs : Clean s) : ∀ c ∈ s, foreignBreak c = false := fun c hc =>
  (ordinary_iff.mp (hs c hc)).2.1

theorem lineBreak (hs : Clean s) : ∀ c ∈ s, lineBreak c = false := fun c hc =>
  (ordinary_iff.mp (hs c hc)).2.2.1

theorem quote_not_mem (hs : Clean s) : quote ∉ s := fun h => (ordinary_iff.mp (hs _ h)).2.2.2 rfl

/-- Without line breaks nothing is lost. -/
theorem verbatim (hs : Clean s) : Verbatim s where
  printable := hs.printable
  quote := hs.quote_not_mem
  foreignBreak := hs.foreignBreak
  joined := by
    have hbreak : ∀ c ∈ quote :: s, Yaml.lineBreak c = false := by
      rw [List.forall_mem_cons]
      exact ⟨by decide, hs.lineBreak⟩
    apply List.Pairwise.isChain
    apply List.pairwise_of_forall_mem_list
    intro c hc d hd
    refine ⟨fun _ => hbreak d hd, fun h => ?_, ?_⟩
    · rw [hbreak c hc] at h
      cases h
    · rintro rfl
      exact absurd (hbreak _ hd) (by decide)
  unmarked := by
    rintro ⟨front, b, line, c, rest, rfl, hb, -⟩
    have := hs.lineBreak b (by simp)
    rw [this] at hb
    cases hb

end Clean

/-- The start of the line of an entry. -/
def entryStart (key : List Char) : List Char := ' ' :: ' ' :: (key ++ [':', ' '])

/-- The line of an event without quotes. -/
def Event.line : Event → List Char
  | header name => name ++ [':']
  | entry key value => entryStart key ++ value

def Event.isPlain : Event → Bool
  | header name => isKey name
  | entry key value => isKey key && isWord value

/-- Lines without quotes. -/
def plainText (es : List Event) : List Char := es.flatMap (fun e => e.line ++ ['\n'])

/-- An entry with a quoted text. -/
def field (key s : List Char) : List Char := entryStart key ++ quote :: (s ++ [quote, '\n'])

theorem clean_entryStart {key : List Char} (hkey : isWord key) : Clean (entryStart key) := by
  have hindent : Clean [' ', ' '] := by decide
  have hcolon : Clean [':', ' '] := by decide
  exact hindent.append ((clean_of_isWord hkey).append hcolon)

theorem Event.clean_line {e : Event} (he : e.isPlain) : Clean e.line := by
  cases e with
  | header name => exact (clean_of_isWord (isWord_of_isKey he)).append (by decide)
  | entry key value =>
      simp only [isPlain, Bool.and_eq_true] at he
      exact (clean_entryStart (isWord_of_isKey he.1)).append (clean_of_isWord he.2)

/-- A line feed is the only character of such lines that is not ordinary. -/
theorem ordinary_of_mem_plainText {es : List Event} (hes : ∀ e ∈ es, e.isPlain) {c : Char}
    (hc : c ∈ plainText es) : ordinary c ∨ c = '\n' := by
  obtain ⟨e, he, hc⟩ := List.mem_flatMap.mp hc
  obtain hc | hc := List.mem_append.mp hc
  · exact .inl (Event.clean_line (hes e he) c hc)
  · exact .inr (List.mem_singleton.mp hc)

theorem lineFeeds_plainText {es : List Event} (hes : ∀ e ∈ es, e.isPlain) (rest : List Char) :
    lineFeeds (plainText es ++ rest) = plainText es ++ lineFeeds rest := by
  apply lineFeeds_append
  intro c hc
  obtain hc | rfl := ordinary_of_mem_plainText hes hc
  · exact (ordinary_iff.mp hc).2.1
  · decide

theorem printable_of_mem_plainText {es : List Event} (hes : ∀ e ∈ es, e.isPlain) :
    ∀ c ∈ plainText es, printable c := by
  intro c hc
  obtain hc | rfl := ordinary_of_mem_plainText hes hc
  · exact (ordinary_iff.mp hc).1
  · decide

theorem quote_not_mem_plainText {es : List Event} (hes : ∀ e ∈ es, e.isPlain) :
    quote ∉ plainText es := by
  intro h
  obtain h | h := ordinary_of_mem_plainText hes h
  · exact (ordinary_iff.mp h).2.2.2 rfl
  · exact absurd h (by decide)

theorem lineFeeds_field {key : List Char} (hkey : isWord key) (s rest : List Char) :
    lineFeeds (field key s ++ rest) =
      entryStart key ++ quote :: (lineFeeds s ++ quote :: '\n' :: lineFeeds rest) := by
  have hstart : ∀ c ∈ entryStart key ++ [quote], foreignBreak c = false := by
    intro c hc
    obtain hc | hc := List.mem_append.mp hc
    · exact (clean_entryStart hkey).foreignBreak c hc
    · rw [List.mem_singleton.mp hc]
      decide
  have hend : lineFeeds (quote :: '\n' :: rest) = quote :: '\n' :: lineFeeds rest :=
    lineFeeds_append (a := [quote, '\n']) (by simp [foreignBreak, quote]) rest
  calc
    lineFeeds (field key s ++ rest) =
        lineFeeds ((entryStart key ++ [quote]) ++ (s ++ quote :: '\n' :: rest)) := by simp [field]
    _ = (entryStart key ++ [quote]) ++ lineFeeds (s ++ quote :: '\n' :: rest) := lineFeeds_append hstart _
    _ = _ := by
      rw [lineFeeds_append_cons s (by decide), hend, List.append_assoc, List.singleton_append]

theorem printable_field {key : List Char} (hkey : isWord key) (s : List Char) :
    (field key s).all printable = s.all printable := by
  have hstart : (entryStart key).all printable = true :=
    List.all_eq_true.mpr (clean_entryStart hkey).printable
  have hquote : printable quote = true := by decide
  have hend : [quote, '\n'].all printable = true := by decide
  rw [field, List.all_append, List.all_cons, List.all_append, hstart, hquote, hend, Bool.and_true,
    Bool.true_and, Bool.true_and]

/-! ### Pairs of quotes -/

theorem paired_of_ne {c : Char} (hc : c ≠ quote) (cs : List Char) : paired (c :: cs) = paired cs := by
  rw [paired.eq_def]
  simp [hc]

theorem paired_quote_quote (cs : List Char) : paired (quote :: quote :: cs) = paired cs := by
  rw [paired.eq_def]
  simp

theorem paired_quote_of_ne {cs : List Char} (h : cs.head? ≠ some quote) : paired (quote :: cs) = false := by
  rw [paired.eq_def]
  cases cs with
  | nil => simp
  | cons d ds =>
      have hd : d ≠ quote := fun hd => h (congrArg some hd)
      simp [hd]

theorem paired_of_not_mem {s : List Char} (hs : quote ∉ s) : paired s := by
  induction s with
  | nil => rfl
  | cons c cs ih =>
      rw [List.mem_cons, not_or] at hs
      rw [paired_of_ne (Ne.symm hs.1)]
      exact ih hs.2

theorem lineFeeds_quote (cs : List Char) : lineFeeds (quote :: cs) = quote :: lineFeeds cs :=
  lineFeeds_append (a := [quote]) (by simp [foreignBreak, quote]) cs

theorem head_lineFeeds_ne {s : List Char} (hs : s.head? ≠ some quote) :
    (lineFeeds s).head? ≠ some quote := by
  have hfeed : ∀ cs, lineFeeds ('\n' :: cs) = '\n' :: lineFeeds cs :=
    lineFeeds_append (a := ['\n']) (by simp [foreignBreak])
  cases s with
  | nil => simp [lineFeeds]
  | cons c cs =>
      rw [lineFeeds]
      split_ifs with hcrlf hforeign
      · obtain ⟨ds, rfl⟩ := List.head?_eq_some_iff.mp hcrlf.2
        rw [hfeed]
        exact fun h => absurd (Option.some.inj h) (by decide)
      · exact fun h => absurd (Option.some.inj h) (by decide)
      · exact hs

theorem paired_lineFeeds (s : List Char) : paired (lineFeeds s) = paired s := by
  induction s using paired.induct with
  | case1 => rfl
  | case2 c cs hc ih =>
      rw [paired_of_ne hc, lineFeeds]
      split_ifs with hcrlf hforeign
      · exact ih
      · rw [paired_of_ne (by decide), ih]
      · rw [paired_of_ne hc, ih]
  | case3 c hc =>
      rw [not_not.mp hc, lineFeeds_quote]
      rfl
  | case4 c hc d ds ih =>
      rw [not_not.mp hc, lineFeeds_quote]
      by_cases hd : d = quote
      · rw [hd, lineFeeds_quote, paired_quote_quote, paired_quote_quote, ih]
      · have hhead : (d :: ds).head? ≠ some quote := fun h => hd (Option.some.inj h)
        rw [paired_quote_of_ne hhead, paired_quote_of_ne (head_lineFeeds_ne hhead)]

/-! ### Lines -/

theorem splitKey_append {key : List Char} (hkey : isKey key) (t : List Char) :
    splitKey (key ++ ':' :: t) = some (key, t) := by
  have hword : ∀ c ∈ key, wordChar c := by
    have := isWord_of_isKey hkey
    rw [isWord, Bool.and_eq_true, List.all_eq_true] at this
    exact this.2
  have htake : (key ++ ':' :: t).takeWhile wordChar = key := by
    rw [List.takeWhile_append_of_pos hword, List.takeWhile_cons_of_neg (by decide), List.append_nil]
  have hdrop : (key ++ ':' :: t).dropWhile wordChar = ':' :: t := by
    rw [List.dropWhile_append_of_pos hword, List.dropWhile_cons_of_neg (by decide)]
  rw [splitKey, htake, if_pos hkey, hdrop]
  rfl

namespace Reader
variable {es : List Event} {r r' : Reader} {c : Char}

theorem verdict_cons (h : r.step c = .ok r') (cs : List Char) : r.verdict (c :: cs) = r'.verdict cs := by
  rw [verdict, h]

theorem verdict_error {stop : Stop} (h : r.step c = .error stop) (cs : List Char) :
    r.verdict (c :: cs) = .error stop := by
  rw [verdict, h]

theorem verdict_line {l : List Char} (hl : Clean l) (cs rest : List Char) :
    verdict ⟨es, .line cs⟩ (l ++ rest) = verdict ⟨es, .line (cs ++ l)⟩ rest := by
  induction l generalizing cs with
  | nil => rw [List.append_nil, List.nil_append]
  | cons c l ih =>
      obtain ⟨-, -, hbreak, hq⟩ := ordinary_iff.mp (hl c List.mem_cons_self)
      have hfeed : c ≠ '\n' := by
        rintro rfl
        exact absurd hbreak (by decide)
      have hstep : step ⟨es, .line cs⟩ c = .ok ⟨es, .line (cs ++ [c])⟩ := by simp [step, hfeed, hq]
      rw [List.cons_append, verdict_cons hstep, ih (fun d hd => hl d (List.mem_cons_of_mem _ hd)),
        List.append_assoc, List.singleton_append]

theorem step_header {name : List Char} (hname : isKey name) :
    step ⟨es, .line (name ++ [':'])⟩ '\n' = .ok ⟨es ++ [.header name], .line []⟩ := by
  show endLine es (name ++ [':']) = _
  obtain ⟨d, ds, rfl⟩ : ∃ d ds, name = d :: ds := by
    cases name with
    | nil => cases hname
    | cons d ds => exact ⟨d, ds, rfl⟩
  have hd : d ≠ ' ' := by
    rintro rfl
    have hblank : alphanumeric ' ' = false := by decide
    exact absurd (isWord_of_isKey hname) (by simp [isWord, hblank])
  rw [List.cons_append, endLine]
  · rw [← List.cons_append, splitKey_append hname]
  · exact fun h => nomatch h
  · intro line h
    exact hd (List.cons.inj h).1

theorem step_line {e : Event} (he : e.isPlain) :
    step ⟨es, .line e.line⟩ '\n' = .ok ⟨es ++ [e], .line []⟩ := by
  cases e with
  | header name => exact step_header he
  | entry key value =>
      simp only [Event.isPlain, Bool.and_eq_true] at he
      simp [step, Event.line, entryStart, endLine, splitKey_append he.1, he.2]

/-- Lines without quotes are read as they are. -/
theorem verdict_plainText (es : List Event) {es' : List Event} (h : ∀ e ∈ es', e.isPlain) (rest : List Char) :
    verdict ⟨es, .line []⟩ (plainText es' ++ rest) = verdict ⟨es ++ es', .line []⟩ rest := by
  induction es' generalizing es with
  | nil => rw [List.append_nil]; rfl
  | cons e es' ih =>
      have he := h e List.mem_cons_self
      rw [plainText, List.flatMap_cons, List.append_assoc, List.append_assoc,
        verdict_line (Event.clean_line he), List.singleton_append, List.nil_append,
        verdict_cons (step_line he), ← plainText, ih _ (fun d hd => h d (List.mem_cons_of_mem _ hd)),
        List.append_assoc, List.singleton_append]

theorem verdict_open {key : List Char} (hkey : isKey key) (rest : List Char) :
    verdict ⟨es, .line []⟩ (entryStart key ++ quote :: rest) = verdict ⟨es, .inside key .start⟩ rest := by
  have hne : quote ≠ '\n' := by decide
  have hstep : step ⟨es, .line (entryStart key)⟩ quote = .ok ⟨es, .inside key .start⟩ := by
    simp [step, entryStart, openQuote, splitKey_append hkey, hne]
  rw [verdict_line (clean_entryStart (isWord_of_isKey hkey)), List.nil_append, verdict_cons hstep]

/-! ### Quoted scalars -/

section quoted
variable {key : List Char} {sc sc' : Scalar} {t : List Char}

theorem step_inside (hc : c ≠ quote) (h : sc.read c = some sc') :
    step ⟨es, .inside key sc⟩ c = .ok ⟨es, .inside key sc'⟩ := by
  simp [step, hc, h]

theorem step_inside_refused (hc : c ≠ quote) (h : sc.read c = none) :
    step ⟨es, .inside key sc⟩ c = .error .refused := by
  simp [step, hc, h]

theorem step_inside_quote : step ⟨es, .inside key sc⟩ quote = .ok ⟨es, .quoted key sc⟩ := rfl

theorem step_quoted_quote : step ⟨es, .quoted key sc⟩ quote = .ok ⟨es, .inside key (sc.push quote)⟩ := rfl

theorem step_quoted (hc : c ≠ quote) :
    step ⟨es, .quoted key sc⟩ c = afterQuoted (es ++ [.entry key sc.out]) c := by
  simp [step, hc]

/-- Between quotes a text without quotes is scanned. -/
theorem verdict_inside (es : List Event) (key : List Char) (sc : Scalar) (ht : quote ∉ t)
    (rest : List Char) :
    (∃ sc', sc.scan t = some sc' ∧
      verdict ⟨es, .inside key sc⟩ (t ++ rest) = verdict ⟨es, .inside key sc'⟩ rest) ∨
      (sc.scan t = none ∧ verdict ⟨es, .inside key sc⟩ (t ++ rest) = .error .refused) := by
  induction t generalizing sc with
  | nil => exact .inl ⟨sc, rfl, rfl⟩
  | cons c t ih =>
      rw [List.mem_cons, not_or] at ht
      rw [List.cons_append, Scalar.scan_cons]
      cases hread : sc.read c with
      | none => exact .inr ⟨rfl, verdict_error (step_inside_refused (Ne.symm ht.1) hread) _⟩
      | some sc₁ =>
          rw [verdict_cons (step_inside (Ne.symm ht.1) hread), Option.bind_some]
          exact ih _ ht.2

/-- A scalar that is not closed is refused. -/
theorem verdict_inside_end (ht : quote ∉ t) : verdict ⟨es, .inside key sc⟩ t = .error .refused := by
  have h := verdict_inside es key sc ht []
  rw [List.append_nil] at h
  obtain ⟨sc', -, h⟩ | ⟨-, h⟩ := h
  · rw [h]
    rfl
  · exact h

theorem verdict_close (rest : List Char) :
    verdict ⟨es, .inside key sc⟩ (quote :: '\n' :: rest) =
      verdict ⟨es ++ [.entry key sc.out], .line []⟩ rest := by
  rw [verdict_cons step_inside_quote, verdict_cons (step_quoted (by decide))]

/-- A text in quotes is read as its content. -/
theorem verdict_quoted {v : List Char} (ht : quote ∉ t) (hv : (Scalar.start.scan t).map Scalar.out = some v)
    (rest : List Char) :
    verdict ⟨es, .inside key .start⟩ (t ++ quote :: '\n' :: rest) =
      verdict ⟨es ++ [.entry key v], .line []⟩ rest := by
  obtain ⟨sc', hscan, h⟩ | ⟨hscan, -⟩ := verdict_inside es key .start ht
    (quote :: '\n' :: rest)
  · rw [hscan] at hv
    rw [h, verdict_close, Option.some.inj hv]
  · rw [hscan] at hv
    cases hv

/-- A quote in front of another text closes the scalar, and the text is refused. -/
theorem verdict_inside_other (ht : quote ∉ t) (hc : c ≠ quote)
    (hafter : ∀ es, afterQuoted es c = .error .refused) (rest : List Char) :
    verdict ⟨es, .inside key sc⟩ (t ++ quote :: c :: rest) = .error .refused := by
  obtain ⟨sc', -, h⟩ | ⟨-, h⟩ := verdict_inside es key sc ht (quote :: c :: rest)
  · rw [h, verdict_cons step_inside_quote, verdict_error (by rw [step_quoted hc, hafter])]
  · exact h

end quoted

/-! ### Texts with quotes -/

/-- The text is refused, or its events have the property. -/
def Ends (P : List Event → Prop) (v : Except Stop (List Event)) : Prop :=
  v = .error .refused ∨ ∃ es, v = .ok es ∧ P es

section ends
variable {P : List Event → Prop} {key t : List Char} {n : ℕ}

theorem ends_cons {rest : List Char} (h : r.step c = .error .refused ∨
    ∃ r', r.step c = .ok r' ∧ Ends P (r'.verdict rest)) : Ends P (r.verdict (c :: rest)) := by
  obtain h | ⟨r', h, hr⟩ := h
  · exact .inl (verdict_error h rest)
  · rwa [verdict_cons h]

/-- The reader is inside the scalar of a key or behind it on its last line, and there were `n` quotes in
the scalar: an opened quote counts twice. -/
inductive Within (es : List Event) (key : List Char) (n : ℕ) : Reader → Prop
  | inside {sc : Scalar} : 2 * sc.out.count quote ≤ n → Within es key n ⟨es, .inside key sc⟩
  | quoted {sc : Scalar} : 2 * sc.out.count quote + 1 ≤ n → Within es key n ⟨es, .quoted key sc⟩
  | behind {v : List Char} : 2 * v.count quote + 1 ≤ n →
      Within es key n ⟨es ++ [.entry key v], .behind⟩
  | comment {v : List Char} : 2 * v.count quote + 1 ≤ n →
      Within es key n ⟨es ++ [.entry key v], .comment⟩

theorem within_afterQuoted {v : List Char} (hv : 2 * v.count quote + 1 ≤ n) (hc : lineBreak c = false) :
    afterQuoted (es ++ [.entry key v]) c = .error .refused ∨
      ∃ r', afterQuoted (es ++ [.entry key v]) c = .ok r' ∧ Within es key n r' := by
  have hfeed : c ≠ '\n' := by
    rintro rfl
    exact absurd hc (by decide)
  unfold afterQuoted
  rw [if_neg hfeed, if_neg (by simp [hc])]
  split_ifs
  · exact .inr ⟨_, rfl, .behind hv⟩
  · exact .inr ⟨_, rfl, .comment hv⟩
  · exact .inl rfl

theorem step_within (h : Within es key n r) (hc : lineBreak c = false) :
    r.step c = .error .refused ∨ ∃ r', r.step c = .ok r' ∧ Within es key (n + [c].count quote) r' := by
  have hfeed : c ≠ '\n' := by
    rintro rfl
    exact absurd hc (by decide)
  cases h with
  | @inside sc hn =>
      by_cases hq : c = quote
      · subst hq
        exact .inr ⟨_, step_inside_quote, .quoted (Nat.succ_le_succ hn)⟩
      · cases hread : sc.read c with
        | none => exact .inl (step_inside_refused hq hread)
        | some sc' =>
            have := Scalar.read_count hq hread
            exact .inr ⟨_, step_inside hq hread, .inside (by omega)⟩
  | @quoted sc hn =>
      by_cases hq : c = quote
      · subst hq
        refine .inr ⟨_, step_quoted_quote, .inside ?_⟩
        rw [Scalar.out_push, List.count_append, List.count_singleton_self]
        omega
      · rw [step_quoted hq]
        exact within_afterQuoted (by omega) hc
  | behind hn => exact within_afterQuoted (by omega) hc
  | @comment v hn =>
      have hstep : step ⟨es ++ [.entry key v], .comment⟩ c = .ok ⟨es ++ [.entry key v], .comment⟩ := by
        simp [step, hfeed, hc]
      exact .inr ⟨_, hstep, .comment (by omega)⟩

/-- The end of a line inside a scalar or behind it. -/
theorem step_within_newline (h : Within es key n r) :
    r.step '\n' = .error .refused ∨ (∃ sc, r.step '\n' = .ok ⟨es, .inside key sc⟩) ∨
      ∃ v, r.step '\n' = .ok ⟨es ++ [.entry key v], .line []⟩ ∧ 2 * v.count quote + 1 ≤ n := by
  cases h with
  | @inside sc hn =>
      have hq : '\n' ≠ quote := by decide
      cases hread : sc.read '\n' with
      | none => exact .inl (step_inside_refused hq hread)
      | some sc' => exact .inr (.inl ⟨sc', step_inside hq hread⟩)
  | @quoted sc hn => exact .inr (.inr ⟨sc.out, step_quoted (by decide), hn⟩)
  | @behind v hn => exact .inr (.inr ⟨v, rfl, hn⟩)
  | @comment v hn => exact .inr (.inr ⟨v, rfl, hn⟩)

/-- A line inside a quoted scalar gives no entry but that of the scalar. -/
theorem ends_within {l rest : List Char} (hl : ∀ c ∈ l, lineBreak c = false) (h : Within es key n r)
    (hclosed : ∀ v, 2 * v.count quote + 1 ≤ n + l.count quote →
      Ends P (verdict ⟨es ++ [.entry key v], .line []⟩ rest))
    (hopened : ∀ sc, Ends P (verdict ⟨es, .inside key sc⟩ rest)) :
    Ends P (r.verdict (l ++ '\n' :: rest)) := by
  induction l generalizing n r with
  | nil =>
      apply ends_cons
      obtain hstep | ⟨sc, hstep⟩ | ⟨v, hstep, hv⟩ := step_within_newline h
      · exact .inl hstep
      · exact .inr ⟨_, hstep, hopened sc⟩
      · exact .inr ⟨_, hstep, hclosed v hv⟩
  | cons c l ih =>
      apply ends_cons
      refine (step_within h (hl c List.mem_cons_self)).imp_right ?_
      rintro ⟨r', hstep, hr'⟩
      refine ⟨r', hstep, ih (fun d hd => hl d (List.mem_cons_of_mem _ hd)) hr' ?_⟩
      intro v hv
      apply hclosed v
      rw [List.count_cons, Nat.add_comm (l.count quote), ← Nat.add_assoc]
      rwa [List.count_singleton] at hv

/-- Pairs of quotes do not end a scalar. -/
theorem ends_paired {sc : Scalar} {rest : List Char} (ht : paired t)
    (h : ∀ sc', 2 * sc'.out.count quote ≤ 2 * sc.out.count quote + t.count quote →
      Ends P (verdict ⟨es, .inside key sc'⟩ rest)) :
    Ends P (verdict ⟨es, .inside key sc⟩ (t ++ rest)) := by
  induction t using paired.induct generalizing sc with
  | case1 => exact h sc le_rfl
  | case2 c cs hc ih =>
      rw [paired_of_ne hc] at ht
      apply ends_cons
      cases hread : sc.read c with
      | none => exact .inl (step_inside_refused hc hread)
      | some sc₁ =>
          have hcount := Scalar.read_count hc hread
          refine .inr ⟨_, step_inside hc hread, ih ht ?_⟩
          intro sc' hsc'
          apply h
          rw [List.count_cons_of_ne hc]
          omega
  | case3 c hc =>
      rw [not_not.mp hc] at ht
      cases ht
  | case4 c hc d ds ih =>
      obtain rfl := not_not.mp hc
      by_cases hd : d = quote
      · subst hd
        rw [paired_quote_quote] at ht
        rw [List.cons_append, List.cons_append, verdict_cons step_inside_quote,
          verdict_cons step_quoted_quote]
        apply ih ht
        intro sc' hsc'
        rw [Scalar.out_push, List.count_append, List.count_singleton_self] at hsc'
        apply h
        rw [List.count_cons_self, List.count_cons_self]
        omega
      · have hhead : (d :: ds).head? ≠ some quote := fun h => hd (Option.some.inj h)
        rw [paired_quote_of_ne hhead] at ht
        cases ht

end ends

end Reader

/-! ### Fields -/

/-- A text without line breaks of any kind. -/
def OneLine (s : List Char) : Prop := ∀ c ∈ s, foreignBreak c = false ∧ lineBreak c = false

instance (s : List Char) : Decidable (OneLine s) := List.decidableBAll _ _

theorem OneLine.lineFeeds_eq {s : List Char} (hs : OneLine s) : lineFeeds s = s :=
  lineFeeds_eq_self (fun c hc => (hs c hc).1)

/-- What a quoted text may be read as: its content, or a text with fewer quotes. -/
def Kept (s v : List Char) : Prop :=
  (quote ∉ s ∧ content s = some v) ∨ v.count quote < s.count quote

namespace Reader
variable {es : List Event} {P : List Event → Prop} {key s rest : List Char}

theorem quote_mem_lineFeeds : quote ∈ lineFeeds s ↔ quote ∈ s := by
  rw [← List.count_pos_iff, ← List.count_pos_iff, count_quote_lineFeeds]

/-- A text that stands for itself is read as it is. -/
theorem verdict_field (hkey : isKey key) (hs : Verbatim s) :
    verdict ⟨es, .line []⟩ (lineFeeds (field key s ++ rest)) =
      verdict ⟨es ++ [.entry key s], .line []⟩ (lineFeeds rest) := by
  rw [lineFeeds_field (isWord_of_isKey hkey), verdict_open hkey,
    verdict_quoted (fun h => hs.quote (quote_mem_lineFeeds.mp h)) hs.content_eq]

/-- A text on one line, or one whose quotes are paired. -/
theorem ends_field (hkey : isKey key) (hs : OneLine s ∨ paired s)
    (hclosed : ∀ v, Kept s v → Ends P (verdict ⟨es ++ [.entry key v], .line []⟩ (lineFeeds rest)))
    (hopened : ¬ paired s → ∀ sc, Ends P (verdict ⟨es, .inside key sc⟩ (lineFeeds rest))) :
    Ends P (verdict ⟨es, .line []⟩ (lineFeeds (field key s ++ rest))) := by
  rw [lineFeeds_field (isWord_of_isKey hkey), verdict_open hkey]
  by_cases hq : quote ∈ s
  · have hpos := List.count_pos_iff.mpr hq
    by_cases hpaired : paired s
    · apply ends_paired ((paired_lineFeeds s).trans hpaired)
      intro sc hsc
      rw [count_quote_lineFeeds] at hsc
      have hstart : Scalar.start.out.count quote = 0 := rfl
      rw [verdict_close]
      exact hclosed sc.out (.inr (by omega))
    · have hone := hs.resolve_right hpaired
      have hline : ∀ c ∈ s ++ [quote], lineBreak c = false := by
        intro c hc
        obtain hc | hc := List.mem_append.mp hc
        · exact (hone c hc).2
        · rw [List.mem_singleton.mp hc]
          decide
      rw [hone.lineFeeds_eq, List.append_cons]
      refine ends_within hline (.inside (n := 0) le_rfl) ?_ (hopened hpaired)
      intro v hv
      rw [List.count_append, List.count_singleton_self] at hv
      exact hclosed v (.inr (by omega))
  · have hq' : quote ∉ lineFeeds s := fun h => hq (quote_mem_lineFeeds.mp h)
    cases hv : content s with
    | some v =>
        rw [verdict_quoted hq' hv]
        exact hclosed v (.inl ⟨hq, hv⟩)
    | none =>
        obtain ⟨sc, hscan, -⟩ | ⟨-, h⟩ := verdict_inside es key .start hq'
          (quote :: '\n' :: lineFeeds rest)
        · rw [content, hscan] at hv
          cases hv
        · exact .inl h

/-- A field inside a scalar gives no entry but that of the scalar. -/
theorem ends_field_inside {key' : List Char} (hkey' : isWord key') {sc : Scalar} (hs : OneLine s)
    (hclosed : ∀ v, Ends P (verdict ⟨es ++ [.entry key v], .line []⟩ (lineFeeds rest)))
    (hopened : ∀ sc, Ends P (verdict ⟨es, .inside key sc⟩ (lineFeeds rest))) :
    Ends P (verdict ⟨es, .inside key sc⟩ (lineFeeds (field key' s ++ rest))) := by
  have hline : ∀ c ∈ entryStart key' ++ quote :: (s ++ [quote]), lineBreak c = false := by
    have hquote : lineBreak quote = false := by decide
    simp only [List.mem_append, List.mem_cons, List.not_mem_nil, or_false]
    rintro c (hc | rfl | hc | rfl)
    · exact (clean_entryStart hkey').lineBreak c hc
    · exact hquote
    · exact (hs c hc).2
    · exact hquote
  have htext : lineFeeds (field key' s ++ rest) =
      (entryStart key' ++ quote :: (s ++ [quote])) ++ '\n' :: lineFeeds rest := by
    rw [lineFeeds_field hkey', hs.lineFeeds_eq]
    simp
  rw [htext]
  exact ends_within hline (.inside le_rfl) (fun v _ => hclosed v) hopened

end Reader

end Yaml
end HevTunnel
