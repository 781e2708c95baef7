import Mathlib.Algebra.Order.Ring.Nat
import Mathlib.Data.List.Chain
import Mathlib.Data.List.Infix
import Mathlib.Tactic.Common

/-! # Single-quoted scalars of YAML

What libyaml makes of the text of a single-quoted scalar (`yaml_parser_scan_flow_scalar`).

Line breaks are read by `READ_LINE`: `CR LF`, `CR` and `NEL` become line feeds (`lineFeeds`), while the
separators `LS` and `PS` are kept.  A first line feed is folded: it is dropped in front of further
breaks, and becomes a space otherwise.  Blanks next to a line break are dropped.  A line that starts with
a document indicator ends the parser.

`content_eq_iff` says which texts without quotes stand for themselves (`Verbatim`). -/

namespace HevTunnel
namespace Yaml

/-! ### Characters -/

/-- `c-printable`. -/
def printable (c : Char) : Bool :=
  c.toNat = 0x9 ∨ c.toNat = 0xA ∨ c.toNat = 0xD ∨ (0x20 ≤ c.toNat ∧ c.toNat ≤ 0x7E) ∨
    c.toNat = 0x85 ∨ (0xA0 ≤ c.toNat ∧ c.toNat ≤ 0xD7FF) ∨ (0xE000 ≤ c.toNat ∧ c.toNat ≤ 0xFFFD) ∨
    0x10000 ≤ c.toNat

/-- The quote of a single-quoted scalar. -/
def quote : Char := Char.ofNat 39

def blank (c : Char) : Bool := c = ' ' ∨ c = '\t'

/-- The line breaks that become line feeds. -/
def foreignBreak (c : Char) : Bool := c.toNat = 0xD ∨ c.toNat = 0x85

/-- The other line breaks: the line feed, `LS` and `PS`. -/
def lineBreak (c : Char) : Bool := c = '\n' ∨ c.toNat = 0x2028 ∨ c.toNat = 0x2029

/-- `READ_LINE` for all line breaks of a text. -/
def lineFeeds : List Char → List Char
  | [] => []
  | c :: cs =>
      if c.toNat = 0xD ∧ cs.head? = some '\n' then lineFeeds cs
      else if foreignBreak c then '\n' :: lineFeeds cs
      else c :: lineFeeds cs

/-! ### Scalars -/

/-- Blanks and line breaks behind the value of a scalar. -/
inductive Gap where
  | spaces (blanks : List Char)
  /-- `leading_break` and `trailing_breaks`. -/
  | breaks (leading : Char) (trailing : List Char)

namespace Gap

/-- What the gap stands for if something follows. -/
def text : Gap → List Char
  | spaces blanks => blanks
  | breaks leading trailing =>
      if leading ≠ '\n' then leading :: trailing
      else if trailing = [] then [' ']
      else trailing

/-- A further blank or line break. -/
def add (c : Char) : Gap → Gap
  | spaces blanks => if lineBreak c then breaks c [] else spaces (blanks ++ [c])
  | breaks leading trailing =>
      if lineBreak c then breaks leading (trailing ++ [c]) else breaks leading trailing

end Gap

/-- The state of the scanner inside a quoted scalar. -/
structure Scalar where
  value : List Char
  gap : Gap
  /-- The line up to here; at first it has the quote, so that it is not empty. -/
  line : List Char

namespace Scalar

def start : Scalar := ⟨[], .spaces [], [quote]⟩

/-- The value if the scalar ends here. -/
def out (s : Scalar) : List Char := s.value ++ s.gap.text

/-- A character that belongs to the value. -/
def push (s : Scalar) (c : Char) : Scalar := ⟨s.out ++ [c], .spaces [], s.line ++ [c]⟩

/-- The line is a document indicator, if a blank or a line break follows. -/
def indicator (line : List Char) : Bool := line = ['-', '-', '-'] ∨ line = ['.', '.', '.']

/-- A character other than the quote, `none` if the parser ends. -/
def read (s : Scalar) (c : Char) : Option Scalar :=
  if blank c ∨ lineBreak c then
    if indicator s.line then none
    else some ⟨s.value, s.gap.add c, if lineBreak c then [] else s.line ++ [c]⟩
  else some (s.push c)

/-- A text without quotes. -/
def scan (s : Scalar) (text : List Char) : Option Scalar := text.foldlM read s

theorem scan_cons (s : Scalar) (c : Char) (text : List Char) :
    s.scan (c :: text) = (s.read c).bind (fun s' => s'.scan text) := rfl

end Scalar

/-- The value of a scalar with a text without quotes. -/
def content (text : List Char) : Option (List Char) :=
  (Scalar.start.scan (lineFeeds text)).map Scalar.out

/-! ### Texts that stand for themselves -/

/-- The two characters can stand next to each other: no blank is next to a line break, and a line feed is
behind another line break. -/
def Joined (c d : Char) : Prop :=
  (blank c → lineBreak d = false) ∧ (lineBreak c → blank d = false) ∧ (d = '\n' → lineBreak c)

instance (c d : Char) : Decidable (Joined c d) := inferInstanceAs (Decidable (_ ∧ _ ∧ _))

/-- A line behind the first one is a document indicator with a blank or a line break behind it. -/
def Marked (text : List Char) : Prop :=
  ∃ front b line c rest, text = front ++ b :: (line ++ c :: rest) ∧ lineBreak b ∧
    Scalar.indicator line ∧ (blank c ∨ lineBreak c)

/-- A text that stands for itself between quotes. -/
structure Verbatim (text : List Char) : Prop where
  printable : ∀ c ∈ text, printable c
  quote : quote ∉ text
  foreignBreak : ∀ c ∈ text, foreignBreak c = false
  joined : (Yaml.quote :: text).IsChain Joined
  unmarked : ¬ Marked text

/-! ### Line breaks -/

theorem lineBreak_of_blank {c : Char} (hc : blank c) : lineBreak c = false := by
  simp only [blank, decide_eq_true_eq] at hc
  obtain rfl | rfl := hc <;> decide

theorem foreignBreak_lineFeeds (text : List Char) : ∀ c ∈ lineFeeds text, foreignBreak c = false := by
  have hfeed : foreignBreak '\n' = false := by decide
  induction text with
  | nil => simp [lineFeeds]
  | cons c cs ih =>
      rw [lineFeeds]
      split_ifs with hcrlf hforeign
      · exact ih
      · exact List.forall_mem_cons.mpr ⟨hfeed, ih⟩
      · exact List.forall_mem_cons.mpr ⟨by simpa using hforeign, ih⟩

theorem lineFeeds_append {a : List Char} (ha : ∀ c ∈ a, foreignBreak c = false) (b : List Char) :
    lineFeeds (a ++ b) = a ++ lineFeeds b := by
  induction a with
  | nil => rfl
  | cons c cs ih =>
      have hc := ha c List.mem_cons_self
      have hcr : c.toNat ≠ 0xD := by
        intro h
        simp [foreignBreak, h] at hc
      rw [List.cons_append, lineFeeds, if_neg (fun h => hcr h.1), if_neg (by simp [hc]),
        ih (fun d hd => ha d (List.mem_cons_of_mem _ hd))]
      rfl

theorem lineFeeds_eq_self {text : List Char} (h : ∀ c ∈ text, foreignBreak c = false) :
    lineFeeds text = text := by
  have := lineFeeds_append h []
  rwa [List.append_nil, lineFeeds, List.append_nil] at this

/-- A text in front of something other than a line feed can be read by itself. -/
theorem lineFeeds_append_cons (a : List Char) {c : Char} (hc : c ≠ '\n') (b : List Char) :
    lineFeeds (a ++ c :: b) = lineFeeds a ++ lineFeeds (c :: b) := by
  induction a with
  | nil => rfl
  | cons d ds ih =>
      have hhead : (ds ++ c :: b).head? = some '\n' ↔ ds.head? = some '\n' := by
        cases ds with
        | nil => simp [hc]
        | cons e es => rfl
      rw [List.cons_append, lineFeeds, lineFeeds, ih]
      simp only [hhead]
      split_ifs <;> rfl

theorem count_quote_lineFeeds (text : List Char) : (lineFeeds text).count quote = text.count quote := by
  have hfeed : ('\n' == quote) = false := by decide
  have hforeign : ∀ c : Char, foreignBreak c → (c == quote) = false := by
    intro c hc
    have : c ≠ quote := by
      rintro rfl
      revert hc
      decide
    simpa using this
  induction text with
  | nil => rfl
  | cons c cs ih =>
      rw [lineFeeds]
      split_ifs with hcrlf hc
      · have : foreignBreak c := by simp [foreignBreak, hcrlf.1]
        simp [List.count_cons, ih, hforeign c this]
      · simp [List.count_cons, ih, hforeign c hc, hfeed]
      · simp [List.count_cons, ih]

/-! ### What a gap loses -/

/-- The size of a text, for a size of each character. -/
def weight (size : Char → ℕ) (text : List Char) : ℕ := (text.map size).sum

@[simp]
theorem weight_nil (size : Char → ℕ) : weight size [] = 0 := rfl

theorem weight_append (size : Char → ℕ) (a b : List Char) :
    weight size (a ++ b) = weight size a + weight size b := by
  simp [weight]

@[simp]
theorem weight_singleton (size : Char → ℕ) (c : Char) : weight size [c] = size c := by
  simp [weight]

theorem weight_cons (size : Char → ℕ) (c : Char) (text : List Char) :
    weight size (c :: text) = size c + weight size text := by
  simp [weight]

/-- A line feed counts twice. -/
def feedsTwice (c : Char) : ℕ := if c = '\n' then 2 else 1

theorem feedsTwice_pos (c : Char) : 0 < feedsTwice c := by
  unfold feedsTwice
  split_ifs <;> omega

theorem weight_feedsTwice_pos {text : List Char} (h : text ≠ []) : 0 < weight feedsTwice text := by
  obtain ⟨c, cs, rfl⟩ := List.exists_cons_of_ne_nil h
  rw [weight_cons]
  have := feedsTwice_pos c
  omega

namespace Gap

/-- A gap is not larger than its text, as long as a space is not larger than a line feed. -/
theorem weight_text_add {size : Char → ℕ} (hsize : size ' ' ≤ size '\n') (g : Gap) (c : Char) :
    weight size (g.add c).text ≤ weight size g.text + size c := by
  cases g with
  | spaces blanks =>
      simp only [add]
      split_ifs with hc
      · by_cases hfeed : c = '\n'
        · subst hfeed
          exact (weight_singleton size ' ').le.trans (hsize.trans (Nat.le_add_left _ _))
        · simp only [text, if_pos hfeed, weight_singleton]
          exact Nat.le_add_left _ _
      · rw [text, text, weight_append, weight_singleton]
  | breaks leading trailing =>
      simp only [add]
      split_ifs with hc
      · by_cases hlead : leading = '\n'
        · simp only [text, hlead, ne_eq, not_true_eq_false, if_false, List.append_eq_nil_iff,
            List.cons_ne_self, and_false]
          split_ifs with ht
          · rw [ht, List.nil_append, weight_singleton]
            exact Nat.le_add_left _ _
          · rw [weight_append, weight_singleton]
        · simp only [text, ne_eq, hlead, not_false_eq_true, if_true]
          rw [← List.cons_append, weight_append, weight_singleton]
      · exact Nat.le_add_right _ _

theorem mem_text_add {g : Gap} {c d : Char} (h : d ∈ (g.add c).text) : d ∈ g.text ∨ d = c ∨ d = ' ' := by
  cases g with
  | spaces blanks =>
      simp only [add] at h
      split_ifs at h with hc
      · simp only [text] at h
        split_ifs at h <;> simp_all
      · rw [text, List.mem_append, List.mem_singleton] at h
        exact h.imp_right .inl
  | breaks leading trailing =>
      simp only [add] at h
      split_ifs at h with hc
      · simp only [text] at h ⊢
        split_ifs at h ⊢ <;> simp_all <;> tauto
      · exact .inl h

/-- The gap behind a character, if nothing was lost. -/
def After (a : Char) : Gap → Prop
  | spaces blanks => lineBreak a = false ∧ (blanks = [] ↔ blank a = false)
  | breaks leading _ => lineBreak a ∧ leading ≠ '\n'

/-- A blank or a line break that can follow is kept. -/
theorem After.add {a c : Char} {g : Gap} (h : g.After a) (hc : blank c ∨ lineBreak c) (hj : Joined a c) :
    (g.add c).text = g.text ++ [c] ∧ (g.add c).After c := by
  obtain ⟨hblank, hbreak, hfeed⟩ := hj
  cases g with
  | spaces blanks =>
      obtain ⟨ha, hnil⟩ := h
      by_cases hc' : lineBreak c
      · have hblanks : blanks = [] := by
          rw [hnil, ← Bool.not_eq_true]
          intro h
          rw [hblank h] at hc'
          cases hc'
        have hne : c ≠ '\n' := fun h => by simp [hfeed h] at ha
        simp only [Gap.add, if_pos hc', text, if_pos hne, hblanks]
        exact ⟨rfl, hc', hne⟩
      · simp only [Gap.add, hc', Bool.false_eq_true, if_false]
        exact ⟨rfl, by simpa using hc', by simp [hc.resolve_right hc']⟩
  | breaks leading trailing =>
      obtain ⟨ha, hlead⟩ := h
      have hc' : lineBreak c := hc.resolve_left (by simp [hbreak ha])
      simp only [Gap.add, if_pos hc', text, if_pos hlead]
      exact ⟨rfl, hc', hlead⟩

/-- One that cannot is lost, or something in front of it. -/
theorem After.lost {a c : Char} {g : Gap} (h : g.After a) (hc : blank c ∨ lineBreak c)
    (hj : ¬ Joined a c) :
    weight feedsTwice (g.add c).text < weight feedsTwice g.text + feedsTwice c := by
  cases g with
  | spaces blanks =>
      obtain ⟨ha, hnil⟩ := h
      have hc' : lineBreak c := by
        by_contra hc'
        refine hj ⟨fun _ => by simpa using hc', fun h => by simp [ha] at h, ?_⟩
        rintro rfl
        exact absurd (by decide) hc'
      simp only [Gap.add, if_pos hc']
      by_cases hfeed : c = '\n'
      · subst hfeed
        exact Nat.lt_of_lt_of_le (by decide : weight feedsTwice (breaks '\n' []).text < feedsTwice '\n')
          (Nat.le_add_left _ _)
      · have hblanks : blanks ≠ [] := by
          rw [Ne, hnil]
          intro hblank
          exact hj ⟨fun h => by simp [hblank] at h, fun h => by simp [ha] at h, fun h => absurd h hfeed⟩
        simp only [text, if_pos hfeed, weight_singleton]
        have := weight_feedsTwice_pos hblanks
        omega
  | breaks leading trailing =>
      obtain ⟨ha, hlead⟩ := h
      have hc' : lineBreak c = false := by
        by_contra hc'
        rw [Bool.not_eq_false] at hc'
        refine hj ⟨fun h => ?_, fun _ => ?_, fun _ => ha⟩
        · rw [lineBreak_of_blank h] at ha
          cases ha
        · by_contra hblank
          rw [Bool.not_eq_false] at hblank
          rw [lineBreak_of_blank hblank] at hc'
          cases hc'
      simp only [Gap.add, hc', Bool.false_eq_true, if_false]
      have := feedsTwice_pos c
      omega

end Gap

/-! ### Scanning -/

namespace Scalar
variable {s s' : Scalar} {c : Char} {text : List Char}

theorem out_push (s : Scalar) (c : Char) : (s.push c).out = s.out ++ [c] := by
  simp [push, out, Gap.text]

/-- What a character does to the scanner. -/
theorem read_cases (h : s.read c = some s') :
    ((blank c ∨ lineBreak c) ∧ indicator s.line = false ∧
      s' = ⟨s.value, s.gap.add c, if lineBreak c then [] else s.line ++ [c]⟩) ∨
      (¬ (blank c ∨ lineBreak c) ∧ s' = s.push c) := by
  unfold read at h
  by_cases hc : blank c ∨ lineBreak c
  · rw [if_pos hc] at h
    by_cases hind : indicator s.line
    · rw [if_pos hind] at h
      cases h
    · rw [if_neg hind] at h
      exact .inl ⟨hc, by simpa using hind, (Option.some.inj h).symm⟩
  · rw [if_neg hc] at h
    exact .inr ⟨hc, (Option.some.inj h).symm⟩

theorem read_line (h : s.read c = some s') : s'.line = if lineBreak c then [] else s.line ++ [c] := by
  obtain ⟨-, -, rfl⟩ | ⟨hc, rfl⟩ := read_cases h
  · rfl
  · rw [if_neg (fun h => hc (.inr h))]
    rfl

section weight
variable (size : Char → ℕ) (hsize : size ' ' ≤ size '\n')
include hsize

theorem read_weight (h : s.read c = some s') : weight size s'.out ≤ weight size s.out + size c := by
  obtain ⟨-, -, rfl⟩ | ⟨-, rfl⟩ := read_cases h
  · simp only [out, weight_append]
    have := s.gap.weight_text_add hsize c
    omega
  · rw [out_push, weight_append, weight_singleton]

/-- The value is not larger than the text. -/
theorem scan_weight (h : s.scan text = some s') :
    weight size s'.out ≤ weight size s.out + weight size text := by
  induction text generalizing s with
  | nil =>
      cases h
      exact Nat.le_add_right _ _
  | cons c cs ih =>
      rw [scan_cons, Option.bind_eq_some_iff] at h
      obtain ⟨s₁, hread, hscan⟩ := h
      have h₁ := read_weight size hsize hread
      have h₂ := ih hscan
      rw [weight_cons]
      omega

end weight

/-- No quotes are added by other characters. -/
theorem read_count (hc : c ≠ quote) (h : s.read c = some s') :
    s'.out.count quote ≤ s.out.count quote := by
  have hcount : ∀ t : List Char, weight (fun c => if c = quote then 1 else 0) t = t.count quote := by
    intro t
    induction t with
    | nil => rfl
    | cons d ds ih => rw [weight_cons, ih, List.count_cons, Nat.add_comm]; simp only [beq_iff_eq]
  have := read_weight (fun c => if c = quote then 1 else 0) (by decide) h
  rwa [hcount, hcount, if_neg hc, Nat.add_zero] at this

/-- The characters of a value are those of the text, or spaces. -/
theorem mem_out_of_scan (h : s.scan text = some s') {d : Char} (hd : d ∈ s'.out) :
    d ∈ s.out ∨ d ∈ text ∨ d = ' ' := by
  induction text generalizing s with
  | nil =>
      cases h
      exact .inl hd
  | cons c cs ih =>
      rw [scan_cons, Option.bind_eq_some_iff] at h
      obtain ⟨s₁, hread, hscan⟩ := h
      have hread' : d ∈ s₁.out → d ∈ s.out ∨ d = c ∨ d = ' ' := by
        obtain ⟨-, -, rfl⟩ | ⟨-, rfl⟩ := read_cases hread
        · simp only [out, List.mem_append]
          rintro (h | h)
          · exact .inl (.inl h)
          · exact (Gap.mem_text_add h).imp_left .inr
        · rw [out_push, List.mem_append, List.mem_singleton]
          exact Or.imp_right .inl
      rw [List.mem_cons]
      obtain h | h | h := ih hscan
      · exact (hread' h).imp_right (Or.imp_left .inl)
      · exact .inr (.inl (.inr h))
      · exact .inr (.inr h)

/-- A character that can follow is kept. -/
theorem read_joined {a : Char} (hs : s.gap.After a) (hj : Joined a c)
    (hind : blank c ∨ lineBreak c → indicator s.line = false) :
    ∃ s', s.read c = some s' ∧ s'.out = s.out ++ [c] ∧ s'.gap.After c := by
  unfold read
  by_cases hc : blank c ∨ lineBreak c
  · obtain ⟨htext, hafter⟩ := hs.add hc hj
    rw [if_pos hc, if_neg (by simp [hind hc])]
    exact ⟨_, rfl, by simp only [out, htext, List.append_assoc], hafter⟩
  · rw [if_neg hc]
    rw [not_or, Bool.not_eq_true, Bool.not_eq_true] at hc
    exact ⟨_, rfl, out_push s c, hc.2, by simp [hc.1]⟩

/-- One that cannot makes the value shorter than the text for good. -/
theorem read_lost {a : Char} (hs : s.gap.After a) (hj : ¬ Joined a c) (h : s.read c = some s') :
    weight feedsTwice s'.out < weight feedsTwice s.out + feedsTwice c := by
  obtain ⟨hc, -, rfl⟩ | ⟨hc, -⟩ := read_cases h
  · have := hs.lost hc hj
    simp only [out, weight_append]
    omega
  · rw [not_or, Bool.not_eq_true, Bool.not_eq_true] at hc
    refine absurd ⟨fun _ => hc.2, fun _ => hc.1, ?_⟩ hj
    rintro rfl
    exact absurd hc.2 (by decide)

/-- If nothing is lost, all characters can follow each other. -/
theorem joined_of_scan {a : Char} (hs : s.gap.After a) (h : s.scan text = some s')
    (hw : weight feedsTwice s'.out = weight feedsTwice s.out + weight feedsTwice text) :
    (a :: text).IsChain Joined := by
  induction text generalizing a s with
  | nil => exact .singleton a
  | cons c cs ih =>
      rw [scan_cons, Option.bind_eq_some_iff] at h
      obtain ⟨s₁, hread, hscan⟩ := h
      have hle := scan_weight feedsTwice (by decide) hscan
      rw [weight_cons] at hw
      by_cases hj : Joined a c
      · have hind : blank c ∨ lineBreak c → indicator s.line = false := by
          intro hc
          obtain ⟨-, hind, -⟩ | ⟨hc', -⟩ := read_cases hread
          · exact hind
          · exact absurd hc hc'
        obtain ⟨s₂, hread', hout, hafter⟩ := read_joined hs hj hind
        obtain rfl := Option.some.inj (hread'.symm.trans hread)
        have hweight : weight feedsTwice s₂.out = weight feedsTwice s.out + feedsTwice c := by
          rw [hout, weight_append, weight_singleton]
        exact .cons_cons hj (ih hafter hscan (by omega))
      · have := read_lost hs hj hread
        omega

/-! ### Document indicators -/

/-- The last line of a text that continues a line. -/
def lineAfter (line text : List Char) : List Char :=
  text.foldl (fun line c => if lineBreak c then [] else line ++ [c]) line

theorem lineAfter_append_singleton (line text : List Char) (c : Char) :
    lineAfter line (text ++ [c]) = if lineBreak c then [] else lineAfter line text ++ [c] := by
  rw [lineAfter, List.foldl_append]
  rfl

/-- A text without line breaks continues the line, and another one has a last line of its own. -/
theorem lineAfter_cases (line text : List Char) :
    lineAfter line text = line ++ text ∨
      ∃ front b, text = front ++ b :: lineAfter line text ∧ lineBreak b := by
  induction text using List.reverseRecOn with
  | nil => exact .inl (List.append_nil _).symm
  | append_singleton text c ih =>
      rw [lineAfter_append_singleton]
      by_cases hc : lineBreak c
      · rw [if_pos hc]
        exact .inr ⟨text, c, rfl, hc⟩
      · rw [if_neg hc]
        obtain h | ⟨front, b, h, hb⟩ := ih
        · left
          rw [h, List.append_assoc]
        · right
          refine ⟨front, b, ?_, hb⟩
          rw [← List.cons_append, ← List.append_assoc, ← h]

theorem lineAfter_break (line front : List Char) {b : Char} (hb : lineBreak b) {last : List Char}
    (hlast : indicator last) : lineAfter line (front ++ b :: last) = last := by
  have hline : ∀ l, last.foldl (fun line c => if lineBreak c then [] else line ++ [c]) l = l ++ last := by
    simp only [indicator, decide_eq_true_eq] at hlast
    obtain rfl | rfl := hlast
    · simp [lineBreak]
    · simp [lineBreak]
  rw [lineAfter, List.foldl_append, List.foldl_cons, if_pos hb, hline, List.nil_append]

/-- A blank or a line break of the text is behind a document indicator. -/
def MarkedFrom (line text : List Char) : Prop :=
  ∃ front c rest, text = front ++ c :: rest ∧ (blank c ∨ lineBreak c) ∧ indicator (lineAfter line front)

theorem markedFrom_iff (text : List Char) : MarkedFrom [quote] text ↔ Marked text := by
  constructor
  · rintro ⟨front, c, rest, rfl, hc, hind⟩
    obtain h | ⟨front', b, h, hb⟩ := lineAfter_cases [quote] front
    · rw [h] at hind
      revert hind
      simp only [indicator, decide_eq_true_eq, List.cons_append, List.nil_append]
      rintro (hind | hind)
      · exact absurd (List.cons.inj hind).1 (by decide)
      · exact absurd (List.cons.inj hind).1 (by decide)
    · refine ⟨front', b, lineAfter [quote] front, c, rest, ?_, hb, hind, hc⟩
      rw [← List.cons_append, ← List.append_assoc, ← h]
  · rintro ⟨front, b, line, c, rest, rfl, hb, hind, hc⟩
    refine ⟨front ++ b :: line, c, rest, by simp, hc, ?_⟩
    rw [lineAfter_break _ _ hb hind]
    exact hind

theorem markedFrom_cons {line : List Char} :
    MarkedFrom line (c :: text) ↔ ((blank c ∨ lineBreak c) ∧ indicator line) ∨
      MarkedFrom (if lineBreak c then [] else line ++ [c]) text := by
  constructor
  · rintro ⟨front, d, rest, h, hd, hind⟩
    cases front with
    | nil =>
        obtain ⟨rfl, rfl⟩ := List.cons.inj h
        exact .inl ⟨hd, hind⟩
    | cons e front =>
        obtain ⟨rfl, rfl⟩ := List.cons.inj h
        exact .inr ⟨front, d, rest, rfl, hd, hind⟩
  · rintro (⟨hc, hind⟩ | ⟨front, d, rest, rfl, hd, hind⟩)
    · exact ⟨[], c, text, rfl, hc, hind⟩
    · exact ⟨c :: front, d, rest, rfl, hd, hind⟩

theorem not_markedFrom_of_scan (h : s.scan text = some s') : ¬ MarkedFrom s.line text := by
  induction text generalizing s with
  | nil => simp [MarkedFrom]
  | cons c cs ih =>
      rw [scan_cons, Option.bind_eq_some_iff] at h
      obtain ⟨s₁, hread, hscan⟩ := h
      rw [markedFrom_cons, ← read_line hread]
      rintro (⟨hc, hind⟩ | h)
      · obtain ⟨-, hind', -⟩ | ⟨hc', -⟩ := read_cases hread
        · rw [hind'] at hind
          cases hind
        · exact hc' hc
      · exact ih hscan h

/-- A text whose characters can follow each other is kept. -/
theorem scan_of_joined {a : Char} (hs : s.gap.After a) (hj : (a :: text).IsChain Joined)
    (hmark : ¬ MarkedFrom s.line text) : ∃ s', s.scan text = some s' ∧ s'.out = s.out ++ text := by
  induction text generalizing a s with
  | nil => exact ⟨s, rfl, (List.append_nil _).symm⟩
  | cons c cs ih =>
      rw [markedFrom_cons, not_or] at hmark
      rw [List.isChain_cons_cons] at hj
      obtain ⟨s₁, hread, hout, hafter⟩ :=
        read_joined hs hj.1 (fun hc => by simpa using fun h => hmark.1 ⟨hc, h⟩)
      rw [← read_line hread] at hmark
      obtain ⟨s₂, hscan, hout'⟩ := ih hafter hj.2 hmark.2
      refine ⟨s₂, ?_, ?_⟩
      · rw [scan_cons, hread]
        exact hscan
      · rw [hout', hout, List.append_assoc]
        rfl

end Scalar

theorem after_start : Scalar.start.gap.After quote := ⟨by decide, by decide⟩

/-- A text without quotes stands for itself if its characters can follow each other. -/
theorem content_eq_iff (text : List Char) :
    content text = some text ↔ (∀ c ∈ text, foreignBreak c = false) ∧
      (quote :: text).IsChain Joined ∧ ¬ Marked text := by
  constructor
  · intro h
    obtain ⟨s, hscan, hout⟩ := Option.map_eq_some_iff.mp h
    have hforeign : ∀ c ∈ text, foreignBreak c = false := by
      intro c hc
      rw [← hout] at hc
      obtain hc | hc | rfl := Scalar.mem_out_of_scan hscan hc
      · cases hc
      · exact foreignBreak_lineFeeds text c hc
      · decide
    rw [lineFeeds_eq_self hforeign] at hscan
    have hjoined := Scalar.joined_of_scan after_start hscan (by rw [hout]; exact (Nat.zero_add _).symm)
    have hmark := Scalar.not_markedFrom_of_scan hscan
    exact ⟨hforeign, hjoined, fun h => hmark ((Scalar.markedFrom_iff text).mpr h)⟩
  · rintro ⟨hforeign, hjoined, hmark⟩
    obtain ⟨s, hscan, hout⟩ := Scalar.scan_of_joined after_start hjoined
      (fun h => hmark ((Scalar.markedFrom_iff text).mp h))
    rw [content, lineFeeds_eq_self hforeign, hscan, Option.map_some, hout]
    rfl

theorem Verbatim.content_eq {text : List Char} (h : Verbatim text) : content text = some text :=
  (content_eq_iff text).mpr ⟨h.foreignBreak, h.joined, h.unmarked⟩

theorem verbatim_of_content {text : List Char} (hprint : ∀ c ∈ text, printable c) (hq : quote ∉ text)
    (h : content text = some text) : Verbatim text := by
  obtain ⟨hforeign, hjoined, hmark⟩ := (content_eq_iff text).mp h
  exact ⟨hprint, hq, hforeign, hjoined, hmark⟩

end Yaml
end HevTunnel
