import Mathlib.Logic.Relation
import Mathlib.Order.GameAdd
import Mathlib.Data.List.Basic

/-! # Programs that talk over byte streams

A `Prog` is a program with a stream to read from and one to write to.  It asks for a number of
bytes and waits for all of them, writes bytes, and acts on its surroundings; between these it is a
function.

* `Move` is one piece of progress over streams that deliver everything in order: a program gets
  some of the bytes it waits for, or gives away some of those it writes.  `Moves` are several of
  them, and `Returns` is a program run to its end.
* `Runs` is what a program can do over a connection that may fail at any point.
* `Net` connects two programs by two streams, and a `Step` of it is a move of one of them, so its
  runs are all ways to schedule the programs and to cut the streams into pieces.
* `Net.terminates`: no run goes on for ever.  `Net.final_unique`: if one run ends, every run can be
  continued to the same end.  Thus one schedule is enough to know what every schedule does. -/

namespace HevTunnel

/-- Programs over bytes `β` with actions `α` and results `ρ`.  A read continues with the bytes, or
with `none` if it has not got all of them; a write with whether it has written anything. -/
inductive Prog (β α ρ : Type) where
  | ret (r : ρ)
  | recv (n : ℕ) (k : Option (List β) → Prog β α ρ)
  | send (bs : List β) (k : Bool → Prog β α ρ)
  | act (a : α) (k : Prog β α ρ)

namespace Prog
variable {β α ρ σ : Type}

/-- One program after the other. -/
def bind : Prog β α ρ → (ρ → Prog β α σ) → Prog β α σ
  | ret r, f => f r
  | recv n k, f => recv n (fun r => (k r).bind f)
  | send bs k, f => send bs (fun ok => (k ok).bind f)
  | act a k, f => act a (k.bind f)

instance : Monad (Prog β α) where
  pure := ret
  bind := bind

/-- Wait for `n` bytes. -/
def recvAll (n : ℕ) : Prog β α (Option (List β)) := recv n ret

/-- Write all of the bytes. -/
def sendAll (bs : List β) : Prog β α Bool := send bs ret

def perform (a : α) : Prog β α Unit := act a (ret ())

/-! ### Moves of one program -/

/-- `Move p inp out p'`: `p` takes the bytes `inp`, gives the bytes `out` and goes on as `p'`. -/
inductive Move : Prog β α ρ → List β → List β → Prog β α ρ → Prop
  | recv {n : ℕ} {k : Option (List β) → Prog β α ρ} {inp : List β} (hlen : inp.length = n) :
      Move (.recv n k) inp [] (k (some inp))
  | recvPart {n : ℕ} {k : Option (List β) → Prog β α ρ} {inp : List β} (hne : inp ≠ [])
      (hlt : inp.length < n) :
      Move (.recv n k) inp [] (.recv (n - inp.length) (fun r => k (r.map (inp ++ ·))))
  | send {bs : List β} {k : Bool → Prog β α ρ} : Move (.send bs k) [] bs (k true)
  | sendPart {bs out rest : List β} {k : Bool → Prog β α ρ} (hbs : bs = out ++ rest)
      (hne : out ≠ []) (hrest : rest ≠ []) : Move (.send bs k) [] out (.send rest k)
  | act {a : α} {k : Prog β α ρ} : Move (.act a k) [] [] k

/-- `p'` is what `p` becomes by some move. -/
def Next (p' p : Prog β α ρ) : Prop := ∃ inp out, Move p inp out p'

theorem acc_recv (n : ℕ) (k : Option (List β) → Prog β α ρ) (hk : ∀ r, Acc Next (k r)) :
    Acc Next (recv n k) := by
  -- a read that has got a part waits for fewer bytes, with continuations of the same kind
  induction n using Nat.strong_induction_on generalizing k with
  | _ n ih =>
      refine Acc.intro _ ?_
      rintro p' ⟨inp, out, h⟩
      cases h with
      | recv hlen => exact hk _
      | recvPart hne hlt =>
          have hpos := List.length_pos_iff.mpr hne
          exact ih _ (by omega) _ (fun r => hk _)

theorem acc_send (bs : List β) (k : Bool → Prog β α ρ) (hk : ∀ r, Acc Next (k r)) :
    Acc Next (send bs k) := by
  generalize hn : bs.length = n
  induction n using Nat.strong_induction_on generalizing bs with
  | _ n ih =>
      refine Acc.intro _ ?_
      rintro p' ⟨inp, out, h⟩
      cases h with
      | send => exact hk _
      | sendPart hbs hne hrest =>
          have hpos := List.length_pos_iff.mpr hne
          rw [hbs, List.length_append] at hn
          exact ih _ (by omega) _ rfl

/-- A program does not move for ever. -/
theorem acc_next (p : Prog β α ρ) : Acc Next p := by
  induction p with
  | ret r =>
      refine Acc.intro _ ?_
      rintro p' ⟨inp, out, h⟩
      cases h
  | recv n k ih => exact acc_recv n k ih
  | send bs k ih => exact acc_send bs k ih
  | act a k ih =>
      refine Acc.intro _ ?_
      rintro p' ⟨inp, out, h⟩
      cases h
      exact ih

/-- The second move is the first one, or the first one and another move. -/
def Extends (i₁ o₁ : List β) (p₁ : Prog β α ρ) (i₂ o₂ : List β) (p₂ : Prog β α ρ) : Prop :=
  ∃ i o, i₂ = i₁ ++ i ∧ o₂ = o₁ ++ o ∧ ((i = [] ∧ o = [] ∧ p₁ = p₂) ∨ Move p₁ i o p₂)

theorem Extends.refl (i o : List β) (p : Prog β α ρ) : Extends i o p i o p :=
  ⟨[], [], by simp, by simp, .inl ⟨rfl, rfl, rfl⟩⟩

/-- A read that takes more extends one that takes less. -/
theorem extends_recv {n : ℕ} {k : Option (List β) → Prog β α ρ} {p₁ p₂ : Prog β α ρ}
    {i₁ i o₁ o₂ : List β} (h₁ : Move (recv n k) i₁ o₁ p₁) (h₂ : Move (recv n k) (i₁ ++ i) o₂ p₂) :
    Extends i₁ o₁ p₁ (i₁ ++ i) o₂ p₂ := by
  refine ⟨i, [], rfl, ?_, ?_⟩
  · cases h₁ <;> cases h₂ <;> rfl
  · cases h₁ with
    | recv hlen₁ =>
        cases h₂ with
        | recv hlen₂ =>
            obtain rfl : i = [] := List.length_eq_zero_iff.mp (by rw [List.length_append] at hlen₂; omega)
            exact .inl ⟨rfl, rfl, by rw [List.append_nil]⟩
        | recvPart hne₂ hlt₂ =>
            rw [List.length_append] at hlt₂
            omega
    | recvPart hne₁ hlt₁ =>
        cases h₂ with
        | recv hlen₂ =>
            rw [List.length_append] at hlen₂
            exact .inr (.recv (by omega))
        | recvPart hne₂ hlt₂ =>
            obtain rfl | hi := eq_or_ne i []
            · refine .inl ⟨rfl, rfl, ?_⟩
              simp only [List.append_nil]
            · -- the bytes read so far are put before those to come, piece by piece
              have hk : (fun r : Option (List β) => k (r.map (i₁ ++ i ++ ·)))
                  = fun r => k ((r.map (i ++ ·)).map (i₁ ++ ·)) := by
                funext r
                rw [Option.map_map]
                congr 2
                funext l
                exact List.append_assoc _ _ _
              rw [List.length_append] at hlt₂ ⊢
              rw [hk, Nat.sub_add_eq]
              exact .inr (.recvPart hi (by omega))

theorem extends_send {bs : List β} {k : Bool → Prog β α ρ} {p₁ p₂ : Prog β α ρ}
    {i₁ i₂ o₁ o₂ : List β} (h₁ : Move (send bs k) i₁ o₁ p₁) (h₂ : Move (send bs k) i₂ o₂ p₂) :
    Extends i₁ o₁ p₁ i₂ o₂ p₂ ∨ Extends i₂ o₂ p₂ i₁ o₁ p₁ := by
  cases h₁ with
  | send =>
      cases h₂ with
      | send => exact .inl (.refl _ _ _)
      | sendPart hbs₂ hne₂ hrest₂ => exact .inr ⟨[], _, rfl, hbs₂, .inr .send⟩
  | sendPart hbs₁ hne₁ hrest₁ =>
      cases h₂ with
      | send => exact .inl ⟨[], _, rfl, hbs₁, .inr .send⟩
      | sendPart hbs₂ hne₂ hrest₂ =>
          obtain ⟨o, ho, hrest⟩ | ⟨o, ho, hrest⟩ := List.append_eq_append_iff.mp (hbs₁.symm.trans hbs₂)
          · obtain rfl | hne := eq_or_ne o []
            · rw [List.append_nil] at ho
              rw [List.nil_append] at hrest
              rw [ho, hrest]
              exact .inl (.refl _ _ _)
            · exact .inl ⟨[], o, rfl, ho, .inr (.sendPart hrest hne hrest₂)⟩
          · obtain rfl | hne := eq_or_ne o []
            · rw [List.append_nil] at ho
              rw [List.nil_append] at hrest
              rw [ho, hrest]
              exact .inl (.refl _ _ _)
            · exact .inr ⟨[], o, rfl, ho, .inr (.sendPart hrest hne hrest₁)⟩

/-- Of two moves over the same input, one extends the other. -/
theorem Move.extends_or {p p₁ p₂ : Prog β α ρ} {i₁ i₂ o₁ o₂ d₁ d₂ : List β} (h₁ : Move p i₁ o₁ p₁)
    (h₂ : Move p i₂ o₂ p₂) (hin : i₁ ++ d₁ = i₂ ++ d₂) :
    Extends i₁ o₁ p₁ i₂ o₂ p₂ ∨ Extends i₂ o₂ p₂ i₁ o₁ p₁ := by
  cases p with
  | ret r => cases h₁
  | recv n k =>
      obtain ⟨i, rfl, -⟩ | ⟨i, rfl, -⟩ := List.append_eq_append_iff.mp hin
      · exact .inl (extends_recv h₁ h₂)
      · exact .inr (extends_recv h₂ h₁)
  | send bs k => exact extends_send h₁ h₂
  | act a k =>
      cases h₁
      cases h₂
      exact .inl (.refl _ _ _)

/-! ### Programs run to their end -/

/-- Several moves, one after the other. -/
inductive Moves : Prog β α ρ → List β → List β → Prog β α ρ → Prop
  | refl (p : Prog β α ρ) : Moves p [] [] p
  | head {p p' p'' : Prog β α ρ} {i o i' o' : List β} :
      Move p i o p' → Moves p' i' o' p'' → Moves p (i ++ i') (o ++ o') p''

/-- `p` takes the bytes `inp`, gives the bytes `out` and returns `r`. -/
def Returns (p : Prog β α ρ) (inp out : List β) (r : ρ) : Prop := Moves p inp out (.ret r)

theorem Move.bind {p p' : Prog β α ρ} {i o : List β} (f : ρ → Prog β α σ) (h : Move p i o p') :
    Move (p >>= f) i o (p' >>= f) := by
  cases h with
  | recv hlen => exact .recv hlen
  | recvPart hne hlt => exact .recvPart hne hlt
  | send => exact .send
  | sendPart hbs hne hrest => exact .sendPart hbs hne hrest
  | act => exact .act

theorem Moves.bind {p p' : Prog β α ρ} {i o : List β} (f : ρ → Prog β α σ) (h : Moves p i o p') :
    Moves (p >>= f) i o (p' >>= f) := by
  induction h with
  | refl p => exact .refl _
  | head hm _ ih => exact .head (hm.bind f) ih

theorem Moves.trans {p p' p'' : Prog β α ρ} {i o i' o' : List β} (h : Moves p i o p')
    (h' : Moves p' i' o' p'') : Moves p (i ++ i') (o ++ o') p'' := by
  induction h with
  | refl p => exact h'
  | head hm _ ih =>
      rw [List.append_assoc, List.append_assoc]
      exact .head hm (ih h')

/-- The first of two programs returns and the second one goes on. -/
theorem Returns.moves {p : Prog β α ρ} {i o : List β} {r : ρ} (h : Returns p i o r)
    (f : ρ → Prog β α σ) : Moves (p >>= f) i o (f r) :=
  Moves.bind f h

theorem Returns.bind {p : Prog β α ρ} {i o i' o' : List β} {r : ρ} {f : ρ → Prog β α σ} {x : σ}
    (h : Returns p i o r) (h' : Returns (f r) i' o' x) : Returns (p >>= f) (i ++ i') (o ++ o') x :=
  (h.moves f).trans h'

/-- A second program that neither reads nor writes. -/
theorem Returns.bind_last {p : Prog β α ρ} {i o : List β} {r : ρ} {f : ρ → Prog β α σ} {x : σ}
    (h : Returns p i o r) (h' : Returns (f r) [] [] x) : Returns (p >>= f) i o x := by
  have := h.bind h'
  rwa [List.append_nil, List.append_nil] at this

theorem returns_ret (r : ρ) : Returns (.ret r : Prog β α ρ) [] [] r := .refl _

theorem returns_recvAll {n : ℕ} {inp : List β} (hlen : inp.length = n) :
    Returns (recvAll n : Prog β α _) inp [] (some inp) := by
  have h : Moves (recvAll n : Prog β α _) (inp ++ []) [] (ret (some inp)) :=
    .head (.recv hlen) (.refl _)
  rwa [List.append_nil] at h

theorem returns_sendAll (bs : List β) : Returns (sendAll bs : Prog β α _) [] bs true := by
  have h : Moves (sendAll bs : Prog β α _) [] (bs ++ []) (ret true) := .head .send (.refl _)
  rwa [List.append_nil] at h

theorem returns_perform (a : α) : Returns (perform a : Prog β α _) [] [] () :=
  .head .act (.refl _)

theorem Returns.recv_bind {n : ℕ} {f : Option (List β) → Prog β α ρ} (inp : List β) {i o : List β}
    {r : ρ} (hlen : inp.length = n) (h : Returns (f (some inp)) i o r) :
    Returns (recvAll n >>= f) (inp ++ i) o r :=
  (returns_recvAll hlen).bind h

/-- A read behind which nothing more is read. -/
theorem Returns.recv_last {n : ℕ} {f : Option (List β) → Prog β α ρ} {inp o : List β} {r : ρ}
    (hlen : inp.length = n) (h : Returns (f (some inp)) [] o r) : Returns (recvAll n >>= f) inp o r := by
  have := Returns.recv_bind inp hlen h
  rwa [List.append_nil] at this

/-- A write behind which nothing more happens. -/
theorem Returns.send_last {bs : List β} {f : Bool → Prog β α ρ} {r : ρ}
    (h : Returns (f true) [] [] r) : Returns (sendAll bs >>= f) [] bs r :=
  (returns_sendAll bs).bind_last h

theorem Returns.perform_bind {a : α} {f : Unit → Prog β α ρ} {i o : List β} {r : ρ}
    (h : Returns (f ()) i o r) : Returns (perform a >>= f) i o r :=
  (returns_perform a).bind h

/-! ### Programs over any connection -/

/-- What a program does that can be seen from outside. -/
inductive Event (β α : Type) where
  | send (bs : List β)
  | act (a : α)
deriving DecidableEq

/-- `Runs p inp tr r`: over a connection that may end or fail anywhere, `p` can take the bytes `inp`
and leave the trace `tr`, and then return `r` or, for `none`, be still waiting. -/
inductive Runs : Prog β α ρ → List β → List (Event β α) → Option ρ → Prop
  | wait (p : Prog β α ρ) : Runs p [] [] none
  | ret (x : ρ) : Runs (.ret x) [] [] (some x)
  | recv {n : ℕ} {k : Option (List β) → Prog β α ρ} {inp i : List β} {tr : List (Event β α)}
      {r : Option ρ} (hlen : inp.length = n) (h : Runs (k (some inp)) i tr r) :
      Runs (.recv n k) (inp ++ i) tr r
  | recvFail {n : ℕ} {k : Option (List β) → Prog β α ρ} {inp i : List β} {tr : List (Event β α)}
      {r : Option ρ} (hlen : inp.length ≤ n) (h : Runs (k none) i tr r) :
      Runs (.recv n k) (inp ++ i) tr r
  | send {bs : List β} {k : Bool → Prog β α ρ} {i : List β} {tr : List (Event β α)} {r : Option ρ}
      (ok : Bool) (h : Runs (k ok) i tr r) : Runs (.send bs k) i (.send bs :: tr) r
  | act {a : α} {k : Prog β α ρ} {i : List β} {tr : List (Event β α)} {r : Option ρ}
      (h : Runs k i tr r) : Runs (.act a k) i (.act a :: tr) r

section runs
variable {i : List β} {tr : List (Event β α)} {r : Option σ}

theorem Runs.of_ret {x : σ} (h : Runs (.ret x : Prog β α σ) i tr r) :
    i = [] ∧ tr = [] ∧ (r = none ∨ r = some x) := by
  cases h with
  | wait => exact ⟨rfl, rfl, .inl rfl⟩
  | ret => exact ⟨rfl, rfl, .inr rfl⟩

/-- A run of two programs is a run of the first one that returns and a run of the second one, or it
does not get beyond the first one. -/
theorem Runs.of_bind {p : Prog β α ρ} {f : ρ → Prog β α σ} (h : Runs (p >>= f) i tr r) :
    (r = none ∧ Runs p i tr none) ∨
    ∃ x i₁ i₂ tr₁ tr₂, i = i₁ ++ i₂ ∧ tr = tr₁ ++ tr₂ ∧ Runs p i₁ tr₁ (some x) ∧
      Runs (f x) i₂ tr₂ r := by
  induction p generalizing i tr with
  | ret x => exact .inr ⟨x, [], i, [], tr, rfl, rfl, .ret x, h⟩
  | recv n k ih =>
      cases h with
      | wait => exact .inl ⟨rfl, .wait _⟩
      | recv hlen h =>
          obtain ⟨hr, h⟩ | ⟨x, i₁, i₂, tr₁, tr₂, rfl, rfl, h₁, h₂⟩ := ih _ h
          · exact .inl ⟨hr, .recv hlen h⟩
          · exact .inr ⟨x, _, i₂, tr₁, tr₂, (List.append_assoc _ _ _).symm, rfl, .recv hlen h₁, h₂⟩
      | recvFail hlen h =>
          obtain ⟨hr, h⟩ | ⟨x, i₁, i₂, tr₁, tr₂, rfl, rfl, h₁, h₂⟩ := ih _ h
          · exact .inl ⟨hr, .recvFail hlen h⟩
          · exact .inr ⟨x, _, i₂, tr₁, tr₂, (List.append_assoc _ _ _).symm, rfl, .recvFail hlen h₁, h₂⟩
  | send bs k ih =>
      cases h with
      | wait => exact .inl ⟨rfl, .wait _⟩
      | send ok h =>
          obtain ⟨hr, h⟩ | ⟨x, i₁, i₂, tr₁, tr₂, rfl, rfl, h₁, h₂⟩ := ih _ h
          · exact .inl ⟨hr, .send ok h⟩
          · exact .inr ⟨x, i₁, i₂, _ :: tr₁, tr₂, rfl, rfl, .send ok h₁, h₂⟩
  | act a k ih =>
      cases h with
      | wait => exact .inl ⟨rfl, .wait _⟩
      | act h =>
          obtain ⟨hr, h⟩ | ⟨x, i₁, i₂, tr₁, tr₂, rfl, rfl, h₁, h₂⟩ := ih h
          · exact .inl ⟨hr, .act h⟩
          · exact .inr ⟨x, i₁, i₂, _ :: tr₁, tr₂, rfl, rfl, .act h₁, h₂⟩

/-- A read gets all of its bytes, or fails, or has not returned. -/
theorem Runs.of_recv_bind {n : ℕ} {f : Option (List β) → Prog β α σ}
    (h : Runs (recvAll n >>= f) i tr r) :
    (∃ inp i', inp.length = n ∧ i = inp ++ i' ∧ Runs (f (some inp)) i' tr r) ∨
    (∃ i', Runs (f none) i' tr r) ∨ (i = [] ∧ tr = [] ∧ r = none) := by
  cases h with
  | wait => exact .inr (.inr ⟨rfl, rfl, rfl⟩)
  | recv hlen h => exact .inl ⟨_, _, hlen, rfl, h⟩
  | recvFail hlen h => exact .inr (.inl ⟨_, h⟩)

theorem Runs.of_send_bind {bs : List β} {f : Bool → Prog β α σ} (h : Runs (sendAll bs >>= f) i tr r) :
    (∃ ok tr', tr = .send bs :: tr' ∧ Runs (f ok) i tr' r) ∨ (i = [] ∧ tr = [] ∧ r = none) := by
  cases h with
  | wait => exact .inr ⟨rfl, rfl, rfl⟩
  | send ok h => exact .inl ⟨ok, _, rfl, h⟩

end runs

/-! ### Programs that give up -/

/-- A read that does not get its bytes, or a write that writes nothing, makes the program return `x`
at once. -/
def FailsWith (x : ρ) : Prog β α ρ → Prop
  | .ret _ => True
  | .recv _ k => k none = .ret x ∧ ∀ inp, FailsWith x (k (some inp))
  | .send _ k => k false = .ret x ∧ FailsWith x (k true)
  | .act _ k => FailsWith x k

theorem FailsWith.bind {p : Prog β α ρ} {f : ρ → Prog β α σ} {x : ρ} {y : σ} (hp : FailsWith x p)
    (hx : f x = .ret y) (hf : ∀ r, FailsWith y (f r)) : FailsWith y (p >>= f) := by
  show FailsWith y (p.bind f)
  induction p with
  | ret r => exact hf r
  | recv n k ih =>
      refine ⟨?_, fun inp => ih (some inp) (hp.2 inp)⟩
      show (k none).bind f = ret y
      rw [hp.1]
      exact hx
  | send bs k ih =>
      refine ⟨?_, ih true hp.2⟩
      show (k false).bind f = ret y
      rw [hp.1]
      exact hx
  | act a k ih => exact ih hp

theorem FailsWith.recv_bind {n : ℕ} {f : Option (List β) → Prog β α ρ} {x : ρ} (hnone : f none = .ret x)
    (hsome : ∀ inp, FailsWith x (f (some inp))) : FailsWith x (recvAll n >>= f) :=
  ⟨hnone, hsome⟩

theorem FailsWith.send_bind {bs : List β} {f : Bool → Prog β α ρ} {x : ρ} (hfalse : f false = .ret x)
    (htrue : FailsWith x (f true)) : FailsWith x (sendAll bs >>= f) :=
  ⟨hfalse, htrue⟩

/-- A read that has got a part of its bytes still gives up in the same way. -/
theorem FailsWith.recvPart {n m : ℕ} {k : Option (List β) → Prog β α ρ} {x : ρ}
    (h : FailsWith x (.recv n k)) (inp : List β) :
    FailsWith x (.recv m (fun r => k (r.map (inp ++ ·)))) :=
  ⟨h.1, fun _ => h.2 _⟩

end Prog

/-! ### Two programs -/

open Relation Prog

/-- Two programs, each with the bytes that are on their way to it. -/
structure Net (β α₁ ρ₁ α₂ ρ₂ : Type) where
  left : Prog β α₁ ρ₁
  right : Prog β α₂ ρ₂
  /-- From left to right. -/
  up : List β
  /-- From right to left. -/
  down : List β

namespace Net
variable {β α₁ ρ₁ α₂ ρ₂ : Type}

inductive Step (s : Net β α₁ ρ₁ α₂ ρ₂) : Net β α₁ ρ₁ α₂ ρ₂ → Prop
  | left {l : Prog β α₁ ρ₁} {inp out down : List β} (hin : s.down = inp ++ down)
      (hm : Move s.left inp out l) :
      Step s { s with left := l, up := s.up ++ out, down := down }
  | right {r : Prog β α₂ ρ₂} {inp out up : List β} (hin : s.up = inp ++ up)
      (hm : Move s.right inp out r) :
      Step s { s with right := r, up := up, down := s.down ++ out }

abbrev Steps : Net β α₁ ρ₁ α₂ ρ₂ → Net β α₁ ρ₁ α₂ ρ₂ → Prop := ReflTransGen Step

/-- No step is possible any more. -/
def Stuck (s : Net β α₁ ρ₁ α₂ ρ₂) : Prop := ∀ t, ¬ Step s t

theorem steps_left {l l' : Prog β α₁ ρ₁} {i o : List β} (h : Moves l i o l')
    (r : Prog β α₂ ρ₂) (up down : List β) :
    Steps ⟨l, r, up, i ++ down⟩ ⟨l', r, up ++ o, down⟩ := by
  induction h generalizing up with
  | refl p =>
      rw [List.append_nil]
      exact .refl
  | head hm _ ih =>
      rw [List.append_assoc, ← List.append_assoc up]
      exact .head (.left rfl hm) (ih _)

theorem steps_right {r r' : Prog β α₂ ρ₂} {i o : List β} (h : Moves r i o r')
    (l : Prog β α₁ ρ₁) (up down : List β) :
    Steps ⟨l, r, i ++ up, down⟩ ⟨l, r', up, down ++ o⟩ := by
  induction h generalizing down with
  | refl p =>
      rw [List.append_nil]
      exact .refl
  | head hm _ ih =>
      rw [List.append_assoc, ← List.append_assoc down]
      exact .head (.right rfl hm) (ih _)

/-- The left program takes all that is on its way to it, and the right one all that it gives. -/
theorem round {l l' : Prog β α₁ ρ₁} {r r' : Prog β α₂ ρ₂} {i m o : List β} (hl : Moves l i m l')
    (hr : Moves r m o r') : Steps ⟨l, r, [], i⟩ ⟨l', r', [], o⟩ := by
  have h₁ := steps_left hl r [] []
  have h₂ := steps_right hr l' [] []
  rw [List.append_nil] at h₁ h₂
  exact h₁.trans h₂

theorem stuck_of_ret {x : ρ₁} {y : ρ₂} {up down : List β} :
    Stuck (⟨.ret x, .ret y, up, down⟩ : Net β α₁ ρ₁ α₂ ρ₂) := by
  intro t h
  cases h with
  | left hin hm => cases hm
  | right hin hm => cases hm

/-- No run goes on for ever. -/
theorem terminates (s : Net β α₁ ρ₁ α₂ ρ₂) : Acc (fun s' s => Step s s') s := by
  have hacc : Acc (Prod.GameAdd Next Next) (s.left, s.right) :=
    (acc_next s.left).prod_gameAdd (acc_next s.right)
  refine Subrelation.accessible ?_ (InvImage.accessible (fun s => (s.left, s.right)) hacc)
  intro s' s h
  cases h with
  | left hin hm => exact .fst ⟨_, _, hm⟩
  | right hin hm => exact .snd ⟨_, _, hm⟩

section join
variable {s : Net β α₁ ρ₁ α₂ ρ₂} {i₁ i₂ o₁ o₂ rest₁ rest₂ : List β}

/-- Of two steps of the left program, the longer one is the shorter one and another step. -/
theorem join_left {l₁ l₂ : Prog β α₁ ρ₁} (hin : i₁ ++ rest₁ = i₂ ++ rest₂)
    (h : Extends i₁ o₁ l₁ i₂ o₂ l₂) :
    ReflGen Step { s with left := l₁, up := s.up ++ o₁, down := rest₁ }
      { s with left := l₂, up := s.up ++ o₂, down := rest₂ } := by
  obtain ⟨i, o, rfl, rfl, h⟩ := h
  obtain rfl : rest₁ = i ++ rest₂ := by
    rw [List.append_assoc] at hin
    exact List.append_cancel_left hin
  obtain ⟨rfl, rfl, rfl⟩ | hm := h
  · rw [List.append_nil, List.nil_append]
  · rw [← List.append_assoc]
    exact .single (.left rfl hm)

theorem join_right {r₁ r₂ : Prog β α₂ ρ₂} (hin : i₁ ++ rest₁ = i₂ ++ rest₂)
    (h : Extends i₁ o₁ r₁ i₂ o₂ r₂) :
    ReflGen Step { s with right := r₁, up := rest₁, down := s.down ++ o₁ }
      { s with right := r₂, up := rest₂, down := s.down ++ o₂ } := by
  obtain ⟨i, o, rfl, rfl, h⟩ := h
  obtain rfl : rest₁ = i ++ rest₂ := by
    rw [List.append_assoc] at hin
    exact List.append_cancel_left hin
  obtain ⟨rfl, rfl, rfl⟩ | hm := h
  · rw [List.append_nil, List.nil_append]
  · rw [← List.append_assoc]
    exact .single (.right rfl hm)

/-- A step of the left program and one of the right do not get into each other's way. -/
theorem join_both {l : Prog β α₁ ρ₁} {r : Prog β α₂ ρ₂} (hdown : s.down = i₁ ++ rest₁)
    (hl : Move s.left i₁ o₁ l) (hup : s.up = i₂ ++ rest₂) (hr : Move s.right i₂ o₂ r) :
    Step { s with left := l, up := s.up ++ o₁, down := rest₁ }
      ⟨l, r, rest₂ ++ o₁, rest₁ ++ o₂⟩ ∧
    Step { s with right := r, up := rest₂, down := s.down ++ o₂ }
      ⟨l, r, rest₂ ++ o₁, rest₁ ++ o₂⟩ := by
  constructor
  · refine .right ?_ hr
    rw [hup, List.append_assoc]
  · refine .left ?_ hl
    rw [hdown, List.append_assoc]

end join

theorem step_diamond (s s₁ s₂ : Net β α₁ ρ₁ α₂ ρ₂) (h₁ : Step s s₁) (h₂ : Step s s₂) :
    ∃ t, ReflGen Step s₁ t ∧ ReflTransGen Step s₂ t := by
  cases h₁ with
  | left hin₁ hm₁ =>
      cases h₂ with
      | left hin₂ hm₂ =>
          have hin := hin₁.symm.trans hin₂
          obtain h | h := hm₁.extends_or hm₂ hin
          · exact ⟨_, join_left hin h, .refl⟩
          · exact ⟨_, .refl, (join_left hin.symm h).to_reflTransGen⟩
      | right hin₂ hm₂ =>
          obtain ⟨hs₁, hs₂⟩ := join_both hin₁ hm₁ hin₂ hm₂
          exact ⟨_, .single hs₁, .single hs₂⟩
  | right hin₁ hm₁ =>
      cases h₂ with
      | left hin₂ hm₂ =>
          obtain ⟨hs₂, hs₁⟩ := join_both hin₂ hm₂ hin₁ hm₁
          exact ⟨_, .single hs₁, .single hs₂⟩
      | right hin₂ hm₂ =>
          have hin := hin₁.symm.trans hin₂
          obtain h | h := hm₁.extends_or hm₂ hin
          · exact ⟨_, join_right hin h, .refl⟩
          · exact ⟨_, .refl, (join_right hin.symm h).to_reflTransGen⟩

theorem Stuck.eq_of_steps {s t : Net β α₁ ρ₁ α₂ ρ₂} (hs : Stuck s) (h : Steps s t) : s = t := by
  obtain rfl | ⟨u, hu, -⟩ := h.cases_head
  · rfl
  · exact absurd hu (hs u)

/-- If one run ends, every run can be continued to the same end. -/
theorem final_unique {s t u : Net β α₁ ρ₁ α₂ ρ₂} (ht : Steps s t) (hstuck : Stuck t)
    (hu : Steps s u) : Steps u t := by
  obtain ⟨v, htv, huv⟩ := church_rosser step_diamond ht hu
  rwa [hstuck.eq_of_steps htv]

end Net

end HevTunnel
