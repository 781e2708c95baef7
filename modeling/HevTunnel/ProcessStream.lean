import HevTunnel.Process

/-! # Programs on a stream that ends

What a program does on a given stream, when its writes succeed.

* `Prog.run` gets the stream in pieces, as they come from the connection.  A read takes pieces until
  it has all of its bytes; where the stream ends before that it takes the rest and fails.
* `Prog.runBytes` looks at the bytes alone.  The two agree (`run_eq_runBytes`), so how a stream is
  cut into pieces makes no difference to a program. -/

namespace HevTunnel

namespace Prog
variable {β α ρ σ : Type}

/-- What a program returns, what it leaves of its input and what it writes. -/
structure Outcome (ι β ρ : Type) where
  result : ρ
  left : ι
  written : List β

/-- The bytes that a read of `n` takes from the pieces, and the pieces that are left. -/
def fill : ℕ → List (List β) → List β × List (List β)
  | _, [] => ([], [])
  | n, f :: fs =>
      if n < f.length then (f.take n, f.drop n :: fs)
      else
        let (got, rest) := fill (n - f.length) fs
        (f ++ got, rest)

/-- A program on a stream that comes in pieces. -/
def run : Prog β α ρ → List (List β) → Outcome (List (List β)) β ρ
  | ret r, fs => ⟨r, fs, []⟩
  | recv n k, fs =>
      let (got, rest) := fill n fs
      (k (if got.length = n then some got else none)).run rest
  | send bs k, fs =>
      let o := (k true).run fs
      ⟨o.result, o.left, bs ++ o.written⟩
  | act _ k, fs => k.run fs

/-- How many bytes of its stream a program takes. -/
def consumed (p : Prog β α ρ) (fs : List (List β)) : ℕ :=
  fs.flatten.length - (p.run fs).left.flatten.length

/-- A program on the bytes of a stream. -/
def runBytes : Prog β α ρ → List β → Outcome (List β) β ρ
  | ret r, s => ⟨r, s, []⟩
  | recv n k, s => (k (if n ≤ s.length then some (s.take n) else none)).runBytes (s.drop n)
  | send bs k, s =>
      let o := (k true).runBytes s
      ⟨o.result, o.left, bs ++ o.written⟩
  | act _ k, s => k.runBytes s

theorem fill_eq (n : ℕ) (fs : List (List β)) :
    (fill n fs).1 = fs.flatten.take n ∧ (fill n fs).2.flatten = fs.flatten.drop n := by
  induction fs generalizing n with
  | nil => simp [fill]
  | cons f fs ih =>
      rw [fill, List.flatten_cons]
      split_ifs with h
      · simp only [List.flatten_cons]
        rw [List.take_append_of_le_length h.le, List.drop_append_of_le_length h.le]
        exact ⟨rfl, rfl⟩
      · obtain ⟨h₁, h₂⟩ := ih (n - f.length)
        rw [List.take_append, List.drop_append, List.take_of_length_le (Nat.le_of_not_lt h),
          List.drop_of_length_le (Nat.le_of_not_lt h)]
        exact ⟨by rw [← h₁], by rw [List.nil_append, ← h₂]⟩

/-- How the stream is cut into pieces does not matter. -/
theorem run_eq_runBytes (p : Prog β α ρ) (fs : List (List β)) :
    (p.run fs).result = (p.runBytes fs.flatten).result ∧
    (p.run fs).left.flatten = (p.runBytes fs.flatten).left ∧
    (p.run fs).written = (p.runBytes fs.flatten).written := by
  induction p generalizing fs with
  | ret r => exact ⟨rfl, rfl, rfl⟩
  | recv n k ih =>
      obtain ⟨h₁, h₂⟩ := fill_eq n fs
      have hlen : (fs.flatten.take n).length = n ↔ n ≤ fs.flatten.length := by
        rw [List.length_take]
        omega
      have := ih (if n ≤ fs.flatten.length then some (fs.flatten.take n) else none) (fill n fs).2
      rw [h₂] at this
      simp only [run, runBytes, h₁, hlen]
      exact this
  | send bs k ih =>
      obtain ⟨h₁, h₂, h₃⟩ := ih true fs
      exact ⟨h₁, h₂, congrArg (bs ++ ·) h₃⟩
  | act a k ih => exact ih fs

theorem consumed_eq (p : Prog β α ρ) (fs : List (List β)) :
    p.consumed fs = fs.flatten.length - (p.runBytes fs.flatten).left.length := by
  rw [consumed, (p.run_eq_runBytes fs).2.1]

/-- One program after the other. -/
theorem runBytes_bind (p : Prog β α ρ) (f : ρ → Prog β α σ) (s : List β) :
    (p >>= f).runBytes s =
      ⟨((f (p.runBytes s).result).runBytes (p.runBytes s).left).result,
        ((f (p.runBytes s).result).runBytes (p.runBytes s).left).left,
        (p.runBytes s).written ++
          ((f (p.runBytes s).result).runBytes (p.runBytes s).left).written⟩ := by
  show (p.bind f).runBytes s = _
  induction p generalizing s with
  | ret r => rfl
  | recv n k ih => exact ih _ _
  | send bs k ih =>
      simp only [Prog.bind, runBytes]
      rw [ih, List.append_assoc]
  | act a k ih => exact ih s

/-- A stream is too short for a read, or starts with its bytes. -/
theorem short_or_append (n : ℕ) (s : List β) :
    s.length < n ∨ ∃ inp rest, inp.length = n ∧ s = inp ++ rest := by
  obtain h | h := Nat.lt_or_ge s.length n
  · exact .inl h
  · exact .inr ⟨s.take n, s.drop n, List.length_take_of_le h, (List.take_append_drop n s).symm⟩

theorem runBytes_recv_bind {n : ℕ} {f : Option (List β) → Prog β α ρ} {inp : List β}
    (hlen : inp.length = n) (rest : List β) :
    (recvAll n >>= f).runBytes (inp ++ rest) = (f (some inp)).runBytes rest := by
  subst hlen
  show (f _).runBytes _ = _
  rw [if_pos (by simp), List.take_left, List.drop_left]

theorem runBytes_recv_short {n : ℕ} {f : Option (List β) → Prog β α ρ} {s : List β}
    (h : s.length < n) : (recvAll n >>= f).runBytes s = (f none).runBytes [] := by
  show (f _).runBytes _ = _
  rw [if_neg (Nat.not_le.mpr h), List.drop_of_length_le h.le]

/-- A read has got its bytes if the result is not the one of a read that fails. -/
theorem recv_of_result_ne {n : ℕ} {f : Option (List β) → Prog β α ρ} {s : List β} {r : ρ}
    (h : ((recvAll n >>= f).runBytes s).result ≠ r) (hnone : ((f none).runBytes []).result = r) :
    ∃ inp rest, inp.length = n ∧ s = inp ++ rest ∧ ((f (some inp)).runBytes rest).result ≠ r := by
  obtain hlt | ⟨inp, rest, hlen, rfl⟩ := short_or_append n s
  · rw [runBytes_recv_short hlt] at h
    exact absurd hnone h
  · rw [runBytes_recv_bind hlen] at h
    exact ⟨inp, rest, hlen, rfl, h⟩

/-- What is left is the end of the stream. -/
theorem runBytes_left_length_le (p : Prog β α ρ) (s : List β) :
    (p.runBytes s).left.length ≤ s.length := by
  induction p generalizing s with
  | ret r => exact le_rfl
  | recv n k ih =>
      apply le_trans (ih _ _)
      rw [List.length_drop]
      exact Nat.sub_le _ _
  | send bs k ih => exact ih _ _
  | act a k ih => exact ih _

/-- The program writes nothing. -/
def Silent : Prog β α ρ → Prop
  | ret _ => True
  | recv _ k => ∀ r, (k r).Silent
  | send _ _ => False
  | act _ k => k.Silent

theorem Silent.bind {p : Prog β α ρ} {f : ρ → Prog β α σ} (hp : p.Silent) (hf : ∀ r, (f r).Silent) :
    (p >>= f).Silent := by
  show (p.bind f).Silent
  induction p with
  | ret r => exact hf r
  | recv n k ih => exact fun r => ih r (hp r)
  | send bs k ih => exact hp
  | act a k ih => exact ih hp

theorem Silent.written {p : Prog β α ρ} (hp : p.Silent) (s : List β) :
    (p.runBytes s).written = [] := by
  induction p generalizing s with
  | ret r => rfl
  | recv n k ih => exact ih _ (hp _) _
  | send bs k ih => exact hp.elim
  | act a k ih => exact ih hp _

end Prog

end HevTunnel
