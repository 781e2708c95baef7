import Mathlib.Tactic.Ring
import Mathlib.Data.Prod.Lex

/-! # Times of the timer

The functions of `hev-task-timer.c` on `struct timespec`.  The clock answers with less than a second of
nanoseconds (`Normal`).  `getExpire` carries only when there is more than a second, so a time at which a
sleep ends may have a full second of them (`Valid`); the comparison with the clock and the remaining time
are right for such times too. -/

namespace HevTunnel

/-- `struct timespec`. -/
structure Timespec where
  sec : ℤ
  nsec : ℤ
deriving DecidableEq, Repr

namespace Timespec

/-- `hev_task_timer_cmp`. -/
def cmp (a b : Timespec) : ℤ :=
  if a.sec < b.sec then -1
  else if a.sec > b.sec then 1
  else if a.nsec < b.nsec then -1
  else if a.nsec > b.nsec then 1
  else 0

/-- `hev_task_timer_get_expire`. -/
def getExpire (t : Timespec) (milliseconds : ℕ) : Timespec :=
  let sec := t.sec + (milliseconds / 1000 : ℕ)
  let nsec := t.nsec + (milliseconds % 1000 * 1000000 : ℕ)
  if nsec > 1000000000 then ⟨sec + 1, nsec - 1000000000⟩ else ⟨sec, nsec⟩

/-- `hev_task_timer_get_time`; the result is an `unsigned int`. -/
def getTime (curr expire : Timespec) : ℕ :=
  let sec := expire.sec - curr.sec
  let nsec := expire.nsec - curr.nsec
  let borrow := if nsec < 0 then 1 else 0
  let sec := sec - borrow
  let nsec := nsec + borrow * 1000000000
  if sec < 0 then 0 else ((sec * 1000 + (nsec + 999999) / 1000000) % 2 ^ 32).toNat

/-- A time in nanoseconds. -/
def total (t : Timespec) : ℤ := t.sec * 1000000000 + t.nsec

/-- What `clock_gettime` answers. -/
def Normal (t : Timespec) : Prop := 0 ≤ t.nsec ∧ t.nsec < 1000000000

/-- What `getExpire` makes of it. -/
def Valid (t : Timespec) : Prop := 0 ≤ t.nsec ∧ t.nsec ≤ 1000000000

instance (t : Timespec) : Decidable t.Normal := inferInstanceAs (Decidable (_ ∧ _))

variable {t curr expire : Timespec} {ms : ℕ}

theorem getExpire_total (t : Timespec) (ms : ℕ) : (t.getExpire ms).total = t.total + ms * 1000000 := by
  simp only [getExpire]
  split_ifs <;> simp only [total] <;> omega

theorem Normal.getExpire (h : t.Normal) (ms : ℕ) : (t.getExpire ms).Valid := by
  obtain ⟨h₀, h₁⟩ := h
  simp only [Timespec.getExpire]
  split_ifs <;> simp only [Valid] <;> omega

/-- The comparison with the clock is that of the times. -/
theorem cmp_neg_iff (hc : curr.Normal) (he : expire.Valid) :
    cmp curr expire < 0 ↔ curr.total < expire.total := by
  simp only [Normal, Valid, total, cmp] at *
  split_ifs <;> omega

/-- The remaining time is the number of milliseconds, rounded up. -/
theorem getTime_eq (hc : curr.Normal) (he : expire.Valid)
    (hlt : expire.total ≤ curr.total + (2 ^ 32 - 1) * 1000000) :
    (getTime curr expire : ℤ) = if expire.total ≤ curr.total then 0
      else (expire.total - curr.total + 999999) / 1000000 := by
  simp only [Normal, Valid, total, getTime] at *
  split_ifs <;> omega

/-- The rest of a sleep that began at `s` when the clock is `c`: 0 exactly if the time is
over, and otherwise the rest in milliseconds, rounded up. -/
theorem remaining {s c : Timespec} (hs : s.Normal) (hc : c.Normal) (hle : s.total ≤ c.total)
    (hms : ms < 2 ^ 32) :
    (getTime c (s.getExpire ms) = 0 ↔ s.total + ms * 1000000 ≤ c.total) ∧
      (getTime c (s.getExpire ms) ≠ 0 →
        c.total + (getTime c (s.getExpire ms) - 1) * 1000000 < s.total + ms * 1000000 ∧
        s.total + ms * 1000000 ≤ c.total + getTime c (s.getExpire ms) * 1000000) ∧
      getTime c (s.getExpire ms) ≤ ms := by
  have htotal := s.getExpire_total ms
  have htime := getTime_eq hc (hs.getExpire ms) (by omega)
  split_ifs at htime <;> omega

-- the end of the sleep has a full second of nanoseconds
example : getExpire ⟨7, 500000000⟩ 1500 = ⟨8, 1000000000⟩ ∧
    getTime ⟨8, 3⟩ (getExpire ⟨7, 500000000⟩ 1500) = 1000 := by decide

end Timespec

end HevTunnel
