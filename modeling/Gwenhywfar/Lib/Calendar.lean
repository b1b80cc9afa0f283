import Mathlib.Algebra.Order.Ring.Int
import Mathlib.Logic.Function.Iterate
import Mathlib.Tactic.Common

/-! # The Gregorian calendar

The proleptic Gregorian calendar for all years, the negative ones included.

* `Civil`: a date; `Civil.next`: the day after it.
* `Civil.dayNumber`: the number of a date in the line of days.  It counts the days
  (`dayNumber_next`) and it is monotone in the order of the dates (`dayNumber_lt_iff`). -/

namespace Gwenhywfar.Calendar

/-! ### Dates -/

/-- A year with a 29th of February. -/
def IsLeap (y : ℤ) : Prop := y % 4 = 0 ∧ y % 100 ≠ 0 ∨ y % 400 = 0

instance (y : ℤ) : Decidable (IsLeap y) := inferInstanceAs (Decidable (_ ∨ _))

def monthDays (y m : ℤ) : ℤ :=
  if m = 2 then if IsLeap y then 29 else 28
  else if m = 4 ∨ m = 6 ∨ m = 9 ∨ m = 11 then 30
  else 31

def yearDays (y : ℤ) : ℤ := if IsLeap y then 366 else 365

/-- A year, a month and a day. -/
@[ext]
structure Civil where
  year : ℤ
  month : ℤ
  day : ℤ
deriving DecidableEq

/-- A date of the calendar. -/
structure Civil.Valid (c : Civil) : Prop where
  one_le_month : 1 ≤ c.month
  month_le : c.month ≤ 12
  one_le_day : 1 ≤ c.day
  day_le : c.day ≤ monthDays c.year c.month

instance (c : Civil) : Decidable c.Valid :=
  decidable_of_iff (1 ≤ c.month ∧ c.month ≤ 12 ∧ 1 ≤ c.day ∧ c.day ≤ monthDays c.year c.month)
    ⟨fun h => ⟨h.1, h.2.1, h.2.2.1, h.2.2.2⟩, fun h => ⟨h.1, h.2, h.3, h.4⟩⟩

/-- The day after a date. -/
def Civil.next (c : Civil) : Civil :=
  if c.day < monthDays c.year c.month then ⟨c.year, c.month, c.day + 1⟩
  else if c.month < 12 then ⟨c.year, c.month + 1, 1⟩
  else ⟨c.year + 1, 1, 1⟩

/-- The order of the dates. -/
def Civil.Before (a b : Civil) : Prop :=
  a.year < b.year ∨ a.year = b.year ∧ (a.month < b.month ∨ a.month = b.month ∧ a.day < b.day)

/-! ### The line of days -/

def daysBeforeYear (y : ℤ) : ℤ := 365 * (y - 1) + (y - 1) / 4 - (y - 1) / 100 + (y - 1) / 400

def daysBeforeMonth (y m : ℤ) : ℤ :=
  (367 * m - 362) / 12 - if m ≤ 2 then 0 else if IsLeap y then 1 else 2

def Civil.dayNumber (c : Civil) : ℤ :=
  daysBeforeYear c.year + daysBeforeMonth c.year c.month + c.day

section
variable {y m n : ℤ} {a b c : Civil}

theorem isLeap_iff_tmod (y : ℤ) : IsLeap y ↔ y.tmod 4 = 0 ∧ y.tmod 100 ≠ 0 ∨ y.tmod 400 = 0 := by
  have htmod : ∀ k : ℤ, y.tmod k = 0 ↔ y % k = 0 := fun k => by
    rw [← Int.dvd_iff_tmod_eq_zero, ← Int.dvd_iff_emod_eq_zero]
  simp only [IsLeap, ne_eq, htmod]

theorem daysBeforeYear_succ (y : ℤ) : daysBeforeYear (y + 1) = daysBeforeYear y + yearDays y := by
  unfold daysBeforeYear yearDays
  split
  · next h =>
      rw [IsLeap] at h
      omega
  · next h =>
      rw [IsLeap] at h
      omega

theorem daysBeforeMonth_one (y : ℤ) : daysBeforeMonth y 1 = 0 := by
  unfold daysBeforeMonth
  rw [if_pos (by decide)]
  decide

theorem daysBeforeMonth_december (y : ℤ) : daysBeforeMonth y 12 + 31 = yearDays y := by
  unfold daysBeforeMonth yearDays
  rw [if_neg (by decide)]
  split <;> omega

theorem daysBeforeMonth_succ (h1 : 1 ≤ m) (h2 : m < 12) :
    daysBeforeMonth y (m + 1) = daysBeforeMonth y m + monthDays y m := by
  have hm : m = 1 ∨ m = 2 ∨ m = 3 ∨ m = 4 ∨ m = 5 ∨ m = 6 ∨ m = 7 ∨ m = 8 ∨ m = 9 ∨ m = 10 ∨
      m = 11 := by omega
  unfold daysBeforeMonth monthDays
  by_cases hleap : IsLeap y <;>
    rcases hm with rfl | rfl | rfl | rfl | rfl | rfl | rfl | rfl | rfl | rfl | rfl <;>
    simp [hleap]

theorem monthDays_bounds (y m : ℤ) : 28 ≤ monthDays y m ∧ monthDays y m ≤ 31 := by
  unfold monthDays
  split
  · split <;> omega
  · split <;> omega

theorem monthDays_december (y : ℤ) : monthDays y 12 = 31 := rfl

theorem Civil.Valid.next (h : c.Valid) : c.next.Valid := by
  obtain ⟨h1, h2, h3, h4⟩ := h
  have hmonth := monthDays_bounds
  unfold Civil.next
  split
  · next hday => exact ⟨h1, h2, by dsimp only; omega, by dsimp only; omega⟩
  · split
    · next hm =>
        have hdays := hmonth c.year (c.month + 1)
        exact ⟨by dsimp only; omega, by dsimp only; omega, by dsimp only; omega,
          by dsimp only; omega⟩
    · have hdays := hmonth (c.year + 1) 1
      exact ⟨by dsimp only; omega, by dsimp only; omega, by dsimp only; omega, by dsimp only; omega⟩

theorem year_next (c : Civil) : c.year ≤ c.next.year ∧ c.next.year ≤ c.year + 1 := by
  unfold Civil.next
  split
  · dsimp only
    omega
  · split
    · dsimp only
      omega
    · dsimp only
      omega

/-- The line of days has no gaps. -/
theorem dayNumber_next (h : c.Valid) : c.next.dayNumber = c.dayNumber + 1 := by
  obtain ⟨h1, h2, h3, h4⟩ := h
  unfold Civil.next Civil.dayNumber
  split
  · dsimp only
    omega
  · next hday =>
      split
      · next hm =>
          have hsucc := @daysBeforeMonth_succ c.year c.month h1 hm
          dsimp only
          omega
      · next hm =>
          have hm12 : c.month = 12 := by omega
          have hyear := daysBeforeYear_succ c.year
          have hdecember := daysBeforeMonth_december c.year
          have hdays := monthDays_december c.year
          rw [hm12] at h4 hday ⊢
          dsimp only
          rw [daysBeforeMonth_one]
          omega

theorem Civil.Valid.iterate (h : c.Valid) : ∀ n : ℕ, (Civil.next^[n] c).Valid
  | 0 => h
  | n + 1 => by
      rw [Function.iterate_succ_apply']
      exact (h.iterate n).next

theorem dayNumber_iterate (h : c.Valid) : ∀ n : ℕ,
    (Civil.next^[n] c).dayNumber = c.dayNumber + n
  | 0 => by simp
  | n + 1 => by
      rw [Function.iterate_succ_apply', dayNumber_next (h.iterate n), dayNumber_iterate h n]
      omega

theorem dayNumber_bounds (h : c.Valid) : daysBeforeYear c.year < c.dayNumber ∧
    c.dayNumber ≤ daysBeforeYear (c.year + 1) := by
  obtain ⟨h1, h2, h3, h4⟩ := h
  rw [daysBeforeYear_succ]
  unfold Civil.dayNumber
  unfold daysBeforeMonth yearDays
  unfold monthDays at h4
  by_cases hleap : IsLeap c.year
  · simp only [if_pos hleap] at h4 ⊢
    split <;> split at h4 <;> omega
  · simp only [if_neg hleap] at h4 ⊢
    split <;> split at h4 <;> omega

theorem daysBeforeYear_le (h : y ≤ n) : daysBeforeYear y ≤ daysBeforeYear n := by
  unfold daysBeforeYear
  omega

theorem daysBeforeMonth_add_le {k : ℤ} (h1 : 1 ≤ m) (h2 : m < k) (h3 : k ≤ 12) :
    daysBeforeMonth y m + monthDays y m ≤ daysBeforeMonth y k := by
  rw [← daysBeforeMonth_succ h1 (by omega)]
  unfold daysBeforeMonth
  split <;> split <;> (try split) <;> omega

theorem dayNumber_lt (ha : a.Valid) (hb : b.Valid) (h : a.Before b) :
    a.dayNumber < b.dayNumber := by
  rcases h with hyear | ⟨hyear, hmonth | ⟨hmonth, hday⟩⟩
  · have hlast := (dayNumber_bounds ha).2
    have hfirst := (dayNumber_bounds hb).1
    have hle : daysBeforeYear (a.year + 1) ≤ daysBeforeYear b.year := daysBeforeYear_le hyear
    omega
  · have hle := @daysBeforeMonth_add_le a.year a.month b.month ha.one_le_month hmonth hb.month_le
    have hday := ha.day_le
    have hone := hb.one_le_day
    unfold Civil.dayNumber
    rw [← hyear]
    omega
  · unfold Civil.dayNumber
    rw [hyear, hmonth]
    omega

theorem Civil.before_trichotomy (a b : Civil) : a.Before b ∨ a = b ∨ b.Before a := by
  rw [Civil.Before, Civil.Before, Civil.ext_iff]
  omega

theorem dayNumber_lt_iff (ha : a.Valid) (hb : b.Valid) :
    a.dayNumber < b.dayNumber ↔ a.Before b := by
  constructor
  · intro h
    rcases a.before_trichotomy b with hlt | rfl | hgt
    · exact hlt
    · exact absurd h (Int.lt_irrefl _)
    · have hlt := dayNumber_lt hb ha hgt
      omega
  · exact dayNumber_lt ha hb

theorem exists_date (hc : c.Valid) (h : c.dayNumber ≤ n) :
    ∃ b : Civil, b.Valid ∧ b.dayNumber = n := by
  refine ⟨_, hc.iterate (n - c.dayNumber).toNat, ?_⟩
  rw [dayNumber_iterate hc]
  omega

end
end Gwenhywfar.Calendar
