import Gwenhywfar.Lib.Calendar

/-! # Julian days

The formulas of `GWEN_Date` and of `GWEN_Timestamp`, which are the same.  They are those of
integers; `FitsInt` says of which days an `int` holds the numbers that are computed.

* `calcJulian_eq`: the number of a day is that of the calendar, from the year -4700 on.
* `julianDate_calcJulian`: the formula for the date is the inverse of that for the number. -/

namespace Gwenhywfar.Os

open Calendar

/-! ### The formulas -/

/-- `_calcJulian` of timestamp.c, and the number that `_createFromGregorianAndUseGivenString`
assigns. -/
def calcJulian (y m d : ℤ) : ℤ :=
  (1461 * (y + 4800 + (m - 14).tdiv 12)).tdiv 4 +
    (367 * (m - 2 - 12 * (m - 14).tdiv 12)).tdiv 12 -
    (3 * (y + 4900 + (m - 14).tdiv 12).tdiv 100).tdiv 4 +
    d - 32075

/-- The date that `GWEN_Date_setJulian` and `GWEN_Timestamp_SetJulianDate` assign. -/
def julianDate (julian : ℤ) : Civil :=
  let l := julian + 68569
  let n := (4 * l).tdiv 146097
  let l := l - (146097 * n + 3).tdiv 4
  let i := (4000 * (l + 1)).tdiv 1461001
  let l := l - (1461 * i).tdiv 4 + 31
  let j := (80 * l).tdiv 2447
  let day := l - (2447 * j).tdiv 80
  let l := j.tdiv 11
  ⟨100 * (n - 49) + i + l, j + 2 - 12 * l, day⟩

/-- The number of a date. -/
def julianOf (c : Civil) : ℤ := calcJulian c.year c.month c.day

/-- An `int` holds four times the number that the formula for the date begins with. -/
def FitsInt (julian : ℤ) : Prop := 4 * (julian + 68569) < 2 ^ 31

/-! ### The number of a date -/

section
variable {y m d a c r e j k : ℤ}

theorem calcJulian_march (hy : -4700 ≤ y) (h1 : 1 ≤ m) (h2 : m ≤ 12)
    (ha : m ≤ 2 ∧ a = 1 ∨ 2 < m ∧ a = 0) (hk : k = m - 2 + 12 * a) :
    calcJulian y m d = 1461 * (y + 4800 - a) / 4 + 367 * k / 12 -
      3 * ((y + 4900 - a) / 100) / 4 + d - 32075 := by
  have hshift : (m - 14).tdiv 12 = -a := by
    rw [← Int.neg_neg (m - 14), Int.neg_tdiv, Int.tdiv_eq_ediv_of_nonneg (by omega)]
    omega
  have hcentury : (y + 4900 - a).tdiv 100 = (y + 4900 - a) / 100 :=
    Int.tdiv_eq_ediv_of_nonneg (by omega)
  rw [calcJulian, hshift, show y + 4800 + -a = y + 4800 - a by omega,
    show y + 4900 + -a = y + 4900 - a by omega, show m - 2 - 12 * -a = k by omega, hcentury,
    Int.tdiv_eq_ediv_of_nonneg (by omega), Int.tdiv_eq_ediv_of_nonneg (by omega),
    Int.tdiv_eq_ediv_of_nonneg (by omega)]

theorem leapYears_march (y : ℤ) : 1461 * (y + 4800) / 4 - 3 * ((y + 4900) / 100) / 4 =
    daysBeforeYear (y + 1) + 1753164 := by
  have hyears : 1461 * (y + 4800) / 4 = 365 * y + y / 4 + 1753200 := by omega
  have hcenturies : 3 * ((y + 4900) / 100) / 4 = y / 100 - y / 400 + 36 := by omega
  rw [hyears, hcenturies, daysBeforeYear, Int.add_sub_cancel]
  omega

/-- The formula counts the days of the calendar. -/
theorem calcJulian_eq (hy : -4700 ≤ y) (h1 : 1 ≤ m) (h2 : m ≤ 12) :
    calcJulian y m d = (⟨y, m, d⟩ : Civil).dayNumber + 1721425 := by
  unfold Civil.dayNumber daysBeforeMonth
  rcases Int.lt_or_le 2 m with hm | hm
  · have hmarch := @calcJulian_march y m d 0 (m - 2) hy h1 h2 (Or.inr ⟨hm, rfl⟩) (by omega)
    have hyears := leapYears_march y
    have hsucc := daysBeforeYear_succ y
    unfold yearDays at hsucc
    simp only [sub_zero] at hmarch
    dsimp only
    rw [if_neg (by omega)]
    split at hsucc <;> rename_i hleap <;> simp only [hleap, if_true, if_false] <;> omega
  · have hmarch := @calcJulian_march y m d 1 (m + 10) hy h1 h2 (Or.inl ⟨hm, rfl⟩) (by omega)
    have hyears := leapYears_march (y - 1)
    rw [show y - 1 + 4800 = y + 4800 - 1 by omega, show y - 1 + 4900 = y + 4900 - 1 by omega,
      Int.sub_add_cancel] at hyears
    rw [if_pos hm]
    dsimp only
    omega

/-! ### The date with a number -/

/-- The century, the year in it and the day in the year are read off the number. -/
theorem julianDate_march (hc : 0 ≤ c) (hr : 0 ≤ r ∧ r < 100) (he : 0 ≤ e ∧ e ≤ 365)
    (hleap : e = 365 → r % 4 = 3 ∧ (r = 99 → c % 4 = 0))
    (hj : j + 68569 = (146097 * c + 3) / 4 + 1461 * r / 4 + e) (hk : 80 * (e + 31) / 2447 = k) :
    julianDate j =
      ⟨100 * (c - 49) + r + k / 11, k + 2 - 12 * (k / 11), e + 31 - 2447 * k / 80⟩ := by
  have hn : (4 * (j + 68569)).tdiv 146097 = c := by
    rw [Int.tdiv_eq_ediv_of_nonneg (by omega)]
    omega
  have hcentury : (146097 * c + 3).tdiv 4 = (146097 * c + 3) / 4 :=
    Int.tdiv_eq_ediv_of_nonneg (by omega)
  have hi : (4000 * (j + 68569 - (146097 * c + 3) / 4 + 1)).tdiv 1461001 = r := by
    rw [Int.tdiv_eq_ediv_of_nonneg (by omega)]
    omega
  have hyear : (1461 * r).tdiv 4 = 1461 * r / 4 := Int.tdiv_eq_ediv_of_nonneg (by omega)
  have hday : j + 68569 - (146097 * c + 3) / 4 - 1461 * r / 4 + 31 = e + 31 := by omega
  have hmonth : (80 * (e + 31)).tdiv 2447 = k := by
    rw [Int.tdiv_eq_ediv_of_nonneg (by omega), hk]
  have hdays : (2447 * k).tdiv 80 = 2447 * k / 80 := Int.tdiv_eq_ediv_of_nonneg (by omega)
  have hlast : k.tdiv 11 = k / 11 := Int.tdiv_eq_ediv_of_nonneg (by omega)
  simp only [julianDate, hn, hcentury, hi, hyear, hday, hmonth, hdays, hlast]

theorem marchMonth (hk : 1 ≤ k ∧ k ≤ 12) (hd : 1 ≤ d ∧ d ≤ 31)
    (h30 : k = 2 ∨ k = 4 ∨ k = 7 ∨ k = 9 → d ≤ 30) (h29 : k = 12 → d ≤ 29) :
    80 * (367 * k / 12 + d) / 2447 = k ∧ 367 * k / 12 = 2447 * k / 80 := by
  obtain ⟨hk1, hk2⟩ := hk
  have hm : k = 1 ∨ k = 2 ∨ k = 3 ∨ k = 4 ∨ k = 5 ∨ k = 6 ∨ k = 7 ∨ k = 8 ∨ k = 9 ∨ k = 10 ∨
      k = 11 ∨ k = 12 := by omega
  rcases hm with rfl | rfl | rfl | rfl | rfl | rfl | rfl | rfl | rfl | rfl | rfl | rfl <;> omega

theorem julianDate_calcJulian {c : Civil} (hc : c.Valid) (hy : -4700 ≤ c.year) :
    julianDate (julianOf c) = c := by
  obtain ⟨y, m, d⟩ := c
  obtain ⟨h1, h2, h3, h4⟩ := hc
  dsimp only at hy h1 h2 h3 h4
  have hd : d ≤ 31 ∧ (m = 4 ∨ m = 6 ∨ m = 9 ∨ m = 11 → d ≤ 30) ∧
      (m = 2 → d ≤ 29 ∧ (d = 29 → IsLeap y)) := by
    unfold monthDays at h4
    split at h4
    · split at h4
      · next hm hleap => exact ⟨by omega, by omega, fun _ => ⟨h4, fun _ => hleap⟩⟩
      · exact ⟨by omega, by omega, fun _ => ⟨by omega, by omega⟩⟩
    · split at h4 <;> exact ⟨by omega, by omega, by omega⟩
  rw [IsLeap] at hd
  obtain ⟨a, ha⟩ : ∃ a, m ≤ 2 ∧ a = 1 ∨ 2 < m ∧ a = (0 : ℤ) := by
    rcases Int.lt_or_le 2 m with hm | hm
    · exact ⟨0, Or.inr ⟨hm, rfl⟩⟩
    · exact ⟨1, Or.inl ⟨hm, rfl⟩⟩
  obtain ⟨k, hk⟩ : ∃ k, k = m - 2 + 12 * a := ⟨_, rfl⟩
  have hmarch := @calcJulian_march y m d a k hy h1 h2 ha hk
  obtain ⟨hmonth, hdays⟩ := @marchMonth d k (by omega) (by omega) (by omega) (by omega)
  obtain ⟨c, r, hcr, hr, hc⟩ : ∃ c r, y + 4900 - a = 100 * c + r ∧ (0 ≤ r ∧ r < 100) ∧ 0 ≤ c :=
    ⟨(y + 4900 - a) / 100, (y + 4900 - a) % 100, by omega, by omega, by omega⟩
  have hyears : 1461 * (y + 4800 - a) / 4 = 36525 * (c - 1) + 1461 * r / 4 := by omega
  have hcentury : (y + 4900 - a) / 100 = c := by omega
  have hcenturies : (146097 * c + 3) / 4 = 36525 * c - 3 * c / 4 := by omega
  rw [hyears, hcentury] at hmarch
  have hdate := @julianDate_march c r (367 * k / 12 + d - 31) (calcJulian y m d) k hc hr (by omega)
    (by omega) (by omega) (by rw [← hmonth]; congr 2; omega)
  rw [julianOf, hdate, Civil.mk.injEq]
  omega

/-! ### The line of days -/

theorem julianOf_eq {c : Civil} (hc : c.Valid) (hy : -4700 ≤ c.year) :
    julianOf c = c.dayNumber + 1721425 :=
  calcJulian_eq hy hc.one_le_month hc.month_le

theorem julianDate_spec (hj : 4421 ≤ j) :
    (julianDate j).Valid ∧ -4700 ≤ (julianDate j).year ∧ julianOf (julianDate j) = j := by
  have hfirst : (⟨-4700, 1, 1⟩ : Civil).Valid := by decide
  have hnumber : (⟨-4700, 1, 1⟩ : Civil).dayNumber = -1717004 := by decide
  obtain ⟨c, hc, hday⟩ := exists_date hfirst (n := j - 1721425) (by omega)
  have hy : -4700 ≤ c.year := by
    by_contra hlt
    have hbefore := dayNumber_lt hc hfirst (Or.inl (Int.not_le.mp hlt))
    omega
  have hof : julianOf c = j := by
    rw [julianOf_eq hc hy]
    omega
  have hdate : julianDate j = c := by
    rw [← hof, julianDate_calcJulian hc hy]
  rw [hdate]
  exact ⟨hc, hy, hof⟩

theorem julianOf_next {c : Civil} (hc : c.Valid) (hy : -4700 ≤ c.year) :
    julianOf c.next = julianOf c + 1 := by
  have hle := (year_next c).1
  rw [julianOf_eq hc hy, julianOf_eq hc.next (by omega), dayNumber_next hc]
  omega

theorem julianDate_succ (hj : 4421 ≤ j) : julianDate (j + 1) = (julianDate j).next := by
  obtain ⟨hc, hy, hof⟩ := julianDate_spec hj
  have hle := (year_next (julianDate j)).1
  have hnext := julianOf_next hc hy
  rw [hof] at hnext
  rw [← hnext, julianDate_calcJulian hc.next (by omega)]

theorem julianDate_add (hj : 4421 ≤ j) : ∀ n : ℕ,
    julianDate (j + n) = Civil.next^[n] (julianDate j)
  | 0 => by simp
  | n + 1 => by
      rw [Function.iterate_succ_apply', ← julianDate_add hj n, ← julianDate_succ (by omega)]
      congr 1
      omega

theorem julianOf_lt_iff {a b : Civil} (ha : a.Valid) (hb : b.Valid) (hya : -4700 ≤ a.year)
    (hyb : -4700 ≤ b.year) : julianOf a < julianOf b ↔ a.Before b := by
  rw [julianOf_eq ha hya, julianOf_eq hb hyb, ← dayNumber_lt_iff ha hb]
  omega

end
end Gwenhywfar.Os
