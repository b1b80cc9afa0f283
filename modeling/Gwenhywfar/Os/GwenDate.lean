import Gwenhywfar.Base.CString
import Gwenhywfar.Base.Error
import Gwenhywfar.Os.Julian

/-! # `GWEN_DATE`

* `fromGregorian`, `fromJulian`: a date by its year, month and day, or by its number.
* `IsDate`: the dates that `fromGregorian` creates.
* `gregorian_julian_inverse`: the two functions are inverse, and they count the days of the
  calendar. -/

namespace Gwenhywfar

/-- `GWEN_DATE`; the string has a NUL behind its eight characters. -/
@[ext]
structure GwenDate where
  year : ℤ
  month : ℤ
  day : ℤ
  julian : ℤ
  asString : List UInt8
deriving DecidableEq

namespace GwenDate

open Calendar Os

/-! ### The string of a date -/

/-- `'0'+(x%10)`, as it is stored in a `char`. -/
def digitChar (x : ℤ) : UInt8 := UInt8.ofNat (48 + x.tmod 10).toNat

/-- Stores the last digits of a number in front of a text. -/
def putDigits : ℕ → ℤ → List UInt8 → List UInt8
  | 0, _, s => s
  | k + 1, x, s => putDigits k (x.tdiv 10) (digitChar x :: s)

/-- `_writeAsString`. -/
def writeAsString (year month day : ℤ) : List UInt8 :=
  putDigits 4 year (putDigits 2 month (putDigits 2 day []))

/-! ### Creating dates -/

/-- `GWEN_Date_IsLeapYear`. -/
def isLeapYear (y : ℤ) : Bool :=
  y.tmod 4 = 0 ∧ y.tmod 100 ≠ 0 ∨ y.tmod 400 = 0

/-- `daysInMonth`. -/
def daysInMonthTable : List ℤ := [31, 28, 31, 30, 31, 30, 31, 31, 30, 31, 30, 31]

/-- `_daysInMonth`, for a month that is positive. -/
def daysInMonth (month year : ℤ) : ℤ :=
  if 12 < month then errorGeneric
  else if month = 2 ∧ isLeapYear year = true then 29
  else daysInMonthTable.getD (month - 1).toNat 0

/-- `_createFromGregorianAndUseGivenString`; an empty string is none. -/
def createFromGregorianAndUseGivenString (y m d : ℤ) (s : List UInt8) : Option GwenDate :=
  if m < 1 ∨ 12 < m ∨ d < 1 ∨ 31 < d ∨ y < 0 then none
  else if daysInMonth m y < d then none
  else some {
    year := y
    month := m
    day := d
    julian := calcJulian y m d
    asString := if s ≠ [] then s.take 8 else writeAsString y m d }

/-- `GWEN_Date_fromGregorian`. -/
def fromGregorian (y m d : ℤ) : Option GwenDate := createFromGregorianAndUseGivenString y m d []

/-- `GWEN_Date_setJulian`, which assigns all fields. -/
def setJulian (julian : ℤ) : GwenDate where
  year := (julianDate julian).year
  month := (julianDate julian).month
  day := (julianDate julian).day
  julian := julian
  asString :=
    writeAsString (julianDate julian).year (julianDate julian).month (julianDate julian).day

/-- `GWEN_Date_fromJulian`. -/
def fromJulian (julian : ℤ) : GwenDate := setJulian julian

/-- `GWEN_Date_AddDays`. -/
def addDays (gd : GwenDate) (days : ℤ) : GwenDate := setJulian (gd.julian + days)

/-- `GWEN_Date_SubDays`. -/
def subDays (gd : GwenDate) (days : ℤ) : GwenDate := setJulian (gd.julian - days)

/-- `GWEN_Date_WeekDay`; a week begins with Sunday, which is 0. -/
def weekDay (gd : GwenDate) : ℤ := (gd.julian + 1).tmod 7

/-- `GWEN_Date_Diff`. -/
def diff (gd1 gd0 : GwenDate) : ℤ := gd1.julian - gd0.julian

/-! ### Dates of the calendar -/

/-- The date of the calendar. -/
def civil (gd : GwenDate) : Civil := ⟨gd.year, gd.month, gd.day⟩

/-- The object for a date of the calendar. -/
def ofCivil (c : Civil) : GwenDate where
  year := c.year
  month := c.month
  day := c.day
  julian := julianOf c
  asString := writeAsString c.year c.month c.day

/-- A date as `GWEN_Date_fromGregorian` creates it. -/
def IsDate (gd : GwenDate) : Prop := fromGregorian gd.year gd.month gd.day = some gd

section
variable {gd gd0 gd1 : GwenDate} {c : Civil} {y m d j : ℤ}

@[simp] theorem civil_ofCivil (c : Civil) : (ofCivil c).civil = c := rfl

@[simp] theorem julian_ofCivil (c : Civil) : (ofCivil c).julian = julianOf c := rfl

theorem isLeapYear_iff (y : ℤ) : isLeapYear y = true ↔ IsLeap y := by
  rw [isLeapYear, decide_eq_true_iff, isLeap_iff_tmod]

theorem daysInMonth_eq (h1 : 1 ≤ m) (h2 : m ≤ 12) : daysInMonth m y = monthDays y m := by
  have hm : m = 1 ∨ m = 2 ∨ m = 3 ∨ m = 4 ∨ m = 5 ∨ m = 6 ∨ m = 7 ∨ m = 8 ∨ m = 9 ∨ m = 10 ∨
      m = 11 ∨ m = 12 := by omega
  unfold daysInMonth monthDays
  rw [if_neg (by omega)]
  simp only [isLeapYear_iff]
  by_cases hleap : IsLeap y <;>
    rcases hm with rfl | rfl | rfl | rfl | rfl | rfl | rfl | rfl | rfl | rfl | rfl | rfl <;>
    simp [hleap, daysInMonthTable]

/-- `GWEN_Date_fromGregorian` creates the dates of the calendar from the year 0 on. -/
theorem createFromGregorian_eq (y m d : ℤ) (s : List UInt8) :
    createFromGregorianAndUseGivenString y m d s =
      if (⟨y, m, d⟩ : Civil).Valid ∧ 0 ≤ y then
        some { ofCivil ⟨y, m, d⟩ with
          asString := if s ≠ [] then s.take 8 else writeAsString y m d }
      else none := by
  have hbounds := monthDays_bounds y m
  unfold createFromGregorianAndUseGivenString
  by_cases hm : 1 ≤ m ∧ m ≤ 12
  · rw [daysInMonth_eq hm.1 hm.2]
    split
    · next h =>
        rw [if_neg]
        rintro ⟨⟨h1, h2, h3, h4⟩, hy⟩
        dsimp only at h1 h2 h3 h4
        omega
    · next h =>
        split
        · next hd =>
            rw [if_neg]
            rintro ⟨⟨h1, h2, h3, h4⟩, hy⟩
            dsimp only at h4
            omega
        · next hd =>
            have hvalid : (⟨y, m, d⟩ : Civil).Valid ∧ 0 ≤ y :=
              ⟨⟨hm.1, hm.2, by dsimp only; omega, by dsimp only; omega⟩, by omega⟩
            rw [if_pos hvalid]
            rfl
  · rw [if_pos (by omega), if_neg]
    rintro ⟨⟨h1, h2, h3, h4⟩, hy⟩
    exact hm ⟨h1, h2⟩

theorem fromGregorian_eq (y m d : ℤ) : fromGregorian y m d =
    if (⟨y, m, d⟩ : Civil).Valid ∧ 0 ≤ y then some (ofCivil ⟨y, m, d⟩) else none := by
  rw [fromGregorian, createFromGregorian_eq]
  rfl

theorem fromGregorian_some (hc : c.Valid) (hy : 0 ≤ c.year) :
    fromGregorian c.year c.month c.day = some (ofCivil c) := by
  rw [fromGregorian_eq]
  exact if_pos ⟨hc, hy⟩

theorem isDate_ofCivil (hc : c.Valid) (hy : 0 ≤ c.year) : (ofCivil c).IsDate :=
  fromGregorian_some hc hy

theorem IsDate.spec (h : gd.IsDate) : gd.civil.Valid ∧ 0 ≤ gd.year ∧ ofCivil gd.civil = gd := by
  rw [IsDate, fromGregorian_eq] at h
  split at h
  · next hc => exact ⟨hc.1, hc.2, Option.some.inj h⟩
  · cases h

theorem IsDate.julian_eq (h : gd.IsDate) : gd.julian = julianOf gd.civil :=
  congrArg julian h.spec.2.2.symm

theorem julianOf_nonneg (hc : c.Valid) (hy : 0 ≤ c.year) : 1721060 ≤ julianOf c := by
  rw [julianOf_eq hc (by omega)]
  have hfirst := (dayNumber_bounds hc).1
  have hle : daysBeforeYear 0 ≤ daysBeforeYear c.year := daysBeforeYear_le hy
  have hzero : daysBeforeYear 0 = -366 := by decide
  omega

theorem year_nonneg (hj : 1721060 ≤ j) : 0 ≤ (julianDate j).year := by
  obtain ⟨hc, hy, hof⟩ := @julianDate_spec j (by omega)
  by_contra hlt
  rw [julianOf_eq hc hy] at hof
  have hlast := (dayNumber_bounds hc).2
  have hle : daysBeforeYear ((julianDate j).year + 1) ≤ daysBeforeYear 0 :=
    daysBeforeYear_le (by omega)
  have hzero : daysBeforeYear 0 = -366 := by decide
  omega

theorem fromJulian_eq (hj : 4421 ≤ j) : fromJulian j = ofCivil (julianDate j) := by
  unfold fromJulian setJulian ofCivil
  rw [(julianDate_spec hj).2.2]

theorem isDate_fromJulian (hj : 1721060 ≤ j) : (fromJulian j).IsDate := by
  rw [fromJulian_eq (by omega)]
  exact isDate_ofCivil (julianDate_spec (by omega)).1 (year_nonneg hj)

theorem fromJulian_julianOf (hc : c.Valid) (hy : 0 ≤ c.year) :
    fromJulian (julianOf c) = ofCivil c := by
  have hj := julianOf_nonneg hc hy
  rw [fromJulian_eq (by omega), julianDate_calcJulian hc (by omega)]

theorem IsDate.fromJulian_julian (h : gd.IsDate) : fromJulian gd.julian = gd := by
  obtain ⟨hc, hy, hof⟩ := h.spec
  rw [h.julian_eq, fromJulian_julianOf hc hy, hof]

theorem IsDate.le_julian (h : gd.IsDate) : 1721060 ≤ gd.julian := by
  obtain ⟨hc, hy, -⟩ := h.spec
  rw [h.julian_eq]
  exact julianOf_nonneg hc hy

theorem civil_fromJulian (hj : 4421 ≤ j) : (fromJulian j).civil = julianDate j := by
  rw [fromJulian_eq hj, civil_ofCivil]

theorem IsDate.civil_eq (h : gd.IsDate) : julianDate gd.julian = gd.civil := by
  have hj := h.le_julian
  rw [← civil_fromJulian (by omega), h.fromJulian_julian]

theorem IsDate.civil_addDays (h : gd.IsDate) (n : ℕ) :
    (gd.addDays n).civil = Civil.next^[n] gd.civil := by
  have hj := h.le_julian
  have hadd := @julianDate_add gd.julian (by omega) n
  rw [← h.civil_eq, ← hadd]
  exact civil_fromJulian (by omega)

theorem IsDate.subDays_addDays (h : gd.IsDate) (n : ℤ) : (gd.addDays n).subDays n = gd := by
  have hsub : (gd.addDays n).subDays n = fromJulian (gd.julian + n - n) := rfl
  rw [hsub, Int.add_sub_cancel, h.fromJulian_julian]

theorem IsDate.diff_eq_iff (h1 : gd1.IsDate) (h0 : gd0.IsDate) (n : ℕ) :
    gd1.diff gd0 = n ↔ gd1.civil = Civil.next^[n] gd0.civil := by
  have hj := h0.le_julian
  have hadd := @julianDate_add gd0.julian (by omega) n
  have hnumber := (@julianDate_spec (gd0.julian + n) (by omega)).2.2
  rw [← h0.civil_eq, ← hadd, diff]
  constructor
  · intro hdiff
    rw [← h1.civil_eq]
    congr 1
    omega
  · intro hcivil
    rw [h1.julian_eq, hcivil, hnumber]
    omega

/-- The conversions are inverse, and the next number is that of the next day, so that days are
counted. -/
theorem gregorian_julian_inverse :
    (∀ c : Civil, c.Valid → 0 ≤ c.year → ∃ gd, fromGregorian c.year c.month c.day = some gd ∧
      gd.civil = c ∧ fromJulian gd.julian = gd) ∧
    (∀ j, (julianOf ⟨0, 1, 1⟩) ≤ j → (fromJulian j).IsDate ∧
      (fromJulian (j + 1)).civil = (fromJulian j).civil.next) ∧
    (∀ gd : GwenDate, gd.IsDate → ∀ n : ℕ, (gd.addDays n).civil = Civil.next^[n] gd.civil ∧
      (gd.addDays n).subDays n = gd ∧ (gd.addDays n).diff gd = n) ∧
    ∀ gd1 gd0 : GwenDate, gd1.IsDate → gd0.IsDate → ∀ n : ℕ,
      gd1.diff gd0 = n ↔ gd1.civil = Civil.next^[n] gd0.civil := by
  refine ⟨fun c hc hy => ?_, fun j hj => ?_, fun gd hgd n => ?_, fun gd1 gd0 h1 h0 n => ?_⟩
  · exact ⟨ofCivil c, fromGregorian_some hc hy, civil_ofCivil c, fromJulian_julianOf hc hy⟩
  · have hfirst : julianOf ⟨0, 1, 1⟩ = 1721060 := by decide
    rw [hfirst] at hj
    refine ⟨isDate_fromJulian hj, ?_⟩
    rw [civil_fromJulian (by omega), civil_fromJulian (by omega), julianDate_succ (by omega)]
  · refine ⟨hgd.civil_addDays n, hgd.subDays_addDays n, ?_⟩
    have hjulian : (gd.addDays n).julian = gd.julian + n := rfl
    rw [diff, hjulian]
    omega
  · exact h1.diff_eq_iff h0 n

/-- The 29th of February of the year 2000 has the number 2451604. -/
theorem gregorian_julian_inverse_leap_day :
    (∃ gd, fromGregorian 2000 2 29 = some gd ∧ gd.civil = ⟨2000, 2, 29⟩ ∧
      fromJulian gd.julian = gd) ∧
    (fromJulian (2451604 + 1)).civil = (fromJulian 2451604).civil.next :=
  ⟨gregorian_julian_inverse.1 ⟨2000, 2, 29⟩ (by decide) (by decide),
    (gregorian_julian_inverse.2.1 2451604 (by decide)).2⟩

end

end GwenDate
end Gwenhywfar
