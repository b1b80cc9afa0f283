import Gwenhywfar.Os.GwenDate

/-! # Periods of the calendar

* The functions for weeks, months, quarters, half years and years; one that returns NULL, and one
  that is handed a NULL by another, has no result.
* `Partitions`: the periods of a kind divide the dates around a date.
* `monthBlocks`: periods of whole months divide the dates when the months are divided.
* `partitions_iff`: where the functions do what they are for. -/

namespace Gwenhywfar.GwenDate

open Calendar Os

/-! ### The functions -/

/-- `GWEN_Date_GetThisWeekStartFromMonday`. -/
def getThisWeekStartFromMonday (dt : GwenDate) : Option GwenDate :=
  if dt.weekDay = 0 then some (fromJulian (dt.julian - 6))
  else some (fromJulian (dt.julian - dt.weekDay + 1))

/-- `GWEN_Date_GetThisWeekStartFromSunday`, which does not return the date that it creates. -/
def getThisWeekStartFromSunday (_dt : GwenDate) : Option GwenDate := none

/-- `GWEN_Date_GetThisMonthStart`. -/
def getThisMonthStart (dt : GwenDate) : Option GwenDate := fromGregorian dt.year dt.month 1

/-- `GWEN_Date_GetThisMonthEnd`; other months abort the program. -/
def getThisMonthEnd (dt : GwenDate) : Option GwenDate :=
  if dt.month ∈ ([1, 3, 5, 7, 8, 10, 12] : List ℤ) then fromGregorian dt.year dt.month 31
  else if dt.month = 2 then fromGregorian dt.year dt.month (if isLeapYear dt.year then 29 else 28)
  else if dt.month ∈ ([4, 6, 9, 11] : List ℤ) then fromGregorian dt.year dt.month 30
  else none

/-- `GWEN_Date_GetThisQuarterYearStart`. -/
def getThisQuarterYearStart (dt : GwenDate) : Option GwenDate :=
  let m := dt.month >>> (2 : ℕ)
  if m = 0 then fromGregorian dt.year 1 1
  else if m = 1 then fromGregorian dt.year 4 1
  else if m = 2 then fromGregorian dt.year 7 1
  else if m = 3 then fromGregorian dt.year 10 1
  else none

/-- `GWEN_Date_GetThisQuarterYearEnd`. -/
def getThisQuarterYearEnd (dt : GwenDate) : Option GwenDate :=
  let m := dt.month >>> (2 : ℕ)
  if m = 0 then fromGregorian dt.year 3 31
  else if m = 1 then fromGregorian dt.year 6 30
  else if m = 2 then fromGregorian dt.year 9 30
  else if m = 3 then fromGregorian dt.year 12 31
  else none

/-- `GWEN_Date_GetThisHalfYearStart`. -/
def getThisHalfYearStart (dt : GwenDate) : Option GwenDate :=
  if dt.month < 7 then fromGregorian dt.year 1 1 else fromGregorian dt.year 7 1

/-- `GWEN_Date_GetThisHalfYearEnd`. -/
def getThisHalfYearEnd (dt : GwenDate) : Option GwenDate :=
  if dt.month < 7 then fromGregorian dt.year 6 30 else fromGregorian dt.year 12 31

/-- `GWEN_Date_GetThisYearStart`. -/
def getThisYearStart (dt : GwenDate) : Option GwenDate := fromGregorian dt.year 1 1

/-- `GWEN_Date_GetThisYearEnd`. -/
def getThisYearEnd (dt : GwenDate) : Option GwenDate := fromGregorian dt.year 12 31

def dayBefore (dt : GwenDate) : GwenDate := fromJulian (dt.julian - 1)

/-- `GWEN_Date_GetLastMonthStart`. -/
def getLastMonthStart (dt : GwenDate) : Option GwenDate :=
  (fromGregorian dt.year dt.month 1).bind fun tmpDate =>
    fromGregorian tmpDate.dayBefore.year tmpDate.dayBefore.month 1

/-- `GWEN_Date_GetLastMonthEnd`. -/
def getLastMonthEnd (dt : GwenDate) : Option GwenDate :=
  (fromGregorian dt.year dt.month 1).map dayBefore

/-- `GWEN_Date_GetLastQuarterYearEnd`. -/
def getLastQuarterYearEnd (dt : GwenDate) : Option GwenDate :=
  (getThisQuarterYearStart dt).map dayBefore

/-- `GWEN_Date_GetLastQuarterYearStart`. -/
def getLastQuarterYearStart (dt : GwenDate) : Option GwenDate :=
  (getLastQuarterYearEnd dt).bind getThisQuarterYearStart

/-- `GWEN_Date_GetLastHalfYearEnd`. -/
def getLastHalfYearEnd (dt : GwenDate) : Option GwenDate :=
  (getThisHalfYearStart dt).map dayBefore

/-- `GWEN_Date_GetLastHalfYearStart`. -/
def getLastHalfYearStart (dt : GwenDate) : Option GwenDate :=
  (getLastHalfYearEnd dt).bind getThisHalfYearStart

/-- `GWEN_Date_GetLastYearEnd`. -/
def getLastYearEnd (dt : GwenDate) : Option GwenDate := (getThisYearStart dt).map dayBefore

/-- `GWEN_Date_GetLastYearStart`. -/
def getLastYearStart (dt : GwenDate) : Option GwenDate :=
  (getLastYearEnd dt).bind getThisYearStart

/-! ### Periods -/

/-- The kinds of periods. -/
inductive PeriodKind where
  | weekFromMonday
  | weekFromSunday
  | month
  | quarterYear
  | halfYear
  | year
deriving DecidableEq

def startOf : PeriodKind → GwenDate → Option GwenDate
  | .weekFromMonday => getThisWeekStartFromMonday
  | .weekFromSunday => getThisWeekStartFromSunday
  | .month => getThisMonthStart
  | .quarterYear => getThisQuarterYearStart
  | .halfYear => getThisHalfYearStart
  | .year => getThisYearStart

/-- The end of the period of a date; for weeks, which have no function, it is the sixth day behind
the start. -/
def endOf : PeriodKind → GwenDate → Option GwenDate
  | .weekFromMonday => fun dt => (getThisWeekStartFromMonday dt).map (addDays · 6)
  | .weekFromSunday => fun dt => (getThisWeekStartFromSunday dt).map (addDays · 6)
  | .month => getThisMonthEnd
  | .quarterYear => getThisQuarterYearEnd
  | .halfYear => getThisHalfYearEnd
  | .year => getThisYearEnd

def lastOf : PeriodKind →
    Option ((GwenDate → Option GwenDate) × (GwenDate → Option GwenDate))
  | .weekFromMonday => none
  | .weekFromSunday => none
  | .month => some (getLastMonthStart, getLastMonthEnd)
  | .quarterYear => some (getLastQuarterYearStart, getLastQuarterYearEnd)
  | .halfYear => some (getLastHalfYearStart, getLastHalfYearEnd)
  | .year => some (getLastYearStart, getLastYearEnd)

/-- From its start to its end lies the period of a date: the dates in it have the same start and
end, the next day, which an `int` can count, starts a period, and the last period is that of the day
before. -/
def Partitions (k : PeriodKind) (dt : GwenDate) : Prop :=
  ∃ s e, startOf k dt = some s ∧ endOf k dt = some e ∧ s.IsDate ∧ e.IsDate ∧
    s.julian ≤ dt.julian ∧ dt.julian ≤ e.julian ∧
    (∀ d : GwenDate, d.IsDate → s.julian ≤ d.julian → d.julian ≤ e.julian →
      startOf k d = some s ∧ endOf k d = some e) ∧
    FitsInt (e.julian + 1) ∧ startOf k (e.addDays 1) = some (e.addDays 1) ∧
    (k = .quarterYear → s.month ∈ ([1, 4, 7, 10] : List ℤ)) ∧
    ∀ last ∈ lastOf k, ∃ s' e', last.1 dt = some s' ∧ last.2 dt = some e' ∧
      startOf k s.dayBefore = some s' ∧ endOf k s.dayBefore = some e'

/-- The last day that an `int` can count. -/
def lastDay : Civil := ⟨1465002, 10, 17⟩

/-- Weeks from Sunday have no start; quarters are right from January to March; the first period of
the year 0 has none before it, and the one around `lastDay` has no day behind it. -/
def Divided : PeriodKind → GwenDate → Prop
  | .weekFromMonday, dt => ¬(dt.year = 0 ∧ dt.month = 1 ∧ dt.day ≤ 2) ∧
      ¬(⟨1465002, 10, 10⟩ : Civil).Before dt.civil
  | .weekFromSunday, _ => False
  | .month, dt => ¬(dt.year = 0 ∧ dt.month = 1) ∧
      (dt.year < 1465002 ∨ dt.year = 1465002 ∧ dt.month ≤ 9)
  | .quarterYear, dt => dt.year ≠ 0 ∧ dt.month ≤ 3 ∧ dt.year ≤ 1465002
  | .halfYear, dt => ¬(dt.year = 0 ∧ dt.month ≤ 6) ∧
      (dt.year < 1465002 ∨ dt.year = 1465002 ∧ dt.month ≤ 6)
  | .year, dt => dt.year ≠ 0 ∧ dt.year < 1465002

/-! ### Periods of whole months -/

section
variable {f g : ℤ → ℤ} {m : ℤ} {dt d s e : GwenDate} {k : PeriodKind} {a b c : Civil}

/-- The first and the last month of a period around a month. -/
structure MonthBlock (f g : ℤ → ℤ) (m : ℤ) : Prop where
  one_le_first : 1 ≤ f m
  first_le : f m ≤ m
  le_last : m ≤ g m
  last_le : g m ≤ 12
  same : ∀ k, f m ≤ k → k ≤ g m → f k = f m ∧ g k = g m
  next : if g m = 12 then f 1 = 1 else f (g m + 1) = g m + 1
  last : if f m = 1 then g 12 = 12 ∧ 1 ≤ f 12 ∧ f 12 ≤ 12
    else g (f m - 1) = f m - 1 ∧ 1 ≤ f (f m - 1) ∧ f (f m - 1) ≤ 12

/-- The first day of a period. -/
def monthsStart (f : ℤ → ℤ) (dt : GwenDate) : Option GwenDate :=
  fromGregorian dt.year (f dt.month) 1

/-- The last day of a period. -/
def monthsEnd (g : ℤ → ℤ) (dt : GwenDate) : Option GwenDate :=
  fromGregorian dt.year (g dt.month) (monthDays dt.year (g dt.month))

theorem valid_first {y m : ℤ} (h1 : 1 ≤ m) (h2 : m ≤ 12) : (⟨y, m, 1⟩ : Civil).Valid := by
  have hdays := (monthDays_bounds y m).1
  exact ⟨h1, h2, Int.le_refl _, by dsimp only; omega⟩

theorem valid_last {y m : ℤ} (h1 : 1 ≤ m) (h2 : m ≤ 12) :
    (⟨y, m, monthDays y m⟩ : Civil).Valid := by
  have hdays := (monthDays_bounds y m).1
  exact ⟨h1, h2, by dsimp only; omega, Int.le_refl _⟩

theorem monthsStart_eq {c : Civil} (h1 : 1 ≤ f c.month) (h2 : f c.month ≤ 12) (hy : 0 ≤ c.year) :
    monthsStart f (ofCivil c) = some (ofCivil ⟨c.year, f c.month, 1⟩) :=
  fromGregorian_some (c := ⟨c.year, f c.month, 1⟩) (valid_first h1 h2) hy

theorem monthsEnd_eq {c : Civil} (h1 : 1 ≤ g c.month) (h2 : g c.month ≤ 12) (hy : 0 ≤ c.year) :
    monthsEnd g (ofCivil c) = some (ofCivil ⟨c.year, g c.month, monthDays c.year (g c.month)⟩) :=
  fromGregorian_some (c := ⟨c.year, g c.month, monthDays c.year (g c.month)⟩)
    (valid_last h1 h2) hy

theorem julianOf_le_iff (ha : a.Valid) (hb : b.Valid) (hya : -4700 ≤ a.year)
    (hyb : -4700 ≤ b.year) : julianOf a ≤ julianOf b ↔ ¬b.Before a := by
  rw [← julianOf_lt_iff hb ha hyb hya, Int.not_lt]

theorem addDays_one (hc : c.Valid) (hy : 0 ≤ c.year) : (ofCivil c).addDays 1 = ofCivil c.next := by
  have hle := (year_next c).1
  have hadd : (ofCivil c).addDays 1 = fromJulian (julianOf c + 1) := rfl
  rw [hadd, ← julianOf_next hc (by omega), fromJulian_julianOf hc.next (by omega)]

theorem dayBefore_next (hc : c.Valid) (hy : -1 ≤ c.year) :
    (ofCivil c.next).dayBefore = ofCivil c := by
  have hnext := julianOf_next hc (by omega)
  have hfirst : (⟨-1, 1, 1⟩ : Civil).Valid := by decide
  have hzero : julianOf ⟨-1, 1, 1⟩ = 1720695 := by decide
  have hj : julianOf ⟨-1, 1, 1⟩ ≤ julianOf c := by
    rw [julianOf_le_iff hfirst hc (by decide) (by omega), Civil.Before]
    have h1 := hc.one_le_month
    have h2 := hc.one_le_day
    dsimp only
    omega
  have hbefore : (ofCivil c.next).dayBefore = fromJulian (julianOf c.next - 1) := rfl
  rw [hbefore, hnext, Int.add_sub_cancel, fromJulian_eq (by omega),
    julianDate_calcJulian hc (by omega)]

theorem fitsInt_julianOf (hc : c.Valid) (hy : -4700 ≤ c.year) :
    FitsInt (julianOf c) ↔ ¬ lastDay.Before c := by
  have hlast : julianOf lastDay = 536802342 := by decide
  have hvalid : lastDay.Valid := by decide
  rw [← julianOf_le_iff hc hvalid hy (by decide), hlast, FitsInt]
  omega

theorem fitsInt_behind {y m : ℤ} (hy : 0 ≤ y) (h1 : 1 ≤ m) (h2 : m ≤ 12) :
    FitsInt (julianOf ⟨y, m, monthDays y m⟩ + 1) ↔ y < 1465002 ∨ y = 1465002 ∧ m ≤ 9 := by
  have hlast := @valid_last y m h1 h2
  have hle := (year_next ⟨y, m, monthDays y m⟩).1
  have hnext : (⟨y, m, monthDays y m⟩ : Civil).next =
      if m < 12 then ⟨y, m + 1, 1⟩ else ⟨y + 1, 1, 1⟩ := by
    unfold Civil.next
    rw [if_neg (Int.lt_irrefl _)]
  dsimp only at hle
  rw [← julianOf_next hlast (by dsimp only; omega),
    fitsInt_julianOf hlast.next (by omega), hnext, Civil.Before, lastDay]
  split <;> dsimp only <;> omega

/-- The period of a month holds the dates of the month. -/
theorem MonthBlock.contains (hb : MonthBlock f g c.month) (hc : c.Valid) (hy : 0 ≤ c.year) :
    (ofCivil ⟨c.year, f c.month, 1⟩).IsDate ∧
      (ofCivil ⟨c.year, g c.month, monthDays c.year (g c.month)⟩).IsDate ∧
      julianOf ⟨c.year, f c.month, 1⟩ ≤ julianOf c ∧
      julianOf c ≤ julianOf ⟨c.year, g c.month, monthDays c.year (g c.month)⟩ := by
  obtain ⟨h1, h2, h3, h4, -, -, -⟩ := hb
  have hs := @valid_first c.year (f c.month) h1 (by omega)
  have he := @valid_last c.year (g c.month) (by omega) h4
  refine ⟨isDate_ofCivil hs hy, isDate_ofCivil he hy, ?_, ?_⟩
  · rw [julianOf_le_iff hs hc (by dsimp only; omega) (by omega), Civil.Before]
    have hday := hc.one_le_day
    dsimp only
    omega
  · rw [julianOf_le_iff hc he (by omega) (by dsimp only; omega), Civil.Before]
    have hday := hc.day_le
    dsimp only
    rintro (hlt | ⟨-, hlt | ⟨hm, hlt⟩⟩)
    · omega
    · omega
    · rw [hm] at hlt
      omega

/-- All dates of a period have the same start and the same end. -/
theorem MonthBlock.constant (hb : MonthBlock f g c.month) (hy : 0 ≤ c.year) {d : GwenDate}
    (hd : d.IsDate) (hsd : julianOf ⟨c.year, f c.month, 1⟩ ≤ d.julian)
    (hde : d.julian ≤ julianOf ⟨c.year, g c.month, monthDays c.year (g c.month)⟩) :
    monthsStart f d = some (ofCivil ⟨c.year, f c.month, 1⟩) ∧
      monthsEnd g d = some (ofCivil ⟨c.year, g c.month, monthDays c.year (g c.month)⟩) := by
  obtain ⟨h1, h2, h3, h4, hsame, -, -⟩ := hb
  have hs := @valid_first c.year (f c.month) h1 (by omega)
  have he := @valid_last c.year (g c.month) (by omega) h4
  obtain ⟨hdc, hdy, hdof⟩ := hd.spec
  have hdy' : 0 ≤ d.civil.year := hdy
  rw [hd.julian_eq] at hsd hde
  rw [julianOf_le_iff hs hdc (by dsimp only; omega) (by omega), Civil.Before] at hsd
  rw [julianOf_le_iff hdc he (by omega) (by dsimp only; omega), Civil.Before] at hde
  dsimp only at hsd hde
  have hyear : d.civil.year = c.year := by omega
  obtain ⟨hf, hg⟩ := hsame d.civil.month (by omega) (by omega)
  rw [← hdof, monthsStart_eq (by omega) (by omega) hdy', monthsEnd_eq (by omega) (by omega) hdy',
    hf, hg, hyear]
  exact ⟨rfl, rfl⟩

theorem MonthBlock.behind (hb : MonthBlock f g c.month) (hy : 0 ≤ c.year) :
    monthsStart f ((ofCivil ⟨c.year, g c.month, monthDays c.year (g c.month)⟩).addDays 1) =
      some ((ofCivil ⟨c.year, g c.month, monthDays c.year (g c.month)⟩).addDays 1) := by
  obtain ⟨h1, h2, h3, h4, -, hnext, -⟩ := hb
  have he := @valid_last c.year (g c.month) (by omega) h4
  rw [addDays_one he hy]
  unfold Civil.next
  dsimp only
  rw [if_neg (Int.lt_irrefl _)]
  split at hnext
  · rw [if_neg (by omega)]
    rw [monthsStart_eq (by dsimp only; omega) (by dsimp only; omega) (by dsimp only; omega)]
    dsimp only
    rw [hnext]
  · rw [if_pos (by omega)]
    rw [monthsStart_eq (by dsimp only; omega) (by dsimp only; omega) (by dsimp only; omega)]
    dsimp only
    rw [hnext]

theorem MonthBlock.before (hb : MonthBlock f g c.month) (hy : 0 ≤ c.year)
    (hzero : ¬(c.year = 0 ∧ f c.month = 1)) :
    ∃ s', monthsStart f (ofCivil ⟨c.year, f c.month, 1⟩).dayBefore = some s' ∧
      monthsEnd g (ofCivil ⟨c.year, f c.month, 1⟩).dayBefore =
        some (ofCivil ⟨c.year, f c.month, 1⟩).dayBefore := by
  obtain ⟨h1, h2, h3, h4, -, -, hlast⟩ := hb
  split at hlast
  · next hjan =>
      obtain ⟨hg, hf1, hf2⟩ := hlast
      have hdec : (⟨c.year - 1, 12, 31⟩ : Civil).next = ⟨c.year, f c.month, 1⟩ := by
        have hdays := monthDays_december (c.year - 1)
        unfold Civil.next
        dsimp only
        rw [if_neg (by omega), if_neg (by omega), hjan, Int.sub_add_cancel]
      have hvalid : (⟨c.year - 1, 12, 31⟩ : Civil).Valid :=
        @valid_last (c.year - 1) 12 (by decide) (by decide)
      rw [← hdec, dayBefore_next hvalid (by dsimp only; omega),
        monthsStart_eq hf1 hf2 (by dsimp only; omega),
        monthsEnd_eq (by dsimp only; omega) (by dsimp only; omega) (by dsimp only; omega)]
      refine ⟨_, rfl, ?_⟩
      dsimp only
      rw [hg]
      rfl
  · next hjan =>
      obtain ⟨hg, hf1, hf2⟩ := hlast
      have hvalid := @valid_last c.year (f c.month - 1) (by omega) (by omega)
      have hnext' : (⟨c.year, f c.month - 1, monthDays c.year (f c.month - 1)⟩ : Civil).next =
          ⟨c.year, f c.month, 1⟩ := by
        unfold Civil.next
        dsimp only
        rw [if_neg (Int.lt_irrefl _), if_pos (by omega), Int.sub_add_cancel]
      rw [← hnext', dayBefore_next hvalid (by dsimp only; omega),
        monthsStart_eq hf1 hf2 (by dsimp only; omega),
        monthsEnd_eq (by dsimp only; omega) (by dsimp only; omega) (by dsimp only; omega)]
      refine ⟨_, rfl, ?_⟩
      dsimp only
      rw [hg]

theorem monthBlocks (hc : c.Valid) (hy : 0 ≤ c.year) (hb : MonthBlock f g c.month) :
    let s := ofCivil ⟨c.year, f c.month, 1⟩
    let e := ofCivil ⟨c.year, g c.month, monthDays c.year (g c.month)⟩
    (s.IsDate ∧ e.IsDate ∧ s.julian ≤ julianOf c ∧ julianOf c ≤ e.julian) ∧
      (∀ d : GwenDate, d.IsDate → s.julian ≤ d.julian → d.julian ≤ e.julian →
        monthsStart f d = some s ∧ monthsEnd g d = some e) ∧
      monthsStart f (e.addDays 1) = some (e.addDays 1) ∧
      (¬(c.year = 0 ∧ f c.month = 1) → ∃ s', monthsStart f s.dayBefore = some s' ∧
        monthsEnd g s.dayBefore = some s.dayBefore) :=
  ⟨hb.contains hc hy, fun _ hd hsd hde => hb.constant hy hd hsd hde, hb.behind hy, hb.before hy⟩

/-! ### The functions for whole months -/

def firstMonth : PeriodKind → ℤ → ℤ
  | .month, m => m
  | .quarterYear, m => 3 * (m / 4) + 1
  | .halfYear, m => if m < 7 then 1 else 7
  | _, _ => 1

def lastMonth : PeriodKind → ℤ → ℤ
  | .month, m => m
  | .quarterYear, m => 3 * (m / 4) + 3
  | .halfYear, m => if m < 7 then 6 else 12
  | _, _ => 12

def WholeMonths (k : PeriodKind) : Prop := k ≠ .weekFromMonday ∧ k ≠ .weekFromSunday

theorem quarterOf (h1 : 1 ≤ m) (h2 : m ≤ 12) :
    m >>> (2 : ℕ) = m / 4 ∧ (m / 4 = 0 ∨ m / 4 = 1 ∨ m / 4 = 2 ∨ m / 4 = 3) := by
  have hshift : m >>> (2 : ℕ) = m / 4 := Int.shiftRight_eq_div_pow m 2
  exact ⟨hshift, by omega⟩

theorem startOf_months (hk : WholeMonths k) (h1 : 1 ≤ dt.month) (h2 : dt.month ≤ 12) :
    startOf k dt = monthsStart (firstMonth k) dt := by
  cases k with
  | weekFromMonday => exact absurd rfl hk.1
  | weekFromSunday => exact absurd rfl hk.2
  | month => rfl
  | year => rfl
  | halfYear =>
      simp only [startOf, getThisHalfYearStart, monthsStart, firstMonth]
      split <;> rfl
  | quarterYear =>
      obtain ⟨hshift, hm⟩ := quarterOf h1 h2
      simp only [startOf, getThisQuarterYearStart, monthsStart, firstMonth, hshift]
      rcases hm with hm | hm | hm | hm <;> simp [hm]

theorem endOf_months (hk : WholeMonths k) (h1 : 1 ≤ dt.month) (h2 : dt.month ≤ 12) :
    endOf k dt = monthsEnd (lastMonth k) dt := by
  cases k with
  | weekFromMonday => exact absurd rfl hk.1
  | weekFromSunday => exact absurd rfl hk.2
  | month =>
      have hm : dt.month = 1 ∨ dt.month = 2 ∨ dt.month = 3 ∨ dt.month = 4 ∨ dt.month = 5 ∨
          dt.month = 6 ∨ dt.month = 7 ∨ dt.month = 8 ∨ dt.month = 9 ∨ dt.month = 10 ∨
          dt.month = 11 ∨ dt.month = 12 := by omega
      simp only [endOf, getThisMonthEnd, monthsEnd, lastMonth, isLeapYear_iff]
      rcases hm with hm | hm | hm | hm | hm | hm | hm | hm | hm | hm | hm | hm <;>
        simp [hm, monthDays]
  | year => rfl
  | halfYear =>
      simp only [endOf, getThisHalfYearEnd, monthsEnd, lastMonth]
      split <;> rfl
  | quarterYear =>
      obtain ⟨hshift, hm⟩ := quarterOf h1 h2
      simp only [endOf, getThisQuarterYearEnd, monthsEnd, lastMonth, hshift]
      rcases hm with hm | hm | hm | hm <;> simp [hm, monthDays]

theorem lastOf_spec {last : (GwenDate → Option GwenDate) × (GwenDate → Option GwenDate)}
    (h : last ∈ lastOf k) : last.1 dt = (startOf k dt).bind (fun s => startOf k s.dayBefore) ∧
      last.2 dt = (startOf k dt).map dayBefore := by
  have hbind : ∀ (x : Option GwenDate) (start : GwenDate → Option GwenDate),
      (x.map dayBefore).bind start = x.bind fun s => start s.dayBefore := by
    intro x start
    cases x <;> rfl
  cases k with
  | weekFromMonday => cases h
  | weekFromSunday => cases h
  | month =>
      rw [← Option.some.inj h]
      exact ⟨rfl, rfl⟩
  | quarterYear =>
      rw [← Option.some.inj h]
      exact ⟨hbind _ _, rfl⟩
  | halfYear =>
      rw [← Option.some.inj h]
      exact ⟨hbind _ _, rfl⟩
  | year =>
      rw [← Option.some.inj h]
      exact ⟨hbind _ _, rfl⟩

theorem exists_lastOf (hk : WholeMonths k) : ∃ last, last ∈ lastOf k := by
  cases k with
  | weekFromMonday => exact absurd rfl hk.1
  | weekFromSunday => exact absurd rfl hk.2
  | month => exact ⟨_, rfl⟩
  | quarterYear => exact ⟨_, rfl⟩
  | halfYear => exact ⟨_, rfl⟩
  | year => exact ⟨_, rfl⟩

theorem IsDate.month_bounds (h : dt.IsDate) : 1 ≤ dt.month ∧ dt.month ≤ 12 :=
  ⟨h.spec.1.one_le_month, h.spec.1.month_le⟩

theorem month_dayBefore (h : s.IsDate) : 1 ≤ s.dayBefore.month ∧ s.dayBefore.month ≤ 12 := by
  have hj := h.le_julian
  have hdate := (@julianDate_spec (s.julian - 1) (by omega)).1
  exact ⟨hdate.one_le_month, hdate.month_le⟩

theorem isDate_addDays_one (h : e.IsDate) : (e.addDays 1).IsDate := by
  have hj := h.le_julian
  exact isDate_fromJulian (by omega)

/-- Where the months are divided, the functions divide the dates. -/
theorem partitions_months (hk : WholeMonths k) (h : dt.IsDate)
    (hb : MonthBlock (firstMonth k) (lastMonth k) dt.month)
    (hq : k = .quarterYear → firstMonth k dt.month ∈ ([1, 4, 7, 10] : List ℤ))
    (hzero : ¬(dt.year = 0 ∧ firstMonth k dt.month = 1))
    (hint : dt.year < 1465002 ∨ dt.year = 1465002 ∧ lastMonth k dt.month ≤ 9) :
    Partitions k dt := by
  obtain ⟨hc, hy, hof⟩ := h.spec
  obtain ⟨h1, h2⟩ := h.month_bounds
  obtain ⟨⟨hs, he, hle, hge⟩, hall, hnext, hlast⟩ := monthBlocks hc hy hb
  have hself := hall dt h (by rw [h.julian_eq]; exact hle) (by rw [h.julian_eq]; exact hge)
  have hafter := isDate_addDays_one he
  have hstart : startOf k dt = some (ofCivil ⟨dt.year, firstMonth k dt.month, 1⟩) := by
    rw [startOf_months hk h1 h2]
    exact hself.1
  have hfits := (fitsInt_behind hy (hb.one_le_first.trans (hb.first_le.trans hb.le_last))
    hb.last_le).mpr hint
  refine ⟨_, _, hstart, ?_, hs, he, ?_, ?_, fun d hd hsd hde => ?_, hfits, ?_, hq,
    fun last hl => ?_⟩
  · rw [endOf_months hk h1 h2]
    exact hself.2
  · rw [h.julian_eq]
    exact hle
  · rw [h.julian_eq]
    exact hge
  · rw [startOf_months hk hd.month_bounds.1 hd.month_bounds.2,
      endOf_months hk hd.month_bounds.1 hd.month_bounds.2]
    exact hall d hd hsd hde
  · rw [startOf_months hk hafter.month_bounds.1 hafter.month_bounds.2]
    exact hnext
  · obtain ⟨s', hs', he'⟩ := hlast hzero
    obtain ⟨hl1, hl2⟩ := @lastOf_spec dt k last hl
    have hm := month_dayBefore hs
    rw [← startOf_months hk hm.1 hm.2] at hs'
    rw [← endOf_months hk hm.1 hm.2] at he'
    rw [hstart] at hl1 hl2
    exact ⟨s', _, hl1.trans hs', hl2, hs', he'⟩

theorem Partitions.year_le (hp : Partitions k dt) (hk : WholeMonths k) (h : dt.IsDate)
    (h1 : 1 ≤ lastMonth k dt.month) (h2 : lastMonth k dt.month ≤ 12) :
    dt.year < 1465002 ∨ dt.year = 1465002 ∧ lastMonth k dt.month ≤ 9 := by
  obtain ⟨s, e, -, he, -, -, -, -, -, hfits, -⟩ := hp
  obtain ⟨hc, hy, hof⟩ := h.spec
  rw [endOf_months hk h.month_bounds.1 h.month_bounds.2, ← hof,
    monthsEnd_eq (c := dt.civil) h1 h2 hy] at he
  rw [← Option.some.inj he, julian_ofCivil] at hfits
  exact (fitsInt_behind hy h1 h2).mp hfits

theorem not_partitions_first (hk : WholeMonths k) (h : dt.IsDate) (hyear : dt.year = 0)
    (hm : firstMonth k dt.month = 1) : ¬Partitions k dt := by
  rintro ⟨s, e, hs, -, hsd, -, -, -, -, -, -, -, hlast⟩
  obtain ⟨last, hl⟩ := exists_lastOf hk
  obtain ⟨s', e', -, -, hs', -⟩ := hlast last hl
  have hmonth := month_dayBefore hsd
  rw [startOf_months hk hmonth.1 hmonth.2] at hs'
  rw [startOf_months hk h.month_bounds.1 h.month_bounds.2, monthsStart, hyear, hm] at hs
  have hfirst : fromGregorian 0 1 1 = some (ofCivil ⟨0, 1, 1⟩) := by decide
  rw [hfirst] at hs
  rw [← Option.some.inj hs, monthsStart] at hs'
  have hbefore : (ofCivil ⟨0, 1, 1⟩).dayBefore.year = -1 := by decide
  rw [hbefore, fromGregorian_eq, if_neg fun hv => absurd hv.2 (by decide)] at hs'
  cases hs'

/-! ### Weeks -/

theorem getThisWeekStartFromMonday_eq (hj : 0 ≤ dt.julian) :
    getThisWeekStartFromMonday dt = some (fromJulian (dt.julian - dt.julian % 7)) := by
  have hday : dt.weekDay = (dt.julian + 1) % 7 := Int.tmod_eq_emod_of_nonneg (by omega)
  unfold getThisWeekStartFromMonday
  rw [hday]
  split
  · congr 2
    omega
  · congr 2
    omega

theorem julian_fromJulian (j : ℤ) : (fromJulian j).julian = j := rfl

theorem julian_addDays (n : ℤ) : (dt.addDays n).julian = dt.julian + n := rfl

theorem first_monday (h : dt.IsDate) :
    dt.julian < 1721062 ↔ dt.year = 0 ∧ dt.month = 1 ∧ dt.day ≤ 2 := by
  obtain ⟨hc, hy, -⟩ := h.spec
  have hmonday : (⟨0, 1, 3⟩ : Civil).Valid := by decide
  have hjulian : julianOf ⟨0, 1, 3⟩ = 1721062 := by decide
  have hyear : dt.civil.year = dt.year := rfl
  have h1 := hc.one_le_month
  rw [h.julian_eq, ← hjulian, julianOf_lt_iff hc hmonday (by omega) (by decide), Civil.Before]
  have hmonth : dt.civil.month = dt.month := rfl
  have hday : dt.civil.day = dt.day := rfl
  dsimp only
  omega

theorem partitions_weeks (h : dt.IsDate) :
    Partitions .weekFromMonday dt ↔ ¬(dt.year = 0 ∧ dt.month = 1 ∧ dt.day ≤ 2) ∧
      ¬(⟨1465002, 10, 10⟩ : Civil).Before dt.civil := by
  have hj := h.le_julian
  have hweek : (⟨1465002, 10, 10⟩ : Civil).Valid := by decide
  have hnumber : julianOf ⟨1465002, 10, 10⟩ = 536802335 := by decide
  obtain ⟨hc, hy, -⟩ := h.spec
  have hy' : 0 ≤ dt.civil.year := hy
  rw [← first_monday h, Int.not_lt, ← julianOf_le_iff hc hweek (by omega) (by decide), hnumber,
    ← h.julian_eq]
  have hstart := @getThisWeekStartFromMonday_eq dt (by omega)
  constructor
  · rintro ⟨s, e, hs, he, hsd, -, -, -, -, hfits, -⟩
    have hs' := hs.symm.trans hstart
    have hsj := hsd.le_julian
    rw [Option.some.inj hs', julian_fromJulian] at hsj
    rw [endOf] at he
    dsimp only at he
    rw [hstart, Option.map_some, Option.some.injEq] at he
    rw [← he, julian_addDays, julian_fromJulian, FitsInt] at hfits
    omega
  · rintro ⟨hmonday, hlast⟩
    have hend : endOf .weekFromMonday dt =
        some ((fromJulian (dt.julian - dt.julian % 7)).addDays 6) := by
      unfold endOf
      dsimp only
      rw [hstart]
      rfl
    refine ⟨_, _, hstart, hend, isDate_fromJulian (by omega), ?_, ?_, ?_, fun d hd hsd hde => ?_,
      ?_, ?_, fun hq => (by cases hq), fun last hl => (by cases hl)⟩
    · have hadd : (fromJulian (dt.julian - dt.julian % 7)).addDays 6 =
          fromJulian (dt.julian - dt.julian % 7 + 6) := rfl
      rw [hadd]
      exact isDate_fromJulian (by omega)
    · rw [julian_fromJulian]
      omega
    · rw [julian_addDays, julian_fromJulian]
      omega
    · rw [julian_fromJulian] at hsd
      rw [julian_addDays, julian_fromJulian] at hde
      have hsame : d.julian - d.julian % 7 = dt.julian - dt.julian % 7 := by omega
      have hd' := @getThisWeekStartFromMonday_eq d (by omega)
      rw [hsame] at hd'
      refine ⟨hd', ?_⟩
      unfold endOf
      dsimp only
      rw [hd']
      rfl
    · rw [julian_addDays, julian_fromJulian, FitsInt]
      omega
    · have hadd : ((fromJulian (dt.julian - dt.julian % 7)).addDays 6).addDays 1 =
          fromJulian (dt.julian - dt.julian % 7 + 6 + 1) := rfl
      have hafter := @getThisWeekStartFromMonday_eq
        (fromJulian (dt.julian - dt.julian % 7 + 6 + 1)) (by rw [julian_fromJulian]; omega)
      rw [hadd, startOf, hafter, julian_fromJulian]
      congr 2
      omega

/-! ### All kinds -/

theorem monthBlock_month (h1 : 1 ≤ m) (h2 : m ≤ 12) :
    MonthBlock (firstMonth .month) (lastMonth .month) m := by
  refine ⟨h1, Int.le_refl _, Int.le_refl _, h2, fun k hk1 hk2 => ?_, ?_, ?_⟩
  · obtain rfl : k = m := Int.le_antisymm hk2 hk1
    exact ⟨rfl, rfl⟩
  · split <;> rfl
  · split
    · exact ⟨rfl, by decide, by decide⟩
    · next hm =>
        have hm' : m ≠ 1 := hm
        have hlow : 1 ≤ m - 1 := by omega
        have hhigh : m - 1 ≤ 12 := by omega
        exact ⟨rfl, hlow, hhigh⟩

theorem monthBlock_halfYear (h1 : 1 ≤ m) (h2 : m ≤ 12) :
    MonthBlock (firstMonth .halfYear) (lastMonth .halfYear) m := by
  by_cases hm : m < 7
  · refine ⟨?_, ?_, ?_, ?_, fun k hk1 hk2 => ?_, ?_, ?_⟩ <;>
      simp only [firstMonth, lastMonth, if_pos hm] at * <;> first | omega | simp
  · refine ⟨?_, ?_, ?_, ?_, fun k hk1 hk2 => ?_, ?_, ?_⟩ <;>
      simp only [firstMonth, lastMonth, if_neg hm] at * <;> first | omega | simp

theorem monthBlock_year (h1 : 1 ≤ m) (h2 : m ≤ 12) :
    MonthBlock (firstMonth .year) (lastMonth .year) m := by
  refine ⟨Int.le_refl _, h1, h2, Int.le_refl _, fun k hk1 hk2 => ⟨rfl, rfl⟩, ?_, ?_⟩ <;>
    simp [firstMonth, lastMonth]

theorem monthBlock_quarterYear (h1 : 1 ≤ m) (h2 : m ≤ 3) :
    MonthBlock (firstMonth .quarterYear) (lastMonth .quarterYear) m := by
  have hm : m / 4 = 0 := by omega
  refine ⟨?_, ?_, ?_, ?_, fun k hk1 hk2 => ?_, ?_, ?_⟩ <;>
    simp only [firstMonth, lastMonth, hm] at * <;> first | omega | simp

/-- From April on a quarter does not begin where its months do. -/
theorem not_partitions_quarterYear (h : dt.IsDate) (hm : 4 ≤ dt.month) :
    ¬Partitions .quarterYear dt := by
  rintro ⟨s, e, hs, he, hsd, hed, hle, hge, hall, -, hnext, -⟩
  have hk : WholeMonths .quarterYear := ⟨by decide, by decide⟩
  obtain ⟨h1, h2⟩ := h.month_bounds
  obtain ⟨-, hy, -⟩ := h.spec
  have hquarter := (quarterOf h1 h2).2
  have hfirst : ∀ q : ℤ, 1 ≤ q → q ≤ 12 → startOf .quarterYear (ofCivil ⟨dt.year, q, 1⟩) =
      some (ofCivil ⟨dt.year, 3 * (q / 4) + 1, 1⟩) := by
    intro q hq1 hq2
    rw [startOf_months hk hq1 hq2]
    exact monthsStart_eq (by simp only [firstMonth]; omega) (by simp only [firstMonth]; omega) hy
  by_cases hspring : dt.month / 4 = 1
  · have hlast : (⟨dt.year, 6, 30⟩ : Civil).Valid := @valid_last dt.year 6 (by decide) (by decide)
    have hafter : (⟨dt.year, 6, 30⟩ : Civil).next = ⟨dt.year, 7, 1⟩ := rfl
    rw [endOf_months hk h1 h2, monthsEnd, lastMonth, hspring] at he
    have hjune := fromGregorian_some hlast hy
    rw [← Option.some.inj (hjune.symm.trans he), addDays_one hlast hy, hafter,
      hfirst 7 (by decide) (by decide)] at hnext
    have hmonth : (3 * (7 / 4) + 1 : ℤ) = 7 := congrArg month (Option.some.inj hnext)
    exact absurd hmonth (by decide)
  · have hself := (hall s hsd (Int.le_refl _) (Int.le_trans hle hge)).1
    rw [startOf_months hk h1 h2, monthsStart, firstMonth,
      fromGregorian_some (c := ⟨dt.year, 3 * (dt.month / 4) + 1, 1⟩)
        (valid_first (by omega) (by omega)) hy] at hs
    rw [← Option.some.inj hs, hfirst _ (by omega) (by omega)] at hself
    have hmonth := congrArg month (Option.some.inj hself)
    have hne : 3 * ((3 * (dt.month / 4) + 1) / 4) + 1 ≠ 3 * (dt.month / 4) + 1 := by omega
    exact hne hmonth

/-- Where the functions divide the dates into periods. -/
theorem partitions_iff (h : dt.IsDate) : Partitions k dt ↔ Divided k dt := by
  obtain ⟨h1, h2⟩ := h.month_bounds
  cases k with
  | weekFromMonday => exact partitions_weeks h
  | weekFromSunday =>
      constructor
      · rintro ⟨s, e, hs, -⟩
        cases hs
      · exact False.elim
  | month =>
      have hk : WholeMonths .month := ⟨by decide, by decide⟩
      constructor
      · intro hp
        exact ⟨fun hz => not_partitions_first hk h hz.1 hz.2 hp, hp.year_le hk h h1 h2⟩
      · rintro ⟨hzero, hint⟩
        exact partitions_months hk h (monthBlock_month h1 h2) (fun hq => by cases hq) hzero hint
  | quarterYear =>
      have hk : WholeMonths .quarterYear := ⟨by decide, by decide⟩
      constructor
      · intro hp
        have hm : dt.month ≤ 3 := by
          by_contra hm
          exact not_partitions_quarterYear h (by omega) hp
        have hfirst : firstMonth .quarterYear dt.month = 1 := by
          simp only [firstMonth]
          omega
        have hyear := hp.year_le hk h (by simp only [lastMonth]; omega)
          (by simp only [lastMonth]; omega)
        exact ⟨fun hy => not_partitions_first hk h hy hfirst hp, hm, by omega⟩
      · rintro ⟨hy, hm, hyear⟩
        have hfirst : firstMonth .quarterYear dt.month = 1 := by
          simp only [firstMonth]
          omega
        exact partitions_months hk h (monthBlock_quarterYear h1 hm)
          (fun _ => by rw [hfirst]; decide) (fun hz => hy hz.1) (by simp only [lastMonth]; omega)
  | halfYear =>
      have hk : WholeMonths .halfYear := ⟨by decide, by decide⟩
      have hfirst : firstMonth .halfYear dt.month = 1 ↔ dt.month ≤ 6 := by
        simp only [firstMonth]
        split <;> omega
      have hlast : lastMonth .halfYear dt.month = if dt.month < 7 then 6 else 12 := rfl
      constructor
      · intro hp
        refine ⟨fun hz => not_partitions_first hk h hz.1 (hfirst.mpr hz.2) hp, ?_⟩
        have hyear := hp.year_le hk h (by rw [hlast]; split <;> omega)
          (by rw [hlast]; split <;> omega)
        rw [hlast] at hyear
        split at hyear <;> omega
      · rintro ⟨hzero, hyear⟩
        exact partitions_months hk h (monthBlock_halfYear h1 h2) (fun hq => by cases hq)
          (fun hz => hzero ⟨hz.1, hfirst.mp hz.2⟩) (by rw [hlast]; split <;> omega)
  | year =>
      have hk : WholeMonths .year := ⟨by decide, by decide⟩
      constructor
      · intro hp
        have hlast : lastMonth .year dt.month = 12 := rfl
        have hyear := hp.year_le hk h (by omega) (by omega)
        exact ⟨fun hy => not_partitions_first hk h hy rfl hp, by omega⟩
      · rintro ⟨hy, hyear⟩
        exact partitions_months hk h (monthBlock_year h1 h2) (fun hq => by cases hq)
          (fun hz => hy hz.1) (Or.inl hyear)

/-- The month of the 15th of July 2020. -/
theorem partitions_july : (ofCivil ⟨2020, 7, 15⟩).IsDate ∧
    (Partitions .month (ofCivil ⟨2020, 7, 15⟩) ↔ Divided .month (ofCivil ⟨2020, 7, 15⟩)) := by
  have h : (ofCivil ⟨2020, 7, 15⟩).IsDate := isDate_ofCivil (by decide) (by decide)
  exact ⟨h, partitions_iff h⟩

/-- The quarter of the 15th of July 2020 ends in June. -/
theorem not_partitions_july : ¬∀ k dt, IsDate dt → Partitions k dt := by
  intro hall
  have h : (ofCivil ⟨2020, 7, 15⟩).IsDate := isDate_ofCivil (by decide) (by decide)
  exact not_partitions_quarterYear h (by decide) (hall .quarterYear _ h)

end
end Gwenhywfar.GwenDate
