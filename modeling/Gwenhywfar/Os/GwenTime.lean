import Gwenhywfar.Base.Error
import Gwenhywfar.Lib.Calendar
import Gwenhywfar.Parser.DbInts

/-! # `GWEN_TIME`

* `mktimeUtc`: the seconds since 1970 of a time in UTC, in an `uint32_t`.
* `toDb`, `fromDb`: a time in a database.
* `mktimeUtc_gmtime`: `GWEN_Time__mktimeUtc` is the inverse of `gmtime`, so that a time comes back
  from a database. -/

namespace Gwenhywfar

open CString (ofBytes)

set_option maxRecDepth 4000

/-- `GWEN_TIME`. -/
structure GwenTime where
  secs : UInt32
  msecs : UInt32
deriving DecidableEq

namespace GwenTime

open Calendar Db Gwenhywfar.Path Text

/-! ### The seconds of a time in UTC -/

/-- `struct tm`; the month is counted from 0, and the year is not counted from 1900 here. -/
structure Tm where
  year : ℤ
  month : ℤ
  day : ℤ
  hour : ℤ
  min : ℤ
  sec : ℤ
deriving DecidableEq

/-- The date of the proleptic Gregorian calendar so many days after the first of January 1970. -/
def dateOf (days : ℕ) : Civil := Civil.next^[days] ⟨1970, 1, 1⟩

/-- `gmtime`: the days have 86400 seconds. -/
def gmtime (s : UInt32) : Tm where
  year := (dateOf (s.toNat / 86400)).year
  month := (dateOf (s.toNat / 86400)).month - 1
  day := (dateOf (s.toNat / 86400)).day
  hour := (s.toNat / 3600 % 24 : ℕ)
  min := (s.toNat / 60 % 60 : ℕ)
  sec := (s.toNat % 60 : ℕ)

/-- `daysecs`. -/
def daysecs : UInt32 := 24 * (60 * 60)

/-- `monthDays`. -/
def monthDaysTable : List UInt32 := [31, 28, 31, 30, 31, 30, 31, 31, 30, 31, 30, 31]

def isLeap (y : ℤ) : Bool := y.tmod 4 = 0 ∧ y.tmod 100 ≠ 0 ∨ y.tmod 400 = 0

def addYears (years : ℕ) (result : UInt32) : UInt32 :=
  (List.range years).foldl
    (fun r (k : ℕ) => if isLeap (1970 + k) = true then r + daysecs else r) result

def addMonths (leap : Bool) (months : ℕ) (result : UInt32) : UInt32 :=
  (List.range months).foldl (fun r (i : ℕ) =>
    if leap = true ∧ i = 1 then r + 29 * daysecs else r + monthDaysTable.getD i 0 * daysecs) result

/-- `GWEN_Time__mktimeUtc`, for a month that is at most 12. -/
def mktimeUtc (ti : Tm) : UInt32 :=
  let result := UInt32.ofInt (ti.year - 1970) * (365 * daysecs)
  let result := addYears (ti.year - 1970).toNat result
  let result := addMonths (isLeap ti.year) ti.month.toNat result
  result + UInt32.ofInt (ti.day - 1) * daysecs + UInt32.ofInt ti.hour * (60 * 60) +
    UInt32.ofInt (ti.min * 60) + UInt32.ofInt ti.sec

/-! ### Databases -/

def dateName : CString := ofBytes (ascii ['d', 'a', 't', 'e'])
def timeName : CString := ofBytes (ascii ['t', 'i', 'm', 'e'])
def inUtcName : CString := ofBytes (ascii ['i', 'n', 'U', 't', 'c'])
def dayName : CString := ofBytes (ascii ['d', 'a', 'y'])
def monthName : CString := ofBytes (ascii ['m', 'o', 'n', 't', 'h'])
def yearName : CString := ofBytes (ascii ['y', 'e', 'a', 'r'])
def hourName : CString := ofBytes (ascii ['h', 'o', 'u', 'r'])
def minName : CString := ofBytes (ascii ['m', 'i', 'n'])
def secName : CString := ofBytes (ascii ['s', 'e', 'c'])

/-- `GWEN_Time_toDb`; nothing when an assertion fails. -/
def toDb (t : GwenTime) (h : DbHeap) (db : ℕ) : Option DbHeap :=
  let ti := gmtime t.secs
  let dbT := getGroup h db flagsDefault dateName
  let h := putInt dbT.2 db inUtcName 1
  dbT.1.bind fun dbDate =>
    let h := putInt h dbDate dayName (Int32.ofInt ti.day)
    let h := putInt h dbDate monthName (Int32.ofInt (ti.month + 1))
    let h := putInt h dbDate yearName (Int32.ofInt ti.year)
    let dbT := getGroup h db flagsDefault timeName
    dbT.1.map fun dbTime =>
      let h := putInt dbT.2 dbTime hourName (Int32.ofInt ti.hour)
      let h := putInt h dbTime minName (Int32.ofInt ti.min)
      putInt h dbTime secName (Int32.ofInt ti.sec)

/-- `GWEN_Time_new`, with what is made of a time of the time zone; nothing when an assertion
fails. -/
def new (mktime : Tm → Option UInt32) (ti : Tm) (inUtc : ℤ) : Option GwenTime :=
  if inUtc ≠ 0 then some ⟨mktimeUtc ti, 0⟩
  else
    let year := if ti.year < 100 then (if ti.year < 72 then ti.year + 2000 else ti.year) + 1900
      else ti.year
    (mktime { ti with year := year }).map fun s => ⟨s, 0⟩

/-- The date in `GWEN_Time_fromDb`; nothing when it is bad. -/
def readDate (h : DbHeap) (dbT : ℕ) (ti : Tm) : Option Tm :=
  let ti := { ti with
    day := (getIntValue h dbT dayName 0).toInt
    month := (getIntValue h dbT monthName 1).toInt - 1
    year := (getIntValue h dbT yearName 0).toInt }
  if ti.day = 0 ∨ ti.year = 0 then none else some ti

/-- The time in `GWEN_Time_fromDb`. -/
def readTime (h : DbHeap) (dbT : ℕ) (ti : Tm) : Tm :=
  { ti with
    hour := (getIntValue h dbT hourName 0).toInt
    min := (getIntValue h dbT minName 0).toInt
    sec := (getIntValue h dbT secName 0).toInt }

/-- `GWEN_Time_fromDb`. -/
def fromDb (mktime : Tm → Option UInt32) (h : DbHeap) (db : ℕ) : Option GwenTime :=
  let inUtc := (getIntValue h db inUtcName 0).toInt
  let dbT := getGroup h db flagsNameMustExist dateName
  let date := dbT.1.elim (some ⟨0, 0, 0, 0, 0, 0⟩) fun n => readDate dbT.2 n ⟨0, 0, 0, 0, 0, 0⟩
  date.bind fun ti =>
    let dbT := getGroup dbT.2 db flagsNameMustExist timeName
    new mktime (dbT.1.elim ti fun n => readTime dbT.2 n ti) inUtc

/-! ### `GWEN_Time__mktimeUtc` is the inverse of `gmtime` -/

section
variable {y : ℤ} {k : ℕ} {h h' : DbHeap} {n a g db : ℕ} {name name' : CString} {v : ℤ}

theorem isLeap_iff (y : ℤ) : isLeap y = true ↔ IsLeap y := by
  rw [isLeap, decide_eq_true_iff, isLeap_iff_tmod]

theorem daysecs_eq : daysecs = UInt32.ofInt 86400 := rfl

theorem addYears_eq (k : ℕ) (r : UInt32) : addYears k r =
    r + UInt32.ofInt ((daysBeforeYear (1970 + k) - daysBeforeYear 1970 - 365 * k) * 86400) := by
  unfold addYears
  induction k with
  | zero =>
      have hzero : UInt32.ofInt 0 = 0 := rfl
      simp [hzero]
  | succ k ih =>
      have hnext : (1970 : ℤ) + (k + 1 : ℕ) = 1970 + k + 1 := by omega
      rw [List.range_succ, List.foldl_append, List.foldl_cons, List.foldl_nil, ih, hnext,
        daysBeforeYear_succ, yearDays]
      simp only [isLeap_iff, daysecs_eq]
      split
      · rw [UInt32.add_assoc, ← UInt32.ofInt_add]
        congr 2
        push_cast
        ring
      · congr 2
        push_cast
        ring

theorem monthDaysTable_eq (hk : k < 12) :
    (if isLeap y = true ∧ k = 1 then 29 * daysecs else monthDaysTable.getD k 0 * daysecs) =
      UInt32.ofInt (Calendar.monthDays y (k + 1) * 86400) := by
  unfold Calendar.monthDays
  by_cases hleap : IsLeap y
  · have hl : isLeap y = true := (isLeap_iff y).mpr hleap
    simp only [hl, hleap]
    interval_cases k <;> rfl
  · have hl : ¬isLeap y = true := fun h => hleap ((isLeap_iff y).mp h)
    simp only [hl, hleap]
    interval_cases k <;> rfl

theorem addMonths_eq (hk : k < 12) (r : UInt32) : addMonths (isLeap y) k r =
    r + UInt32.ofInt (daysBeforeMonth y (k + 1) * 86400) := by
  unfold addMonths
  induction k with
  | zero =>
      have hone : ((0 : ℕ) : ℤ) + 1 = 1 := rfl
      have hzero : UInt32.ofInt 0 = 0 := rfl
      rw [hone, daysBeforeMonth_one]
      simp [hzero]
  | succ k ih =>
      have hnext : ((k + 1 : ℕ) : ℤ) + 1 = k + 1 + 1 := by push_cast; rfl
      have hdays := @monthDaysTable_eq y k (by omega)
      rw [List.range_succ, List.foldl_append, List.foldl_cons, List.foldl_nil, ih (by omega),
        ← apply_ite (fun d => r + UInt32.ofInt (daysBeforeMonth y (k + 1) * 86400) + d), hdays,
        hnext, @daysBeforeMonth_succ y (k + 1) (by omega) (by omega), Int.add_mul,
        UInt32.ofInt_add, UInt32.add_assoc]

theorem mktimeUtc_eq (ti : Tm) (hy : 1970 ≤ ti.year) (h0 : 0 ≤ ti.month) (h1 : ti.month < 12) :
    mktimeUtc ti = UInt32.ofInt (((⟨ti.year, ti.month + 1, ti.day⟩ : Civil).dayNumber -
        (⟨1970, 1, 1⟩ : Civil).dayNumber) * 86400 + ti.hour * 3600 + ti.min * 60 + ti.sec) := by
  obtain ⟨k, hk⟩ : ∃ k : ℕ, ti.year = 1970 + k := ⟨(ti.year - 1970).toNat, by omega⟩
  obtain ⟨m, hm⟩ : ∃ m : ℕ, ti.month = m := ⟨ti.month.toNat, by omega⟩
  have hyears : (ti.year - 1970).toNat = k := by omega
  have hmonths : ti.month.toNat = m := by omega
  have hyear : (365 : UInt32) * daysecs = UInt32.ofInt (365 * 86400) := rfl
  have hhour : (60 : UInt32) * 60 = UInt32.ofInt 3600 := rfl
  unfold mktimeUtc
  dsimp only
  rw [hyears, hmonths, addYears_eq, addMonths_eq (by omega), hyear, hhour, daysecs_eq,
    ← UInt32.ofInt_mul, ← UInt32.ofInt_mul, ← UInt32.ofInt_mul, ← UInt32.ofInt_add,
    ← UInt32.ofInt_add, ← UInt32.ofInt_add, ← UInt32.ofInt_add, ← UInt32.ofInt_add,
    ← UInt32.ofInt_add]
  congr 1
  unfold Civil.dayNumber
  rw [daysBeforeMonth_one, hk, hm]
  ring

theorem dateOf_spec (n : ℕ) : (dateOf n).Valid ∧
    (dateOf n).dayNumber - (⟨1970, 1, 1⟩ : Civil).dayNumber = n := by
  have hfirst : (⟨1970, 1, 1⟩ : Civil).Valid := by decide
  refine ⟨hfirst.iterate n, ?_⟩
  rw [dateOf, dayNumber_iterate hfirst]
  omega

theorem year_dateOf (n : ℕ) : 1970 ≤ (dateOf n).year ∧ (dateOf n).year ≤ 1970 + n := by
  induction n with
  | zero => decide
  | succ n ih =>
      have hnext : dateOf (n + 1) = (dateOf n).next := Function.iterate_succ_apply' ..
      obtain ⟨hlow, hhigh⟩ := year_next (dateOf n)
      rw [hnext]
      omega

theorem mktimeUtc_gmtime_eq (s : UInt32) : mktimeUtc (gmtime s) = s := by
  obtain ⟨hvalid, hdays⟩ := dateOf_spec (s.toNat / 86400)
  obtain ⟨hyear, -⟩ := year_dateOf (s.toNat / 86400)
  obtain ⟨hm1, hm2, -, -⟩ := hvalid
  have hmonth : (gmtime s).month = (dateOf (s.toNat / 86400)).month - 1 := rfl
  have hdate : (⟨(gmtime s).year, (gmtime s).month + 1, (gmtime s).day⟩ : Civil) =
      dateOf (s.toNat / 86400) := by
    rw [hmonth, Int.sub_add_cancel]
    rfl
  have htotal : (s.toNat / 86400 : ℕ) * 86400 + (s.toNat / 3600 % 24 : ℕ) * 3600 +
      (s.toNat / 60 % 60 : ℕ) * 60 + (s.toNat % 60 : ℕ) = (s.toNat : ℤ) := by omega
  rw [mktimeUtc_eq _ hyear (by omega) (by omega), hdate, hdays]
  refine (congrArg UInt32.ofInt htotal).trans ?_
  unfold UInt32.ofInt
  have hlt := s.toNat_lt
  rw [Int.emod_eq_of_lt (by omega) (by omega), Int.toNat_natCast, UInt32.ofNat_toNat]

/-! ### A time comes back from a database -/

theorem isPlain_names : IsPlain dateName ∧ IsPlain timeName ∧ IsPlain inUtcName ∧
    IsPlain dayName ∧ IsPlain monthName ∧ IsPlain yearName ∧ IsPlain hourName ∧
    IsPlain minName ∧ IsPlain secName := by
  refine ⟨⟨?_, ?_⟩, ⟨?_, ?_⟩, ⟨?_, ?_⟩, ⟨?_, ?_⟩, ⟨?_, ?_⟩, ⟨?_, ?_⟩, ⟨?_, ?_⟩, ⟨?_, ?_⟩,
    ⟨?_, ?_⟩⟩ <;> decide

theorem store_toDb (t : GwenTime) (hwf : Wf h) (hn : db < h.size)
    (htyp : (h.node db).typ = .group) : ∃ h' dbDate dbTime, t.toDb h db = some h' ∧
      Store h' db [(timeName, dbTime), (dateName, dbDate)]
        [(dbTime, secName, Int32.ofInt (gmtime t.secs).sec),
          (dbTime, minName, Int32.ofInt (gmtime t.secs).min),
          (dbTime, hourName, Int32.ofInt (gmtime t.secs).hour),
          (dbDate, yearName, Int32.ofInt (gmtime t.secs).year),
          (dbDate, monthName, Int32.ofInt ((gmtime t.secs).month + 1)),
          (dbDate, dayName, Int32.ofInt (gmtime t.secs).day), (db, inUtcName, 1)] := by
  obtain ⟨hdate, htime, hinUtc, hday, hmonth, hyear, hhour, hmin, hsec⟩ := isPlain_names
  have st : Store h db [] [] :=
    ⟨hwf, hn, htyp, fun _ hp => absurd hp List.not_mem_nil,
      fun _ hp => absurd hp List.not_mem_nil, fun _ hp => absurd hp List.not_mem_nil⟩
  obtain ⟨dbDate, h₁, hgetDate, st⟩ := st.getGroup hdate
  have st := st.putInt hinUtc (Or.inl rfl) (fun _ hp => absurd hp List.not_mem_nil) 1
  have hinDate : dbDate = db ∨ ∃ p ∈ [(dateName, dbDate)], p.2 = dbDate :=
    Or.inr ⟨_, List.mem_cons_self, rfl⟩
  have st := st.putInt hday hinDate (by simp only [List.forall_mem_cons]; decide)
    (Int32.ofInt (gmtime t.secs).day)
  have st := st.putInt hmonth hinDate (by simp only [List.forall_mem_cons]; decide)
    (Int32.ofInt ((gmtime t.secs).month + 1))
  have st := st.putInt hyear hinDate (by simp only [List.forall_mem_cons]; decide)
    (Int32.ofInt (gmtime t.secs).year)
  obtain ⟨dbTime, h2, hgetTime, st⟩ := st.getGroup htime
  have hinTime : dbTime = db ∨ ∃ p ∈ [(timeName, dbTime), (dateName, dbDate)], p.2 = dbTime :=
    Or.inr ⟨_, List.mem_cons_self, rfl⟩
  have st := st.putInt hhour hinTime (by simp only [List.forall_mem_cons]; decide)
    (Int32.ofInt (gmtime t.secs).hour)
  have st := st.putInt hmin hinTime (by simp only [List.forall_mem_cons]; decide)
    (Int32.ofInt (gmtime t.secs).min)
  have st := st.putInt hsec hinTime (by simp only [List.forall_mem_cons]; decide)
    (Int32.ofInt (gmtime t.secs).sec)
  refine ⟨_, dbDate, dbTime, ?_, st⟩
  unfold toDb
  dsimp only
  rw [hgetDate, Option.bind_some, hgetTime, Option.map_some]

/-- The numbers of a time are those of an `int`. -/
theorem toInt_gmtime (s : UInt32) : (Int32.ofInt (gmtime s).sec).toInt = (gmtime s).sec ∧
    (Int32.ofInt (gmtime s).min).toInt = (gmtime s).min ∧
    (Int32.ofInt (gmtime s).hour).toInt = (gmtime s).hour ∧
    (Int32.ofInt (gmtime s).year).toInt = (gmtime s).year ∧
    (Int32.ofInt ((gmtime s).month + 1)).toInt = (gmtime s).month + 1 ∧
    (Int32.ofInt (gmtime s).day).toInt = (gmtime s).day ∧ (gmtime s).day ≠ 0 ∧
    (gmtime s).year ≠ 0 := by
  have hint : ∀ x : ℤ, 0 ≤ x → x < 2 ^ 31 → (Int32.ofInt x).toInt = x := fun x h0 h1 =>
    Int32.toInt_ofInt_of_le (by simpa using by omega) (by simpa using h1)
  obtain ⟨hvalid, -⟩ := dateOf_spec (s.toNat / 86400)
  obtain ⟨hm1, hm2, hd1, hd2⟩ := hvalid
  have hmonthDays := monthDays_bounds (dateOf (s.toNat / 86400)).year
    (dateOf (s.toNat / 86400)).month
  obtain ⟨hlow, hhigh⟩ := year_dateOf (s.toNat / 86400)
  have hlt := s.toNat_lt
  unfold gmtime
  dsimp only
  refine ⟨hint _ ?_ ?_, hint _ ?_ ?_, hint _ ?_ ?_, hint _ ?_ ?_, hint _ ?_ ?_, hint _ ?_ ?_,
    ?_, ?_⟩
  all_goals omega

/-- A time that is written into a database and read from it has the same seconds. -/
theorem fromDb_toDb (mktime : Tm → Option UInt32) (t : GwenTime) (hwf : Wf h) (hn : db < h.size)
    (htyp : (h.node db).typ = .group) : ∃ h', t.toDb h db = some h' ∧
      fromDb mktime h' db = some ⟨t.secs, 0⟩ := by
  obtain ⟨hdate, htime, hinUtc, hday, hmonth, hyear, hhour, hmin, hsec⟩ := isPlain_names
  obtain ⟨h', dbDate, dbTime, hto, st⟩ := store_toDb t hwf hn htyp
  obtain ⟨isec, imin, ihour, iyear, imonth, iday, hday0, hyear0⟩ := toInt_gmtime t.secs
  refine ⟨h', hto, ?_⟩
  have hone : (1 : Int32).toInt ≠ 0 := by decide
  have hutc : getIntValue h' db inUtcName 0 = 1 := st.getInt hinUtc (by simp)
  have rday : getIntValue h' dbDate dayName 0 = Int32.ofInt (gmtime t.secs).day :=
    st.getInt hday (by simp)
  have rmonth : getIntValue h' dbDate monthName 1 = Int32.ofInt ((gmtime t.secs).month + 1) :=
    st.getInt hmonth (by simp)
  have ryear : getIntValue h' dbDate yearName 0 = Int32.ofInt (gmtime t.secs).year :=
    st.getInt hyear (by simp)
  have rhour : getIntValue h' dbTime hourName 0 = Int32.ofInt (gmtime t.secs).hour :=
    st.getInt hhour (by simp)
  have rmin : getIntValue h' dbTime minName 0 = Int32.ofInt (gmtime t.secs).min :=
    st.getInt hmin (by simp)
  have rsec : getIntValue h' dbTime secName 0 = Int32.ofInt (gmtime t.secs).sec :=
    st.getInt hsec (by simp)
  have hreadDate : readDate h' dbDate ⟨0, 0, 0, 0, 0, 0⟩ =
      some ⟨(gmtime t.secs).year, (gmtime t.secs).month, (gmtime t.secs).day, 0, 0, 0⟩ := by
    unfold readDate
    rw [rday, rmonth, ryear, iday, imonth, iyear, Int.add_sub_cancel]
    dsimp only
    rw [if_neg]
    rintro (h0 | h0)
    · exact hday0 h0
    · exact hyear0 h0
  have hreadTime : readTime h' dbTime
      ⟨(gmtime t.secs).year, (gmtime t.secs).month, (gmtime t.secs).day, 0, 0, 0⟩ =
        gmtime t.secs := by
    unfold readTime
    rw [rhour, rmin, rsec, ihour, imin, isec]
  unfold fromDb
  dsimp only
  rw [hutc, st.readGroup (g := dbDate) hdate (by simp),
    Option.elim_some, hreadDate, Option.bind_some, st.readGroup (g := dbTime) htime (by simp),
    Option.elim_some, hreadTime]
  unfold new
  rw [if_pos hone, mktimeUtc_gmtime_eq]

end

/-- `GWEN_Time__mktimeUtc` is the inverse of `gmtime`, and a time comes back from every database
with the same seconds. -/
theorem mktimeUtc_gmtime : (∀ s : UInt32, mktimeUtc (gmtime s) = s) ∧
    ∀ (mktime : Tm → Option UInt32) (t : GwenTime) (h : DbHeap) (db : ℕ), Wf h → db < h.size →
      (h.node db).typ = .group → ∃ h' t', t.toDb h db = some h' ∧
        fromDb mktime h' db = some t' ∧ t'.secs = t.secs := by
  refine ⟨mktimeUtc_gmtime_eq, fun mktime t h db hwf hlt htyp => ?_⟩
  obtain ⟨h', hto, hfrom⟩ := fromDb_toDb mktime t hwf hlt htyp
  exact ⟨h', _, hto, hfrom, rfl⟩

/-- The last second comes back from an empty group. -/
theorem mktimeUtc_gmtime_last : mktimeUtc (gmtime 4294967295) = 4294967295 ∧
    ∃ h' t', GwenTime.toDb ⟨4294967295, 0⟩ (emptyGroup (ofBytes [])) 0 = some h' ∧
      fromDb (fun _ => none) h' 0 = some t' ∧ t'.secs = 4294967295 := by
  have hwf : Wf (emptyGroup (ofBytes [])) := by
    intro x hx c hc
    obtain rfl : x = 0 := by
      change x < 1 at hx
      omega
    cases hc
  exact ⟨mktimeUtc_gmtime.1 4294967295,
    mktimeUtc_gmtime.2 (fun _ => none) ⟨4294967295, 0⟩ _ 0 hwf (by decide) rfl⟩

end GwenTime
end Gwenhywfar
