import Gwenhywfar.Os.DateDigits

/-! # `GWEN_TIMESTAMP`

* `toInt64`, `setFromInt64`: a timestamp is a number of seconds.
* `fromString`, `getString`: a timestamp is a string of 14 digits.
* `line_of_seconds`: seconds are added to the number, and the strings are ordered as the numbers
  are. -/

namespace Gwenhywfar

set_option maxRecDepth 4000

/-- `GWEN_TIMESTAMP`; the string has a NUL behind its 14 characters. -/
structure Timestamp where
  year : ℤ
  month : ℤ
  day : ℤ
  julian : ℤ
  hour : ℤ
  minute : ℤ
  second : ℤ
  asString : List UInt8
deriving DecidableEq

namespace Timestamp

open Calendar Os
open GwenDate (putDigits readNumber placeValue charValue)

/-! ### The functions -/

/-- `_writeAsString`. -/
def writeAsString (t : Timestamp) : Timestamp :=
  { t with
    asString := putDigits 4 t.year (putDigits 2 t.month (putDigits 2 t.day
      (putDigits 2 t.hour (putDigits 2 t.minute (putDigits 2 t.second []))))) }

/-- `_setDate`. -/
def setDate (t : Timestamp) (year month day : ℤ) : Timestamp :=
  { t with year := year, month := month, day := day, julian := calcJulian year month day }

/-- `_setTime`. -/
def setTime (t : Timestamp) (hour minute second : ℤ) : Timestamp :=
  { t with hour := hour, minute := minute, second := second }

/-- `GWEN_Timestamp_SetDateAndTime`. -/
def setDateAndTime (t : Timestamp) (year month day hour minute second : ℤ) : Timestamp :=
  ((t.setDate year month day).setTime hour minute second).writeAsString

/-- What `GWEN_NEW_OBJECT` allocates. -/
def zero : Timestamp := ⟨0, 0, 0, 0, 0, 0, 0, List.replicate 14 0⟩

/-- `GWEN_Timestamp_new`. -/
def new (year month day hour minute second : ℤ) : Timestamp :=
  zero.setDateAndTime year month day hour minute second

/-- `GWEN_Timestamp_SetJulianDate`. -/
def setJulianDate (t : Timestamp) (julian : ℤ) : Timestamp :=
  { t with
    year := (julianDate julian).year
    month := (julianDate julian).month
    day := (julianDate julian).day
    julian := julian }.writeAsString

/-- `GWEN_Timestamp_toInt64`. -/
def toInt64 (t : Timestamp) : ℤ :=
  t.second + t.minute * 60 + t.hour * 60 * 60 + t.julian * 24 * 60 * 60

/-- `_setFromInt64`. -/
def setFromInt64 (t : Timestamp) (i : ℤ) : Timestamp :=
  { t with
    second := i.tmod 60
    minute := (i.tdiv 60).tmod 60
    hour := ((i.tdiv 60).tdiv 60).tmod 24 }.setJulianDate (((i.tdiv 60).tdiv 60).tdiv 24)

/-- `GWEN_Timestamp_AddSeconds`. -/
def addSeconds (t : Timestamp) (seconds : ℤ) : Timestamp :=
  if seconds ≠ 0 then t.setFromInt64 (t.toInt64 + seconds) else t

/-- `GWEN_Timestamp_Compare`, for two timestamps. -/
def compare (t1 t0 : Timestamp) : ℤ :=
  if t1.toInt64 = t0.toInt64 then 0 else if t0.toInt64 < t1.toInt64 then 1 else -1

/-- `GWEN_Timestamp_GetString`. -/
def getString (t : Timestamp) : CString := CString.ofBytes t.asString

/-- `GWEN_Timestamp_fromString`. -/
def fromString (s : CString) : Option Timestamp :=
  if 14 ≤ s.bytes.length then
    some (new (readNumber (s.bytes.take 4)) (readNumber ((s.bytes.drop 4).take 2))
      (readNumber ((s.bytes.drop 6).take 2)) (readNumber ((s.bytes.drop 8).take 2))
      (readNumber ((s.bytes.drop 10).take 2)) (readNumber ((s.bytes.drop 12).take 2)))
  else none

/-! ### Timestamps of the calendar -/

/-- The date of the calendar. -/
def civil (t : Timestamp) : Civil := ⟨t.year, t.month, t.day⟩

/-- An object that `GWEN_Timestamp_new` creates for a date from the year 0 to the year 9999 and
for a time of the day. -/
structure IsTimestamp (t : Timestamp) : Prop where
  made : new t.year t.month t.day t.hour t.minute t.second = t
  date : t.civil.Valid
  year : 0 ≤ t.year ∧ t.year ≤ 9999
  hour : 0 ≤ t.hour ∧ t.hour < 24
  minute : 0 ≤ t.minute ∧ t.minute < 60
  second : 0 ≤ t.second ∧ t.second < 60

/-- The values of an `int`. -/
def IsInt (n : ℤ) : Prop := -2 ^ 31 ≤ n ∧ n < 2 ^ 31

section
variable {t t0 t1 u : Timestamp} {n m i : ℤ} {as bs : List UInt8} {a b : UInt8}

/-! ### The number of seconds -/

theorem IsTimestamp.julian_eq (h : t.IsTimestamp) : t.julian = julianOf t.civil :=
  congrArg julian h.made.symm

theorem IsTimestamp.le_julian (h : t.IsTimestamp) : 1721060 ≤ t.julian := by
  rw [h.julian_eq]
  exact GwenDate.julianOf_nonneg h.date h.year.1

/-- All fields but the string are determined by a number. -/
theorem setFromInt64_eq (hi : 0 ≤ i) : t.setFromInt64 i =
    { year := (julianDate (i / 86400)).year
      month := (julianDate (i / 86400)).month
      day := (julianDate (i / 86400)).day
      julian := i / 86400
      hour := i / 3600 % 24
      minute := i / 60 % 60
      second := i % 60
      asString := [] : Timestamp }.writeAsString := by
  have hminutes : i.tdiv 60 = i / 60 := Int.tdiv_eq_ediv_of_nonneg hi
  have hhours : (i / 60).tdiv 60 = i / 3600 := by
    rw [Int.tdiv_eq_ediv_of_nonneg (by omega)]
    omega
  have hdays : (i / 3600).tdiv 24 = i / 86400 := by
    rw [Int.tdiv_eq_ediv_of_nonneg (by omega)]
    omega
  unfold setFromInt64
  rw [hminutes, hhours, hdays, Int.tmod_eq_emod_of_nonneg hi,
    Int.tmod_eq_emod_of_nonneg (by omega), Int.tmod_eq_emod_of_nonneg (by omega)]
  rfl

theorem toInt64_setFromInt64 (hi : 0 ≤ i) : (t.setFromInt64 i).toInt64 = i := by
  rw [setFromInt64_eq hi]
  unfold toInt64 writeAsString
  dsimp only
  omega

theorem setFromInt64_setFromInt64 (hi : 0 ≤ i) : t.setFromInt64 i = u.setFromInt64 i := by
  rw [setFromInt64_eq hi, setFromInt64_eq hi]

/-- A timestamp is that of its number. -/
theorem IsTimestamp.setFromInt64_toInt64 (h : t.IsTimestamp) : u.setFromInt64 t.toInt64 = t := by
  have hj := h.le_julian
  obtain ⟨hh0, hh1⟩ := h.hour
  obtain ⟨hm0, hm1⟩ := h.minute
  obtain ⟨hs0, hs1⟩ := h.second
  have hnumber : t.toInt64 = t.second + t.minute * 60 + t.hour * 3600 + t.julian * 86400 := by
    unfold toInt64
    omega
  have hday : t.toInt64 / 86400 = t.julian := by omega
  have hhour : t.toInt64 / 3600 % 24 = t.hour := by omega
  have hminute : t.toInt64 / 60 % 60 = t.minute := by omega
  have hsecond : t.toInt64 % 60 = t.second := by omega
  have hdate : julianDate t.julian = t.civil := by
    rw [h.julian_eq]
    exact julianDate_calcJulian h.date (by have := h.year.1; dsimp only [civil]; omega)
  have hmade := h.made
  rw [setFromInt64_eq (by omega), hday, hhour, hminute, hsecond, hdate]
  refine Eq.trans ?_ hmade
  have hjulian : calcJulian t.year t.month t.day = t.julian := h.julian_eq.symm
  unfold new setDateAndTime setDate setTime writeAsString
  rw [hjulian]
  rfl

theorem isTimestamp_setFromInt64 (hi : 4421 * 86400 ≤ i) (h0 : 0 ≤ (t.setFromInt64 i).year)
    (h1 : (t.setFromInt64 i).year ≤ 9999) : (t.setFromInt64 i).IsTimestamp := by
  obtain ⟨hvalid, -, hnumber⟩ := @julianDate_spec (i / 86400) (by omega)
  rw [setFromInt64_eq (by omega)] at h0 h1 ⊢
  refine ⟨?_, hvalid, ⟨h0, h1⟩, ?_, ?_, ?_⟩
  · unfold new setDateAndTime setDate setTime writeAsString
    dsimp only
    rw [show calcJulian (julianDate (i / 86400)).year (julianDate (i / 86400)).month
      (julianDate (i / 86400)).day = i / 86400 from hnumber]
  all_goals
    dsimp only [writeAsString]
    omega

/-! ### Adding seconds -/

theorem IsTimestamp.le_toInt64 (h : t.IsTimestamp) (hn : IsInt n) :
    4421 * 86400 ≤ t.toInt64 + n := by
  have hj := h.le_julian
  obtain ⟨hh0, -⟩ := h.hour
  obtain ⟨hm0, -⟩ := h.minute
  obtain ⟨hs0, -⟩ := h.second
  obtain ⟨hlow, -⟩ := hn
  unfold toInt64
  omega

theorem IsTimestamp.addSeconds_eq (h : t.IsTimestamp) :
    t.addSeconds n = t.setFromInt64 (t.toInt64 + n) := by
  unfold addSeconds
  by_cases h0 : n = 0
  · rw [if_neg (not_not.mpr h0), h0, Int.add_zero, h.setFromInt64_toInt64]
  · rw [if_pos h0]

theorem IsTimestamp.toInt64_addSeconds (h : t.IsTimestamp) (hn : IsInt n) :
    (t.addSeconds n).toInt64 = t.toInt64 + n := by
  have hle := h.le_toInt64 hn
  rw [h.addSeconds_eq, toInt64_setFromInt64 (by omega)]

theorem IsTimestamp.addSeconds (h : t.IsTimestamp) (hn : IsInt n)
    (hy : 0 ≤ (t.addSeconds n).year ∧ (t.addSeconds n).year ≤ 9999) :
    (t.addSeconds n).IsTimestamp := by
  rw [h.addSeconds_eq] at hy ⊢
  exact isTimestamp_setFromInt64 (h.le_toInt64 hn) hy.1 hy.2

theorem IsTimestamp.addSeconds_addSeconds (h : t.IsTimestamp) (hn : IsInt n)
    (hm : IsInt (n + m)) : (t.addSeconds n).addSeconds m = t.addSeconds (n + m) := by
  have hle := h.le_toInt64 hm
  have hnumber := h.toInt64_addSeconds hn
  by_cases h0 : m = 0
  · rw [h0, Int.add_zero]
    exact if_neg (not_not.mpr rfl)
  · have hset : (t.addSeconds n).addSeconds m =
        (t.addSeconds n).setFromInt64 ((t.addSeconds n).toInt64 + m) := if_pos h0
    rw [hset, hnumber, h.addSeconds_eq (n := n + m), Int.add_assoc,
      setFromInt64_setFromInt64 (u := t) (by omega)]

/-! ### The string -/

theorem charValue_lt_iff (ha : isDigit a = true) (hb : isDigit b = true) :
    a < b ↔ charValue a < charValue b := by
  have hsmall : ∀ c : UInt8, isDigit c = true → charValue c = c.toNat := by decide
  rw [hsmall a ha, hsmall b hb, UInt8.lt_iff_toNat_lt]
  omega

theorem placeValue_bounds (has : ∀ c ∈ as, isDigit c = true) :
    0 ≤ placeValue as ∧ placeValue as < 10 ^ as.length := by
  induction as with
  | nil => decide
  | cons a as ih =>
      rw [List.forall_mem_cons] at has
      obtain ⟨h0, h9, -⟩ := GwenDate.charValue_digit has.1
      obtain ⟨ih0, ih1⟩ := ih has.2
      have hlow : 0 ≤ (charValue a - 48) * 10 ^ as.length := Int.mul_nonneg h0 (by positivity)
      have hhigh : (charValue a - 48) * 10 ^ as.length ≤ 9 * 10 ^ as.length :=
        Int.mul_le_mul_of_nonneg_right h9 (by positivity)
      rw [placeValue, List.length_cons, Int.pow_succ]
      omega

theorem digits_lt_iff : ∀ {as bs : List UInt8}, as.length = bs.length →
    (∀ c ∈ as, isDigit c = true) → (∀ c ∈ bs, isDigit c = true) →
    (as < bs ↔ placeValue as < placeValue bs)
  | [], [], _, _, _ => by simp [placeValue]
  | a :: as, b :: bs, hlength, has, hbs => by
      rw [List.length_cons, List.length_cons, Nat.add_right_cancel_iff] at hlength
      rw [List.forall_mem_cons] at has hbs
      obtain ⟨ha0, ha1⟩ := placeValue_bounds has.2
      obtain ⟨hb0, hb1⟩ := placeValue_bounds hbs.2
      have hsame : (a = b) ↔ charValue a = charValue b := by
        constructor
        · exact congrArg charValue
        · intro heq
          have ha := (GwenDate.charValue_digit has.1).2.2.1
          have hb := (GwenDate.charValue_digit hbs.1).2.2.1
          rw [← ha, ← hb, heq]
      rw [List.cons_lt_cons_iff, charValue_lt_iff has.1 hbs.1, hsame,
        digits_lt_iff hlength has.2 hbs.2, placeValue, placeValue]
      rw [hlength] at ha1 ⊢
      generalize (10 : ℤ) ^ bs.length = p at ha1 hb1 ⊢
      rcases lt_trichotomy (charValue a) (charValue b) with hlt | heq | hgt
      · have hmul : (charValue a - 48 + 1) * p ≤ (charValue b - 48) * p :=
          Int.mul_le_mul_of_nonneg_right (by omega) (by omega)
        rw [Int.add_mul, Int.one_mul] at hmul
        omega
      · rw [heq]
        omega
      · have hmul : (charValue b - 48 + 1) * p ≤ (charValue a - 48) * p :=
          Int.mul_le_mul_of_nonneg_right (by omega) (by omega)
        rw [Int.add_mul, Int.one_mul] at hmul
        omega

theorem putDigits_two {x : ℤ} (h0 : 0 ≤ x) (h1 : x < 100) : ∃ ds : List UInt8, ds.length = 2 ∧
    (∀ d ∈ ds, isDigit d = true) ∧ readNumber ds = x ∧ ∀ s, putDigits 2 x s = ds ++ s :=
  GwenDate.exists_putDigits 2 h0 (by omega)

/-- The digits of the fields. -/
theorem IsTimestamp.asString_eq (h : t.IsTimestamp) : ∃ ys ms ds hs is ss : List UInt8,
    t.asString = ys ++ (ms ++ (ds ++ (hs ++ (is ++ ss)))) ∧
    (ys.length = 4 ∧ ms.length = 2 ∧ ds.length = 2 ∧ hs.length = 2 ∧ is.length = 2 ∧
      ss.length = 2) ∧ (readNumber ys = t.year ∧ readNumber ms = t.month ∧ readNumber ds = t.day ∧
      readNumber hs = t.hour ∧ readNumber is = t.minute ∧ readNumber ss = t.second) ∧
    ∀ c ∈ t.asString, isDigit c = true := by
  obtain ⟨hm1, hm2, hd1, hd2⟩ := h.date
  have hbounds := monthDays_bounds t.civil.year t.civil.month
  change 1 ≤ t.month at hm1
  change t.month ≤ 12 at hm2
  change 1 ≤ t.day at hd1
  change t.day ≤ _ at hd2
  obtain ⟨hy0, hy1⟩ := h.year
  obtain ⟨hh0, hh1⟩ := h.hour
  obtain ⟨hi0, hi1⟩ := h.minute
  obtain ⟨hs0, hs1⟩ := h.second
  obtain ⟨ys, hys, hydigits, hyread, hyput⟩ :=
    @GwenDate.exists_putDigits 4 t.year hy0 (by omega)
  obtain ⟨ms, hms, hmdigits, hmread, hmput⟩ := @putDigits_two t.month (by omega) (by omega)
  obtain ⟨ds, hds, hddigits, hdread, hdput⟩ := @putDigits_two t.day (by omega) (by omega)
  obtain ⟨hs, hhs, hhdigits, hhread, hhput⟩ := @putDigits_two t.hour (by omega) (by omega)
  obtain ⟨is, his, hidigits, hiread, hiput⟩ := @putDigits_two t.minute (by omega) (by omega)
  obtain ⟨ss, hss, hsdigits, hsread, hsput⟩ := @putDigits_two t.second (by omega) (by omega)
  have hstring : t.asString = ys ++ (ms ++ (ds ++ (hs ++ (is ++ ss)))) := by
    refine (congrArg Timestamp.asString h.made).symm.trans ?_
    change putDigits 4 t.year (putDigits 2 t.month (putDigits 2 t.day
      (putDigits 2 t.hour (putDigits 2 t.minute (putDigits 2 t.second []))))) = _
    rw [hsput, hiput, hhput, hdput, hmput, hyput, List.append_nil]
  refine ⟨ys, ms, ds, hs, is, ss, hstring, ⟨hys, hms, hds, hhs, his, hss⟩,
    ⟨hyread, hmread, hdread, hhread, hiread, hsread⟩, ?_⟩
  rw [hstring]
  simp only [List.forall_mem_append]
  exact ⟨hydigits, hmdigits, hddigits, hhdigits, hidigits, hsdigits⟩

theorem IsTimestamp.getString_bytes (h : t.IsTimestamp) : t.getString.bytes = t.asString := by
  obtain ⟨_, _, _, _, _, _, -, -, -, hdigits⟩ := h.asString_eq
  refine CString.ofBytes_bytes fun hnul => ?_
  exact absurd (hdigits 0 hnul) (by decide)

theorem IsTimestamp.fromString_getString (h : t.IsTimestamp) : fromString t.getString = some t := by
  obtain ⟨ys, ms, ds, hs, is, ss, hstring, ⟨hys, hms, hds, hhs, his, hss⟩,
    ⟨hyread, hmread, hdread, hhread, hiread, hsread⟩, -⟩ := h.asString_eq
  have hlength : t.asString.length = 14 := by
    rw [hstring]
    simp only [List.length_append]
    omega
  have hy : t.asString.take 4 = ys := by rw [hstring, List.take_left' hys]
  have hdrop4 : t.asString.drop 4 = ms ++ (ds ++ (hs ++ (is ++ ss))) := by
    rw [hstring, List.drop_left' hys]
  have hdrop6 : t.asString.drop 6 = ds ++ (hs ++ (is ++ ss)) := by
    rw [show 6 = 4 + 2 from rfl, ← List.drop_drop, hdrop4, List.drop_left' hms]
  have hdrop8 : t.asString.drop 8 = hs ++ (is ++ ss) := by
    rw [show 8 = 6 + 2 from rfl, ← List.drop_drop, hdrop6, List.drop_left' hds]
  have hdrop10 : t.asString.drop 10 = is ++ ss := by
    rw [show 10 = 8 + 2 from rfl, ← List.drop_drop, hdrop8, List.drop_left' hhs]
  have hdrop12 : t.asString.drop 12 = ss := by
    rw [show 12 = 10 + 2 from rfl, ← List.drop_drop, hdrop10, List.drop_left' his]
  unfold fromString
  rw [h.getString_bytes, if_pos (by omega), hy, hdrop4, hdrop6, hdrop8, hdrop10, hdrop12,
    List.take_left' hms, List.take_left' hds, List.take_left' hhs, List.take_left' his,
    List.take_of_length_le (by omega), hyread, hmread, hdread, hhread, hiread, hsread, h.made]

/-- The number that the string denotes. -/
theorem IsTimestamp.placeValue_asString (h : t.IsTimestamp) :
    t.asString.length = 14 ∧ placeValue t.asString = ((((t.year * 100 + t.month) * 100 + t.day) *
      100 + t.hour) * 100 + t.minute) * 100 + t.second := by
  obtain ⟨ys, ms, ds, hs, is, ss, hstring, ⟨hys, hms, hds, hhs, his, hss⟩,
    ⟨hyread, hmread, hdread, hhread, hiread, hsread⟩, -⟩ := h.asString_eq
  have happend : ∀ as bs : List UInt8,
      placeValue (as ++ bs) = placeValue as * 10 ^ bs.length + placeValue bs := by
    intro as bs
    induction as with
    | nil => simp [placeValue]
    | cons a as ih =>
        rw [List.cons_append, placeValue, placeValue, ih, List.length_append, pow_add]
        ring
  rw [GwenDate.readNumber_eq] at hyread hmread hdread hhread hiread hsread
  refine ⟨?_, ?_⟩
  · rw [hstring]
    simp only [List.length_append]
    omega
  · rw [hstring, happend, happend, happend, happend, happend]
    simp only [List.length_append, hms, hds, hhs, his, hss, hyread, hmread, hdread, hhread,
      hiread, hsread]
    ring

theorem IsTimestamp.toInt64_lt_iff (h1 : t1.IsTimestamp) (h0 : t0.IsTimestamp) :
    t1.toInt64 < t0.toInt64 ↔ t1.asString < t0.asString := by
  obtain ⟨hlength1, hvalue1⟩ := h1.placeValue_asString
  obtain ⟨hlength0, hvalue0⟩ := h0.placeValue_asString
  obtain ⟨_, _, _, _, _, _, -, -, -, hdigits1⟩ := h1.asString_eq
  obtain ⟨_, _, _, _, _, _, -, -, -, hdigits0⟩ := h0.asString_eq
  have hy1 := h1.year
  have hy0 := h0.year
  have hlt := julianOf_lt_iff h1.date h0.date (by dsimp only [civil]; omega)
    (by dsimp only [civil]; omega)
  have hgt := julianOf_lt_iff h0.date h1.date (by dsimp only [civil]; omega)
    (by dsimp only [civil]; omega)
  rw [← h1.julian_eq, ← h0.julian_eq, Civil.Before] at hlt hgt
  dsimp only [civil] at hlt hgt
  obtain ⟨hm1, hm1', hd1, hd1'⟩ := h1.date
  obtain ⟨hm0, hm0', hd0, hd0'⟩ := h0.date
  have hb1 := monthDays_bounds t1.year t1.month
  have hb0 := monthDays_bounds t0.year t0.month
  dsimp only [civil] at hm1 hm1' hd1 hd1' hm0 hm0' hd0 hd0'
  have hh1 := h1.hour
  have hh0 := h0.hour
  have hi1 := h1.minute
  have hi0 := h0.minute
  have hs1 := h1.second
  have hs0 := h0.second
  rw [digits_lt_iff (hlength1.trans hlength0.symm) hdigits1 hdigits0, hvalue1, hvalue0]
  unfold toInt64
  rcases lt_trichotomy t1.julian t0.julian with hjulian | hjulian | hjulian
  · have hbefore := hlt.mp hjulian
    omega
  · have hsame : t1.year = t0.year ∧ t1.month = t0.month ∧ t1.day = t0.day := by omega
    obtain ⟨hyear, hmonth, hday⟩ := hsame
    rw [hyear, hmonth, hday, hjulian]
    omega
  · have hbefore := hgt.mp hjulian
    omega

theorem IsTimestamp.toInt64_eq_iff (h1 : t1.IsTimestamp) (h0 : t0.IsTimestamp) :
    t1.toInt64 = t0.toInt64 ↔ t1.asString = t0.asString := by
  constructor
  · intro heq
    have hsame := h1.setFromInt64_toInt64 (u := t0)
    rw [heq, h0.setFromInt64_toInt64] at hsame
    rw [hsame]
  · intro heq
    have h10 := h1.toInt64_lt_iff h0
    have h01 := h0.toInt64_lt_iff h1
    rw [heq] at h10 h01
    have hirrefl : ¬t0.asString < t0.asString := List.lt_irrefl _
    have hge := mt h10.mp hirrefl
    have hle := mt h01.mp hirrefl
    omega

theorem IsTimestamp.compare_eq (h1 : t1.IsTimestamp) (h0 : t0.IsTimestamp) :
    compare t1 t0 = if t1.asString = t0.asString then 0
      else if t0.asString < t1.asString then 1 else -1 := by
  unfold compare
  simp only [h1.toInt64_eq_iff h0, h0.toInt64_lt_iff h1]

/-- Timestamps are counted in seconds, they are read from their strings, and they are compared
as these are. -/
theorem line_of_seconds (t : Timestamp) (h : t.IsTimestamp) :
    (∀ n, IsInt n → (t.addSeconds n).toInt64 = t.toInt64 + n) ∧
    (∀ n, IsInt n → 0 ≤ (t.addSeconds n).year ∧ (t.addSeconds n).year ≤ 9999 →
      (t.addSeconds n).IsTimestamp) ∧
    (∀ n m, IsInt n → IsInt m → IsInt (n + m) →
      (t.addSeconds n).addSeconds m = t.addSeconds (n + m)) ∧
    fromString t.getString = some t ∧
    ∀ t0 : Timestamp, t0.IsTimestamp → t.getString.bytes.length = 14 ∧
      compare t t0 = if t.getString.bytes = t0.getString.bytes then 0
        else if t0.getString.bytes < t.getString.bytes then 1 else -1 := by
  refine ⟨fun n hn => h.toInt64_addSeconds hn, fun n hn hy => h.addSeconds hn hy,
    fun n m hn _ hm => h.addSeconds_addSeconds hn hm, h.fromString_getString, fun t0 h0 => ?_⟩
  rw [h.getString_bytes, h0.getString_bytes]
  exact ⟨h.placeValue_asString.1, h.compare_eq h0⟩

/-- The last second of a leap day. -/
theorem line_of_seconds_leap_day : (new 2000 2 29 23 59 59).addSeconds 1 = (new 2000 3 1 0 0 0) ∧
    fromString (new 2000 2 29 23 59 59).getString = some (new 2000 2 29 23 59 59) := by
  have h := line_of_seconds (new 2000 2 29 23 59 59)
    ⟨rfl, by decide, by decide, by decide, by decide, by decide⟩
  exact ⟨by decide, h.2.2.2.1⟩

end

end Timestamp
end Gwenhywfar
