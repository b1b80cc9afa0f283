import Gwenhywfar.Os.DateDigits
import Gwenhywfar.Parser.DbVars

/-! # Dates as strings

* `fromString`: `GWEN_Date_fromString`, which does not look whether the characters are digits.
* `toDb`, `fromDb`: `GWEN_Date_toDb` and `GWEN_Date_fromDb`.
* `readsDates_iff`: only the strings `YYYYMMDD` are accepted, unless other characters make up for
  each other. -/

namespace Gwenhywfar

set_option maxRecDepth 4000

namespace GwenDate

open Calendar Os Db Text

/-! ### The functions -/

/-- `GWEN_Date_fromString`. -/
def fromString (s : CString) : Option GwenDate :=
  if 7 < s.bytes.length then
    let y := readNumber (s.bytes.take 4)
    let m := readNumber ((s.bytes.drop 4).take 2)
    let d := readNumber ((s.bytes.drop 6).take 2)
    createFromGregorianAndUseGivenString y m d s.bytes
  else none

def dateString : CString :=
  CString.ofBytes (ascii ['d', 'a', 't', 'e', 'S', 't', 'r', 'i', 'n', 'g'])

/-- `GWEN_Date_toDb`. -/
def toDb (dt : GwenDate) (h : DbHeap) (n : ℕ) : DbHeap :=
  (setCharValue h n flagsOverwriteVars dateString (CString.ofBytes dt.asString)).2

/-- `GWEN_Date_fromDb`. -/
def fromDb (h : DbHeap) (n : ℕ) : Option GwenDate :=
  (getCharValue h n dateString).bind fun s => if s.bytes ≠ [] then fromString s else none

/-! ### What is accepted -/

/-- The strings `YYYYMMDD` of dates are accepted and no others, with anything behind them; the
object is that of `fromGregorian`, and it comes back from every database. -/
def ReadsDates (s : CString) : Prop :=
  let c : Civil := ⟨digitsValue (s.bytes.take 4), digitsValue ((s.bytes.drop 4).take 2),
    digitsValue ((s.bytes.drop 6).take 2)⟩
  ((fromString s).isSome = true ↔
    8 ≤ s.bytes.length ∧ (∀ d ∈ s.bytes.take 8, isDigit d = true) ∧ c.Valid) ∧
  ∀ gd, fromString s = some gd → fromGregorian c.year c.month c.day = some gd ∧
    gd.asString = s.bytes.take 8 ∧
    ∀ (h : DbHeap) (n : ℕ), IsGroup h n → fromDb (gd.toDb h n) n = some gd

/-- Characters one of which is no digit have the value of a date by their places. -/
def Compensated (s : CString) : Prop :=
  8 ≤ s.bytes.length ∧ (∃ c ∈ s.bytes.take 8, isDigit c = false) ∧
    0 ≤ placeValue (s.bytes.take 4) ∧
    (⟨placeValue (s.bytes.take 4), placeValue ((s.bytes.drop 4).take 2),
      placeValue ((s.bytes.drop 6).take 2)⟩ : Civil).Valid

section
variable {s : CString} {ys ms ds rest : List UInt8} {gd : GwenDate} {h : DbHeap} {n : ℕ}

/-! ### Digits -/

theorem exists_parts (hlength : 8 ≤ s.bytes.length) : ∃ ys ms ds rest : List UInt8,
    s.bytes = ys ++ (ms ++ (ds ++ rest)) ∧ ys.length = 4 ∧ ms.length = 2 ∧ ds.length = 2 := by
  refine ⟨s.bytes.take 4, (s.bytes.drop 4).take 2, (s.bytes.drop 6).take 2, s.bytes.drop 8,
    ?_, ?_, ?_, ?_⟩
  · rw [show s.bytes.drop 8 = (s.bytes.drop 6).drop 2 by rw [List.drop_drop],
      List.take_append_drop, show s.bytes.drop 6 = (s.bytes.drop 4).drop 2 by
        rw [List.drop_drop], List.take_append_drop, List.take_append_drop]
  · rw [List.length_take]
    omega
  · rw [List.length_take, List.length_drop]
    omega
  · rw [List.length_take, List.length_drop]
    omega

theorem take_parts (hs : s.bytes = ys ++ (ms ++ (ds ++ rest))) (hys : ys.length = 4)
    (hms : ms.length = 2) (hds : ds.length = 2) :
    s.bytes.take 4 = ys ∧ (s.bytes.drop 4).take 2 = ms ∧ (s.bytes.drop 6).take 2 = ds ∧
      s.bytes.take 8 = ys ++ (ms ++ ds) := by
  have hdrop4 : s.bytes.drop 4 = ms ++ (ds ++ rest) := by rw [hs, ← hys, List.drop_left]
  have hdrop6 : s.bytes.drop 6 = ds ++ rest := by
    have hadd : s.bytes.drop 6 = (s.bytes.drop 4).drop 2 := by rw [List.drop_drop]
    rw [hadd, hdrop4, ← hms, List.drop_left]
  refine ⟨?_, ?_, ?_, ?_⟩
  · rw [hs, ← hys, List.take_left]
  · rw [hdrop4, ← hms, List.take_left]
  · rw [hdrop6, ← hds, List.take_left]
  · rw [hs, ← List.append_assoc, ← List.append_assoc, List.take_left' (by simp [hys, hms, hds]),
      List.append_assoc]

theorem writeAsString_readNumber (hys : ys.length = 4) (hms : ms.length = 2)
    (hds : ds.length = 2) (hdigits : ∀ c ∈ ys ++ (ms ++ ds), isDigit c = true) :
    writeAsString (readNumber ys) (readNumber ms) (readNumber ds) = ys ++ (ms ++ ds) := by
  rw [List.forall_mem_append, List.forall_mem_append] at hdigits
  have hy := putDigits_readNumber hdigits.1
  have hm := putDigits_readNumber hdigits.2.1
  have hd := putDigits_readNumber hdigits.2.2
  rw [hys] at hy
  rw [hms] at hm
  rw [hds] at hd
  rw [writeAsString, hd, hm, hy, List.append_nil]

theorem fromString_digits (hs : s.bytes = ys ++ (ms ++ (ds ++ rest))) (hys : ys.length = 4)
    (hms : ms.length = 2) (hds : ds.length = 2)
    (hdigits : ∀ c ∈ ys ++ (ms ++ ds), isDigit c = true) :
    fromString s = fromGregorian (readNumber ys) (readNumber ms) (readNumber ds) := by
  obtain ⟨htake4, htakem, htaked, htake8⟩ := take_parts hs hys hms hds
  have hlength : 7 < s.bytes.length := by
    rw [hs, List.length_append, List.length_append, List.length_append]
    omega
  have hne : s.bytes ≠ [] := List.ne_nil_of_length_pos (by omega)
  have hwritten := writeAsString_readNumber hys hms hds hdigits
  rw [fromString, if_pos hlength]
  dsimp only
  rw [htake4, htakem, htaked, createFromGregorian_eq, if_pos hne, fromGregorian_eq, htake8,
    ← hwritten]
  rfl

/-! ### Databases -/

theorem findVals_updateVar {name : CString} {f : List DbValue → List DbValue} :
    ∀ vars : List (CString × List DbValue), findVals name (updateVar name f vars) =
      some (f ((findVals name vars).getD []))
  | [] => by
      rw [updateVar]
      unfold findVals
      rw [if_pos (strcaseEq_self name)]
      rfl
  | (m, vs) :: vars => by
      rw [updateVar, findVals]
      by_cases hname : strcaseEq m name = true
      · rw [if_pos hname, if_pos hname, findVals, if_pos hname]
        rfl
      · rw [if_neg hname, if_neg hname, findVals, if_neg hname, findVals_updateVar vars]

theorem values_overwritten {name : CString} (hplain : ∀ c ∈ name.bytes, isPlainChar c = true)
    (hne : name.bytes ≠ []) (hg : IsGroup h n) (val : DbValue) :
    (resolve (setValue h n flagsOverwriteVars name val).2 n name).map
      (values (setValue h n flagsOverwriteVars name val).2) = some [val] := by
  obtain ⟨hg', -, hvars⟩ := varsOf_setValue_flags hplain hne (Or.inr rfl) hg val
  have hover : has flagsOverwriteVars flagsOverwriteVars = true := by decide
  rw [values_resolve hplain hne hg'.typ, hvars, findVals_updateVar, newValues, if_pos hover]

theorem getCharValue_set (hg : IsGroup h n) (v : CString) :
    getCharValue (setCharValue h n flagsOverwriteVars dateString v).2 n dateString = some v := by
  have hplain : ∀ c ∈ dateString.bytes, isPlainChar c = true := by decide
  have hvalues := values_overwritten hplain (by decide) hg (.char v)
  unfold getCharValue setCharValue
  cases hres : resolve (setValue h n flagsOverwriteVars dateString (.char v)).2 n dateString with
  | none =>
      rw [hres] at hvalues
      cases hvalues
  | some a =>
      rw [hres, Option.map_some, Option.some.injEq] at hvalues
      rw [Option.bind_some, hvalues]
      rfl

theorem fromDb_toDb (hg : IsGroup h n) (hnul : 0 ∉ gd.asString) (hne : gd.asString ≠ [])
    (hread : fromString (CString.ofBytes gd.asString) = some gd) :
    fromDb (gd.toDb h n) n = some gd := by
  unfold fromDb toDb
  rw [getCharValue_set hg, Option.bind_some, if_pos (by rwa [CString.ofBytes_bytes hnul]), hread]

/-! ### All strings -/

theorem readsDates_digits (hlength : 8 ≤ s.bytes.length)
    (hdigits : ∀ d ∈ s.bytes.take 8, isDigit d = true) : ReadsDates s := by
  obtain ⟨ys, ms, ds, rest, hs, hys, hms, hds⟩ := exists_parts hlength
  obtain ⟨htake4, htakem, htaked, htake8⟩ := take_parts hs hys hms hds
  rw [htake8] at hdigits
  have hread := fromString_digits hs hys hms hds hdigits
  have hall := hdigits
  rw [List.forall_mem_append, List.forall_mem_append] at hall
  rw [readNumber_digits hall.1, readNumber_digits hall.2.1, readNumber_digits hall.2.2] at hread
  unfold ReadsDates
  rw [htake8, htake4, htakem, htaked]
  dsimp only
  refine ⟨?_, fun gd hgd => ?_⟩
  · rw [hread, fromGregorian_eq]
    constructor
    · intro hsome
      split at hsome
      · next hv => exact ⟨hlength, hdigits, hv.1⟩
      · cases hsome
    · rintro ⟨-, -, hv⟩
      rw [if_pos ⟨hv, Int.natCast_nonneg _⟩]
      rfl
  · rw [hread] at hgd
    have hstring : gd.asString = ys ++ (ms ++ ds) := by
      have hwritten := writeAsString_readNumber hys hms hds hdigits
      rw [readNumber_digits hall.1, readNumber_digits hall.2.1, readNumber_digits hall.2.2]
        at hwritten
      rw [fromGregorian_eq] at hgd
      split at hgd
      · rw [← Option.some.inj hgd]
        exact hwritten
      · cases hgd
    have hnul : 0 ∉ gd.asString := by
      intro hmem
      rw [hstring] at hmem
      exact absurd (hdigits 0 hmem) (by decide)
    refine ⟨hgd, hstring, fun h n hg => fromDb_toDb hg hnul ?_ ?_⟩
    · rw [hstring]
      exact List.append_ne_nil_of_left_ne_nil (List.ne_nil_of_length_pos (by omega)) _
    · have hself := @fromString_digits (CString.ofBytes gd.asString) ys ms ds []
        (by rw [CString.ofBytes_bytes hnul, hstring, List.append_nil]) hys hms hds hdigits
      rw [hself, readNumber_digits hall.1, readNumber_digits hall.2.1,
        readNumber_digits hall.2.2, hgd]

/-- Only the strings of dates are accepted, unless characters that are no digits make up for each
other. -/
theorem readsDates_iff (s : CString) : ReadsDates s ↔ ¬Compensated s := by
  by_cases hlength : 8 ≤ s.bytes.length
  · by_cases hdigits : ∀ d ∈ s.bytes.take 8, isDigit d = true
    · refine iff_of_true (readsDates_digits hlength hdigits) ?_
      rintro ⟨-, ⟨c, hc, hdigit⟩, -⟩
      rw [hdigits c hc] at hdigit
      cases hdigit
    · have hread : (fromString s).isSome = true ↔ 0 ≤ placeValue (s.bytes.take 4) ∧
          (⟨placeValue (s.bytes.take 4), placeValue ((s.bytes.drop 4).take 2),
            placeValue ((s.bytes.drop 6).take 2)⟩ : Civil).Valid := by
        rw [fromString, if_pos (show 7 < s.bytes.length from hlength)]
        dsimp only
        rw [readNumber_eq, readNumber_eq, readNumber_eq, createFromGregorian_eq]
        split
        · next hv => exact iff_of_true rfl ⟨hv.2, hv.1⟩
        · next hv => exact iff_of_false Bool.false_ne_true fun h => hv ⟨h.2, h.1⟩
      have hother : ∃ c ∈ s.bytes.take 8, isDigit c = false := by
        push Not at hdigits
        obtain ⟨c, hc, hdigit⟩ := hdigits
        exact ⟨c, hc, eq_false_of_ne_true hdigit⟩
      constructor
      · rintro ⟨haccept, -⟩ ⟨-, -, hv⟩
        exact hdigits (haccept.mp (hread.mpr hv)).2.1
      · intro hno
        have hnone : ¬(fromString s).isSome = true :=
          fun hsome => hno ⟨hlength, hother, hread.mp hsome⟩
        refine ⟨iff_of_false hnone fun hv => hdigits hv.2.1, fun gd hgd => ?_⟩
        rw [hgd] at hnone
        exact absurd rfl hnone
  · have hnone : fromString s = none := by
      rw [fromString, if_neg (by omega)]
    refine iff_of_true ⟨?_, fun gd hgd => ?_⟩ fun hc => hlength hc.1
    · rw [hnone]
      exact iff_of_false Bool.false_ne_true fun hv => hlength hv.1
    · rw [hnone] at hgd
      cases hgd

/-- `"2020010:"` is taken for the 10th of January. -/
theorem not_readsDates_colon : ¬∀ s, ReadsDates s := by
  intro hall
  have hno := (readsDates_iff (CString.ofBytes
    (ascii ['2', '0', '2', '0', '0', '1', '0', ':']))).mp (hall _)
  exact hno ⟨by decide, ⟨code ':', by decide, by decide⟩, by decide,
    by decide⟩

end

end GwenDate
end Gwenhywfar
