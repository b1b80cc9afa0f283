import Gwenhywfar.Os.DateDigits
import Gwenhywfar.Parser.Text

/-! # Dates by templates

* `toStringWithTemplate`: the digits of a date are handed out to the letters of a template, for
  each letter by a cursor of its own.
* `fromStringWithTemplate`: the digits are collected again, by the letters.
* `template_round_trip`: the date comes back. -/

namespace Gwenhywfar.GwenDate

open Calendar Text

/-! ### The letters of a template -/

/-- `GWEN_DATE_TMPLCHAR`. -/
structure TmplChar where
  character : UInt8
  count : ℕ
  maxCount : ℕ
  nextChar : ℕ
  content : List UInt8
deriving DecidableEq

/-- `GWEN_DATE_TMPL_MAX_COUNT`. -/
def tmplMaxCount : ℕ := 32

/-- `GWEN_DateTmplChar_new`. -/
def TmplChar.new (c : UInt8) : TmplChar where
  character := c
  count := 0
  maxCount :=
    if c = code 'Y' then 4
    else if c = code 'M' then 2
    else if c = code 'D' then 2
    else if c = code 'W' then 1
    else tmplMaxCount
  nextChar := 0
  content := []

/-- The letters of which the writer keeps an entry. -/
def isTmplChar (c : UInt8) : Bool := c ∈ ascii ['Y', 'M', 'D', 'W', 'w']

/-- The letters that the reader collects. -/
def isDatePart (c : UInt8) : Bool := c ∈ ascii ['Y', 'M', 'D']

/-- `GWEN_Date__findTmplChar`. -/
def findTmplChar (ll : List TmplChar) (c : UInt8) : Option TmplChar :=
  ll.find? fun e => e.character == c

/-- What is done to the entry that `GWEN_Date__findTmplChar` finds. -/
def updateTmplChar (f : TmplChar → TmplChar) (c : UInt8) : List TmplChar → List TmplChar
  | [] => []
  | e :: ll => if e.character = c then f e :: ll else e :: updateTmplChar f c ll

/-- `e->count++`. -/
def TmplChar.counted (e : TmplChar) : TmplChar := { e with count := e.count + 1 }

/-- `e->nextChar++`. -/
def TmplChar.advanced (e : TmplChar) : TmplChar := { e with nextChar := e.nextChar + 1 }

/-- One character in `GWEN_Date__sampleTmplChars`. -/
def sampleTmplChar (ll : List TmplChar) (c : UInt8) : List TmplChar :=
  if isTmplChar c = true then
    updateTmplChar TmplChar.counted c
      (if (findTmplChar ll c).isSome = true then ll else ll ++ [TmplChar.new c])
  else ll

/-- `GWEN_Date__sampleTmplChars`. -/
def sampleTmplChars (tmpl : List UInt8) : List TmplChar := tmpl.foldl sampleTmplChar []

/-- `sprintf(buffer, "%0*d", width, v)`. -/
def printPadded (width : ℕ) (v : ℤ) : List UInt8 :=
  let ds := if v = 0 then [code '0'] else decimalDigits v.natAbs
  if v < 0 then code '-' :: (List.replicate (width - 1 - ds.length) (code '0') ++ ds)
  else List.replicate (width - ds.length) (code '0') ++ ds

def dayName (weekday : ℤ) : Option (List UInt8) :=
  if weekday = 0 then some (ascii ['S', 'u', 'n', 'd', 'a', 'y'])
  else if weekday = 1 then some (ascii ['M', 'o', 'n', 'd', 'a', 'y'])
  else if weekday = 2 then some (ascii ['T', 'u', 'e', 's', 'd', 'a', 'y'])
  else if weekday = 3 then some (ascii ['W', 'e', 'd', 'n', 'e', 's', 'd', 'a', 'y'])
  else if weekday = 4 then some (ascii ['T', 'h', 'u', 'r', 's', 'd', 'a', 'y'])
  else if weekday = 5 then some (ascii ['F', 'r', 'i', 'd', 'a', 'y'])
  else if weekday = 6 then some (ascii ['S', 'a', 't', 'u', 'r', 'd', 'a', 'y'])
  else none

/-- The number for a letter; `-1` stands for a letter that has none. -/
def tmplValue (t : GwenDate) (c : UInt8) : ℤ :=
  if c = code 'Y' then t.year
  else if c = code 'M' then t.month
  else if c = code 'D' then t.day
  else if c = code 'W' then t.weekDay
  else -1

/-- An entry whose last `count` characters are to be handed out. -/
def TmplChar.filled (e : TmplChar) (text : List UInt8) : TmplChar :=
  { e with
    content := text
    count := min e.count text.length
    nextChar := text.length - min e.count text.length }

section
variable (i18n : List UInt8 → List UInt8) (t : GwenDate)

/-- An entry in `GWEN_Date__fillTmplChars`; nothing when the program is aborted. -/
def fillTmplChar (e : TmplChar) : Option TmplChar :=
  if e.character = code 'w' then
    (dayName t.weekDay).map fun s => { e with content := i18n s, nextChar := 0 }
  else if tmplValue t e.character = -1 then none
  else some (e.filled (printPadded e.maxCount (tmplValue t e.character)))

/-- `GWEN_Date__fillTmplChars`. -/
def fillTmplChars : List TmplChar → Option (List TmplChar)
  | [] => some []
  | e :: ll =>
      (fillTmplChar i18n t e).bind fun e' => (fillTmplChars ll).map fun ll' => e' :: ll'

/-! ### Writing -/

/-- The loop of `GWEN_Date_toStringWithTemplate`, which returns what is appended; nothing when an
assertion fails. -/
def writeLoop : List UInt8 → List TmplChar → Option (List UInt8)
  | [], _ => some []
  | c :: s, ll =>
      if isTmplChar c = true then
        (findTmplChar ll c).bind fun e =>
          if s.head? = some (code '*') then (writeLoop s.tail ll).map fun text => e.content ++ text
          else if e.nextChar < e.content.length then
            (writeLoop s (updateTmplChar TmplChar.advanced c ll)).map fun text =>
              e.content.getD e.nextChar 0 :: text
          else writeLoop s ll
      else (writeLoop s ll).map fun text => c :: text
termination_by s => s.length
decreasing_by all_goals (simp; try omega)

/-- `GWEN_Date_toStringWithTemplate`, with the translations of the names of the days. -/
def toStringWithTemplate (tmpl : CString) : Option (List UInt8) :=
  (fillTmplChars i18n t (sampleTmplChars tmpl.bytes)).bind fun ll => writeLoop tmpl.bytes ll

end

/-! ### Reading -/

/-- `year`, `month` and `day`, while they are collected. -/
@[ext]
structure Parts where
  year : ℤ
  month : ℤ
  day : ℤ
deriving DecidableEq

/-- A digit, or a number, for a letter of the template. -/
def Parts.put (acc : Parts) (c : UInt8) (i : ℤ) : Parts :=
  if c = code 'Y' then { acc with year := acc.year * 10 + i }
  else if c = code 'M' then { acc with month := acc.month * 10 + i }
  else if c = code 'D' then { acc with day := acc.day * 10 + i }
  else acc

/-- The digits for a `*`, up to the character that follows it in the template. -/
def starDigits (c : UInt8) (s : List UInt8) : List UInt8 :=
  s.takeWhile fun p => isDigit p && p != c

/-- The loop of `GWEN_Date_fromStringWithTemplate`. -/
def readLoop : List UInt8 → List UInt8 → Parts → Option Parts
  | [], _, acc => some acc
  | _ :: _, [], acc => some acc
  | c :: tmpl, p :: s, acc =>
      if c = code '*' then
        tmpl.head?.bind fun c' =>
          readLoop tmpl.tail ((p :: s).drop (starDigits c' (p :: s)).length)
            (acc.put c' (readNumber (starDigits c' (p :: s))))
      else if isDigit p = true then readLoop tmpl s (acc.put c (charValue p - 48))
      -- the character is looked at again
      else if isDatePart c = true then readLoop tmpl (p :: s) acc
      else readLoop tmpl s acc
termination_by tmpl => tmpl.length
decreasing_by all_goals (simp; try omega)

/-- `GWEN_Date_fromStringWithTemplate`. -/
def fromStringWithTemplate (s tmpl : CString) : Option GwenDate :=
  (readLoop tmpl.bytes s.bytes ⟨0, 0, 0⟩).bind fun acc =>
    fromGregorian (if acc.year < 100 then acc.year + 2000 else acc.year) acc.month acc.day

section
variable {i18n : List UInt8 → List UInt8} {t : GwenDate} {c c' : UInt8} {e : TmplChar}
  {ll ll' : List TmplChar} {tmpl : List UInt8} {acc : Parts} {f : TmplChar → TmplChar} {w : ℕ}
  {v : ℤ}

/-! ### Entries -/

theorem findTmplChar_cons (e : TmplChar) (ll : List TmplChar) (c : UInt8) :
    findTmplChar (e :: ll) c = if e.character = c then some e else findTmplChar ll c := by
  unfold findTmplChar
  rw [List.find?_cons]
  by_cases h : e.character = c
  · rw [if_pos h, beq_iff_eq.mpr h]
  · rw [if_neg h, beq_eq_false_iff_ne.mpr h]

theorem findTmplChar_updateTmplChar (hf : ∀ e, (f e).character = e.character) (c c' : UInt8)
    (ll : List TmplChar) : findTmplChar (updateTmplChar f c ll) c' =
      if c' = c then (findTmplChar ll c).map f else findTmplChar ll c' := by
  induction ll with
  | nil => simp [updateTmplChar, findTmplChar]
  | cons e ll ih =>
      rw [updateTmplChar, findTmplChar_cons, findTmplChar_cons]
      by_cases he : e.character = c
      · rw [if_pos he, findTmplChar_cons, hf, he, if_pos rfl]
        by_cases hc : c' = c
        · rw [if_pos hc, if_pos hc.symm, Option.map_some]
        · rw [if_neg hc, if_neg (Ne.symm hc), if_neg (Ne.symm hc)]
      · rw [if_neg he, if_neg he, findTmplChar_cons, ih]
        by_cases hc : c' = c
        · rw [if_pos hc, if_pos hc, if_neg (hc ▸ he)]
        · rw [if_neg hc, if_neg hc]

theorem findTmplChar_append_new (ll : List TmplChar) (c c' : UInt8)
    (h : findTmplChar ll c = none) : findTmplChar (ll ++ [TmplChar.new c]) c' =
      if c' = c then some (TmplChar.new c) else findTmplChar ll c' := by
  induction ll with
  | nil =>
      rw [List.nil_append, findTmplChar_cons]
      have hcharacter : (TmplChar.new c).character = c := rfl
      rw [hcharacter]
      by_cases hc : c' = c
      · rw [if_pos hc, if_pos hc.symm]
      · rw [if_neg hc, if_neg (Ne.symm hc)]
  | cons e ll ih =>
      rw [findTmplChar_cons] at h
      have he : e.character ≠ c := fun he => by
        rw [if_pos he] at h
        cases h
      rw [if_neg he] at h
      rw [List.cons_append, findTmplChar_cons, findTmplChar_cons, ih h]
      by_cases hc : c' = c
      · rw [if_pos hc, if_pos hc, if_neg (hc ▸ he)]
      · rw [if_neg hc, if_neg hc]

/-- The entry of a letter that has been counted. -/
def TmplChar.times (c : UInt8) (k : ℕ) : TmplChar := { TmplChar.new c with count := k }

/-- The entry for a letter of a part of the template. -/
def sampled (tmpl : List UInt8) (c : UInt8) : Option TmplChar :=
  if isTmplChar c = true ∧ c ∈ tmpl then some (TmplChar.times c (tmpl.count c)) else none

/-- The entries for a part of the template. -/
def Samples (tmpl : List UInt8) (ll : List TmplChar) : Prop :=
  ∀ c, findTmplChar ll c = sampled tmpl c

theorem sampled_of_mem (hc : isTmplChar c = true) (hmem : c ∈ tmpl) :
    sampled tmpl c = some (TmplChar.times c (tmpl.count c)) := if_pos ⟨hc, hmem⟩

theorem sampled_of_not_mem (hmem : c ∉ tmpl) : sampled tmpl c = none := if_neg fun h => hmem h.2

theorem sampled_append_of_ne (hc : c' ≠ c) : sampled (tmpl ++ [c]) c' = sampled tmpl c' := by
  have hcount : (tmpl ++ [c]).count c' = tmpl.count c' := by
    rw [List.count_append, List.count_singleton, if_neg (by simpa using Ne.symm hc), Nat.add_zero]
  unfold sampled
  simp only [List.mem_append, List.mem_singleton, hc, or_false, hcount]

theorem Samples.sampleTmplChar (h : Samples tmpl ll) (c : UInt8) :
    Samples (tmpl ++ [c]) (GwenDate.sampleTmplChar ll c) := by
  intro c'
  have hcounted : ∀ e : TmplChar, e.counted.character = e.character := fun e => rfl
  unfold GwenDate.sampleTmplChar
  by_cases hc : isTmplChar c = true
  · rw [if_pos hc, findTmplChar_updateTmplChar hcounted]
    by_cases hmem : c ∈ tmpl
    · have hfind : findTmplChar ll c = some (TmplChar.times c (tmpl.count c)) :=
        (h c).trans (sampled_of_mem hc hmem)
      rw [hfind, Option.isSome_some, if_pos rfl]
      by_cases heq : c' = c
      · subst heq
        rw [if_pos rfl, hfind, sampled_of_mem hc (List.mem_append_left _ hmem),
          List.count_append, List.count_singleton_self]
        rfl
      · rw [if_neg heq, h c', sampled_append_of_ne heq]
    · have hfind : findTmplChar ll c = none := (h c).trans (sampled_of_not_mem hmem)
      rw [hfind, Option.isSome_none, if_neg Bool.false_ne_true,
        findTmplChar_append_new ll c c hfind, if_pos rfl, findTmplChar_append_new ll c c' hfind]
      by_cases heq : c' = c
      · subst heq
        rw [if_pos rfl, sampled_of_mem hc (List.mem_append_right _ List.mem_cons_self),
          List.count_append, List.count_singleton_self, List.count_eq_zero.mpr hmem]
        rfl
      · rw [if_neg heq, if_neg heq, h c', sampled_append_of_ne heq]
  · rw [if_neg hc, h c']
    by_cases heq : c' = c
    · subst heq
      unfold sampled
      rw [if_neg fun h => hc h.1, if_neg fun h => hc h.1]
    · rw [sampled_append_of_ne heq]

theorem samples_sampleTmplChars (tmpl : List UInt8) : Samples tmpl (sampleTmplChars tmpl) := by
  induction tmpl using List.reverseRecOn with
  | nil =>
      intro c
      rw [sampled_of_not_mem List.not_mem_nil]
      rfl
  | append_singleton tmpl c ih =>
      unfold sampleTmplChars
      rw [List.foldl_append]
      exact ih.sampleTmplChar c

theorem mem_updateTmplChar : ∀ {ll : List TmplChar}, e ∈ updateTmplChar f c ll →
    e ∈ ll ∨ ∃ e' ∈ ll, e = f e'
  | [], h => .inl h
  | e' :: ll, h => by
      rw [updateTmplChar] at h
      split at h
      · rcases List.mem_cons.mp h with rfl | h
        · exact .inr ⟨e', List.mem_cons_self, rfl⟩
        · exact .inl (List.mem_cons_of_mem _ h)
      · rcases List.mem_cons.mp h with rfl | h
        · exact .inl List.mem_cons_self
        · rcases mem_updateTmplChar h with h | ⟨e'', h, he⟩
          · exact .inl (List.mem_cons_of_mem _ h)
          · exact .inr ⟨e'', List.mem_cons_of_mem _ h, he⟩

/-- There are entries of letters of the template only. -/
theorem character_mem (he : e ∈ sampleTmplChars tmpl) :
    e.character ∈ tmpl ∧ isTmplChar e.character = true := by
  induction tmpl using List.reverseRecOn generalizing e with
  | nil => exact absurd he List.not_mem_nil
  | append_singleton tmpl c ih =>
      unfold sampleTmplChars at he
      rw [List.foldl_append] at he
      have hold : ∀ e ∈ sampleTmplChars tmpl,
          e.character ∈ tmpl ++ [c] ∧ isTmplChar e.character = true := fun e he =>
        ⟨List.mem_append_left _ (ih he).1, (ih he).2⟩
      change e ∈ GwenDate.sampleTmplChar (sampleTmplChars tmpl) c at he
      unfold GwenDate.sampleTmplChar at he
      split at he
      · next hc =>
          have hnew : ∀ e ∈ (if (findTmplChar (sampleTmplChars tmpl) c).isSome = true then
              sampleTmplChars tmpl else sampleTmplChars tmpl ++ [TmplChar.new c]),
              e.character ∈ tmpl ++ [c] ∧ isTmplChar e.character = true := by
            intro e he
            split at he
            · exact hold e he
            · rcases List.mem_append.mp he with he | he
              · exact hold e he
              · rw [List.mem_singleton.mp he]
                exact ⟨List.mem_append_right _ List.mem_cons_self, hc⟩
          rcases mem_updateTmplChar he with he | ⟨e', he', rfl⟩
          · exact hnew e he
          · exact hnew e' he'
      · exact hold e he

/-! ### The digits of a number -/

theorem readNumber_cons_zero (ds : List UInt8) : readNumber (code '0' :: ds) = readNumber ds := by
  have hzero : (0 : ℤ) * 10 + (charValue (code '0') - 48) = 0 := by decide
  unfold readNumber
  rw [List.foldl_cons, hzero]

theorem readNumber_replicate_zero (k : ℕ) (ds : List UInt8) :
    readNumber (List.replicate k (code '0') ++ ds) = readNumber ds := by
  induction k with
  | zero => rfl
  | succ k ih => rw [List.replicate_succ, List.cons_append, readNumber_cons_zero, ih]

/-- A number that is not too long has the width. -/
theorem printPadded_spec (hw : 0 < w) (h0 : 0 ≤ v) (hv : v < 10 ^ w) :
    (printPadded w v).length = w ∧ (∀ d ∈ printPadded w v, isDigit d = true) ∧
      readNumber (printPadded w v) = v := by
  obtain ⟨ds, hds, hprint, hlength, hvalue⟩ : ∃ ds : List UInt8, (∀ d ∈ ds, isDigit d = true) ∧
      printPadded w v = List.replicate (w - ds.length) (code '0') ++ ds ∧ ds.length ≤ w ∧
      (digitsValue ds : ℤ) = v := by
    unfold printPadded
    rw [if_neg (by omega)]
    by_cases hz : v = 0
    · refine ⟨[code '0'], List.forall_mem_singleton.mpr (by decide), by rw [if_pos hz], hw, ?_⟩
      rw [hz]
      decide
    · refine ⟨decimalDigits v.natAbs, fun d hd => isDigit_of_mem_decimalDigits hd,
        by rw [if_neg hz], ?_, ?_⟩
      · unfold decimalDigits
        rw [List.length_map, List.length_reverse, Nat.digits_length_le_iff (by decide)]
        zify
        rwa [abs_of_nonneg h0]
      · rw [digitsValue_decimalDigits]
        omega
  rw [hprint]
  refine ⟨?_, ?_, ?_⟩
  · rw [List.length_append, List.length_replicate]
    omega
  · rw [List.forall_mem_append]
    refine ⟨fun d hd => ?_, hds⟩
    rw [List.eq_of_mem_replicate hd]
    decide
  · rw [readNumber_replicate_zero, readNumber_digits hds, hvalue]

/-! ### What is left to be handed out -/

/-- The characters behind the cursor of a letter. -/
def remaining (ll : List TmplChar) (c : UInt8) : List UInt8 :=
  ((findTmplChar ll c).map fun e => e.content.drop e.nextChar).getD []

/-- The digits that are left suffice for the rest of a template. -/
structure Hands (tmpl : List UInt8) (ll : List TmplChar) : Prop where
  letters : ∀ c ∈ tmpl, isTmplChar c = true → isDatePart c = true
  no_star : code '*' ∉ tmpl
  length_eq : ∀ c, isDatePart c = true → (remaining ll c).length = tmpl.count c
  digits : ∀ c, isDatePart c = true → ∀ d ∈ remaining ll c, isDigit d = true

/-- The digits `ds` are collected behind those of `x`. -/
def readOn (x : ℤ) (ds : List UInt8) : ℤ := ds.foldl (fun x c => x * 10 + (charValue c - 48)) x

def Parts.collect (acc : Parts) (ll : List TmplChar) : Parts where
  year := readOn acc.year (remaining ll (code 'Y'))
  month := readOn acc.month (remaining ll (code 'M'))
  day := readOn acc.day (remaining ll (code 'D'))

theorem isDatePart_iff : isDatePart c = true ↔ c = code 'Y' ∨ c = code 'M' ∨ c = code 'D' := by
  simp [isDatePart, ascii]

theorem isTmplChar_of_isDatePart (hc : isDatePart c = true) : isTmplChar c = true := by
  rcases isDatePart_iff.mp hc with rfl | rfl | rfl <;> decide

theorem remaining_advanced (c c' : UInt8) (ll : List TmplChar) :
    remaining (updateTmplChar TmplChar.advanced c ll) c' =
      if c' = c then (remaining ll c).tail else remaining ll c' := by
  have hadvanced : ∀ e : TmplChar, e.advanced.character = e.character := fun e => rfl
  unfold remaining
  rw [findTmplChar_updateTmplChar hadvanced]
  by_cases hc : c' = c
  · rw [if_pos hc, if_pos hc]
    cases findTmplChar ll c with
    | none => rfl
    | some e =>
        rw [Option.map_some, Option.map_some, Option.map_some, Option.getD_some,
          Option.getD_some, List.tail_drop]
        rfl
  · rw [if_neg hc, if_neg hc]

theorem Hands.letter (h : Hands (c :: tmpl) ll) (hc : isDatePart c = true) :
    ∃ e d ds, findTmplChar ll c = some e ∧ e.nextChar < e.content.length ∧
      e.content.getD e.nextChar 0 = d ∧ remaining ll c = d :: ds ∧ isDigit d = true ∧
      Hands tmpl (updateTmplChar TmplChar.advanced c ll) := by
  have hlength := h.length_eq c hc
  rw [List.count_cons_self] at hlength
  obtain ⟨d, ds, hrem⟩ := List.exists_cons_of_length_pos (show 0 < (remaining ll c).length by omega)
  obtain ⟨e, hfind⟩ : ∃ e, findTmplChar ll c = some e := by
    cases hfind : findTmplChar ll c with
    | none =>
        unfold remaining at hrem
        rw [hfind] at hrem
        cases hrem
    | some e => exact ⟨e, rfl⟩
  have hdrop : e.content.drop e.nextChar = d :: ds := by
    unfold remaining at hrem
    rw [hfind] at hrem
    exact hrem
  have hlt : e.nextChar < e.content.length := by
    by_contra hge
    rw [List.drop_eq_nil_of_le (by omega)] at hdrop
    cases hdrop
  refine ⟨e, d, ds, hfind, hlt, ?_, hrem, ?_, ?_⟩
  · rw [List.drop_eq_getElem_cons hlt] at hdrop
    rw [List.getD_eq_getElem?_getD, List.getElem?_eq_getElem hlt, Option.getD_some]
    exact (List.cons.inj hdrop).1
  · exact h.digits c hc d (hrem ▸ List.mem_cons_self)
  · refine ⟨fun c' hc' => h.letters c' (List.mem_cons_of_mem _ hc'),
      fun hstar => h.no_star (List.mem_cons_of_mem _ hstar), fun c' hc' => ?_, fun c' hc' => ?_⟩
    · rw [remaining_advanced]
      have hcount := h.length_eq c' hc'
      by_cases heq : c' = c
      · subst heq
        rw [List.count_cons_self] at hcount
        rw [if_pos rfl, List.length_tail]
        omega
      · rw [if_neg heq, hcount, List.count_cons_of_ne (Ne.symm heq)]
    · rw [remaining_advanced]
      split
      · exact fun d hd => h.digits c hc d (List.mem_of_mem_tail hd)
      · exact h.digits c' hc'

theorem Hands.other (h : Hands (c :: tmpl) ll) (hc : ¬isDatePart c = true) : Hands tmpl ll := by
  refine ⟨fun c' hc' => h.letters c' (List.mem_cons_of_mem _ hc'),
    fun hstar => h.no_star (List.mem_cons_of_mem _ hstar), fun c' hc' => ?_, h.digits⟩
  have hne : c' ≠ c := fun heq => hc (heq ▸ hc')
  rw [h.length_eq c' hc', List.count_cons_of_ne (Ne.symm hne)]

theorem collect_put (acc : Parts) (hc : isDatePart c = true) {d : UInt8} {ds : List UInt8}
    (hrem : remaining ll c = d :: ds) :
    (acc.put c (charValue d - 48)).collect (updateTmplChar TmplChar.advanced c ll) =
      acc.collect ll := by
  have hread : ∀ x : ℤ, readOn (x * 10 + (charValue d - 48)) ds = readOn x (d :: ds) := fun x =>
    rfl
  have hM : code 'M' ≠ code 'Y' := by decide
  have hD : code 'D' ≠ code 'Y' := by decide
  have hDM : code 'D' ≠ code 'M' := by decide
  unfold Parts.collect Parts.put
  rcases isDatePart_iff.mp hc with rfl | rfl | rfl <;>
    simp only [remaining_advanced, hrem, hM, hD, hDM, Ne.symm hM, Ne.symm hD, Ne.symm hDM,
      if_true, if_false, List.tail_cons, hread]

theorem put_other (acc : Parts) (hc : ¬isDatePart c = true) (i : ℤ) : acc.put c i = acc := by
  rw [isDatePart_iff, not_or, not_or] at hc
  unfold Parts.put
  rw [if_neg hc.1, if_neg hc.2.1, if_neg hc.2.2]

theorem collect_nil (acc : Parts) (h : Hands [] ll) : acc.collect ll = acc := by
  have hnil : ∀ c, isDatePart c = true → remaining ll c = [] := fun c hc =>
    List.eq_nil_of_length_eq_zero (h.length_eq c hc)
  unfold Parts.collect
  rw [hnil _ (by decide), hnil _ (by decide), hnil _ (by decide)]
  rfl

/-! ### Reading what has been written -/

theorem writeLoop_readLoop : ∀ {tmpl : List UInt8} {ll : List TmplChar}, Hands tmpl ll →
    0 ∉ tmpl → ∃ text, writeLoop tmpl ll = some text ∧ 0 ∉ text ∧
      ∀ acc, readLoop tmpl text acc = some (acc.collect ll)
  | [], ll, h, _ => by
      refine ⟨[], by rw [writeLoop], List.not_mem_nil, fun acc => ?_⟩
      rw [readLoop, collect_nil acc h]
  | c :: tmpl, ll, h, hnul => by
      have hstar : c ≠ code '*' := fun heq => h.no_star (heq ▸ List.mem_cons_self)
      have hnext : ¬tmpl.head? = some (code '*') := fun heq =>
        h.no_star (List.mem_cons_of_mem _ (List.mem_of_head? heq))
      rw [List.mem_cons, not_or] at hnul
      by_cases hc : isDatePart c = true
      · obtain ⟨e, d, ds, hfind, hlt, hget, hrem, hdigit, hrest⟩ := h.letter hc
        obtain ⟨text, hwrite, htext, hread⟩ := writeLoop_readLoop hrest hnul.2
        refine ⟨d :: text, ?_, ?_, fun acc => ?_⟩
        · rw [writeLoop, if_pos (isTmplChar_of_isDatePart hc), hfind, Option.bind_some,
            if_neg hnext, if_pos hlt, hwrite, Option.map_some, hget]
        · rw [List.mem_cons, not_or]
          refine ⟨fun heq => ?_, htext⟩
          rw [← heq] at hdigit
          exact absurd hdigit (by decide)
        · rw [readLoop, if_neg hstar, if_pos hdigit, hread, collect_put acc hc hrem]
      · obtain ⟨text, hwrite, htext, hread⟩ := writeLoop_readLoop (h.other hc) hnul.2
        have hletter : ¬isTmplChar c = true := fun hletter =>
          hc (h.letters c List.mem_cons_self hletter)
        refine ⟨c :: text, ?_, ?_, fun acc => ?_⟩
        · rw [writeLoop, if_neg hletter, hwrite, Option.map_some]
        · rw [List.mem_cons, not_or]
          exact ⟨hnul.1, htext⟩
        · rw [readLoop, if_neg hstar, put_other acc hc, if_neg hc, hread, ite_self]

/-! ### Filling the entries -/

theorem fillTmplChars_eq {f : TmplChar → TmplChar} : ∀ {ll : List TmplChar},
    (∀ e ∈ ll, fillTmplChar i18n t e = some (f e)) → fillTmplChars i18n t ll = some (ll.map f)
  | [], _ => rfl
  | e :: ll, h => by
      rw [List.forall_mem_cons] at h
      rw [fillTmplChars, h.1, fillTmplChars_eq h.2]
      rfl

theorem count_eq_maxCount (hY : tmpl.count (code 'Y') = 4) (hM : tmpl.count (code 'M') = 2)
    (hD : tmpl.count (code 'D') = 2) (hc : isDatePart c = true) :
    tmpl.count c = (TmplChar.new c).maxCount := by
  rcases isDatePart_iff.mp hc with rfl | rfl | rfl
  · exact hY
  · exact hM
  · exact hD

/-- The numbers of a date have the widths of their letters. -/
theorem IsDate.tmplValue_spec (h : t.IsDate) (hy : t.year ≤ 9999) (hc : isDatePart c = true) :
    0 < (TmplChar.new c).maxCount ∧ 0 ≤ tmplValue t c ∧
      tmplValue t c < 10 ^ (TmplChar.new c).maxCount := by
  obtain ⟨hvalid, hy0, -⟩ := h.spec
  obtain ⟨hm1, hm2, hd1, hd2⟩ := hvalid
  have hbounds := monthDays_bounds t.civil.year t.civil.month
  change 1 ≤ t.month at hm1
  change t.month ≤ 12 at hm2
  change 1 ≤ t.day at hd1
  change t.day ≤ _ at hd2
  rcases isDatePart_iff.mp hc with rfl | rfl | rfl
  · have hvalue : tmplValue t (code 'Y') = t.year := rfl
    have hwidth : (TmplChar.new (code 'Y')).maxCount = 4 := rfl
    rw [hvalue, hwidth]
    omega
  · have hvalue : tmplValue t (code 'M') = t.month := rfl
    have hwidth : (TmplChar.new (code 'M')).maxCount = 2 := rfl
    rw [hvalue, hwidth]
    omega
  · have hvalue : tmplValue t (code 'D') = t.day := rfl
    have hwidth : (TmplChar.new (code 'D')).maxCount = 2 := rfl
    rw [hvalue, hwidth]
    omega

/-- The entries of a template with enough letters hold the numbers of the date. -/
theorem fillTmplChars_sampled (h : t.IsDate) (hy : t.year ≤ 9999)
    (hletters : ∀ c ∈ tmpl, isTmplChar c = true → isDatePart c = true)
    (hcount : ∀ c, isDatePart c = true → tmpl.count c = (TmplChar.new c).maxCount) :
    ∃ ll, fillTmplChars i18n t (sampleTmplChars tmpl) = some ll ∧ ∀ c, isDatePart c = true →
        remaining ll c = printPadded (TmplChar.new c).maxCount (tmplValue t c) := by
  let f : TmplChar → TmplChar := fun e =>
    e.filled (printPadded e.maxCount (tmplValue t e.character))
  refine ⟨(sampleTmplChars tmpl).map f, fillTmplChars_eq fun e he => ?_, fun c hc => ?_⟩
  · obtain ⟨hmem, hletter⟩ := character_mem he
    have hpart := hletters e.character hmem hletter
    have hw : e.character ≠ code 'w' := fun heq => by
      rw [heq] at hpart
      exact absurd hpart (by decide)
    have hvalue := (h.tmplValue_spec hy hpart).2.1
    unfold fillTmplChar
    rw [if_neg hw, if_neg (by omega)]
  · obtain ⟨hwidth, h0, hlt⟩ := h.tmplValue_spec hy hc
    obtain ⟨hlength, -, -⟩ := printPadded_spec hwidth h0 hlt
    have hmem : c ∈ tmpl := by
      rw [← List.count_pos_iff, hcount c hc]
      exact hwidth
    have hfind : findTmplChar ((sampleTmplChars tmpl).map f) c =
        (findTmplChar (sampleTmplChars tmpl) c).map f := by
      unfold findTmplChar
      rw [List.find?_map]
      rfl
    unfold remaining
    rw [hfind, samples_sampleTmplChars tmpl c,
      sampled_of_mem (isTmplChar_of_isDatePart hc) hmem, hcount c hc]
    have hskip : (f (TmplChar.times c (TmplChar.new c).maxCount)).nextChar = 0 := by
      change (printPadded (TmplChar.new c).maxCount (tmplValue t c)).length -
        min (TmplChar.new c).maxCount
          (printPadded (TmplChar.new c).maxCount (tmplValue t c)).length = 0
      rw [hlength]
      omega
    rw [Option.map_some, Option.map_some, Option.getD_some, hskip, List.drop_zero]
    rfl

/-- A template in which the letters of a date occur as often as there are digits for them. -/
structure DateTemplate (tmpl : CString) : Prop where
  count_year : tmpl.bytes.count (code 'Y') = 4
  count_month : tmpl.bytes.count (code 'M') = 2
  count_day : tmpl.bytes.count (code 'D') = 2
  others : code 'W' ∉ tmpl.bytes ∧ code 'w' ∉ tmpl.bytes ∧ code '*' ∉ tmpl.bytes

/-- A date is written and read by a template. -/
theorem template_round_trip (i18n : List UInt8 → List UInt8) (t : GwenDate) (tmpl : CString)
    (h : t.IsDate) (hy : 100 ≤ t.year ∧ t.year ≤ 9999) (htmpl : DateTemplate tmpl) :
    ∃ s : CString, toStringWithTemplate i18n t tmpl = some s.bytes ∧
      fromStringWithTemplate s tmpl = some t := by
  have hletters : ∀ c ∈ tmpl.bytes, isTmplChar c = true → isDatePart c = true := by
    intro c hc hletter
    have hW : c ≠ code 'W' := fun heq => htmpl.others.1 (heq ▸ hc)
    have hw : c ≠ code 'w' := fun heq => htmpl.others.2.1 (heq ▸ hc)
    simpa [isTmplChar, isDatePart, ascii, hW, hw] using hletter
  have hcount := @count_eq_maxCount
  replace hcount := fun c (hc : isDatePart c = true) =>
    hcount htmpl.count_year htmpl.count_month htmpl.count_day hc
  obtain ⟨ll, hfill, hrem⟩ := @fillTmplChars_sampled i18n t tmpl.bytes h hy.2 hletters hcount
  have hhands : Hands tmpl.bytes ll := by
    refine ⟨hletters, htmpl.others.2.2, fun c hc => ?_, fun c hc => ?_⟩
    · obtain ⟨hwidth, h0, hlt⟩ := h.tmplValue_spec hy.2 hc
      rw [hrem c hc, hcount c hc, (printPadded_spec hwidth h0 hlt).1]
    · obtain ⟨hwidth, h0, hlt⟩ := h.tmplValue_spec hy.2 hc
      rw [hrem c hc]
      exact (printPadded_spec hwidth h0 hlt).2.1
  obtain ⟨text, hwrite, hnul, hread⟩ := writeLoop_readLoop hhands tmpl.nul_free
  refine ⟨⟨text, hnul⟩, ?_, ?_⟩
  · unfold toStringWithTemplate
    rw [hfill, Option.bind_some, hwrite]
  · have hvalue : ∀ c, isDatePart c = true → readOn 0 (remaining ll c) = tmplValue t c := by
      intro c hc
      obtain ⟨hwidth, h0, hlt⟩ := h.tmplValue_spec hy.2 hc
      rw [hrem c hc]
      exact (printPadded_spec hwidth h0 hlt).2.2
    have hcollect : (⟨0, 0, 0⟩ : Parts).collect ll = ⟨t.year, t.month, t.day⟩ := by
      unfold Parts.collect
      rw [hvalue _ (by decide), hvalue _ (by decide), hvalue _ (by decide)]
      rfl
    unfold fromStringWithTemplate
    rw [hread, hcollect, Option.bind_some, if_neg (by dsimp only; omega)]
    exact h

/-- The date 2024-02-29 by the template `MYY/DYDM YY`. -/
theorem template_round_trip_leap_day :
    ∃ s : CString, toStringWithTemplate id (ofCivil ⟨2024, 2, 29⟩)
        ⟨ascii ['M', 'Y', 'Y', '/', 'D', 'Y', 'D', 'M', '1', 'Y'], by decide⟩ = some s.bytes ∧
      fromStringWithTemplate s
        ⟨ascii ['M', 'Y', 'Y', '/', 'D', 'Y', 'D', 'M', '1', 'Y'], by decide⟩ =
          some (ofCivil ⟨2024, 2, 29⟩) :=
  template_round_trip id (ofCivil ⟨2024, 2, 29⟩) _
    (isDate_ofCivil (by decide) (by decide)) (by decide)
    ⟨by decide, by decide, by decide, by decide⟩

end
end Gwenhywfar.GwenDate
