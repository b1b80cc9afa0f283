import Gwenhywfar.Base.BufferBytes
import Gwenhywfar.Base.CString

/-! # The text between two strings

* `strCaseStr`: `GWEN_Text_StrCaseStr`, which finds the first place where a string occurs
  (`strCaseStr_firstAt`).
* `keepMeets_iff`: `GWEN_Buffer_KeepTextBetweenStrings` keeps the text that it is to keep when the
  closing string follows; when it does not, the crop is asked for a byte too many and fails. -/

namespace Gwenhywfar.Buffer

/-! ### Finding a string -/

/-- The rest of the string occurs here. -/
def compareCase : List UInt8 → List UInt8 → Bool
  | _, [] => true
  | [], _ :: _ => false
  | a :: t, b :: s => toLower a == toLower b && compareCase t s

/-- `GWEN_Text_StrCaseStr`: the haystack from the place on where the needle occurs. -/
def strCaseStr (needle : List UInt8) : List UInt8 → Option (List UInt8)
  | [] => none
  | c :: haystack =>
      if toLower c ≠ toLower (needle.head?.getD 0) then strCaseStr needle haystack
      else if compareCase haystack needle.tail then some (c :: haystack)
      else strCaseStr needle haystack

/-- The needle occurs at the index, ignoring the case. -/
def MatchAt (needle s : List UInt8) (i : ℕ) : Prop :=
  ((s.drop i).take needle.length).map toLower = needle.map toLower

instance (needle s : List UInt8) (i : ℕ) : Decidable (MatchAt needle s i) :=
  inferInstanceAs (Decidable (_ = _))

/-- The needle occurs at the index, and not before. -/
def FirstAt (needle s : List UInt8) (i : ℕ) : Prop :=
  MatchAt needle s i ∧ ∀ j < i, ¬ MatchAt needle s j

variable {needle s t : List UInt8} {i : ℕ}

theorem compareCase_iff : ∀ {t s : List UInt8}, compareCase t s = true ↔
    (t.take s.length).map toLower = s.map toLower
  | t, [] => by
      rw [compareCase, List.length_nil, List.take_zero]
      exact iff_of_true rfl rfl
  | [], b :: s => by
      rw [compareCase, List.take_nil, List.map_nil, List.map_cons]
      exact iff_of_false Bool.false_ne_true (List.cons_ne_nil _ _).symm
  | a :: t, b :: s => by
      rw [compareCase, List.length_cons, List.take_succ_cons, List.map_cons, List.map_cons,
        List.cons.injEq, Bool.and_eq_true, beq_iff_eq, compareCase_iff]

theorem MatchAt.le (h : MatchAt needle s i) (hne : needle ≠ []) : i + needle.length ≤ s.length := by
  have hlength := congrArg List.length h
  have hpos := List.length_pos_iff.mpr hne
  simp only [List.length_map, List.length_take, List.length_drop] at hlength
  omega

theorem matchAt_zero (hne : needle ≠ []) (c : UInt8) : MatchAt needle (c :: s) 0 ↔
    toLower c = toLower (needle.head?.getD 0) ∧ compareCase s needle.tail = true := by
  obtain ⟨b, u, rfl⟩ := List.exists_cons_of_ne_nil hne
  rw [compareCase_iff, MatchAt, List.drop_zero, List.length_cons, List.take_succ_cons,
    List.map_cons, List.map_cons, List.cons.injEq]
  rfl

theorem strCaseStr_firstAt (hne : needle ≠ []) : ∀ {s : List UInt8},
    (strCaseStr needle s = none ∧ ∀ i, ¬ MatchAt needle s i) ∨
      ∃ i, FirstAt needle s i ∧ strCaseStr needle s = some (s.drop i)
  | [] => by
      refine .inl ⟨rfl, fun i h => ?_⟩
      have hle := h.le hne
      have hpos := List.length_pos_iff.mpr hne
      rw [List.length_nil] at hle
      omega
  | c :: s => by
      by_cases hhere : MatchAt needle (c :: s) 0
      · refine .inr ⟨0, ⟨hhere, fun j hj => absurd hj (Nat.not_lt_zero j)⟩, ?_⟩
        obtain ⟨hfirst, hrest⟩ := (matchAt_zero hne c).mp hhere
        rw [strCaseStr, if_neg (not_not.mpr hfirst), if_pos hrest, List.drop_zero]
      · have hskip : strCaseStr needle (c :: s) = strCaseStr needle s := by
          rw [strCaseStr]
          split
          · rfl
          · rename_i hfirst
            rw [if_neg fun hrest => hhere ((matchAt_zero hne c).mpr ⟨not_not.mp hfirst, hrest⟩)]
        rw [hskip]
        rcases strCaseStr_firstAt hne (s := s) with ⟨hnone, hnot⟩ | ⟨i, ⟨hmatch, hbefore⟩, hsome⟩
        · refine .inl ⟨hnone, fun i => ?_⟩
          cases i with
          | zero => exact hhere
          | succ i => exact hnot i
        · refine .inr ⟨i + 1, ⟨hmatch, fun j hj => ?_⟩, hsome⟩
          cases j with
          | zero => exact hhere
          | succ j => exact hbefore j (by omega)

theorem FirstAt.unique {j : ℕ} (hi : FirstAt needle s i) (hj : FirstAt needle s j) : i = j := by
  rcases Nat.lt_trichotomy i j with hlt | heq | hlt
  · exact absurd hi.1 (hj.2 i hlt)
  · exact heq
  · exact absurd hj.1 (hi.2 j hlt)

/-! ### Keeping the text between -/

/-- The string that begins at a cell; there must be a NUL behind it. -/
def stringAt : List (Option UInt8) → Option (List UInt8)
  | [] => none
  | none :: _ => none
  | some c :: m => if c = 0 then some [] else (stringAt m).map (c :: ·)

/-- `GWEN_Buffer_KeepTextBetweenStrings`; what the crop returns is ignored. -/
def keepTextBetweenStrings (bf : Buffer) (openingString closingString : List UInt8)
    (onlyBetween : Bool) : Option (ℤ × Buffer) := do
  let s ← stringAt (bf.block.drop bf.ptr)
  match strCaseStr openingString s with
  | none => some (errorNotFound, bf)
  | some p =>
      let startPos := s.length - p.length + if onlyBetween then openingString.length else 0
      match strCaseStr closingString (p.drop openingString.length) with
      | some q =>
          let endPos := s.length - q.length + if onlyBetween then 0 else closingString.length
          let (_, bf) ← bf.crop startPos (endPos - startPos)
          some (0, bf)
      | none =>
          let (_, bf) ← bf.crop startPos (wadd (wsub bf.bytesUsed startPos) 1)
          some (0, bf)

/-- The buffer holds the text, with a NUL behind it. -/
structure HoldsText (bf : Buffer) (s : List UInt8) : Prop extends InBlock bf where
  data_eq : bf.data = s.map some
  nul : bf.block[bf.ptr + bf.bytesUsed]? = some (some 0)
  nul_free : 0 ∉ s

variable {bf : Buffer} {openingString closingString r : List UInt8} {onlyBetween : Bool}

theorem HoldsText.used (h : HoldsText bf s) : bf.bytesUsed = s.length := by
  have hlength := congrArg List.length h.data_eq
  have hinside := h.inside
  have hlt := h.used_lt
  simp only [data, List.length_take, List.length_drop, List.length_map] at hlength
  omega

theorem stringAt_append : ∀ {s : List UInt8} (m : List (Option UInt8)), 0 ∉ s →
    stringAt (s.map some ++ some 0 :: m) = some s
  | [], m, _ => by rw [List.map_nil, List.nil_append, stringAt, if_pos rfl]
  | c :: s, m, h => by
      have hc : c ≠ 0 := fun h0 => h (h0 ▸ List.mem_cons_self)
      rw [List.map_cons, List.cons_append, stringAt, if_neg hc,
        stringAt_append m fun h0 => h (List.mem_cons_of_mem c h0), Option.map_some]

theorem HoldsText.stringAt (h : HoldsText bf s) : stringAt (bf.block.drop bf.ptr) = some s := by
  have hnul : (bf.block.drop bf.ptr)[bf.bytesUsed]? = some (some 0) := by
    rw [List.getElem?_drop]
    exact h.nul
  obtain ⟨hlt, hget⟩ := List.getElem?_eq_some_iff.mp hnul
  have hsplit : bf.block.drop bf.ptr =
      s.map some ++ some 0 :: (bf.block.drop bf.ptr).drop (bf.bytesUsed + 1) := by
    rw [← h.data_eq, data, ← hget, ← List.drop_eq_getElem_cons hlt, List.take_append_drop]
  rw [hsplit]
  exact stringAt_append _ h.nul_free

/-- The text to keep: from the first occurrence of the opening string on, up to the first
occurrence of the closing string behind it, or up to the end when there is none. -/
def IsBetween (openingString closingString : List UInt8) (onlyBetween : Bool) (s r : List UInt8) :
    Prop :=
  ∃ i, FirstAt openingString s i ∧
    ((∃ j, FirstAt closingString (s.drop (i + openingString.length)) j ∧
        r = if onlyBetween then (s.drop (i + openingString.length)).take j
          else (s.drop i).take (openingString.length + j + closingString.length)) ∨
      (∀ j, ¬ MatchAt closingString (s.drop (i + openingString.length)) j) ∧
        r = if onlyBetween then s.drop (i + openingString.length) else s.drop i)

/-- What the call promises for a buffer that holds `s`. -/
def KeepMeets (bf : Buffer) (openingString closingString : List UInt8) (onlyBetween : Bool)
    (s : List UInt8) : Prop :=
  (∀ r, IsBetween openingString closingString onlyBetween s r →
    ∃ bf', bf.keepTextBetweenStrings openingString closingString onlyBetween = some (0, bf') ∧
      bf'.data = r.map some) ∧
  ((∀ i, ¬ MatchAt openingString s i) →
    bf.keepTextBetweenStrings openingString closingString onlyBetween = some (errorNotFound, bf))

def ClosingFollows (openingString closingString s : List UInt8) : Prop :=
  ∃ i, FirstAt openingString s i ∧
    ∃ j, MatchAt closingString (s.drop (i + openingString.length)) j

/-- The opening string does not occur; or the closing string follows, and the buffer is not
read-only; or all of the text is to be kept, and the buffer does not ask for an abort. -/
def KeepsPart (bf : Buffer) (openingString closingString : List UInt8) (onlyBetween : Bool)
    (s : List UInt8) : Prop :=
  (∀ i, ¬ MatchAt openingString s i) ∨
    (bf.hasMode modeReadOnly = false ∧ ClosingFollows openingString closingString s) ∨
    (IsBetween openingString closingString onlyBetween s s ∧
      ¬ (bf.hasMode modeReadOnly = true ∧ bf.hasMode modeAbortOnMemFull = true))

theorem FirstAt.of_match (h : MatchAt needle s i) (hne : needle ≠ []) :
    ∃ j, FirstAt needle s j := by
  rcases strCaseStr_firstAt hne (s := s) with ⟨-, hnot⟩ | ⟨j, hj, -⟩
  · exact absurd h (hnot i)
  · exact ⟨j, hj⟩

theorem IsBetween.unique {r' : List UInt8}
    (h : IsBetween openingString closingString onlyBetween s r)
    (h' : IsBetween openingString closingString onlyBetween s r') : r = r' := by
  obtain ⟨i, hi, hr⟩ := h
  obtain ⟨i', hi', hr'⟩ := h'
  obtain rfl := hi.unique hi'
  rcases hr with ⟨j, hj, rfl⟩ | ⟨hnone, rfl⟩
  · rcases hr' with ⟨j', hj', rfl⟩ | ⟨hnone', -⟩
    · rw [hj.unique hj']
    · exact absurd hj.1 (hnone' j)
  · rcases hr' with ⟨j', hj', -⟩ | ⟨-, rfl⟩
    · exact absurd hj'.1 (hnone j')
    · rfl

theorem crop_readOnly (hmode : bf.hasMode modeReadOnly = true) (pos l : ℕ) :
    bf.crop pos l = bf.failure errorPermissions := by
  unfold crop
  rw [if_pos hmode]

theorem crop_tooLong (h : InBlock bf) (hmode : bf.hasMode modeReadOnly = false) {pos : ℕ}
    (hpos : pos ≤ bf.bytesUsed) : bf.crop pos (wadd (wsub bf.bytesUsed pos) 1) = some (-1, bf) := by
  have hsize := h.size_lt
  have hlt := h.used_lt
  have hwsub : wsub bf.bytesUsed pos = bf.bytesUsed - pos := wsub_of_le hpos (by omega)
  have hwadd : wadd (bf.bytesUsed - pos) 1 = bf.bytesUsed - pos + 1 := wadd_of_lt (by omega)
  unfold crop
  rw [hmode, if_neg Bool.false_ne_true, if_neg (by omega), hwsub, hwadd, if_pos (by omega)]

section
variable (h : HoldsText bf s) (hopening : openingString ≠ []) (hclosing : closingString ≠ [])

include h hopening

theorem keep_of_none (hnone : ∀ i, ¬ MatchAt openingString s i) :
    bf.keepTextBetweenStrings openingString closingString onlyBetween =
      some (errorNotFound, bf) := by
  unfold keepTextBetweenStrings
  rcases strCaseStr_firstAt hopening (s := s) with ⟨hstr, -⟩ | ⟨i, hi, -⟩
  · simp only [bind, h.stringAt, Option.bind_some, hstr]
  · exact absurd hi.1 (hnone i)

include hclosing

theorem keep_of_closing {j : ℕ} (hi : FirstAt openingString s i)
    (hj : FirstAt closingString (s.drop (i + openingString.length)) j) :
    bf.keepTextBetweenStrings openingString closingString onlyBetween =
      (bf.crop (i + if onlyBetween then openingString.length else 0)
        (if onlyBetween then j else openingString.length + j + closingString.length)).map
          fun r => (0, r.2) := by
  have hle := hi.1.le hopening
  have hle' := hj.1.le hclosing
  rw [List.length_drop] at hle'
  rcases strCaseStr_firstAt hopening (s := s) with ⟨-, hnot⟩ | ⟨i', hi', hstr⟩
  · exact absurd hi.1 (hnot i)
  obtain rfl := hi.unique hi'
  rcases strCaseStr_firstAt hclosing (s := s.drop (i + openingString.length)) with
    ⟨-, hnot⟩ | ⟨j', hj', hstr'⟩
  · exact absurd hj.1 (hnot j)
  obtain rfl := hj.unique hj'
  have hstart : s.length - (s.drop i).length = i := by
    rw [List.length_drop]
    omega
  have hend : s.length - ((s.drop (i + openingString.length)).drop j).length =
      i + openingString.length + j := by
    rw [List.length_drop, List.length_drop]
    omega
  have hlength : (i + openingString.length + j + if onlyBetween then 0 else closingString.length) -
      (i + if onlyBetween then openingString.length else 0) =
      if onlyBetween then j else openingString.length + j + closingString.length := by
    cases onlyBetween <;> simp only [Bool.false_eq_true, if_true, if_false] <;> omega
  unfold keepTextBetweenStrings
  simp only [bind, h.stringAt, Option.bind_some, hstr, List.drop_drop, hstr', hstart]
  rw [List.drop_drop] at hend
  rw [hend, hlength]
  cases bf.crop _ _ <;> rfl

/-- When it does not follow the crop fails. -/
theorem keep_of_open (hi : FirstAt openingString s i)
    (hnone : ∀ j, ¬ MatchAt closingString (s.drop (i + openingString.length)) j) :
    bf.keepTextBetweenStrings openingString closingString onlyBetween =
      (bf.crop (i + if onlyBetween then openingString.length else 0)
        (wadd (wsub bf.bytesUsed (i + if onlyBetween then openingString.length else 0)) 1)).map
          fun r => (0, r.2) := by
  have hle := hi.1.le hopening
  rcases strCaseStr_firstAt hopening (s := s) with ⟨-, hnot⟩ | ⟨i', hi', hstr⟩
  · exact absurd hi.1 (hnot i)
  obtain rfl := hi.unique hi'
  rcases strCaseStr_firstAt hclosing (s := s.drop (i + openingString.length)) with
    ⟨hstr', -⟩ | ⟨j, hj, -⟩
  swap
  · exact absurd hj.1 (hnone j)
  have hstart : s.length - (s.drop i).length = i := by
    rw [List.length_drop]
    omega
  unfold keepTextBetweenStrings
  simp only [bind, h.stringAt, Option.bind_some, hstr, List.drop_drop, hstr', hstart]
  cases bf.crop _ _ <;> rfl

omit hclosing hopening in
/-- When nothing is cropped the text to keep has to be all of it. -/
theorem keepMeets_of_unchanged (hr : IsBetween openingString closingString onlyBetween s r)
    (hkeep : bf.keepTextBetweenStrings openingString closingString onlyBetween =
      if bf.hasMode modeReadOnly = true ∧ bf.hasMode modeAbortOnMemFull = true then none
      else some (0, bf)) :
    KeepMeets bf openingString closingString onlyBetween s ↔
      IsBetween openingString closingString onlyBetween s s ∧
        ¬ (bf.hasMode modeReadOnly = true ∧ bf.hasMode modeAbortOnMemFull = true) := by
  constructor
  · rintro ⟨hmeets, -⟩
    obtain ⟨bf', hbf', hdata⟩ := hmeets r hr
    rw [hkeep] at hbf'
    split at hbf'
    · cases hbf'
    · rename_i hmode
      obtain rfl := congrArg Prod.snd (Option.some.inj hbf')
      rw [h.data_eq] at hdata
      obtain rfl : s = r := List.map_injective_iff.mpr (Option.some_injective _) hdata
      exact ⟨hr, hmode⟩
  · rintro ⟨hall, hmode⟩
    rw [KeepMeets, hkeep, if_neg hmode]
    refine ⟨fun r' hr' => ⟨bf, rfl, ?_⟩, fun hnone => ?_⟩
    · rw [h.data_eq, hr'.unique hall]
    · obtain ⟨i, hi, -⟩ := hr
      exact absurd hi.1 (hnone i)

theorem keepMeets_iff : KeepMeets bf openingString closingString onlyBetween s ↔
    KeepsPart bf openingString closingString onlyBetween s := by
  by_cases hfound : ∃ i, FirstAt openingString s i
  swap
  · have hnone : ∀ i, ¬ MatchAt openingString s i := fun i hi =>
      hfound (FirstAt.of_match hi hopening)
    refine iff_of_true ⟨fun r hr => ?_, fun _ => keep_of_none h hopening hnone⟩ (.inl hnone)
    obtain ⟨i, hi, -⟩ := hr
    exact absurd hi.1 (hnone i)
  obtain ⟨i, hi⟩ := hfound
  have hle := hi.1.le hopening
  have hused := h.used
  have hopens : ¬ ∀ i, ¬ MatchAt openingString s i := fun hnone => hnone i hi.1
  rw [KeepsPart, or_iff_right hopens]
  have hunchanged : ∀ {pos l : ℕ} {r : List UInt8},
      IsBetween openingString closingString onlyBetween s r →
      bf.keepTextBetweenStrings openingString closingString onlyBetween =
        (bf.crop pos l).map (fun r => (0, r.2)) → bf.hasMode modeReadOnly = true →
      (KeepMeets bf openingString closingString onlyBetween s ↔
        IsBetween openingString closingString onlyBetween s s ∧
          ¬ (bf.hasMode modeReadOnly = true ∧ bf.hasMode modeAbortOnMemFull = true)) := by
    intro pos l r hr hkeep hmode
    refine keepMeets_of_unchanged h hr ?_
    rw [hkeep, crop_readOnly hmode, failure]
    by_cases habort : bf.hasMode modeAbortOnMemFull = true
    · rw [if_pos habort, if_pos ⟨hmode, habort⟩, Option.map_none]
    · rw [if_neg habort, if_neg fun hboth => habort hboth.2, Option.map_some]
  by_cases hfollows : ∃ j, FirstAt closingString (s.drop (i + openingString.length)) j
  · obtain ⟨j, hj⟩ := hfollows
    have hle' := hj.1.le hclosing
    rw [List.length_drop] at hle'
    have hr : IsBetween openingString closingString onlyBetween s _ := ⟨i, hi, .inl ⟨j, hj, rfl⟩⟩
    have hkeep : bf.keepTextBetweenStrings openingString closingString onlyBetween = _ :=
      keep_of_closing h hopening hclosing hi hj
    by_cases hmode : bf.hasMode modeReadOnly = true
    · rw [hmode, or_iff_right fun hfalse => Bool.false_ne_true hfalse.1.symm]
      have hiff := hunchanged hr hkeep hmode
      rw [hmode] at hiff
      exact hiff
    · have hmode' : bf.hasMode modeReadOnly = false := by simpa using hmode
      refine iff_of_true ⟨fun r hr' => ?_, fun hnone => absurd hi.1 (hnone i)⟩
        (.inl ⟨hmode', i, hi, j, hj.1⟩)
      obtain ⟨b, hb, hdata, -⟩ := @crop_of_le bf h.toInBlock hmode'
        (i + if onlyBetween then openingString.length else 0)
        (if onlyBetween then j else openingString.length + j + closingString.length) (by
          rw [hused]
          cases onlyBetween <;> simp only [Bool.false_eq_true, if_true, if_false] <;> omega)
      refine ⟨b, by rw [hkeep, hb, Option.map_some], ?_⟩
      rw [hr'.unique hr, hdata, h.data_eq]
      cases onlyBetween <;>
        simp only [Bool.false_eq_true, if_true, if_false, List.map_take, List.map_drop, Nat.add_zero]
  · have hnone : ∀ j, ¬ MatchAt closingString (s.drop (i + openingString.length)) j := fun j hj =>
      hfollows (FirstAt.of_match hj hclosing)
    have hr : IsBetween openingString closingString onlyBetween s _ := ⟨i, hi, .inr ⟨hnone, rfl⟩⟩
    have hkeep : bf.keepTextBetweenStrings openingString closingString onlyBetween = _ :=
      keep_of_open h hopening hclosing hi hnone
    have hopen : ¬ (bf.hasMode modeReadOnly = false ∧
        ClosingFollows openingString closingString s) := by
      rintro ⟨-, i', hi', j, hj⟩
      obtain rfl := hi.unique hi'
      exact hnone j hj
    rw [or_iff_right hopen]
    by_cases hmode : bf.hasMode modeReadOnly = true
    · exact hunchanged hr hkeep hmode
    · refine keepMeets_of_unchanged h hr ?_
      rw [hkeep, crop_tooLong h.toInBlock (by simpa using hmode), Option.map_some,
        if_neg fun hboth => hmode hboth.1]
      rw [hused]
      cases onlyBetween <;> simp only [Bool.false_eq_true, if_true, if_false] <;> omega

end

def threeBytes (c : UInt8) : Buffer where
  block := [some 60, some 98, some c, some 0, none]
  ptr := 0
  pos := 3
  bufferSize := 5
  realBufferSize := 5
  bytesUsed := 3
  mode := modeDefault
  hardLimit := defaultHardLimit
  step := dynamicStep
  bookmarks := List.replicate maxBookmarks 0

/-- The text between angle brackets. -/
theorem keepMeets_brackets : KeepMeets (threeBytes 62) [60] [62] true [60, 98, 62] :=
  (keepMeets_iff ⟨⟨by decide, by decide, by decide⟩, rfl, rfl, by decide⟩ (by decide)
    (by decide)).mpr (.inr (.inl ⟨by decide, 0, ⟨by decide, by decide⟩, 1, by decide⟩))

/-- Without the closing one the text stays as it is. -/
theorem not_keepMeets_brackets : ¬ KeepMeets (threeBytes 99) [60] [62] true [60, 98, 99] := by
  intro h
  have hnone : ∀ j, ¬ MatchAt [62] [98, 99] j := by
    intro j hj
    have hle : j + 1 ≤ 2 := hj.le (by decide)
    have hall : ∀ j < 2, ¬ MatchAt [62] [98, 99] j := by decide
    exact hall j (by omega) hj
  obtain ⟨bf', hbf', hdata⟩ := h.1 [98, 99] ⟨0, ⟨by decide, by decide⟩, .inr ⟨hnone, rfl⟩⟩
  have hkeep : (threeBytes 99).keepTextBetweenStrings [60] [62] true = some (0, threeBytes 99) :=
    by decide
  rw [hkeep] at hbf'
  obtain rfl := congrArg Prod.snd (Option.some.inj hbf')
  exact absurd hdata (by decide)
end Gwenhywfar.Buffer
