import Gwenhywfar.Base.CString

/-! # Binary data in messages

* `binLength`: the number between two `@`, which is collected in a buffer of 16 bytes; there is no
  outcome where a byte is stored behind it.
* `readBin`, `skipSegment`: `GWEN_MsgEngine__ReadValue` for the type `bin`, and
  `GWEN_MsgEngine_SkipSegment`, from a position of the message on.
* `readsSafe_iff`: the length texts that are reached must fit into the buffer, and where the number
  that `sscanf` takes from one fits into the rest of the message, it must be the whole text. -/

namespace Gwenhywfar.MsgEngine

/-- `'@'`. -/
def at' : UInt8 := code '@'

/-- The length text and what follows it, from the first `@` on. -/
def lengthText (s : List UInt8) : List UInt8 × List UInt8 := s.span (· != at')

/-- The result, the number and what is left behind the second `@`.  The flag tells that the text
is terminated also where the second `@` is missing. -/
def binLength (terminated : Bool) (s : List UInt8) : Option (ℤ × ℕ × List UInt8) :=
  let text := (lengthText s).1
  let rest := (lengthText s).2
  if 16 < text.length + (if terminated ∨ rest ≠ [] then 1 else 0) then none
  else if rest = [] then some (-1, 0, [])
  else
    match scanInt (text.takeWhile (· != 0)) with
    | none => some (-1, 0, rest.tail)
    | some l =>
        -- the comparison is one of unsigned numbers
        if rest.tail.length < l.toUInt32.toNat then some (-1, 0, rest.tail)
        else some (0, l.toUInt32.toNat, rest.tail)

/-- The part of `GWEN_MsgEngine__ReadValue` for the type `bin`: the result, the value and what is
left of the message. -/
def readBin : List UInt8 → Option (ℤ × List UInt8 × List UInt8)
  | [] => some (-1, [], [])
  | c :: s =>
      if c ≠ at' then some (-1, [], s)
      else
        (binLength true s).map fun r =>
          if r.1 ≠ 0 then (r.1, [], r.2.2) else (0, r.2.2.take r.2.1, r.2.2.drop r.2.1)

/-- The loop of `GWEN_MsgEngine_SkipSegment`: the result and what is left of the message.  No round
is without a byte. -/
def skipLoop (escapeChar delimiter : UInt8) :
    ℕ → Bool → List UInt8 → Option (ℤ × List UInt8)
  | _, _, [] => some (-1, [])
  | 0, _, s => some (-1, s)
  | k + 1, true, _ :: s => skipLoop escapeChar delimiter k false s
  | k + 1, false, c :: s =>
      if c = escapeChar then skipLoop escapeChar delimiter k true s
      else if c = at' then
        (binLength false s).bind fun r =>
          if r.1 ≠ 0 then some (r.1, r.2.2)
          else skipLoop escapeChar delimiter k false (r.2.2.drop r.2.1)
      else if c = delimiter then some (0, s)
      else skipLoop escapeChar delimiter k false s

/-- `GWEN_MsgEngine_SkipSegment`. -/
def skipSegment (escapeChar delimiter : UInt8) (s : List UInt8) : Option (ℤ × List UInt8) :=
  skipLoop escapeChar delimiter s.length false s

/-! ### Length texts -/

def numberOf (text : List UInt8) : Option ℤ :=
  let s := text.dropWhile isSpace
  let ds := if s.head? = some (code '-') ∨ s.head? = some (code '+') then s.tail else s
  if ds = [] ∨ ds.any (!isDigit ·) then none
  else some (if s.head? = some (code '-') then -(digitsValue ds : ℤ) else digitsValue ds)

/-- The text fits into its buffer, and a number that is taken from it and fits into the rest of the
message is the whole text. -/
def LengthFits (terminated : Bool) (s : List UInt8) : Prop :=
  (lengthText s).1.length + (if terminated ∨ (lengthText s).2 ≠ [] then 1 else 0) ≤ 16 ∧
    ∀ l, (lengthText s).2 ≠ [] → scanInt ((lengthText s).1.takeWhile (· != 0)) = some l →
      l.toUInt32.toNat ≤ (lengthText s).2.tail.length →
        numberOf (lengthText s).1 = some (l.toUInt32.toNat : ℤ)

/-- Nothing is stored behind the buffer, the position moves forward inside of the message, and what
is not a number that fits into the rest of the message is an error. -/
def LengthSafe (terminated : Bool) (s : List UInt8) : Prop :=
  ∃ rv l left, binLength terminated s = some (rv, l, left) ∧ left <:+ s ∧
    (rv = 0 → l ≤ left.length ∧ ∃ text, s = text ++ at' :: left ∧ at' ∉ text ∧
      numberOf text = some (l : ℤ))

theorem lengthText_split (s : List UInt8) :
    (lengthText s).1 ++ (lengthText s).2 = s ∧ at' ∉ (lengthText s).1 ∧
      ((lengthText s).2 = [] ∨ ∃ left, (lengthText s).2 = at' :: left) := by
  rw [lengthText, List.span_eq_takeWhile_dropWhile]
  refine ⟨List.takeWhile_append_dropWhile, fun hmem => ?_, ?_⟩
  · simpa using List.mem_takeWhile_imp hmem
  · cases hd : s.dropWhile (· != at') with
    | nil => exact Or.inl rfl
    | cons c left =>
        have hc := List.head_dropWhile_not (· != at') (l := s) (by simp [hd])
        simp only [hd, List.head_cons, bne_eq_false_iff_eq] at hc
        exact Or.inr ⟨left, by rw [hc]⟩

theorem lengthText_unique {text left : List UInt8} (h : at' ∉ text) :
    lengthText (text ++ at' :: left) = (text, at' :: left) := by
  have hall : ∀ c ∈ text, (c != at') = true := by
    intro c hc
    rw [bne_iff_ne]
    rintro rfl
    exact h hc
  rw [lengthText, List.span_eq_takeWhile_dropWhile, List.takeWhile_append_of_pos hall,
    List.dropWhile_append_of_pos hall]
  simp

/-- The position moves forward, and a number that is returned fits. -/
theorem binLength_spec {terminated : Bool} {s : List UInt8} {rv : ℤ} {l : ℕ} {left : List UInt8}
    (h : binLength terminated s = some (rv, l, left)) :
    left <:+ s ∧ (rv = 0 → l ≤ left.length) := by
  obtain ⟨hsplit, -, -⟩ := lengthText_split s
  have htail : (lengthText s).2.tail <:+ s :=
    (List.tail_suffix _).trans ⟨(lengthText s).1, hsplit⟩
  rw [binLength] at h
  by_cases hroom : 16 < (lengthText s).1.length +
      (if terminated ∨ (lengthText s).2 ≠ [] then 1 else 0)
  · simp [hroom] at h
  rw [if_neg hroom] at h
  by_cases hnil : (lengthText s).2 = []
  · simp only [hnil, if_true, Option.some.injEq, Prod.mk.injEq] at h
    obtain ⟨rfl, rfl, rfl⟩ := h
    exact ⟨List.nil_suffix, by simp⟩
  rw [if_neg hnil] at h
  cases hscan : scanInt ((lengthText s).1.takeWhile (· != 0)) with
  | none =>
      simp only [hscan, Option.some.injEq, Prod.mk.injEq] at h
      obtain ⟨rfl, rfl, rfl⟩ := h
      exact ⟨htail, by simp⟩
  | some n =>
      simp only [hscan] at h
      by_cases hfits : (lengthText s).2.tail.length < n.toUInt32.toNat
      · simp only [hfits, if_true, Option.some.injEq, Prod.mk.injEq] at h
        obtain ⟨rfl, rfl, rfl⟩ := h
        exact ⟨htail, by simp⟩
      · simp only [hfits, if_false, Option.some.injEq, Prod.mk.injEq] at h
        obtain ⟨rfl, rfl, rfl⟩ := h
        exact ⟨htail, fun _ => by omega⟩

theorem lengthSafe_iff (terminated : Bool) (s : List UInt8) :
    LengthSafe terminated s ↔ LengthFits terminated s := by
  obtain ⟨hsplit, hnot, hrest⟩ := lengthText_split s
  rw [LengthSafe, LengthFits, binLength]
  by_cases hroom : (lengthText s).1.length +
      (if terminated ∨ (lengthText s).2 ≠ [] then 1 else 0) ≤ 16
  · rw [if_neg (by omega), and_iff_right hroom]
    rcases hrest with hnil | ⟨left, hleft⟩
    · simp [hnil]
    · have hs : s = (lengthText s).1 ++ at' :: left := by rw [← hleft, hsplit]
      have hsuffix : left <:+ s := ⟨(lengthText s).1 ++ [at'], by simp [← hs]⟩
      rw [hleft, if_neg (List.cons_ne_nil _ _), List.tail_cons]
      cases hscan : scanInt ((lengthText s).1.takeWhile (· != 0)) with
      | none => simpa using hsuffix
      | some l =>
          dsimp only
          by_cases hfits : left.length < l.toUInt32.toNat
          · rw [if_pos hfits]
            simp [hfits, hsuffix]
          · rw [if_neg hfits]
            constructor
            · rintro ⟨_, _, _, heq, -, hnumber⟩ l' - hl' -
              obtain rfl := Option.some.inj hl'
              simp only [Option.some.injEq, Prod.mk.injEq] at heq
              obtain ⟨rfl, rfl, rfl⟩ := heq
              obtain ⟨-, text, htext, hat, hof⟩ := hnumber rfl
              have hunique := @lengthText_unique text left hat
              rw [← htext] at hunique
              rw [hunique]
              exact hof
            · intro h
              exact ⟨0, _, left, rfl, hsuffix, fun _ => ⟨by omega, _, hs, hnot,
                h l (List.cons_ne_nil _ _) rfl (by omega)⟩⟩
  · rw [if_pos (by omega)]
    simp [hroom]

/-! ### Values -/

/-- The value is the data behind its length text; an error leaves no value. -/
def ReadSafe (s : List UInt8) : Prop :=
  ∃ rv value left, readBin s = some (rv, value, left) ∧ left <:+ s ∧ (rv ≠ 0 → value = []) ∧
    (rv = 0 → ∃ text, s = at' :: (text ++ at' :: (value ++ left)) ∧ at' ∉ text ∧
      numberOf text = some (value.length : ℤ))

theorem readSafe_iff (s : List UInt8) : ReadSafe s ↔ ∀ t, s = at' :: t → LengthFits true t := by
  cases s with
  | nil => simp [ReadSafe, readBin]
  | cons c t =>
      by_cases hc : c = at'
      · subst hc
        have hiff := lengthSafe_iff true t
        simp only [List.cons.injEq, true_and, forall_eq']
        rw [← hiff, ReadSafe, readBin, if_neg (not_not_intro rfl), LengthSafe]
        constructor
        · rintro ⟨rv, value, left, hrun, -, -, hvalue⟩
          obtain ⟨⟨rv', l, left'⟩, hlength, heq⟩ := Option.map_eq_some_iff.mp hrun
          obtain ⟨hsuffix, hl⟩ := binLength_spec hlength
          refine ⟨rv', l, left', hlength, hsuffix, fun h0 => ⟨hl h0, ?_⟩⟩
          simp only [h0, ne_eq, not_true_eq_false, if_false, Prod.mk.injEq] at heq
          obtain ⟨rfl, rfl, rfl⟩ := heq
          obtain ⟨text, ht, hat, hof⟩ := hvalue rfl
          rw [List.take_append_drop] at ht
          rw [List.length_take, Nat.min_eq_left (hl h0)] at hof
          exact ⟨text, List.cons.inj ht |>.2, hat, hof⟩
        · rintro ⟨rv, l, left, hlength, hsuffix, hnumber⟩
          rw [hlength, Option.map_some]
          by_cases h0 : rv = 0
          · subst h0
            obtain ⟨hl, text, ht, hat, hof⟩ := hnumber rfl
            refine ⟨0, left.take l, left.drop l, by simp, ?_, fun h => absurd rfl h, fun _ => ?_⟩
            · exact (List.drop_suffix _ _).trans (hsuffix.trans (List.suffix_cons _ _))
            · refine ⟨text, ?_, hat, ?_⟩
              · rw [List.take_append_drop, ht]
              · rw [hof, List.length_take, Nat.min_eq_left hl]
          · refine ⟨rv, [], left, by simp [h0], hsuffix.trans (List.suffix_cons _ _),
              fun _ => rfl, fun h => absurd h h0⟩
      · simp [ReadSafe, readBin, hc]

/-! ### Segments -/

section
variable {escapeChar delimiter : UInt8} {s t : List UInt8}

/-- The loop comes to `t`, and no escape character stands before it. -/
inductive Reaches (escapeChar delimiter : UInt8) : List UInt8 → List UInt8 → Prop
  | refl (s : List UInt8) : Reaches escapeChar delimiter s s
  | escaped {c : UInt8} {s t : List UInt8} (h : Reaches escapeChar delimiter s t) :
      Reaches escapeChar delimiter (escapeChar :: c :: s) t
  | binary {s left t : List UInt8} {l : ℕ} (hescape : escapeChar ≠ at')
      (hlength : binLength false s = some (0, l, left))
      (h : Reaches escapeChar delimiter (left.drop l) t) :
      Reaches escapeChar delimiter (at' :: s) t
  | plain {c : UInt8} {s t : List UInt8} (hescape : c ≠ escapeChar) (hat : c ≠ at')
      (hdelimiter : c ≠ delimiter) (h : Reaches escapeChar delimiter s t) :
      Reaches escapeChar delimiter (c :: s) t

/-- More rounds than bytes change nothing. -/
theorem skipLoop_rounds {k m : ℕ} (esc : Bool) (hk : s.length ≤ k) (hm : s.length ≤ m) :
    skipLoop escapeChar delimiter k esc s = skipLoop escapeChar delimiter m esc s := by
  induction k generalizing m esc s with
  | zero =>
      obtain rfl := List.length_eq_zero_iff.mp (Nat.le_zero.mp hk)
      simp [skipLoop]
  | succ k ih =>
      cases s with
      | nil => simp [skipLoop]
      | cons c s =>
          obtain ⟨m, rfl⟩ := Nat.exists_eq_add_one_of_ne_zero (n := m) (by
            rw [List.length_cons] at hm
            omega)
          rw [List.length_cons] at hk hm
          have hrest : ∀ esc, skipLoop escapeChar delimiter k esc s =
              skipLoop escapeChar delimiter m esc s :=
            fun esc => ih esc (by omega) (by omega)
          cases esc with
          | true => simp only [skipLoop, hrest]
          | false =>
              simp only [skipLoop, hrest]
              congr 2
              apply Option.bind_congr
              rintro ⟨rv, l, left⟩ hlength
              have hlen := (binLength_spec hlength).1.length_le
              dsimp only
              rw [ih (m := m) false (by rw [List.length_drop]; omega)
                (by rw [List.length_drop]; omega)]

theorem skipSegment_of_reaches (h : Reaches escapeChar delimiter s t) :
    skipSegment escapeChar delimiter s = skipSegment escapeChar delimiter t := by
  induction h with
  | refl => rfl
  | escaped h ih =>
      rw [← ih, skipSegment, skipSegment]
      simp only [List.length_cons, skipLoop, if_true]
  | binary hescape hlength h ih =>
      have hlen := (binLength_spec hlength).1.length_le
      rw [← ih, skipSegment, skipSegment]
      simp only [List.length_cons, skipLoop, if_neg (Ne.symm hescape), if_true, hlength,
        Option.bind_some, ne_eq, not_true_eq_false, if_false]
      exact skipLoop_rounds false (by rw [List.length_drop]; omega) le_rfl
  | plain hescape hat hdelimiter h ih =>
      rw [← ih, skipSegment, skipSegment]
      simp only [List.length_cons, skipLoop, if_neg hescape, if_neg hat, if_neg hdelimiter]

/-- Where every length text that is reached is safe, the segment ends inside of the message. -/
theorem skipLoop_inside (hsafe : ∀ t, escapeChar ≠ at' →
    Reaches escapeChar delimiter s (at' :: t) → LengthSafe false t) {k : ℕ} (hk : s.length ≤ k) :
    ∃ rv left, skipLoop escapeChar delimiter k false s = some (rv, left) ∧ left <:+ s := by
  induction k using Nat.strong_induction_on generalizing s with
  | _ k ih =>
      cases s with
      | nil => exact ⟨-1, [], by simp [skipLoop], List.suffix_rfl⟩
      | cons c s =>
          rw [List.length_cons] at hk
          obtain ⟨k, rfl⟩ := Nat.exists_eq_add_one_of_ne_zero (n := k) (by omega)
          rw [skipLoop]
          by_cases hescape : c = escapeChar
          · subst hescape
            rw [if_pos rfl]
            cases s with
            | nil => exact ⟨-1, [], by simp [skipLoop], List.nil_suffix⟩
            | cons d s =>
                rw [List.length_cons] at hk
                obtain ⟨k, rfl⟩ := Nat.exists_eq_add_one_of_ne_zero (n := k) (by omega)
                obtain ⟨rv, left, hrun, hsuffix⟩ :=
                  ih k (by omega) (fun t hne h => hsafe t hne (.escaped h)) (by omega)
                exact ⟨rv, left, by rw [skipLoop, hrun], hsuffix.trans
                  ((List.suffix_cons _ _).trans (List.suffix_cons _ _))⟩
          rw [if_neg hescape]
          by_cases hat : c = at'
          · subst hat
            obtain ⟨rv, l, left, hlength, hsuffix, -⟩ :=
              hsafe s (Ne.symm hescape) (.refl _)
            rw [if_pos rfl, hlength, Option.bind_some]
            by_cases h0 : rv = 0
            · subst h0
              have hlen := hsuffix.length_le
              obtain ⟨rv, left', hrun, hsuffix'⟩ := ih k (by omega)
                (fun t hne h => hsafe t hne (.binary hne hlength h))
                (by rw [List.length_drop]; omega)
              refine ⟨rv, left', by simp [hrun], hsuffix'.trans ?_⟩
              exact (List.drop_suffix _ _).trans (hsuffix.trans (List.suffix_cons _ _))
            · exact ⟨rv, left, by simp [h0], hsuffix.trans (List.suffix_cons _ _)⟩
          rw [if_neg hat]
          by_cases hdelimiter : c = delimiter
          · exact ⟨0, s, by rw [if_pos hdelimiter], List.suffix_cons _ _⟩
          · rw [if_neg hdelimiter]
            obtain ⟨rv, left, hrun, hsuffix⟩ := ih k (by omega)
              (fun t hne h => hsafe t hne (.plain hescape hat hdelimiter h)) (by omega)
            exact ⟨rv, left, hrun, hsuffix.trans (List.suffix_cons _ _)⟩

/-- The position moves forward inside of the message, every length text that is reached is safe,
and the error for one is returned. -/
def SkipSafe (escapeChar delimiter : UInt8) (s : List UInt8) : Prop :=
  (∃ rv left, skipSegment escapeChar delimiter s = some (rv, left) ∧ left <:+ s) ∧
    ∀ t, escapeChar ≠ at' → Reaches escapeChar delimiter s (at' :: t) →
      LengthSafe false t ∧ ∀ rv l left, binLength false t = some (rv, l, left) → rv ≠ 0 →
        skipSegment escapeChar delimiter s = some (rv, left)

theorem readsSafe_iff (escapeChar delimiter : UInt8) (s : List UInt8) :
    ReadSafe s ∧ SkipSafe escapeChar delimiter s ↔ (∀ t, s = at' :: t → LengthFits true t) ∧
        ∀ t, escapeChar ≠ at' → Reaches escapeChar delimiter s (at' :: t) → LengthFits false t := by
  refine and_congr (readSafe_iff s) ⟨?_, ?_⟩
  · intro h t hne hreach
    exact (lengthSafe_iff false t).mp (h.2 t hne hreach).1
  · intro h
    have hsafe := fun t hne hreach => (lengthSafe_iff false t).mpr (h t hne hreach)
    refine ⟨skipLoop_inside hsafe le_rfl, fun t hne hreach => ⟨hsafe t hne hreach, ?_⟩⟩
    intro rv l left hlength h0
    rw [skipSegment_of_reaches hreach, skipSegment, List.length_cons, skipLoop,
      if_neg (Ne.symm hne), if_pos rfl, hlength, Option.bind_some]
    simp [h0]

end

/-- Sixteen digits fill the buffer, and the byte that ends the text is stored behind it. -/
theorem not_readsSafe_sixteen : ¬(ReadSafe (at' :: (List.replicate 16 (code '0') ++ [at'])) ∧
    SkipSafe (code '?') (0x27) (at' :: (List.replicate 16 (code '0') ++ [at']))) := by
  rintro ⟨⟨rv, value, left, hrun, -⟩, -⟩
  have hnone : readBin (at' :: (List.replicate 16 (code '0') ++ [at'])) = none := by
    decide
  rw [hnone] at hrun
  cases hrun
end Gwenhywfar.MsgEngine
