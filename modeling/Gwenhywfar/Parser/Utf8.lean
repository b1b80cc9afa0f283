import Gwenhywfar.Base.CString

/-! # Counting the characters of a text in UTF-8

* `countUtf8Chars`: `GWEN_Text_CountUtf8Chars`.
* `Splits`: a text is made of sequences, each with a byte that announces how many bytes follow.
* `validates_iff`: the bytes that follow are not checked, so that a text with others than
  `10xxxxxx` is counted, too. -/

namespace Gwenhywfar

set_option maxRecDepth 4000

namespace Utf8

/-! ### The function -/

/-- The number of bytes that follow a byte; none for a byte that begins no sequence. -/
def followers (c : UInt8) : Option ℕ :=
  if c &&& 0xfe = 0xfc then some 5
  else if c &&& 0xfc = 0xf8 then some 4
  else if c &&& 0xf8 = 0xf0 then some 3
  else if c &&& 0xf0 = 0xe0 then some 2
  else if c &&& 0xe0 = 0xc0 then some 1
  else if c &&& 0x80 ≠ 0 then none
  else some 0

/-- The loop of `GWEN_Text_CountUtf8Chars`.  There is no result when an `int` overflows, or when
bytes are read that the text does not have. -/
def countLoop (len : ℤ) : List UInt8 → (handled count : ℤ) → Option ℤ
  | [], handled, count => if handled < len then none else some count
  | c :: s, handled, count =>
      if handled < len then
        (followers c).elim (some (-1)) fun i =>
          if 2 ^ 31 ≤ handled + i + 1 then none
          else if len < handled + i + 1 then some (-1)
          else if s.length < i then none
          -- an error in the bytes that follow is only logged
          else countLoop len (s.drop i) (handled + i + 1) (count + 1)
      else some count
termination_by s => s.length
decreasing_by simp

/-- `GWEN_Text_CountUtf8Chars`, for a text with a NUL behind these bytes. -/
def countUtf8Chars (s : List UInt8) (len : ℤ) : Option ℤ :=
  countLoop (if len = 0 then (s.takeWhile (· != 0)).length else len) s 0 0

/-! ### Sequences -/

/-- How many bytes follow a byte `0xxxxxxx`, `110xxxxx`, `1110xxxx`, `11110xxx`, `111110xx` or
`1111110x`. -/
def announced (c : UInt8) : Option ℕ :=
  if c < 0b10000000 then some 0
  else if c < 0b11000000 then none
  else if c < 0b11100000 then some 1
  else if c < 0b11110000 then some 2
  else if c < 0b11111000 then some 3
  else if c < 0b11111100 then some 4
  else if c < 0b11111110 then some 5
  else none

/-- A byte `10xxxxxx`. -/
def isContinuation (c : UInt8) : Bool := 0b10000000 ≤ c && c < 0b11000000

def anyByte (_ : UInt8) : Bool := true

/-- A text is made of so many sequences; the bytes that follow a first byte are of a kind. -/
inductive Splits (ok : UInt8 → Bool) : List UInt8 → ℕ → Prop
  | nil : Splits ok [] 0
  | cons {c : UInt8} {tail rest : List UInt8} {n : ℕ} (hc : announced c = some tail.length)
      (htail : ∀ b ∈ tail, ok b = true) (hrest : Splits ok rest n) :
      Splits ok (c :: (tail ++ rest)) (n + 1)

/-- The number of characters is returned for the texts in UTF-8, and -1 for the others. -/
def Validates (s : List UInt8) : Prop :=
  ∃ r, countUtf8Chars s s.length = some r ∧ (∀ n : ℕ, r = n ↔ Splits isContinuation s n) ∧
    ((¬∃ n, Splits isContinuation s n) → r = -1)

/-- The sequences are complete, but some of the bytes that follow are others than `10xxxxxx`. -/
def Corrupted (s : List UInt8) : Prop :=
  ∃ n, Splits anyByte s n ∧ ¬Splits isContinuation s n

/-- An incomplete sequence would end behind the largest `int`. -/
def EndsTooFar (handled : ℤ) (s : List UInt8) : Prop :=
  ∃ pre c rest n i, s = pre ++ c :: rest ∧ Splits anyByte pre n ∧ announced c = some i ∧
    2 ^ 31 ≤ handled + pre.length + i + 1

section
variable {ok : UInt8 → Bool} {s t pre : List UInt8} {c : UInt8} {n m i : ℕ} {handled count : ℤ}

/-! ### Splitting a text -/

theorem followers_eq (c : UInt8) : followers c = announced c := by
  have hall : ∀ c : UInt8, followers c = announced c := by decide
  exact hall c

theorem splits_cons (h : Splits ok (c :: s) m) : ∃ tail rest n, m = n + 1 ∧ s = tail ++ rest ∧
    announced c = some tail.length ∧ (∀ b ∈ tail, ok b = true) ∧ Splits ok rest n := by
  cases h with
  | cons hc htail hrest => exact ⟨_, _, _, rfl, rfl, hc, htail, hrest⟩

theorem Splits.anyByte (h : Splits ok s n) : Splits Utf8.anyByte s n := by
  induction h with
  | nil => exact Splits.nil
  | cons hc _ _ ih => exact Splits.cons hc (fun _ _ => rfl) ih

theorem Splits.cancel (h : Splits ok pre n) : ∀ {m : ℕ}, Splits ok (pre ++ t) m →
    ∃ k, Splits ok t k ∧ m = n + k := by
  induction h with
  | nil => exact fun h => ⟨_, h, (Nat.zero_add _).symm⟩
  | @cons c tail rest n hc htail _ ih =>
      intro m h
      rw [List.cons_append, List.append_assoc] at h
      obtain ⟨tail', rest', m', rfl, hs, hc', -, hrest'⟩ := splits_cons h
      have hlength : tail.length = tail'.length := Option.some.inj (hc.symm.trans hc')
      obtain ⟨-, hrest⟩ := List.append_inj hs hlength
      obtain ⟨k, hk, rfl⟩ := ih (hrest ▸ hrest')
      exact ⟨k, hk, by omega⟩

theorem Splits.unique (hn : Splits ok s n) (hm : Splits ok s m) : n = m := by
  rw [← List.append_nil s] at hm
  obtain ⟨k, hk, rfl⟩ := hn.cancel hm
  cases hk
  rfl

theorem Splits.of_drop (hc : announced c = some i) (hi : i ≤ s.length)
    (h : Splits Utf8.anyByte (s.drop i) n) : Splits Utf8.anyByte (c :: s) (n + 1) := by
  have hlength : (s.take i).length = i := List.length_take_of_le hi
  have hcons : Splits Utf8.anyByte (c :: (s.take i ++ s.drop i)) (n + 1) :=
    Splits.cons (hc.trans (congrArg some hlength.symm)) (fun _ _ => rfl) h
  rwa [List.take_append_drop] at hcons

theorem exists_splits_cons (hc : announced c = some i) :
    (∃ n, Splits anyByte (c :: s) n) ↔ i ≤ s.length ∧ ∃ n, Splits anyByte (s.drop i) n := by
  constructor
  · rintro ⟨m, h⟩
    obtain ⟨tail, rest, n, rfl, rfl, hc', -, hrest⟩ := splits_cons h
    obtain rfl := Option.some.inj (hc.symm.trans hc')
    refine ⟨?_, n, ?_⟩
    · rw [List.length_append]
      exact Nat.le_add_right _ _
    · rwa [List.drop_left]
  · rintro ⟨hi, n, h⟩
    exact ⟨n + 1, h.of_drop hc hi⟩

theorem endsTooFar_cons (hc : announced c = some i) : EndsTooFar handled (c :: s) ↔
    2 ^ 31 ≤ handled + i + 1 ∨ i ≤ s.length ∧ EndsTooFar (handled + i + 1) (s.drop i) := by
  constructor
  · rintro ⟨pre, c', rest, n, j, hs, hpre, hc', hfar⟩
    cases pre with
    | nil =>
        obtain ⟨rfl, rfl⟩ := List.cons.inj hs
        obtain rfl := Option.some.inj (hc.symm.trans hc')
        rw [List.length_nil] at hfar
        exact Or.inl (by omega)
    | cons d pre =>
        rw [List.cons_append] at hs
        obtain ⟨rfl, rfl⟩ := List.cons.inj hs
        obtain ⟨tail, pre', m, rfl, rfl, hd, -, hpre'⟩ := splits_cons hpre
        obtain rfl := Option.some.inj (hc.symm.trans hd)
        rw [List.length_cons, List.length_append] at hfar
        refine Or.inr ⟨?_, pre', c', rest, m, j, ?_, hpre', hc', ?_⟩
        · rw [List.append_assoc, List.length_append]
          exact Nat.le_add_right _ _
        · rw [List.append_assoc, List.drop_left]
        · push_cast at hfar
          omega
  · rintro (hfar | ⟨hi, pre, c', rest, n, j, hs, hpre, hc', hfar⟩)
    · exact ⟨[], c, s, 0, i, rfl, Splits.nil, hc, by rw [List.length_nil]; omega⟩
    · have hlength : (s.take i).length = i := List.length_take_of_le hi
      refine ⟨c :: (s.take i ++ pre), c', rest, n + 1, j, ?_,
        Splits.cons (hc.trans (congrArg some hlength.symm)) (fun _ _ => rfl) hpre, hc', ?_⟩
      · rw [List.cons_append, List.append_assoc, ← hs, List.take_append_drop]
      · rw [List.length_cons, List.length_append, hlength]
        push_cast
        omega

theorem announced_none (hc : announced c = none) :
    (¬∃ n, Splits anyByte (c :: s) n) ∧ ¬EndsTooFar handled (c :: s) := by
  have hsplits : ∀ {s : List UInt8} {n : ℕ}, ¬Splits anyByte (c :: s) n := by
    intro s n h
    obtain ⟨_, _, _, -, -, hc', -, -⟩ := splits_cons h
    rw [hc] at hc'
    cases hc'
  refine ⟨fun ⟨n, h⟩ => hsplits h, ?_⟩
  rintro ⟨pre, c', rest, n, j, hs, hpre, hc', -⟩
  cases pre with
  | nil =>
      obtain ⟨rfl, rfl⟩ := List.cons.inj hs
      rw [hc] at hc'
      cases hc'
  | cons d pre =>
      obtain ⟨rfl, rfl⟩ := List.cons.inj hs
      exact hsplits hpre

/-! ### The loop -/

/-- The loop counts the sequences, whatever the bytes are that follow the first ones. -/
theorem countLoop_spec : ∀ (s : List UInt8) (handled count : ℤ), handled + s.length < 2 ^ 31 →
    (∃ n : ℕ, Splits anyByte s n ∧
        countLoop (handled + s.length) s handled count = some (count + n)) ∨
      (¬∃ n, Splits anyByte s n) ∧
        (¬EndsTooFar handled s ∧ countLoop (handled + s.length) s handled count = some (-1) ∨
          EndsTooFar handled s ∧ countLoop (handled + s.length) s handled count = none)
  | [], handled, count, _ => by
      refine Or.inl ⟨0, Splits.nil, ?_⟩
      rw [countLoop, List.length_nil, if_neg (by omega)]
      simp
  | c :: s, handled, count, hlen => by
      rw [List.length_cons] at hlen ⊢
      rw [countLoop, if_pos (by push_cast; omega), followers_eq]
      cases hc : announced c with
      | none =>
          obtain ⟨hsplits, hfar⟩ := @announced_none s c handled hc
          exact Or.inr ⟨hsplits, Or.inl ⟨hfar, rfl⟩⟩
      | some i =>
          rw [Option.elim_some, exists_splits_cons hc, endsTooFar_cons hc]
          by_cases hover : 2 ^ 31 ≤ handled + i + 1
          · rw [if_pos hover]
            push_cast at hlen
            exact Or.inr ⟨fun h => by omega, Or.inr ⟨Or.inl hover, rfl⟩⟩
          · rw [if_neg hover]
            by_cases hi : i ≤ s.length
            · have hdrop : ((s.drop i).length : ℤ) = s.length - i := by
                rw [List.length_drop]
                omega
              have hsame : handled + ((s.length + 1 : ℕ) : ℤ) =
                  handled + i + 1 + (s.drop i).length := by
                rw [hdrop]
                push_cast
                omega
              rw [if_neg (by push_cast; omega), if_neg (by omega), hsame]
              rcases countLoop_spec (s.drop i) (handled + i + 1) (count + 1) (by omega) with
                ⟨n, hn, hcount⟩ | ⟨hn, hcount⟩
              · refine Or.inl ⟨n + 1, hn.of_drop hc hi, ?_⟩
                rw [hcount]
                congr 1
                push_cast
                ring
              · refine Or.inr ⟨fun h => hn h.2, ?_⟩
                rcases hcount with ⟨hfar, hcount⟩ | ⟨hfar, hcount⟩
                · refine Or.inl ⟨?_, hcount⟩
                  rintro (h | h)
                  · exact hover h
                  · exact hfar h.2
                · exact Or.inr ⟨Or.inr ⟨hi, hfar⟩, hcount⟩
            · rw [if_pos (by push_cast; omega)]
              refine Or.inr ⟨fun h => hi h.1, Or.inl ⟨?_, rfl⟩⟩
              rintro (h | h)
              · exact hover h
              · exact hi h.1
termination_by s => s.length
decreasing_by simp

/-! ### What is validated -/

theorem not_endsTooFar (hlen : s.length < 2 ^ 31) (h : Splits anyByte s n) : ¬EndsTooFar 0 s := by
  rintro ⟨pre, c, rest, m, i, rfl, hpre, hc, hfar⟩
  obtain ⟨k, hk, -⟩ := hpre.cancel h
  obtain ⟨hi, -⟩ := (exists_splits_cons hc).mp ⟨k, hk⟩
  rw [List.length_append, List.length_cons] at hlen
  omega

/-- Exactly the texts without such bytes and without such an end are counted as they should be. -/
theorem validates_iff (s : List UInt8) (hne : s ≠ []) (hlen : s.length < 2 ^ 31) :
    Validates s ↔ ¬Corrupted s ∧ ¬EndsTooFar 0 s := by
  have hzero : (s.length : ℤ) ≠ 0 := by
    have hpos := List.length_pos_iff.mpr hne
    omega
  have hcall : countUtf8Chars s s.length = countLoop (0 + s.length) s 0 0 := by
    unfold countUtf8Chars
    rw [if_neg hzero, Int.zero_add]
  have hspec := countLoop_spec s 0 0 (by omega)
  rw [← hcall] at hspec
  unfold Validates
  rcases hspec with ⟨n, hn, hcount⟩ | ⟨hnone, ⟨hfar, hcount⟩ | ⟨hfar, hcount⟩⟩
  · rw [Int.zero_add] at hcount
    constructor
    · rintro ⟨r, hr, hall, -⟩
      obtain rfl := Option.some.inj (hcount.symm.trans hr)
      have hsplits := (hall n).mp rfl
      exact ⟨fun ⟨m, hm, hnot⟩ => hnot (hn.unique hm ▸ hsplits), not_endsTooFar hlen hn⟩
    · rintro ⟨hcorrupted, -⟩
      have hsplits : Splits isContinuation s n :=
        of_not_not fun hnot => hcorrupted ⟨n, hn, hnot⟩
      refine ⟨n, hcount, fun m => ⟨fun heq => ?_, fun hm => ?_⟩, fun hnone => ?_⟩
      · rwa [← Int.ofNat.inj heq]
      · rw [hsplits.unique hm]
      · exact absurd ⟨n, hsplits⟩ hnone
  · have hsplits : ¬∃ n, Splits isContinuation s n := fun ⟨n, h⟩ => hnone ⟨n, h.anyByte⟩
    constructor
    · rintro -
      exact ⟨fun ⟨m, hm, _⟩ => hnone ⟨m, hm⟩, hfar⟩
    · rintro -
      refine ⟨-1, hcount, fun m => ⟨fun heq => ?_, fun hm => ?_⟩, fun _ => rfl⟩
      · omega
      · exact absurd ⟨m, hm⟩ hsplits
  · constructor
    · rintro ⟨r, hr, -⟩
      rw [hcount] at hr
      cases hr
    · rintro ⟨-, h⟩
      exact absurd hfar h

/-- A text with an accent. -/
theorem validates_accent : Validates [0xc3, 0xa9] := by
  refine (validates_iff [0xc3, 0xa9] (by decide) (by decide)).mpr ⟨?_, ?_⟩
  · have hsplits : Splits isContinuation (0xc3 :: ([0xa9] ++ [])) 1 :=
      Splits.cons rfl (by simp [isContinuation]) Splits.nil
    rintro ⟨n, hn, hnot⟩
    exact hnot (hsplits.anyByte.unique hn ▸ hsplits)
  · have hsplits : Splits anyByte (0xc3 :: ([0xa9] ++ [])) 1 :=
      Splits.cons rfl (fun _ _ => rfl) Splits.nil
    exact not_endsTooFar (by decide) hsplits

/-- A letter stands where a byte should follow, and the text is counted. -/
theorem not_validates_letter :
    countUtf8Chars [0xc3, 0x41] 2 = some 1 ∧ ¬Validates [0xc3, 0x41] := by
  have hcount : countUtf8Chars [0xc3, 0x41] 2 = some 1 := by decide +kernel
  refine ⟨hcount, ?_⟩
  rintro ⟨r, hr, hall, -⟩
  obtain rfl := Option.some.inj (hcount.symm.trans hr)
  obtain ⟨tail, rest, n, -, hs, hc, htail, -⟩ := splits_cons ((hall 1).mp rfl)
  have hlength : tail.length = 1 := (Option.some.inj hc).symm
  cases tail with
  | nil => cases hlength
  | cons d tail =>
      obtain ⟨rfl, -⟩ := List.cons.inj hs
      exact absurd (htail _ List.mem_cons_self) (by decide)

end

end Utf8
end Gwenhywfar
