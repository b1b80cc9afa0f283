import Gwenhywfar.Base.CString

/-! # Numbers as BCD

* `fromBcdBuffer`: `GWEN_Text_FromBcdBuffer`, which looks for decimal digits in one half of a
  byte and for hexadecimal digits in the other.
* `toBcdBuffer`: `GWEN_Text_ToBcdBuffer`.
* `decimalRoundTrips_iff`: digits come back, but a letter is accepted, too. -/

namespace Gwenhywfar

set_option maxRecDepth 4000

namespace Bcd

/-! ### The functions -/

def bcdByte (d1 d2 : UInt8) : UInt8 :=
  (((d1 - code '0') <<< 4) &&& 0xf0) + ((d2 - code '0') &&& 0xf)

/-- The loop of `GWEN_Text_FromBcdBuffer`; with a fake byte there is no first digit. -/
def fromBcdLoop : (fakeByte : Bool) → List UInt8 → List UInt8 → ℤ × List UInt8
  | _, [], buf => (0, buf)
  | true, d2 :: src, buf =>
      if isXDigit d2 = true then fromBcdLoop false src (buf ++ [bcdByte 0 d2]) else (-1, buf)
  | false, [_], buf => (-1, buf)
  | false, d1 :: d2 :: src, buf =>
      if isDigit d1 = true then
        if isXDigit d2 = true then fromBcdLoop false src (buf ++ [bcdByte d1 d2]) else (-1, buf)
      else (-1, buf)

/-- `GWEN_Text_FromBcdBuffer`. -/
def fromBcdBuffer (src : CString) (buf : List UInt8) : ℤ × List UInt8 :=
  fromBcdLoop (src.bytes.length % 2 = 1) src.bytes buf

/-- The variables of `GWEN_Text_ToBcdBuffer`: the buffer, the number of digits in the group, and
whether zeroes are still skipped. -/
structure BcdState where
  buf : List UInt8
  j : ℕ
  skipLeadingZeroes : Bool
deriving DecidableEq

section
variable (groupsize : ℕ) (delimiter : UInt8)

/-- A half of a byte in `GWEN_Text_ToBcdBuffer`.  At the end of the bytes a zero is not skipped and
there is no delimiter. -/
def toBcdDigit (more : Bool) (c : UInt8) (st : BcdState) : BcdState :=
  if st.skipLeadingZeroes = true ∧ c = 0 ∧ more = true then st
  else if groupsize ≠ 0 ∧ st.j + 1 = groupsize then
    ⟨st.buf ++ [c + code '0'] ++ if more = true then [delimiter] else [], 0, false⟩
  else ⟨st.buf ++ [c + code '0'], st.j + 1, false⟩

/-- The loop of `GWEN_Text_ToBcdBuffer`. -/
def toBcdLoop : List UInt8 → BcdState → BcdState
  | [], st => st
  | b :: src, st =>
      let st := toBcdDigit groupsize delimiter true ((b >>> 4) &&& 0xf) st
      toBcdLoop src (toBcdDigit groupsize delimiter (src != []) (b &&& 0xf) st)

/-- `GWEN_Text_ToBcdBuffer`. -/
def toBcdBuffer (src buf : List UInt8) (skipLeadingZeroes : Bool) : List UInt8 :=
  (toBcdLoop groupsize delimiter src ⟨buf, 0, skipLeadingZeroes⟩).buf

end

/-! ### What should come back -/

def IsDecimal (s : CString) : Prop := ∀ c ∈ s.bytes, isDigit c = true

/-- Decimal digits are accepted and nothing else, and they come back behind a zero when their
number is odd. -/
def RoundTrips (s : CString) : Prop :=
  ∀ buf, ((fromBcdBuffer s buf).1 = 0 ↔ IsDecimal s) ∧
    (IsDecimal s → ∃ bytes, fromBcdBuffer s buf = (0, buf ++ bytes) ∧
      ∀ delimiter out, toBcdBuffer 0 delimiter bytes out false =
        out ++ ((if s.bytes.length % 2 = 1 then [code '0'] else []) ++ s.bytes))

/-- The characters that have an even number of characters behind them may be letters. -/
def Readable (s : List UInt8) : Prop :=
  ∀ pre c rest, s = pre ++ c :: rest →
    isXDigit c = true ∧ (rest.length % 2 = 1 → isDigit c = true)

/-- A letter stands at such a place, and all characters are accepted. -/
def LetterRead (s : CString) : Prop := (∃ c ∈ s.bytes, isDigit c = false) ∧ Readable s.bytes

section
variable {s buf out : List UInt8} {c d1 d2 delimiter : UInt8}

/-! ### Reading -/

theorem isXDigit_of_isDigit (h : isDigit c = true) : isXDigit c = true := by
  unfold isXDigit
  rw [h, Bool.true_or, Bool.true_or]

theorem readable_cons : Readable (c :: s) ↔
    (isXDigit c = true ∧ (s.length % 2 = 1 → isDigit c = true)) ∧ Readable s := by
  constructor
  · intro h
    refine ⟨h [] c s rfl, fun pre c' rest hs => h (c :: pre) c' rest ?_⟩
    rw [hs, List.cons_append]
  · rintro ⟨hc, h⟩ pre c' rest hs
    cases pre with
    | nil =>
        obtain ⟨rfl, rfl⟩ := List.cons.inj hs
        exact hc
    | cons d pre => exact h pre c' rest (List.cons.inj hs).2

theorem readable_nil : Readable [] := fun pre _ _ hs => absurd hs.symm (by simp)

/-- The digits in pairs. -/
def pack : List UInt8 → List UInt8
  | d1 :: d2 :: s => bcdByte d1 d2 :: pack s
  | _ => []

theorem fromBcdLoop_even : ∀ (s buf : List UInt8), s.length % 2 = 0 →
    ((fromBcdLoop false s buf).1 = 0 ↔ Readable s) ∧
      (Readable s → fromBcdLoop false s buf = (0, buf ++ pack s))
  | [], buf, _ => by
      have hpack : pack [] = [] := rfl
      rw [fromBcdLoop, hpack, List.append_nil]
      exact ⟨⟨fun _ => readable_nil, fun _ => rfl⟩, fun _ => rfl⟩
  | [_], _, h => absurd h (show ¬1 % 2 = 0 by decide)
  | d1 :: d2 :: s, buf, h => by
      have heven : s.length % 2 = 0 := by
        rw [List.length_cons, List.length_cons] at h
        omega
      obtain ⟨ihZero, ihRead⟩ := fromBcdLoop_even s (buf ++ [bcdByte d1 d2]) heven
      have hiff : Readable (d1 :: d2 :: s) ↔
          isDigit d1 = true ∧ isXDigit d2 = true ∧ Readable s := by
        rw [readable_cons, readable_cons, List.length_cons]
        constructor
        · rintro ⟨⟨-, h1⟩, ⟨h2, -⟩, hs⟩
          exact ⟨h1 (by omega), h2, hs⟩
        · rintro ⟨h1, h2, hs⟩
          exact ⟨⟨isXDigit_of_isDigit h1, fun _ => h1⟩, ⟨h2, fun hodd => by omega⟩, hs⟩
      rw [fromBcdLoop, hiff]
      by_cases h1 : isDigit d1 = true
      · rw [if_pos h1]
        by_cases h2 : isXDigit d2 = true
        · rw [if_pos h2, ihZero, pack]
          refine ⟨⟨fun hs => ⟨h1, h2, hs⟩, fun hs => hs.2.2⟩, fun hs => ?_⟩
          rw [ihRead hs.2.2, List.append_assoc]
          rfl
        · rw [if_neg h2]
          exact ⟨⟨fun h0 => absurd h0 (show ¬(-1 : ℤ) = 0 by decide), fun hs => absurd hs.2.1 h2⟩,
            fun hs => absurd hs.2.1 h2⟩
      · rw [if_neg h1]
        exact ⟨⟨fun h0 => absurd h0 (show ¬(-1 : ℤ) = 0 by decide), fun hs => absurd hs.1 h1⟩,
          fun hs => absurd hs.1 h1⟩

/-- The bytes for a text. -/
def packed (s : List UInt8) : List UInt8 :=
  if s.length % 2 = 1 then pack (0 :: s) else pack s

theorem fromBcdBuffer_spec (s : CString) (buf : List UInt8) :
    ((fromBcdBuffer s buf).1 = 0 ↔ Readable s.bytes) ∧
      (Readable s.bytes → fromBcdBuffer s buf = (0, buf ++ packed s.bytes)) := by
  unfold fromBcdBuffer packed
  by_cases hodd : s.bytes.length % 2 = 1
  · rw [decide_eq_true hodd, if_pos hodd]
    cases hs : s.bytes with
    | nil =>
        rw [hs] at hodd
        exact absurd hodd (by decide)
    | cons d2 src =>
        rw [hs, List.length_cons] at hodd
        obtain ⟨hZero, hRead⟩ := fromBcdLoop_even src (buf ++ [bcdByte 0 d2]) (by omega)
        have hiff : Readable (d2 :: src) ↔ isXDigit d2 = true ∧ Readable src := by
          rw [readable_cons]
          constructor
          · rintro ⟨⟨h2, -⟩, hsrc⟩
            exact ⟨h2, hsrc⟩
          · rintro ⟨h2, hsrc⟩
            exact ⟨⟨h2, fun h => by omega⟩, hsrc⟩
        rw [fromBcdLoop, hiff, pack]
        by_cases h2 : isXDigit d2 = true
        · rw [if_pos h2, hZero]
          refine ⟨⟨fun hsrc => ⟨h2, hsrc⟩, fun h => h.2⟩, fun h => ?_⟩
          rw [hRead h.2, List.append_assoc]
          rfl
        · rw [if_neg h2]
          exact ⟨⟨fun h0 => absurd h0 (show ¬(-1 : ℤ) = 0 by decide), fun h => absurd h.1 h2⟩,
            fun h => absurd h.1 h2⟩
  · rw [decide_eq_false hodd, if_neg hodd]
    exact fromBcdLoop_even s.bytes buf (by omega)

theorem IsDecimal.readable {s : CString} (h : IsDecimal s) : Readable s.bytes := by
  intro pre c rest hs
  have hc := h c (hs ▸ List.mem_append_right _ List.mem_cons_self)
  exact ⟨isXDigit_of_isDigit hc, fun _ => hc⟩

/-! ### Writing -/

theorem bcdByte_halves (h2 : isDigit d2 = true) :
    (isDigit d1 = true → ((bcdByte d1 d2 >>> 4) &&& 0xf) + code '0' = d1) ∧
      ((bcdByte 0 d2 >>> 4) &&& 0xf) + code '0' = code '0' ∧
      (d1 = 0 ∨ isDigit d1 = true → (bcdByte d1 d2 &&& 0xf) + code '0' = d2) := by
  have hdigit : ∀ c : UInt8, isDigit c = true → ∃ k : Fin 10, c = UInt8.ofNat (48 + k) := by
    decide
  obtain ⟨j, rfl⟩ := hdigit d2 h2
  have hzero : ∀ j : Fin 10,
      ((bcdByte 0 (UInt8.ofNat (48 + j)) >>> 4) &&& 0xf) + code '0' = code '0' ∧
      (bcdByte 0 (UInt8.ofNat (48 + j)) &&& 0xf) + code '0' = UInt8.ofNat (48 + j) := by
    decide
  have hall : ∀ i j : Fin 10,
      ((bcdByte (UInt8.ofNat (48 + i)) (UInt8.ofNat (48 + j)) >>> 4) &&& 0xf) + code '0' =
        UInt8.ofNat (48 + i) ∧
      (bcdByte (UInt8.ofNat (48 + i)) (UInt8.ofNat (48 + j)) &&& 0xf) + code '0' =
        UInt8.ofNat (48 + j) := by
    decide
  refine ⟨fun h1 => ?_, (hzero j).1, ?_⟩
  · obtain ⟨i, rfl⟩ := hdigit d1 h1
    exact (hall i j).1
  · rintro (rfl | h1)
    · exact (hzero j).2
    · obtain ⟨i, rfl⟩ := hdigit d1 h1
      exact (hall i j).2

/-- Without groups and without skipping a byte is written as two digits. -/
theorem toBcdBuffer_cons (delimiter b : UInt8) (src out : List UInt8) :
    toBcdBuffer 0 delimiter (b :: src) out false = toBcdBuffer 0 delimiter src
        (out ++ [((b >>> 4) &&& 0xf) + code '0', (b &&& 0xf) + code '0']) false := by
  have hstate : ∀ (src : List UInt8) (out : List UInt8) (i j : ℕ),
      (toBcdLoop 0 delimiter src ⟨out, i, false⟩).buf =
        (toBcdLoop 0 delimiter src ⟨out, j, false⟩).buf := by
    intro src
    induction src with
    | nil => exact fun _ _ _ => rfl
    | cons b src ih =>
        intro out i j
        simp only [toBcdLoop, toBcdDigit, ne_eq, not_true_eq_false, false_and, if_false,
          Bool.false_eq_true]
        exact ih _ _ _
  unfold toBcdBuffer
  rw [toBcdLoop]
  simp only [toBcdDigit, ne_eq, not_true_eq_false, false_and, if_false, Bool.false_eq_true]
  rw [hstate src _ _ 0, List.append_assoc]
  rfl

theorem toBcdBuffer_pack : ∀ {s : List UInt8} (out : List UInt8), s.length % 2 = 0 →
    (∀ c ∈ s, isDigit c = true) → toBcdBuffer 0 delimiter (pack s) out false = out ++ s
  | [], out, _, _ => (List.append_nil out).symm
  | [_], _, h, _ => absurd h (show ¬1 % 2 = 0 by decide)
  | d1 :: d2 :: s, out, h, hs => by
      rw [List.forall_mem_cons, List.forall_mem_cons] at hs
      obtain ⟨h1, h2, hs⟩ := hs
      obtain ⟨hhigh, -, hlow⟩ := @bcdByte_halves d1 d2 h2
      rw [List.length_cons, List.length_cons] at h
      rw [pack, toBcdBuffer_cons, hhigh h1, hlow (Or.inr h1), toBcdBuffer_pack _ (by omega) hs,
        List.append_assoc]
      rfl

theorem toBcdBuffer_packed (hs : ∀ c ∈ s, isDigit c = true) (out : List UInt8) :
    toBcdBuffer 0 delimiter (packed s) out false =
      out ++ ((if s.length % 2 = 1 then [code '0'] else []) ++ s) := by
  unfold packed
  by_cases hodd : s.length % 2 = 1
  · rw [if_pos hodd, if_pos hodd]
    cases s with
    | nil => exact absurd hodd (by decide)
    | cons d2 src =>
        rw [List.forall_mem_cons] at hs
        rw [List.length_cons] at hodd
        obtain ⟨-, hhigh, hlow⟩ := @bcdByte_halves 0 d2 hs.1
        rw [pack, toBcdBuffer_cons, hhigh, hlow (Or.inl rfl), toBcdBuffer_pack _ (by omega) hs.2,
          List.append_assoc]
        rfl
  · rw [if_neg hodd, if_neg hodd, List.nil_append]
    exact toBcdBuffer_pack out (by omega) hs

/-- Exactly the texts in which no letter is read come back as they should. -/
theorem decimalRoundTrips_iff (s : CString) : RoundTrips s ↔ ¬LetterRead s := by
  constructor
  · rintro h ⟨⟨c, hc, hletter⟩, hread⟩
    have hzero := (fromBcdBuffer_spec s []).1.mpr hread
    have hdigit := (h []).1.mp hzero c hc
    rw [hletter] at hdigit
    cases hdigit
  · intro h buf
    obtain ⟨hzero, hbytes⟩ := fromBcdBuffer_spec s buf
    have hdecimal : Readable s.bytes → IsDecimal s := fun hread c hc => by
      by_contra hletter
      exact h ⟨⟨c, hc, (Bool.not_eq_true _).mp hletter⟩, hread⟩
    rw [hzero]
    exact ⟨⟨hdecimal, IsDecimal.readable⟩, fun hs =>
      ⟨_, hbytes hs.readable, fun delimiter out => toBcdBuffer_packed hs out⟩⟩

/-- `1A` is read as 11. -/
theorem not_decimalRoundTrips_letter :
    fromBcdBuffer ⟨[code '1', code 'A'], by decide⟩ [] = (0, [0x11]) ∧
      ¬RoundTrips ⟨[code '1', code 'A'], by decide⟩ := by
  have hread : fromBcdBuffer ⟨[code '1', code 'A'], by decide⟩ [] = (0, [0x11]) := by decide
  refine ⟨hread, fun h => ?_⟩
  have hzero := (h []).1.mp (congrArg Prod.fst hread)
  exact absurd (hzero (code 'A') (List.mem_cons_of_mem _ List.mem_cons_self)) (by decide)

end

end Bcd
end Gwenhywfar
