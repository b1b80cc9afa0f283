import Gwenhywfar.Os.GwenDate

/-! # Digits of dates

The functions that read a date or a timestamp subtract `'0'` from characters without looking at
them.

* `readNumber`: the number that they compute; `readNumber_eq`: the sum of the characters by their
  places.
* `putDigits_readNumber`, `readNumber_putDigits`: reading digits is the inverse of writing them. -/

namespace Gwenhywfar

set_option maxRecDepth 4000

namespace GwenDate

/-! ### Reading -/

/-- A `char`, which has a sign. -/
def charValue (c : UInt8) : ℤ := if c < 128 then c.toNat else c.toNat - 256

def readNumber (s : List UInt8) : ℤ := s.foldl (fun x c => x * 10 + (charValue c - 48)) 0

def placeValue : List UInt8 → ℤ
  | [] => 0
  | c :: s => (charValue c - 48) * 10 ^ s.length + placeValue s

section
variable {c : UInt8} {s ds : List UInt8} {k : ℕ} {x : ℤ}

theorem readNumber_snoc (s : List UInt8) (c : UInt8) :
    readNumber (s ++ [c]) = readNumber s * 10 + (charValue c - 48) := by
  unfold readNumber
  rw [List.foldl_append]
  rfl

theorem placeValue_snoc : ∀ (s : List UInt8) (c : UInt8),
    placeValue (s ++ [c]) = placeValue s * 10 + (charValue c - 48)
  | [], c => by simp [placeValue]
  | d :: s, c => by
      rw [List.cons_append, placeValue, placeValue, placeValue_snoc s c, List.length_append,
        List.length_singleton, Int.pow_succ]
      ring

theorem readNumber_eq (s : List UInt8) : readNumber s = placeValue s := by
  induction s using List.reverseRecOn with
  | nil => rfl
  | append_singleton s c ih => rw [readNumber_snoc, placeValue_snoc, ih]

/-! ### Digits -/

theorem charValue_digit (hc : isDigit c = true) :
    0 ≤ charValue c - 48 ∧ charValue c - 48 ≤ 9 ∧ digitChar (charValue c - 48) = c ∧
      charValue c - 48 = (c - code '0').toNat := by
  have hall : ∀ c : UInt8, isDigit c = true → 0 ≤ charValue c - 48 ∧ charValue c - 48 ≤ 9 ∧
      digitChar (charValue c - 48) = c ∧ charValue c - 48 = (c - code '0').toNat := by
    decide
  exact hall c hc

theorem digitChar_spec (hx : 0 ≤ x) :
    isDigit (digitChar x) = true ∧ charValue (digitChar x) - 48 = x % 10 := by
  have hall : ∀ d : Fin 10, isDigit (UInt8.ofNat (48 + d)) = true ∧
      charValue (UInt8.ofNat (48 + d)) - 48 = d := by decide
  have hmod : x.tmod 10 = x % 10 := Int.tmod_eq_emod_of_nonneg hx
  have hdigit : digitChar x = UInt8.ofNat (48 + (x % 10).toNat) := by
    rw [digitChar, hmod]
    congr 1
    omega
  obtain ⟨h1, h2⟩ := hall ⟨(x % 10).toNat, by omega⟩
  rw [hdigit]
  refine ⟨h1, h2.trans ?_⟩
  dsimp only
  omega

theorem readNumber_nonneg (hds : ∀ d ∈ ds, isDigit d = true) : 0 ≤ readNumber ds := by
  induction ds using List.reverseRecOn with
  | nil => exact Int.le_refl _
  | append_singleton ds d ih =>
      rw [List.forall_mem_append, List.forall_mem_singleton] at hds
      have hd := (charValue_digit hds.2).1
      have hnumber := ih hds.1
      rw [readNumber_snoc]
      omega

theorem readNumber_digits (hds : ∀ d ∈ ds, isDigit d = true) : readNumber ds = digitsValue ds := by
  induction ds using List.reverseRecOn with
  | nil => rfl
  | append_singleton ds d ih =>
      rw [List.forall_mem_append, List.forall_mem_singleton] at hds
      have hd := (charValue_digit hds.2).2.2.2
      rw [readNumber_snoc, ih hds.1, hd]
      unfold digitsValue
      rw [List.foldl_append, List.foldl_cons, List.foldl_nil]
      push_cast
      rfl

theorem putDigits_readNumber (hds : ∀ d ∈ ds, isDigit d = true) (s : List UInt8) :
    putDigits ds.length (readNumber ds) s = ds ++ s := by
  induction ds using List.reverseRecOn generalizing s with
  | nil => rfl
  | append_singleton ds d ih =>
      rw [List.forall_mem_append, List.forall_mem_singleton] at hds
      obtain ⟨hd0, hd9, hchar, -⟩ := charValue_digit hds.2
      have hnumber := readNumber_nonneg hds.1
      have hdiv : (readNumber ds * 10 + (charValue d - 48)).tdiv 10 = readNumber ds := by
        rw [Int.tdiv_eq_ediv_of_nonneg (by omega)]
        omega
      have hdigit : digitChar (readNumber ds * 10 + (charValue d - 48)) = d := by
        refine Eq.trans ?_ hchar
        rw [digitChar, digitChar, Int.tmod_eq_emod_of_nonneg (by omega),
          Int.tmod_eq_emod_of_nonneg (by omega)]
        congr 2
        omega
      rw [readNumber_snoc, List.length_append, List.length_singleton, putDigits, hdiv, hdigit,
        ih hds.1, List.append_assoc, List.singleton_append]

theorem exists_putDigits : ∀ (k : ℕ) {x : ℤ}, 0 ≤ x → x < 10 ^ k → ∃ ds : List UInt8,
    ds.length = k ∧ (∀ d ∈ ds, isDigit d = true) ∧ readNumber ds = x ∧
      ∀ s, putDigits k x s = ds ++ s
  | 0, x, h0, hk => by
      refine ⟨[], rfl, fun _ h => absurd h List.not_mem_nil, ?_, fun s => rfl⟩
      have hx : readNumber [] = 0 := rfl
      rw [Int.pow_zero] at hk
      omega
  | k + 1, x, h0, hk => by
      rw [Int.pow_succ] at hk
      obtain ⟨ds, hlength, hds, hnumber, hput⟩ := @exists_putDigits k (x / 10) (by omega)
        (by omega)
      obtain ⟨hdigit, hvalue⟩ := digitChar_spec h0
      refine ⟨ds ++ [digitChar x], by simp [hlength], ?_, ?_, fun s => ?_⟩
      · rw [List.forall_mem_append, List.forall_mem_singleton]
        exact ⟨hds, hdigit⟩
      · rw [readNumber_snoc, hnumber, hvalue]
        omega
      · rw [putDigits, Int.tdiv_eq_ediv_of_nonneg h0, hput, List.append_assoc,
          List.singleton_append]

end

end GwenDate
end Gwenhywfar
