import Mathlib.Data.List.TakeWhile

/-! # Scanning a list up to a mark

A scan splits a list in front of the first element without a property. -/

namespace Gwenhywfar.Scan

variable {α : Type} (p : α → Bool) (xs ys : List α)

theorem append_cons (c : α) (hxs : ∀ x ∈ xs, p x = true) (hc : p c = false) :
    (xs ++ c :: ys).takeWhile p = xs ∧ (xs ++ c :: ys).dropWhile p = c :: ys := by
  rw [List.takeWhile_append_of_pos hxs, List.dropWhile_append_of_pos hxs, List.takeWhile_cons, hc,
    List.dropWhile_cons, hc]
  exact ⟨List.append_nil xs, rfl⟩

theorem all (hxs : ∀ x ∈ xs, p x = true) : xs.takeWhile p = xs ∧ xs.dropWhile p = [] :=
  ⟨List.takeWhile_eq_self_iff.mpr hxs, List.dropWhile_eq_nil_iff.mpr hxs⟩

/-- A scan takes the first part of a list when what follows begins with an element without the
property, or is empty. -/
theorem append (hxs : ∀ x ∈ xs, p x = true) (hys : ∀ y ∈ ys.head?, p y = false) :
    (xs ++ ys).takeWhile p = xs ∧ (xs ++ ys).dropWhile p = ys := by
  cases ys with
  | nil =>
      rw [List.append_nil]
      exact all p xs hxs
  | cons y ys => exact append_cons p xs ys y hxs (hys y rfl)

theorem exists_first : ∀ l : List α, (∀ x ∈ l, p x = true) ∨
    ∃ xs c ys, l = xs ++ c :: ys ∧ (∀ x ∈ xs, p x = true) ∧ p c = false
  | [] => Or.inl fun _ h => absurd h List.not_mem_nil
  | a :: l => by
      cases ha : p a with
      | false => exact Or.inr ⟨[], a, l, rfl, fun _ h => absurd h List.not_mem_nil, ha⟩
      | true =>
          rcases exists_first l with hall | ⟨xs, c, ys, rfl, hxs, hc⟩
          · exact Or.inl (List.forall_mem_cons.mpr ⟨ha, hall⟩)
          · exact Or.inr ⟨a :: xs, c, ys, rfl, List.forall_mem_cons.mpr ⟨ha, hxs⟩, hc⟩
end Gwenhywfar.Scan
