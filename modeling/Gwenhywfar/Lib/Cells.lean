import Mathlib.Algebra.BigOperators.Group.List.Basic
import Mathlib.Algebra.Order.Ring.Int
import Mathlib.Tactic.Common

/-! # Lists of cells

A heap is a list of cells, addressed by position.  `total f cells` adds up a measure of the
cells; an update at one address changes it by the difference of the two cells there
(`total_set`). -/

namespace Gwenhywfar

variable {α : Type}

/-- The sum of a measure over all cells. -/
def total (f : α → ℕ) (cells : List α) : ℕ := (cells.map f).sum

theorem total_append (f : α → ℕ) (cells cells' : List α) :
    total f (cells ++ cells') = total f cells + total f cells' := by
  simp [total]

@[simp] theorem total_singleton (f : α → ℕ) (x : α) : total f [x] = f x := by simp [total]

theorem total_set (f : α → ℕ) : ∀ {cells : List α} {i : ℕ} {x : α} (y : α),
    cells[i]? = some x → total f (cells.set i y) + f x = total f cells + f y
  | c :: cells, 0, x, y, h => by
      simp only [List.getElem?_cons_zero, Option.some.injEq] at h
      simp only [total, List.set_cons_zero, List.map_cons, List.sum_cons, h]
      omega
  | c :: cells, i + 1, x, y, h => by
      rw [List.getElem?_cons_succ] at h
      have ih := total_set f y h
      simp only [total, List.set_cons_succ, List.map_cons, List.sum_cons] at ih ⊢
      omega

theorem le_total (f : α → ℕ) : ∀ {cells : List α} {i : ℕ} {x : α}, cells[i]? = some x →
    f x ≤ total f cells
  | c :: cells, 0, x, h => by
      simp only [List.getElem?_cons_zero, Option.some.injEq] at h
      simp only [total, List.map_cons, List.sum_cons, h]
      omega
  | c :: cells, i + 1, x, h => by
      rw [List.getElem?_cons_succ] at h
      have ih := le_total f h
      simp only [total, List.map_cons, List.sum_cons] at ih ⊢
      omega

theorem add_le_total (f : α → ℕ) : ∀ {cells : List α} {i j : ℕ} {x y : α}, i < j →
    cells[i]? = some x → cells[j]? = some y → f x + f y ≤ total f cells
  | c :: cells, 0, j + 1, x, y, _, hi, hj => by
      simp only [List.getElem?_cons_zero, Option.some.injEq] at hi
      rw [List.getElem?_cons_succ] at hj
      have hy := le_total f hj
      simp only [total, List.map_cons, List.sum_cons, hi] at hy ⊢
      omega
  | c :: cells, i + 1, j + 1, x, y, hlt, hi, hj => by
      rw [List.getElem?_cons_succ] at hi hj
      have ih := add_le_total f (Nat.lt_of_succ_lt_succ hlt) hi hj
      simp only [total, List.map_cons, List.sum_cons] at ih ⊢
      omega

theorem exists_of_total_pos (f : α → ℕ) : ∀ {cells : List α}, 0 < total f cells →
    ∃ (i : ℕ) (x : α), cells[i]? = some x ∧ 0 < f x
  | [], h => absurd h (Nat.lt_irrefl 0)
  | c :: cells, h => by
      by_cases hc : 0 < f c
      · exact ⟨0, c, rfl, hc⟩
      · have hpos : 0 < total f cells := by
          simp only [total, List.map_cons, List.sum_cons] at h ⊢
          omega
        obtain ⟨i, x, hx, hf⟩ := exists_of_total_pos f hpos
        exact ⟨i + 1, x, hx, hf⟩

/-- What one cell does not account for comes from another. -/
theorem exists_other (f : α → ℕ) : ∀ {cells : List α} {i : ℕ} {x : α}, cells[i]? = some x →
    f x < total f cells → ∃ (j : ℕ) (y : α), j ≠ i ∧ cells[j]? = some y ∧ 0 < f y
  | c :: cells, 0, x, hx, hlt => by
      simp only [List.getElem?_cons_zero, Option.some.injEq] at hx
      have hpos : 0 < total f cells := by
        simp only [total, List.map_cons, List.sum_cons, hx] at hlt ⊢
        omega
      obtain ⟨j, y, hy, hf⟩ := exists_of_total_pos f hpos
      exact ⟨j + 1, y, by omega, hy, hf⟩
  | c :: cells, i + 1, x, hx, hlt => by
      rw [List.getElem?_cons_succ] at hx
      by_cases hc : 0 < f c
      · exact ⟨0, c, by omega, rfl, hc⟩
      · have hlt' : f x < total f cells := by
          simp only [total, List.map_cons, List.sum_cons] at hlt ⊢
          omega
        obtain ⟨j, y, hne, hy, hf⟩ := exists_other f hx hlt'
        exact ⟨j + 1, y, by omega, hy, hf⟩

end Gwenhywfar
