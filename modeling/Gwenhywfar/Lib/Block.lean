import Mathlib.Data.List.Basic
import Mathlib.Tactic.Common

/-! # Blocks of memory

A block is the list of its cells.  Loading and storing a range of cells has no outcome when the
range leaves the block.

* `load_of_le` and `store_of_le` tell every cell of a range that lies in the block.
* `resize` changes the size of a block and keeps the cells that fit. -/

namespace Gwenhywfar.Block

variable {α : Type}

/-- The `n` cells from `i` on. -/
def load (m : List α) (i n : ℕ) : Option (List α) :=
  if i + n ≤ m.length then some ((m.drop i).take n) else none

/-- The block with the cells from `i` on replaced by `xs`. -/
def store (m : List α) (i : ℕ) (xs : List α) : Option (List α) :=
  if i + xs.length ≤ m.length then some (m.take i ++ xs ++ m.drop (i + xs.length)) else none

/-- The block with `n` cells, the new ones holding `x`. -/
def resize (m : List α) (n : ℕ) (x : α) : List α :=
  m.take n ++ List.replicate (n - m.length) x

theorem load_of_le {m : List α} {i n : ℕ} (h : i + n ≤ m.length) :
    ∃ xs, load m i n = some xs ∧ xs.length = n ∧ ∀ j, j < n → xs[j]? = m[i + j]? := by
  refine ⟨_, if_pos h, ?_, fun j hj => ?_⟩
  · rw [List.length_take, List.length_drop]
    omega
  · rw [List.getElem?_take_of_lt hj, List.getElem?_drop]

theorem store_of_le {m xs : List α} {i : ℕ} (h : i + xs.length ≤ m.length) :
    ∃ m', store m i xs = some m' ∧ m'.length = m.length ∧
      ∀ j, m'[j]? = if i ≤ j ∧ j < i + xs.length then xs[j - i]? else m[j]? := by
  refine ⟨_, if_pos h, ?_, fun j => ?_⟩
  · simp only [List.length_append, List.length_take, List.length_drop]
    omega
  · have hi : (m.take i).length = i := by rw [List.length_take]; omega
    rw [List.append_assoc]
    rcases Nat.lt_or_ge j i with hlt | hge
    · rw [List.getElem?_append_left (by omega), List.getElem?_take_of_lt hlt, if_neg (by omega)]
    · rw [List.getElem?_append_right (by omega), hi]
      rcases Nat.lt_or_ge j (i + xs.length) with hlt | hge'
      · rw [List.getElem?_append_left (by omega), if_pos ⟨hge, hlt⟩]
      · rw [List.getElem?_append_right (by omega), List.getElem?_drop, if_neg (by omega)]
        congr 1
        omega

theorem length_resize (m : List α) (n : ℕ) (x : α) : (resize m n x).length = n := by
  simp only [resize, List.length_append, List.length_take, List.length_replicate]
  omega

theorem getElem?_resize_of_lt {m : List α} {n : ℕ} (x : α) {j : ℕ} (hj : j < m.length)
    (hn : j < n) : (resize m n x)[j]? = m[j]? := by
  rw [resize, List.getElem?_append_left (by rw [List.length_take]; omega),
    List.getElem?_take_of_lt hn]

theorem getElem?_resize {m : List α} {n : ℕ} (x : α) {j : ℕ} (hn : m.length ≤ n)
    (hj : j < m.length) : (resize m n x)[j]? = m[j]? :=
  getElem?_resize_of_lt x hj (by omega)
end Gwenhywfar.Block
