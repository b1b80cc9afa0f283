import Mathlib.Data.List.Basic
import Mathlib.Tactic.Common
import Mathlib.Tactic.Ring

/-! # Lists made of chunks of one length

`l.flatMap f` where `f` gives `n` cells for every item: the cell `i` of the chunk `k` is the cell
`k * n + i` of the whole.

* `drop_chunks`: the cells from a position inside a chunk on.
* `set_chunks`: one cell of one chunk is replaced. -/

namespace Gwenhywfar

variable {α β : Type} {l : List α} {f g : α → List β} {n : ℕ}

theorem length_chunks (h : ∀ a ∈ l, (f a).length = n) : (l.flatMap f).length = l.length * n := by
  induction l with
  | nil => rw [List.flatMap_nil, List.length_nil, List.length_nil, Nat.zero_mul]
  | cons a l ih =>
      rw [List.flatMap_cons, List.length_append, h a List.mem_cons_self,
        ih fun b hb => h b (List.mem_cons_of_mem a hb), List.length_cons, Nat.succ_mul,
        Nat.add_comm]

theorem chunks_split (k : ℕ) {a : α} (ha : l[k]? = some a) :
    l.flatMap f = (l.take k).flatMap f ++ (f a ++ (l.drop (k + 1)).flatMap f) := by
  obtain ⟨hk, rfl⟩ := List.getElem?_eq_some_iff.mp ha
  conv_lhs => rw [← List.take_append_drop k l, List.drop_eq_getElem_cons hk]
  rw [List.flatMap_append, List.flatMap_cons]

theorem length_take_chunks (h : ∀ a ∈ l, (f a).length = n) {k : ℕ} (hk : k ≤ l.length) :
    ((l.take k).flatMap f).length = k * n := by
  rw [length_chunks fun a ha => h a (List.mem_of_mem_take ha), List.length_take, Nat.min_eq_left hk]

theorem drop_chunks_mul (h : ∀ a ∈ l, (f a).length = n) {k : ℕ} (hk : k ≤ l.length) :
    (l.flatMap f).drop (k * n) = (l.drop k).flatMap f := by
  conv_lhs => rw [← List.take_append_drop k l, List.flatMap_append]
  exact List.drop_left' (length_take_chunks h hk)

theorem drop_chunks (h : ∀ a ∈ l, (f a).length = n) {k i : ℕ} {a : α} (ha : l[k]? = some a)
    (hi : i ≤ n) :
    (l.flatMap f).drop (k * n + i) = (f a).drop i ++ (l.flatMap f).drop ((k + 1) * n) := by
  have hk := (List.getElem?_eq_some_iff.mp ha).1
  have hlen := h a (List.mem_of_getElem? ha)
  rw [drop_chunks_mul h hk, chunks_split k ha, ← List.drop_drop,
    List.drop_left' (length_take_chunks h hk.le), List.drop_append_of_le_length (by omega)]

theorem getElem?_chunks (h : ∀ a ∈ l, (f a).length = n) {k i : ℕ} {a : α} (ha : l[k]? = some a)
    (hi : i < n) : (l.flatMap f)[k * n + i]? = (f a)[i]? := by
  have hlen := h a (List.mem_of_getElem? ha)
  have hd := drop_chunks h ha hi.le
  rw [← Nat.add_zero (k * n + i), ← List.getElem?_drop, hd,
    List.getElem?_append_left (by rw [List.length_drop]; omega), List.getElem?_drop, Nat.add_zero]

theorem set_chunks (h : ∀ a ∈ l, (f a).length = n) {k i : ℕ} {a : α} {x : β}
    (ha : l[k]? = some a) (hi : i < n) (hg : g a = (f a).set i x)
    (hrest : ∀ j b, l[j]? = some b → j ≠ k → g b = f b) :
    l.flatMap g = (l.flatMap f).set (k * n + i) x := by
  have hk := (List.getElem?_eq_some_iff.mp ha).1
  have hlen := h a (List.mem_of_getElem? ha)
  have hsame : ∀ {s : List α}, (∀ b ∈ s, g b = f b) → s.flatMap g = s.flatMap f := by
    intro s hs
    rw [List.flatMap_def, List.flatMap_def, List.map_congr_left hs]
  have hbefore : (l.take k).flatMap g = (l.take k).flatMap f := hsame fun b hb => by
    obtain ⟨j, hj⟩ := List.mem_iff_getElem?.mp hb
    rw [List.getElem?_take] at hj
    split at hj
    · exact hrest j b hj (by omega)
    · exact absurd hj (by simp)
  have hbehind : (l.drop (k + 1)).flatMap g = (l.drop (k + 1)).flatMap f := hsame fun b hb => by
    obtain ⟨j, hj⟩ := List.mem_iff_getElem?.mp hb
    rw [List.getElem?_drop] at hj
    exact hrest _ b hj (by omega)
  rw [chunks_split k ha, chunks_split k ha, hg, hbefore, hbehind,
    List.set_append_right _ _ (by rw [length_take_chunks h hk.le]; omega),
    length_take_chunks h hk.le, Nat.add_sub_cancel_left, List.set_append_left _ _ (by omega)]

end Gwenhywfar
