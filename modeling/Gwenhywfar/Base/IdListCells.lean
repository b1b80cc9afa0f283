import Mathlib.Data.List.Sort
import Mathlib.Tactic.Common
import Mathlib.Tactic.Ring

/-! # The entries of a `GWEN_IDLIST64`

What a list of ids holds, apart from the addresses of its tables: the entries of all tables one
after the other (`none` for those of a NULL table), the number of free entries that the last table
counts, and the counter of the list.

* `add`, `del`, `clear` and `sort` tell what the functions of the list do to it.
* `indexed` gives the stored ids with the indices of their entries, `ids` without. -/

namespace Gwenhywfar

/-- The entries of a list of ids. -/
structure IdCells where
  cells : List (Option UInt64)
  free : ℕ
  counter : ℕ

namespace IdCells

/-! ### Searching -/

/-- The first entry with `p`, where the entries are counted from `i` on. -/
def firstFrom (p : UInt64 → Bool) (i : ℕ) : List (Option UInt64) → Option (ℕ × UInt64)
  | [] => none
  | none :: cells => firstFrom p (i + 1) cells
  | some e :: cells => if p e then some (i, e) else firstFrom p (i + 1) cells

/-- The ids in the entries, which are counted from `i` on. -/
def indexedFrom (i : ℕ) : List (Option UInt64) → List (ℕ × UInt64)
  | [] => []
  | none :: cells => indexedFrom (i + 1) cells
  | some e :: cells =>
      if e = 0 then indexedFrom (i + 1) cells else (i, e) :: indexedFrom (i + 1) cells

theorem firstFrom_append (p : UInt64 → Bool) : ∀ (i : ℕ) (xs ys : List (Option UInt64)),
    firstFrom p i (xs ++ ys) =
      (firstFrom p i xs).or (firstFrom p (i + xs.length) ys)
  | i, [], ys => rfl
  | i, none :: xs, ys => by
      rw [List.cons_append, firstFrom, firstFrom, firstFrom_append p, List.length_cons,
        Nat.add_right_comm, Nat.add_assoc]
  | i, some e :: xs, ys => by
      rw [List.cons_append, firstFrom, firstFrom, firstFrom_append p, List.length_cons,
        Nat.add_right_comm, Nat.add_assoc]
      split <;> rfl

theorem firstFrom_none (p : UInt64 → Bool) : ∀ (i k : ℕ),
    firstFrom p i (List.replicate k none) = none
  | _, 0 => rfl
  | i, k + 1 => by rw [List.replicate_succ, firstFrom, firstFrom_none]

theorem firstFrom_eq_some {p : UInt64 → Bool} : ∀ {i j : ℕ} {cells : List (Option UInt64)}
    {e : UInt64}, firstFrom p i cells = some (j, e) →
      i ≤ j ∧ cells[j - i]? = some (some e) ∧ p e = true
  | i, j, none :: cells, e, h => by
      obtain ⟨h1, h2, h3⟩ := firstFrom_eq_some (i := i + 1) h
      refine ⟨by omega, ?_, h3⟩
      rw [show j - i = j - (i + 1) + 1 by omega, List.getElem?_cons_succ, h2]
  | i, j, some x :: cells, e, h => by
      rw [firstFrom] at h
      split at h
      next hp =>
          simp only [Option.some.injEq, Prod.mk.injEq] at h
          obtain ⟨rfl, rfl⟩ := h
          exact ⟨le_refl i, by rw [Nat.sub_self]; rfl, hp⟩
      next =>
          obtain ⟨h1, h2, h3⟩ := firstFrom_eq_some (i := i + 1) h
          refine ⟨by omega, ?_, h3⟩
          rw [show j - i = j - (i + 1) + 1 by omega, List.getElem?_cons_succ, h2]

theorem indexedFrom_append : ∀ (i : ℕ) (xs ys : List (Option UInt64)),
    indexedFrom i (xs ++ ys) = indexedFrom i xs ++ indexedFrom (i + xs.length) ys
  | i, [], ys => rfl
  | i, none :: xs, ys => by
      rw [List.cons_append, indexedFrom, indexedFrom, indexedFrom_append, List.length_cons,
        Nat.add_right_comm, Nat.add_assoc]
  | i, some e :: xs, ys => by
      rw [List.cons_append, indexedFrom, indexedFrom, indexedFrom_append, List.length_cons,
        Nat.add_right_comm, Nat.add_assoc]
      split <;> rfl

theorem indexedFrom_none : ∀ (i k : ℕ), indexedFrom i (List.replicate k none) = []
  | _, 0 => rfl
  | i, k + 1 => by rw [List.replicate_succ, indexedFrom, indexedFrom_none]

theorem indexedFrom_zero : ∀ (i k : ℕ), indexedFrom i (List.replicate k (some 0)) = []
  | _, 0 => rfl
  | i, k + 1 => by rw [List.replicate_succ, indexedFrom, if_pos rfl, indexedFrom_zero]

/-- The entries found are those that hold an id. -/
theorem mem_indexedFrom : ∀ {i j : ℕ} {cells : List (Option UInt64)} {e : UInt64},
    (j, e) ∈ indexedFrom i cells → i ≤ j ∧ cells[j - i]? = some (some e) ∧ e ≠ 0
  | i, j, none :: cells, e, h => by
      obtain ⟨h1, h2, h3⟩ := mem_indexedFrom (i := i + 1) h
      refine ⟨by omega, ?_, h3⟩
      rw [show j - i = j - (i + 1) + 1 by omega, List.getElem?_cons_succ, h2]
  | i, j, some x :: cells, e, h => by
      rw [indexedFrom] at h
      split at h
      next hx =>
          obtain ⟨h1, h2, h3⟩ := mem_indexedFrom (i := i + 1) h
          refine ⟨by omega, ?_, h3⟩
          rw [show j - i = j - (i + 1) + 1 by omega, List.getElem?_cons_succ, h2]
      next hx =>
          rcases List.mem_cons.mp h with h | h
          · simp only [Prod.mk.injEq] at h
            obtain ⟨rfl, rfl⟩ := h
            exact ⟨le_refl j, by rw [Nat.sub_self]; rfl, hx⟩
          · obtain ⟨h1, h2, h3⟩ := mem_indexedFrom (i := i + 1) h
            refine ⟨by omega, ?_, h3⟩
            rw [show j - i = j - (i + 1) + 1 by omega, List.getElem?_cons_succ, h2]

theorem nodup_indexedFrom : ∀ (i : ℕ) (cells : List (Option UInt64)),
    ((indexedFrom i cells).map Prod.fst).Nodup
  | _, [] => List.nodup_nil
  | i, none :: cells => nodup_indexedFrom (i + 1) cells
  | i, some e :: cells => by
      rw [indexedFrom]
      split
      · exact nodup_indexedFrom (i + 1) cells
      · rw [List.map_cons, List.nodup_cons]
        refine ⟨fun h => ?_, nodup_indexedFrom (i + 1) cells⟩
        obtain ⟨⟨j, x⟩, hj, hi⟩ := List.mem_map.mp h
        have := (mem_indexedFrom hj).1
        simp only at hi
        omega

/-- The first id is the first entry that is not 0, the others follow behind it. -/
theorem indexedFrom_eq_cons : ∀ {i : ℕ} {cells : List (Option UInt64)},
    indexedFrom i cells = match firstFrom (· != 0) i cells with
      | none => []
      | some (j, e) => (j, e) :: indexedFrom (j + 1) (cells.drop (j + 1 - i))
  | _, [] => rfl
  | i, none :: cells => by
      rw [indexedFrom, firstFrom, indexedFrom_eq_cons]
      cases h : firstFrom (· != 0) (i + 1) cells with
      | none => rfl
      | some r =>
          have hle := (firstFrom_eq_some (e := r.2) (j := r.1) h).1
          simp only []
          rw [show r.1 + 1 - i = r.1 + 1 - (i + 1) + 1 by omega, List.drop_succ_cons]
  | i, some e :: cells => by
      rw [indexedFrom, firstFrom]
      by_cases he : e = 0
      · rw [if_pos he, if_neg (by simp [he]), indexedFrom_eq_cons]
        cases h : firstFrom (· != 0) (i + 1) cells with
        | none => rfl
        | some r =>
            have hle := (firstFrom_eq_some (e := r.2) (j := r.1) h).1
            simp only []
            rw [show r.1 + 1 - i = r.1 + 1 - (i + 1) + 1 by omega, List.drop_succ_cons]
      · rw [if_neg he, if_pos (by simp [he])]
        simp only []
        rw [show i + 1 - i = 1 by omega, List.drop_one, List.tail_cons]

/-- Searching for an id finds its first entry, which is taken out by writing 0 there. -/
theorem indexedFrom_set {x : UInt64} (hx : x ≠ 0) : ∀ {i j : ℕ} {cells : List (Option UInt64)}
    {e : UInt64}, firstFrom (· == x) i cells = some (j, e) →
      indexedFrom i (cells.set (j - i) (some 0)) =
        (indexedFrom i cells).eraseP (·.2 == x)
  | i, j, none :: cells, e, h => by
      have hle := (firstFrom_eq_some (i := i + 1) h).1
      rw [show j - i = j - (i + 1) + 1 by omega, List.set_cons_succ, indexedFrom, indexedFrom,
        indexedFrom_set hx (i := i + 1) h]
  | i, j, some y :: cells, e, h => by
      rw [firstFrom] at h
      by_cases hy : y = x
      · rw [if_pos (by simp [hy]), Option.some.injEq, Prod.mk.injEq] at h
        obtain ⟨rfl, -⟩ := h
        rw [Nat.sub_self, List.set_cons_zero, indexedFrom, if_pos rfl, indexedFrom,
          if_neg (by rw [hy]; exact hx), List.eraseP_cons_of_pos (by simp [hy])]
      · rw [if_neg (by simp [hy])] at h
        have hle := (firstFrom_eq_some (i := i + 1) h).1
        rw [show j - i = j - (i + 1) + 1 by omega, List.set_cons_succ, indexedFrom, indexedFrom,
          indexedFrom_set hx (i := i + 1) h]
        split
        · rfl
        · rw [List.eraseP_cons_of_neg (by simp [hy])]

theorem firstFrom_eq_none {x : UInt64} (hx : x ≠ 0) : ∀ {i : ℕ} {cells : List (Option UInt64)},
    firstFrom (· == x) i cells = none ↔ x ∉ (indexedFrom i cells).map Prod.snd
  | _, [] => by simp [firstFrom, indexedFrom]
  | i, none :: cells => firstFrom_eq_none hx (i := i + 1)
  | i, some y :: cells => by
      rw [firstFrom, indexedFrom]
      by_cases hy : y = x
      · rw [if_pos (by simp [hy]), if_neg (by rw [hy]; exact hx)]
        simp [hy]
      · rw [if_neg (by simp [hy]), firstFrom_eq_none hx (i := i + 1)]
        split
        · rfl
        · simp [Ne.symm hy]

/-! ### The iterator -/

/-- The results of `k` calls of an iterator that yields `xs` and then 0. -/
def yields (xs : List UInt64) (k : ℕ) : List UInt64 := (xs ++ List.replicate k 0).take k

theorem yields_zero (xs : List UInt64) : yields xs 0 = [] := List.take_zero

theorem yields_nil (k : ℕ) : yields [] k = List.replicate k 0 := by
  rw [yields, List.nil_append, List.take_of_length_le (by rw [List.length_replicate])]

theorem yields_cons (x : UInt64) (xs : List UInt64) (k : ℕ) :
    yields (x :: xs) (k + 1) = x :: yields xs k := by
  rw [yields, List.cons_append, List.take_succ_cons, List.replicate_succ', ← List.append_assoc,
    List.take_append_of_le_length (by rw [List.length_append, List.length_replicate]; omega), yields]

theorem yields_of_le {xs : List UInt64} {k : ℕ} (h : k ≤ xs.length) : yields xs k = xs.take k :=
  List.take_append_of_le_length h

/-! ### The operations -/

/-- The stored ids with the indices of their entries. -/
def indexed (c : IdCells) : List (ℕ × UInt64) := indexedFrom 0 c.cells

/-- The stored ids in the order of their entries. -/
def ids (c : IdCells) : List UInt64 := c.indexed.map Prod.snd

/-- An id takes the first free entry of the last table, or of a new one; its index is told. -/
def add (n : ℕ) (x : UInt64) (c : IdCells) : ℕ × IdCells :=
  if c.free = 0 then
    (c.cells.length,
      ⟨c.cells ++ some x :: List.replicate (n - 1) (some 0), n - 1, c.counter + 1⟩)
  else
    (c.cells.length - c.free,
      ⟨c.cells.set (c.cells.length - c.free) (some x), c.free - 1, c.counter + 1⟩)

/-- The first entry with the id becomes 0. -/
def del (x : UInt64) (c : IdCells) : IdCells :=
  match firstFrom (· == x) 0 c.cells with
  | none => c
  | some (j, _) => { c with cells := c.cells.set j (some 0), counter := c.counter - 1 }

/-- All tables become NULL. -/
def clear (c : IdCells) : IdCells := ⟨List.replicate c.cells.length none, 0, 0⟩

/-- Ids are added one after the other. -/
def addAll (n : ℕ) : List UInt64 → IdCells → IdCells
  | [], c => c
  | x :: xs, c => addAll n xs (add n x c).2

/-- As many ids as the counter tells are taken, and added again in the order `le`. -/
def sort (n : ℕ) (le : UInt64 → UInt64 → Bool) (c : IdCells) : IdCells :=
  if c.counter = 0 then c else addAll n ((c.ids.take c.counter).mergeSort le) c.clear

/-- The NULL tables come first, and the last entries that the last table counts as free hold 0. -/
structure Ok (c : IdCells) : Prop where
  shape : ∃ (k : ℕ) (xs : List UInt64), c.cells = List.replicate k none ++ xs.map some
  tail : ∃ ys, c.cells = ys ++ List.replicate c.free (some 0)

theorem ok_new : Ok ⟨[], 0, 0⟩ := ⟨⟨0, [], rfl⟩, ⟨[], rfl⟩⟩

section
variable {n : ℕ} {x : UInt64} {c d : IdCells}

theorem add_of_free {ys : List (Option UInt64)} (h0 : c.free ≠ 0)
    (hy : c.cells = ys ++ List.replicate c.free (some 0)) :
    add n x c = (ys.length, ⟨ys ++ some x :: List.replicate (c.free - 1) (some 0), c.free - 1,
      c.counter + 1⟩) := by
  have hlen : c.cells.length - c.free = ys.length := by
    rw [hy, List.length_append, List.length_replicate, Nat.add_sub_cancel]
  have hset : c.cells.set ys.length (some x) =
      ys ++ some x :: List.replicate (c.free - 1) (some 0) := by
    rw [hy, List.set_append_right _ _ le_rfl, Nat.sub_self,
      show c.free = c.free - 1 + 1 by omega, List.replicate_succ, List.set_cons_zero,
      Nat.add_sub_cancel]
  rw [add, if_neg h0, hlen, hset]

theorem ok_add (h : Ok c) : Ok (add n x c).2 := by
  obtain ⟨k, xs, hs⟩ := h.shape
  obtain ⟨ys, hy⟩ := h.tail
  by_cases h0 : c.free = 0
  · rw [add, if_pos h0]
    refine ⟨⟨k, xs ++ x :: List.replicate (n - 1) 0, ?_⟩, ⟨c.cells ++ [some x], ?_⟩⟩
    · simp only [hs, List.map_append, List.map_cons, List.map_replicate, List.append_assoc]
    · simp only [List.append_assoc, List.cons_append, List.nil_append]
  · refine ⟨?_, ⟨ys ++ [some x], ?_⟩⟩
    · have hk : k ≤ ys.length := by
        by_contra hlt
        have hget : c.cells[ys.length]? = some (some 0) := by
          rw [hy, List.getElem?_append_right le_rfl, Nat.sub_self,
            List.getElem?_replicate_of_lt (by omega)]
        rw [hs, List.getElem?_append_left (by rw [List.length_replicate]; omega),
          List.getElem?_replicate_of_lt (by omega)] at hget
        cases hget
      refine ⟨k, xs.set (ys.length - k) x, ?_⟩
      have hlen : c.cells.length - c.free = ys.length := by
        rw [hy, List.length_append, List.length_replicate, Nat.add_sub_cancel]
      rw [add, if_neg h0, hlen]
      simp only []
      rw [hs, List.set_append_right _ _ (by rw [List.length_replicate]; exact hk),
        List.length_replicate, List.map_set]
    · rw [add_of_free h0 hy]
      simp only [List.append_assoc, List.cons_append, List.nil_append]

theorem indexed_add (h : Ok c) (hx : x ≠ 0) :
    (add n x c).2.indexed = c.indexed ++ [((add n x c).1, x)] := by
  obtain ⟨ys, hy⟩ := h.tail
  by_cases h0 : c.free = 0
  · rw [add, if_pos h0]
    simp only [indexed]
    rw [indexedFrom_append, indexedFrom, if_neg hx, indexedFrom_zero, Nat.zero_add]
  · rw [add_of_free h0 hy]
    simp only [indexed]
    rw [hy, indexedFrom_append, indexedFrom_append, indexedFrom, if_neg hx, indexedFrom_zero,
      indexedFrom_zero, List.append_nil, Nat.zero_add]

theorem counter_add : (add n x c).2.counter = c.counter + 1 := by
  rw [add]
  split <;> rfl

theorem length_add : (add n x c).2.cells.length ≤ c.cells.length + (n - 1 + 1) := by
  rw [add]
  split <;> simp

theorem ok_del (h : Ok c) : Ok (del x c) := by
  rw [del]
  cases hf : firstFrom (· == x) 0 c.cells with
  | none => exact h
  | some r =>
      obtain ⟨j, e⟩ := r
      obtain ⟨-, hj, -⟩ := firstFrom_eq_some hf
      rw [Nat.sub_zero] at hj
      obtain ⟨k, xs, hs⟩ := h.shape
      obtain ⟨ys, hy⟩ := h.tail
      constructor
      · refine ⟨k, xs.set (j - k) 0, ?_⟩
        have hk : k ≤ j := by
          by_contra hlt
          rw [hs, List.getElem?_append_left (by rw [List.length_replicate]; omega),
            List.getElem?_replicate_of_lt (by omega)] at hj
          cases hj
        simp only [hs]
        rw [List.set_append_right _ _ (by rw [List.length_replicate]; exact hk),
          List.length_replicate, List.map_set]
      · simp only []
        rw [hy]
        rcases Nat.lt_or_ge j ys.length with hlt | hge
        · exact ⟨_, List.set_append_left _ _ hlt⟩
        · refine ⟨ys, ?_⟩
          rw [List.set_append_right _ _ hge, List.set_replicate_self]

theorem indexed_del (hx : x ≠ 0) : (del x c).indexed = c.indexed.eraseP (·.2 == x) := by
  rw [del]
  cases hf : firstFrom (· == x) 0 c.cells with
  | none =>
      have hno := (firstFrom_eq_none hx).mp hf
      refine (List.eraseP_of_forall_not fun r hr => ?_).symm
      intro he
      exact hno (List.mem_map.mpr ⟨r, hr, by simpa using he⟩)
  | some r => exact indexedFrom_set hx hf

theorem counter_del (hx : x ≠ 0) :
    (del x c).counter = if x ∈ c.ids then c.counter - 1 else c.counter := by
  rw [del]
  cases hf : firstFrom (· == x) 0 c.cells with
  | none => exact (if_neg ((firstFrom_eq_none hx).mp hf)).symm
  | some r =>
      refine (if_pos ?_).symm
      by_contra hno
      rw [(firstFrom_eq_none hx).mpr hno] at hf
      cases hf

theorem ok_clear : Ok c.clear := ⟨⟨c.cells.length, [], by simp [clear]⟩, ⟨_, (List.append_nil _).symm⟩⟩

theorem indexed_clear : c.clear.indexed = [] := indexedFrom_none 0 _

theorem ids_nonzero : 0 ∉ c.ids := by
  intro h
  obtain ⟨r, hr, h0⟩ := List.mem_map.mp h
  exact (mem_indexedFrom hr).2.2 h0

theorem ok_addAll : ∀ {xs : List UInt64} {c : IdCells}, Ok c → Ok (addAll n xs c)
  | [], _, h => h
  | _ :: _, _, h => by
      rw [addAll]
      exact ok_addAll (ok_add h)

theorem ids_addAll : ∀ {xs : List UInt64} {c : IdCells}, Ok c → 0 ∉ xs →
    (addAll n xs c).ids = c.ids ++ xs
  | [], c, _, _ => (List.append_nil _).symm
  | x :: xs, c, h, h0 => by
      have hx : x ≠ 0 := fun hx => h0 (hx ▸ List.mem_cons_self)
      rw [addAll, ids_addAll (ok_add h) fun hm => h0 (List.mem_cons_of_mem x hm), ids, ids,
        indexed_add h hx, List.map_append, List.append_assoc]
      rfl

theorem counter_addAll : ∀ {xs : List UInt64} {c : IdCells},
    (addAll n xs c).counter = c.counter + xs.length
  | [], _ => rfl
  | x :: xs, c => by
      rw [addAll, counter_addAll, counter_add, List.length_cons]
      omega

/-- The entries of the tables that ids which do not fit into the last table need. -/
def needed (n k : ℕ) : ℕ := (k + n - 1) / n * n

theorem needed_zero (hn : 0 < n) : needed n 0 = 0 := by
  rw [needed, Nat.div_eq_of_lt (by omega), Nat.zero_mul]

theorem needed_add (hn : 0 < n) (k : ℕ) : needed n (k + 1) = n + needed n (k + 1 - n) := by
  rcases Nat.lt_or_ge k n with hlt | hge
  · rw [show k + 1 - n = 0 by omega, needed_zero hn, needed,
      show k + 1 + n - 1 = k + n by omega, Nat.add_div_right _ hn, Nat.div_eq_of_lt hlt]
    omega
  · rw [needed, needed, show k + 1 + n - 1 = k + n by omega, Nat.add_div_right _ hn,
      show k + 1 - n + n - 1 = k by omega]
    ring

theorem length_addAll (hn : 0 < n) : ∀ {xs : List UInt64} {c : IdCells}, c.free ≤ c.cells.length →
    (addAll n xs c).cells.length = c.cells.length + needed n (xs.length - c.free)
  | [], c, _ => by rw [addAll, List.length_nil, Nat.zero_sub, needed_zero hn, Nat.add_zero]
  | x :: xs, c, hf => by
      rw [addAll, List.length_cons]
      by_cases h0 : c.free = 0
      · rw [length_addAll hn, add, if_pos h0]
        · simp only [List.length_append, List.length_cons, List.length_replicate]
          rw [h0, Nat.sub_zero, needed_add hn, show xs.length + 1 - n = xs.length - (n - 1) by omega]
          omega
        · rw [add, if_pos h0]
          simp only [List.length_append, List.length_cons, List.length_replicate]
          omega
      · rw [length_addAll hn, add, if_neg h0]
        · simp only [List.length_set]
          rw [show xs.length + 1 - c.free = xs.length - (c.free - 1) by omega]
        · rw [add, if_neg h0]
          simp only [List.length_set]
          omega

theorem length_clear : c.clear.cells.length = c.cells.length := List.length_replicate

theorem length_del : (del x c).cells.length = c.cells.length := by
  rw [del]
  split
  · rfl
  · exact List.length_set

theorem length_sort (hn : 0 < n) (le : UInt64 → UInt64 → Bool) :
    (c.sort n le).cells.length ≤ c.cells.length + needed n c.ids.length := by
  rw [sort]
  split
  · omega
  · rw [length_addAll hn (Nat.zero_le _), length_clear, List.length_mergeSort, List.length_take]
    refine Nat.add_le_add_left (Nat.mul_le_mul_right n (Nat.div_le_div_right ?_)) _
    simp only [clear]
    omega

theorem ids_sort (le : UInt64 → UInt64 → Bool) (hc : c.counter = c.ids.length) :
    (c.sort n le).ids = c.ids.mergeSort le := by
  rw [sort]
  split
  next h0 =>
      have hnil : c.ids = [] := List.eq_nil_of_length_eq_zero (by omega)
      rw [hnil, List.mergeSort_nil]
  next h0 =>
      rw [hc, List.take_length, ids_addAll ok_clear fun hm => ids_nonzero (List.mem_mergeSort.mp hm),
        show c.clear.ids = [] by rw [ids, indexed_clear, List.map_nil], List.nil_append]

theorem counter_sort (le : UInt64 → UInt64 → Bool) (hc : c.counter ≤ c.ids.length) :
    (c.sort n le).counter = c.counter := by
  rw [sort]
  split
  · rfl
  · rw [counter_addAll, List.length_mergeSort, List.length_take]
    simp only [clear]
    omega

theorem ok_sort (le : UInt64 → UInt64 → Bool) (h : Ok c) : Ok (c.sort n le) := by
  rw [sort]
  split
  · exact h
  · exact ok_addAll ok_clear

end

end IdCells
end Gwenhywfar
