import Mathlib.Data.List.ReduceOption
import Gwenhywfar.Base.IdListWrite

/-! # Deep copies of a `GWEN_IDLIST64`

`GWEN_IdList64_dup` leaves NULL tables out, so that a copy is like its original but need not have
the same indices.

* `Alike c d`: the lists hold the same tables, apart from NULL ones, and the same counter.  They
  stay alike when the same is done to both.
* `dup_changed`: a copy is like the original and shares no table with it. -/

namespace Gwenhywfar

namespace IdCells

/-- The entries of the tables that are not NULL. -/
def dense (c : IdCells) : List UInt64 := c.cells.reduceOption

/-- Lists that differ in NULL tables only; `d` has no more entries than `c`. -/
structure Alike (c d : IdCells) : Prop where
  dense_eq : c.dense = d.dense
  free_eq : c.free = d.free
  counter_eq : c.counter = d.counter
  length_le : d.cells.length ≤ c.cells.length

theorem map_snd_indexedFrom : ∀ (i : ℕ) (cells : List (Option UInt64)),
    (indexedFrom i cells).map Prod.snd = cells.reduceOption.filter (· ≠ 0)
  | _, [] => rfl
  | i, none :: cells => by
      rw [indexedFrom, List.reduceOption_cons_of_none, map_snd_indexedFrom]
  | i, some e :: cells => by
      rw [indexedFrom, List.reduceOption_cons_of_some]
      by_cases he : e = 0
      · rw [if_pos he, List.filter_cons_of_neg (by simpa using he), map_snd_indexedFrom]
      · rw [if_neg he, List.map_cons, List.filter_cons_of_pos (by simpa using he),
          map_snd_indexedFrom]

theorem isSome_firstFrom_iff (x : UInt64) : ∀ (i : ℕ) (cells : List (Option UInt64)),
    (firstFrom (· == x) i cells).isSome = true ↔ x ∈ cells.reduceOption
  | _, [] => by simp [firstFrom, List.reduceOption_nil]
  | i, none :: cells => by
      rw [firstFrom, List.reduceOption_cons_of_none, isSome_firstFrom_iff]
  | i, some e :: cells => by
      rw [firstFrom, List.reduceOption_cons_of_some, List.mem_cons]
      by_cases he : e = x
      · rw [if_pos (by simpa using he)]
        exact iff_of_true rfl (Or.inl he.symm)
      · rw [if_neg (by simpa using he), isSome_firstFrom_iff]
        exact ⟨Or.inr, fun h => h.resolve_left (Ne.symm he)⟩

theorem reduceOption_set (x : UInt64) : ∀ {i j : ℕ} {cells : List (Option UInt64)} {e : UInt64},
    firstFrom (· == x) i cells = some (j, e) →
      (cells.set (j - i) (some 0)).reduceOption = cells.reduceOption.replace x 0
  | i, j, none :: cells, e, h => by
      have hle := (firstFrom_eq_some (i := i + 1) h).1
      rw [show j - i = j - (i + 1) + 1 by omega, List.set_cons_succ,
        List.reduceOption_cons_of_none, List.reduceOption_cons_of_none,
        reduceOption_set x (i := i + 1) h]
  | i, j, some y :: cells, e, h => by
      rw [firstFrom] at h
      by_cases hy : y = x
      · rw [if_pos (by simp [hy]), Option.some.injEq, Prod.mk.injEq] at h
        obtain ⟨rfl, -⟩ := h
        rw [Nat.sub_self, List.set_cons_zero, List.reduceOption_cons_of_some,
          List.reduceOption_cons_of_some, hy, List.replace_cons_self]
      · rw [if_neg (by simp [hy])] at h
        have hle := (firstFrom_eq_some (i := i + 1) h).1
        rw [show j - i = j - (i + 1) + 1 by omega, List.set_cons_succ,
          List.reduceOption_cons_of_some, List.reduceOption_cons_of_some,
          reduceOption_set x (i := i + 1) h, List.replace_cons,
          show (x == y) = false by simpa using Ne.symm hy]

theorem reduceOption_map_some (xs : List UInt64) : (xs.map some).reduceOption = xs := by
  rw [List.reduceOption, List.filterMap_map]
  exact List.filterMap_some

theorem reduceOption_replicate (k : ℕ) (x : UInt64) :
    (List.replicate k (some x)).reduceOption = List.replicate k x := by
  rw [← List.map_replicate, reduceOption_map_some]

section
variable {n : ℕ} {x : UInt64} {c d : IdCells}

theorem ids_eq_dense : c.ids = c.dense.filter (· ≠ 0) := map_snd_indexedFrom 0 c.cells

theorem Alike.refl (c : IdCells) : Alike c c := ⟨rfl, rfl, rfl, le_rfl⟩

theorem Alike.ids_eq (h : Alike c d) : c.ids = d.ids := by
  rw [ids_eq_dense, ids_eq_dense, h.dense_eq]

theorem Alike.isSome_eq (h : Alike c d) (x : UInt64) :
    (firstFrom (· == x) 0 c.cells).isSome = (firstFrom (· == x) 0 d.cells).isSome := by
  have heq : c.cells.reduceOption = d.cells.reduceOption := h.dense_eq
  rw [Bool.eq_iff_iff, isSome_firstFrom_iff, isSome_firstFrom_iff, heq]

theorem dense_add_of_full (h0 : c.free = 0) :
    (add n x c).2.dense = c.dense ++ x :: List.replicate (n - 1) 0 := by
  rw [add, if_pos h0]
  simp only [dense]
  rw [List.reduceOption_append, List.reduceOption_cons_of_some, reduceOption_replicate]

theorem dense_of_tail {ys : List (Option UInt64)}
    (hy : c.cells = ys ++ List.replicate c.free (some 0)) :
    c.dense = ys.reduceOption ++ List.replicate c.free 0 := by
  rw [dense, hy, List.reduceOption_append, reduceOption_replicate]

theorem dense_add_of_free {ys : List (Option UInt64)} (h0 : c.free ≠ 0)
    (hy : c.cells = ys ++ List.replicate c.free (some 0)) :
    (add n x c).2.dense = ys.reduceOption ++ x :: List.replicate (c.free - 1) 0 := by
  rw [add_of_free h0 hy]
  simp only [dense]
  rw [List.reduceOption_append, List.reduceOption_cons_of_some, reduceOption_replicate]

theorem Alike.add (h : Alike c d) (hc : Ok c) (hd : Ok d) : Alike (add n x c).2 (add n x d).2 := by
  have hlen := h.length_le
  refine ⟨?_, ?_, by rw [counter_add, counter_add, h.counter_eq], ?_⟩
  · by_cases h0 : c.free = 0
    · rw [dense_add_of_full h0, dense_add_of_full (h.free_eq ▸ h0), h.dense_eq]
    · obtain ⟨ys, hy⟩ := hc.tail
      obtain ⟨zs, hz⟩ := hd.tail
      have heq := h.dense_eq
      rw [dense_of_tail hy, dense_of_tail hz, h.free_eq] at heq
      rw [dense_add_of_free h0 hy, dense_add_of_free (h.free_eq ▸ h0) hz,
        List.append_cancel_right heq, h.free_eq]
  · rw [IdCells.add, IdCells.add, h.free_eq]
    split <;> rfl
  · rw [IdCells.add, IdCells.add, h.free_eq]
    split
    · simp only [List.length_append, List.length_cons, List.length_replicate]
      omega
    · simp only [List.length_set]
      exact hlen

theorem Alike.del (h : Alike c d) (x : UInt64) : Alike (del x c) (del x d) := by
  have hsome := h.isSome_eq x
  rw [IdCells.del, IdCells.del]
  cases hc : firstFrom (· == x) 0 c.cells with
  | none =>
      cases hd : firstFrom (· == x) 0 d.cells with
      | none => exact h
      | some s =>
          rw [hc, hd] at hsome
          cases hsome
  | some r =>
      cases hd : firstFrom (· == x) 0 d.cells with
      | none =>
          rw [hc, hd] at hsome
          cases hsome
      | some s =>
          have h1 := reduceOption_set x hc
          have h2 := reduceOption_set x hd
          have heq : c.cells.reduceOption = d.cells.reduceOption := h.dense_eq
          refine ⟨?_, h.free_eq, congrArg (· - 1) h.counter_eq, ?_⟩
          · simp only [dense]
            rw [Nat.sub_zero] at h1 h2
            rw [h1, h2, heq]
          · simp only [List.length_set]
            exact h.length_le

theorem Alike.clear (h : Alike c d) : Alike c.clear d.clear :=
  ⟨by simp only [dense, IdCells.clear, List.reduceOption_replicate_none], rfl, rfl, by
    rw [length_clear, length_clear]
    exact h.length_le⟩

theorem Alike.addAll : ∀ {xs : List UInt64} {c d : IdCells}, Alike c d → Ok c → Ok d →
    Alike (addAll n xs c) (addAll n xs d)
  | [], _, _, h, _, _ => h
  | x :: xs, c, d, h, hc, hd => by
      rw [IdCells.addAll, IdCells.addAll]
      exact Alike.addAll (h.add hc hd) (ok_add hc) (ok_add hd)

theorem Alike.sort (h : Alike c d) (le : UInt64 → UInt64 → Bool) :
    Alike (c.sort n le) (d.sort n le) := by
  rw [IdCells.sort, IdCells.sort, h.counter_eq, h.ids_eq]
  split
  · exact h
  · exact h.clear.addAll ok_clear ok_clear

def Covered (c : IdCells) : Prop := c.counter ≤ c.ids.length

theorem covered_add (hc : Ok c) (h : Covered c) (hx : x ≠ 0) : Covered (add n x c).2 := by
  have hlen := congrArg List.length (indexed_add (n := n) hc hx)
  rw [List.length_append, List.length_singleton] at hlen
  unfold Covered ids at h ⊢
  rw [List.length_map] at h ⊢
  rw [counter_add, hlen]
  omega

theorem covered_del (h : Covered c) : Covered (del x c) := by
  unfold Covered ids at h ⊢
  rw [List.length_map] at h ⊢
  rw [del]
  cases hf : firstFrom (· == x) 0 c.cells with
  | none => exact h
  | some r =>
      by_cases hx : x = 0
      · obtain ⟨hle, hj, he⟩ := firstFrom_eq_some (e := r.2) (j := r.1) hf
        rw [beq_iff_eq.mp he, hx, Nat.sub_zero] at hj
        obtain ⟨hlt, hget⟩ := List.getElem?_eq_some_iff.mp hj
        have hset : c.cells.set r.1 (some 0) = c.cells := by
          conv_lhs => rw [← hget, List.set_getElem_self]
        simp only [indexed, hset] at h ⊢
        omega
      · have hdel := indexed_del (c := c) hx
        rw [del, hf] at hdel
        simp only at hdel ⊢
        rw [hdel, List.length_eraseP]
        split <;> omega

theorem covered_sort (le : UInt64 → UInt64 → Bool) (h : Covered c) : Covered (c.sort n le) := by
  have hcount := counter_sort (n := n) le h
  unfold Covered at h ⊢
  rw [hcount, sort]
  split
  · exact h
  · rw [ids_addAll ok_clear fun hm => ids_nonzero (List.mem_of_mem_take (List.mem_mergeSort.mp hm)),
      List.length_append, List.length_mergeSort, List.length_take]
    omega

/-- A copy: NULL tables are left out. -/
def copied (c : IdCells) : IdCells := ⟨c.dense.map some, c.free, c.counter⟩

theorem alike_copied : Alike c c.copied :=
  ⟨(reduceOption_map_some _).symm, rfl, rfl, by
    rw [copied, List.length_map]
    exact List.reduceOption_length_le c.cells⟩

theorem ok_copied (h : Ok c) : Ok c.copied := by
  obtain ⟨ys, hy⟩ := h.tail
  refine ⟨⟨0, c.dense, rfl⟩, ys.reduceOption.map some, ?_⟩
  simp only [copied]
  rw [dense_of_tail hy, List.map_append, List.map_replicate]

theorem Alike.trans {e : IdCells} (h : Alike c d) (h' : Alike d e) : Alike c e :=
  ⟨h.dense_eq.trans h'.dense_eq, h.free_eq.trans h'.free_eq, h.counter_eq.trans h'.counter_eq,
    h'.length_le.trans h.length_le⟩

end

end IdCells

namespace IdList64

open SimplePtrList PtrHeap IdTable64 IdCells

/-! ### The loop over the tables -/

section
variable {n : ℕ} {h h₀ : IdHeap} {l : ℕ} {v : View ℕ}

/-- What a copy holds after the pointers `ps`. -/
def copiedTables (n : ℕ) (w : List IdTable64) (ps : List (Option ℕ)) : IdCells :=
  ⟨(ps.flatMap (cellsOf n w)).reduceOption.map some, freeOf w ps.reduceOption.getLast?, 0⟩

theorem copiedTables_null (w : List IdTable64) (ps : List (Option ℕ)) :
    copiedTables n w (ps ++ [none]) = copiedTables n w ps := by
  rw [copiedTables, copiedTables, List.flatMap_append, List.reduceOption_append,
    List.reduceOption_append, List.flatMap_singleton, cellsOf, List.reduceOption_replicate_none,
    List.append_nil, List.reduceOption_cons_of_none, List.reduceOption_nil, List.append_nil]

theorem copiedTables_table {w : List IdTable64} {t : ℕ} {ft : IdTable64} (hg : w[t]? = some ft)
    (ps : List (Option ℕ)) : copiedTables n w (ps ++ [some t]) =
      ⟨(copiedTables n w ps).cells ++ ft.ptrEntries.map some, ft.freeEntries, 0⟩ := by
  have hcells : cellsOf n w (some t) = ft.ptrEntries.map some := by
    rw [cellsOf, hg, Option.map_some, Option.getD_some]
  have hfree : freeOf w (some t) = ft.freeEntries := by
    rw [freeOf, hg, Option.map_some, Option.getD_some]
  simp only [copiedTables, List.flatMap_append, List.reduceOption_append, List.flatMap_singleton,
    hcells, reduceOption_map_some, List.map_append, List.reduceOption_cons_of_some,
    List.reduceOption_nil, List.getLast?_append, List.getLast?_singleton, Option.some_or, hfree]

theorem copiedTables_held (hok : ViewOk n v) (w : List IdTable64) :
    copiedTables n w v.held = { (entries n w v).copied with counter := 0 } := by
  obtain ⟨k, ts, hs, -⟩ := hok.shape
  have hlast : v.held.reduceOption.getLast? = v.held.getLast?.join := by
    have hred : v.held.reduceOption = ts := by
      rw [hs, List.reduceOption_append, List.reduceOption_replicate_none, List.nil_append,
        List.reduceOption, List.filterMap_map]
      exact List.filterMap_some
    rw [hred, hs, List.getLast?_append, List.getLast?_map]
    cases ts.getLast? with
    | none =>
        rw [Option.map_none, Option.none_or, List.getLast?_replicate]
        split <;> rfl
    | some t => rfl
  simp only [copiedTables, hlast, copied, dense, entries]

theorem at?_of_contents {w w0 : List IdTable64} {t : ℕ} {ft : IdTable64}
    (hw : (w[t]?).map contents = (w0[t]?).map contents) (hg : w[t]? = some ft) :
    ∃ ft0, w0[t]? = some ft0 ∧ ft0.ptrEntries = ft.ptrEntries ∧
      ft0.freeEntries = ft.freeEntries := by
  rw [hg, Option.map_some, eq_comm, Option.map_eq_some_iff] at hw
  obtain ⟨ft0, hg0, hc⟩ := hw
  have hentries : (contents ft0).ptrEntries = (contents ft).ptrEntries := by rw [hc]
  have hfree : (contents ft0).freeEntries = (contents ft).freeEntries := by rw [hc]
  exact ⟨ft0, hg0, hentries, hfree⟩

/-- The tables are copied one after the other, while the original stays what it is. -/
theorem dupTables_changed {idl : ℕ} (hi : IdInv n h₀) (hv : h₀.view l = some v) (hne : l ≠ idl) :
    ∀ (k i : ℕ) {h : IdHeap}, i + k = v.held.length →
      Changed n h₀ h idl (copiedTables n h₀.objects (v.held.take i)) (fun _ => False) →
      ∃ h', dupTables l idl k i h = some (0, h') ∧
        Changed n h₀ h' idl (copiedTables n h₀.objects v.held) (fun _ => False)
  | 0, i, h, hik, hc => ⟨h, rfl, by rwa [List.take_of_length_le (by omega)] at hc⟩
  | k + 1, i, h, hik, hc => by
      have hvh : h.view l = some v := (hc.view_other l hne).trans hv
      obtain ⟨p, hp⟩ : ∃ p, v.held[i]? = some p :=
        ⟨_, List.getElem?_eq_getElem (by omega)⟩
      have htake : v.held.take (i + 1) = v.held.take i ++ [p] := by
        rw [List.take_add_one, hp, Option.toList_some]
      rw [dupTables, getTableAt_eq hc.inv.inv hvh hp]
      cases p with
      | none =>
          rw [← copiedTables_null, ← htake] at hc
          exact dupTables_changed hi hv hne k (i + 1) (by omega) hc
      | some t =>
          have hmem := List.mem_of_getElem? hp
          obtain ⟨ft, ha, hg, hok⟩ := table_at hc.inv hvh hmem
          obtain ⟨ft0, hg0, hentries, hfree⟩ :=
            at?_of_contents (hc.kept t (Holds.lt hi ⟨v, hv, hmem⟩) id) hg
          obtain ⟨q, hq, heq⟩ := Option.map_eq_some_iff.mp hc.self
          obtain ⟨h₁, w, hadd, hfreed, -, -, hc'⟩ :=
            @addTable_changed n h idl q hc.inv hq ft.dup (hok.refCount 1) rfl
          have hnext := hc.trans hc'
          have hcount : q.userCounter = 0 := congrArg IdCells.counter heq
          rw [heq, hcount] at hnext
          have htable := copiedTables_table (n := n) hg0 (v.held.take i)
          rw [← htake, hentries, hfree] at htable
          simp only [bind, Option.bind_some, ha, hadd, hfreed]
          rw [if_neg (by omega)]
          refine dupTables_changed hi hv hne k (i + 1) (by omega) ?_
          rw [htable]
          exact hnext.mono fun t _ hT => hT.elim id And.right

theorem dup_changed (hi : IdInv n h) (hv : h.view l = some v) :
    ∃ h', dup h l = some (some h.lists.length, h') ∧
      Changed n h h' h.lists.length (entries n h.objects v).copied (fun _ => False) := by
  have hne : l ≠ h.lists.length := by
    rintro rfl
    rw [view_eq_none (by simp [list])] at hv
    cases hv
  obtain ⟨h₁, hnew, -, hc1⟩ := newWithSteps_changed hi
  obtain ⟨h₂, hdup, hc2⟩ := dupTables_changed hi hv hne v.held.length 0 (Nat.zero_add _) hc1
  rw [copiedTables_held (hi.lists l v hv)] at hc2
  obtain ⟨q, hq, heq⟩ := Option.map_eq_some_iff.mp hc2.self
  obtain ⟨h3, hset, hc3⟩ := setUserCounter_changed hc2.inv hq v.userCounter
  rw [heq] at hc3
  refine ⟨h3, ?_, (hc2.trans hc3).mono fun t _ hT => hT.elim id And.right⟩
  simp only [dup, getTableMaxEntries_eq hi hv, getUsedTables_eq hi.inv hv,
    getEntryCount_eq hi.inv hv, hnew, hdup, hset, bind, Option.bind_some, lt_irrefl, if_false]

end

end IdList64
end Gwenhywfar
