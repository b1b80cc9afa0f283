import Gwenhywfar.Lib.Chunks
import Gwenhywfar.Base.IdListCells
import Gwenhywfar.Base.IdList64

/-! # What a `GWEN_IDLIST64` holds

* `tableLedger`: the attach and free functions of the tables count references.
* `TableOk`: the first entries of a table have been taken one after the other, the free ones
  behind them hold 0.
* `state n h l`: the entries (`IdCells`) of the list at `l`, and `IdInv` the invariant of the heap.
* The functions that only read a list depend on its entries. -/

namespace Gwenhywfar

open SimplePtrList PtrHeap

namespace IdTable64

/-- The references of a table. -/
def refs (w : List IdTable64) (t : ℕ) : ℕ := ((w[t]?).map refCount).getD 0

/-- A table apart from its references. -/
def contents (ft : IdTable64) : IdTable64 := { ft with refCount := 0 }

theorem at?_eq {w : List IdTable64} {t : ℕ} (h : 0 < refs w t) :
    ∃ ft, at? w t = some ft ∧ w[t]? = some ft ∧ ft.refCount = refs w t := by
  unfold refs at h ⊢
  unfold at?
  cases hg : w[t]? with
  | none =>
      rw [hg] at h
      exact absurd h (by simp)
  | some ft =>
      rw [hg] at h
      exact ⟨ft, by rw [Option.filter_some, if_pos (by simpa using h)], rfl, rfl⟩

theorem refs_set {w : List IdTable64} {t : ℕ} {ft : IdTable64} (h : w[t]? = some ft) (n o : ℕ) :
    refs (w.set t { ft with refCount := n }) o = if t = o then n else refs w o := by
  have hlt := (List.getElem?_eq_some_iff.mp h).1
  unfold refs
  rw [List.getElem?_set, if_pos hlt]
  split
  · rfl
  · rfl

theorem contents_set {w : List IdTable64} {t : ℕ} {ft : IdTable64} (h : w[t]? = some ft) (n : ℕ) :
    (w.set t { ft with refCount := n }).map contents = w.map contents := by
  obtain ⟨hlt, rfl⟩ := List.getElem?_eq_some_iff.mp h
  rw [List.map_set]
  have hset := @List.set_getElem_self _ (w.map contents) t (by rw [List.length_map]; exact hlt)
  rw [List.getElem_map] at hset
  exact hset

/-- Tables count their references. -/
def tableLedger : Ledger (List IdTable64) ℕ where
  attach := attach
  free := free
  refs := refs
  Ok := fun _ => True
  Can := fun w t => 0 < refs w t
  Same := fun w w' => w.map contents = w'.map contents
  same_refl := fun _ => rfl
  same_trans := Eq.trans
  can_of_refs := id
  attach_spec := by
    intro w t _ hc
    obtain ⟨ft, ha, hg, hr⟩ := at?_eq hc
    refine ⟨_, by rw [attach, ha, Option.map_some], trivial, (contents_set hg _).symm, fun q hq => ?_,
      fun o => ?_⟩
    · rw [refs_set hg]
      split <;> omega
    · rw [refs_set hg, hr]
      by_cases ho : t = o
      · rw [if_pos ho, if_pos (by rw [ho]), ho]
      · rw [if_neg ho, if_neg (by simpa using ho), Nat.add_zero]
  free_spec := by
    intro w t _ hc
    obtain ⟨ft, ha, hg, hr⟩ := at?_eq hc
    refine ⟨_, by rw [free, ha, Option.map_some], trivial, (contents_set hg _).symm, fun o => ?_⟩
    rw [refs_set hg, hr]
    by_cases ho : t = o
    · subst ho
      rw [if_pos rfl, if_pos rfl]
      omega
    · rw [if_neg ho, if_neg (by simpa using ho), Nat.add_zero]

/-! ### Tables -/

/-- A table of `n` entries that are taken one after the other. -/
structure TableOk (n : ℕ) (ft : IdTable64) : Prop where
  max_eq : ft.maxEntries = n
  isCopy : ft.runtimeFlags &&& runtimeFlagsIsCopy ≠ 0
  free_le : ft.freeEntries ≤ n
  highest_eq : ft.highestEntry = n - ft.freeEntries - 1
  entries : ∃ ys : List UInt64, ys.length = n - ft.freeEntries ∧
    ft.ptrEntries = ys ++ List.replicate ft.freeEntries 0

section
variable {n : ℕ} {ft : IdTable64}

theorem TableOk.length_eq (h : TableOk n ft) : ft.ptrEntries.length = n := by
  obtain ⟨ys, hl, he⟩ := h.entries
  have := h.free_le
  rw [he, List.length_append, List.length_replicate]
  omega

theorem TableOk.refCount (h : TableOk n ft) (k : ℕ) : TableOk n { ft with refCount := k } :=
  ⟨h.1, h.2, h.3, h.4, h.5⟩

theorem tableOk_create (n : ℕ) : TableOk n ((create n).addRuntimeFlags runtimeFlagsIsCopy) :=
  ⟨rfl, by simp only [create, addRuntimeFlags, runtimeFlagsIsCopy]; decide, le_refl n,
    (by simp only [create, addRuntimeFlags]; omega),
    ⟨[], (Nat.sub_self n).symm, rfl⟩⟩

theorem TableOk.freeEntryPos (h : TableOk n ft) (hf : ft.freeEntries ≠ 0) :
    ft.freeEntryPos n = some (some (n - ft.freeEntries)) := by
  have hle := h.free_le
  have hhigh := h.highest_eq
  unfold IdTable64.freeEntryPos
  by_cases hall : ft.freeEntries = ft.maxEntries
  · rw [if_pos hall, show n - ft.freeEntries = 0 by rw [hall, h.max_eq]; omega]
  · have hlt : ft.freeEntries ≠ n := h.max_eq ▸ hall
    have hpos : ft.highestEntry + 1 = n - ft.freeEntries := by omega
    obtain ⟨ys, hl, he⟩ := h.entries
    have hget : ft.ptrEntries[n - ft.freeEntries]? = some 0 := by
      rw [he, List.getElem?_append_right (by omega), hl, Nat.sub_self,
        List.getElem?_replicate_of_lt (by omega)]
    rw [if_neg hall, hpos, if_pos (by omega), hget]
    rfl

theorem TableOk.store (h : TableOk n ft) (hf : ft.freeEntries ≠ 0) (x : UInt64) :
    TableOk n (ft.store (n - ft.freeEntries) x) := by
  have hle := h.free_le
  have hhigh := h.highest_eq
  obtain ⟨ys, hl, he⟩ := h.entries
  refine ⟨h.max_eq, ?_, ?_, ?_, ⟨ys ++ [x], ?_, ?_⟩⟩
  · exact or_and_ne_zero runtimeFlagsDirty h.isCopy
  · simp only [IdTable64.store]
    omega
  · simp only [IdTable64.store]
    split <;> omega
  · simp only [IdTable64.store, List.length_append, List.length_cons, List.length_nil]
    omega
  · simp only [IdTable64.store]
    rw [he, List.set_append_right _ _ (by omega), hl, Nat.sub_self,
      show ft.freeEntries = ft.freeEntries - 1 + 1 by omega, List.replicate_succ,
      List.set_cons_zero, List.append_assoc]
    rfl

theorem TableOk.zero (h : TableOk n ft) (i : ℕ) :
    TableOk n { ft with ptrEntries := ft.ptrEntries.set i 0 } := by
  obtain ⟨ys, hl, he⟩ := h.entries
  refine ⟨h.max_eq, h.isCopy, h.free_le, h.highest_eq, ?_⟩
  rcases Nat.lt_or_ge i ys.length with hlt | hge
  · exact ⟨ys.set i 0, by rw [List.length_set]; exact hl, by
      simp only [he]
      rw [List.set_append_left _ _ hlt]⟩
  · refine ⟨ys, hl, ?_⟩
    simp only [he]
    rw [List.set_append_right _ _ hge, List.set_replicate_self]

end

end IdTable64

namespace IdList64

open IdTable64 IdCells

/-! ### The entries of a list -/

def cellsOf (n : ℕ) (w : List IdTable64) : Option ℕ → List (Option UInt64)
  | none => List.replicate n none
  | some t => ((w[t]?).map fun ft => ft.ptrEntries.map some).getD []

def freeOf (w : List IdTable64) : Option ℕ → ℕ
  | none => 0
  | some t => ((w[t]?).map freeEntries).getD 0

/-- What a list holds that looks like `v`. -/
def entries (n : ℕ) (w : List IdTable64) (v : View ℕ) : IdCells :=
  ⟨v.held.flatMap (cellsOf n w), freeOf w v.held.getLast?.join, v.userCounter⟩

/-- What the list at an address holds. -/
def state (n : ℕ) (h : IdHeap) (l : ℕ) : Option IdCells := (h.view l).map (entries n h.objects)

/-- The pointers of a list: NULL tables come first, and no table comes twice. -/
structure ViewOk (n : ℕ) (v : View ℕ) : Prop where
  steps_eq : v.steps = stepsOfList
  entriesPerTable_eq : v.userIntData = n
  shape : ∃ (k : ℕ) (ts : List ℕ), v.held = List.replicate k none ++ ts.map some ∧ ts.Nodup

/-- The invariant of the heap. -/
structure IdInv (n : ℕ) (h : IdHeap) : Prop where
  inv : tableLedger.Inv h
  tables : ∀ (t : ℕ) ft, h.objects[t]? = some ft → TableOk n ft
  lists : ∀ l v, h.view l = some v → ViewOk n v

section
variable {n : ℕ} {h : IdHeap} {l : ℕ} {v : View ℕ}

theorem exists_list (hi : tableLedger.Inv h) (hv : h.view l = some v) : ∃ pl b,
    h.list l = some pl ∧ h.block pl.entryList = some b ∧ Owns pl b ∧ pl.view b = v := by
  cases hl : h.list l with
  | none =>
      rw [view_eq_none hl] at hv
      cases hv
  | some pl =>
      obtain ⟨b, hb, ho⟩ := hi.wf.owned l pl hl
      rw [view_eq hl hb, Option.some.injEq] at hv
      exact ⟨pl, b, rfl, hb, ho, hv⟩

theorem length_held {pl : SimplePtrList (List IdTable64) ℕ} {b : PtrBlock ℕ} (ho : Owns pl b) :
    (pl.view b).held.length = pl.usedEntries := by
  have := ho.used_le.trans ho.max_le
  simp only [SimplePtrList.view, held, List.length_take]
  omega

theorem getUsedTables_eq (hi : tableLedger.Inv h) (hv : h.view l = some v) :
    getUsedTables h l = some v.held.length := by
  obtain ⟨pl, b, hl, -, ho, rfl⟩ := exists_list hi hv
  rw [getUsedTables, hl, Option.map_some, length_held ho]

theorem getEntryCount_eq (hi : tableLedger.Inv h) (hv : h.view l = some v) :
    getEntryCount h l = some v.userCounter := by
  obtain ⟨pl, b, hl, -, -, rfl⟩ := exists_list hi hv
  rw [getEntryCount, hl, Option.map_some]
  rfl

theorem getTableMaxEntries_eq (hi : IdInv n h) (hv : h.view l = some v) :
    getTableMaxEntries h l = some n := by
  have hn := (hi.lists l v hv).entriesPerTable_eq
  obtain ⟨pl, b, hl, -, -, rfl⟩ := exists_list hi.inv hv
  have hn' : pl.userIntData = n := hn
  rw [getTableMaxEntries, hl, Option.map_some, hn', Int.toNat_natCast]

theorem getTableAt_eq (hi : tableLedger.Inv h) (hv : h.view l = some v) {idx : ℕ} {p : Option ℕ}
    (hp : v.held[idx]? = some p) : getTableAt h l idx = some p := by
  obtain ⟨pl, b, hl, hb, ho, rfl⟩ := exists_list hi hv
  have hidx := (List.getElem?_eq_some_iff.mp hp).1
  rw [length_held ho] at hidx
  rw [getTableAt, getPtrAt, hl]
  simp only [bind, Option.bind_some]
  rw [if_pos hidx, hb, Option.bind_some]
  simp only [SimplePtrList.view, held, List.getElem?_take_of_lt hidx] at hp
  exact hp

theorem refs_pos (hi : tableLedger.Inv h) (hv : h.view l = some v) {t : ℕ}
    (ht : some t ∈ v.held) : 0 < refs h.objects t := by
  obtain ⟨pl, b, hl, hb, ho, rfl⟩ := exists_list hi hv
  exact hi.refs_pos hb (List.mem_of_mem_take ht)

theorem table_at (hi : IdInv n h) (hv : h.view l = some v) {t : ℕ} (ht : some t ∈ v.held) :
    ∃ ft, IdTable64.at? h.objects t = some ft ∧ h.objects[t]? = some ft ∧ TableOk n ft := by
  obtain ⟨ft, ha, hg, -⟩ := at?_eq (refs_pos hi.inv hv ht)
  exact ⟨ft, ha, hg, hi.tables t ft hg⟩

theorem length_cellsOf (hi : IdInv n h) (hv : h.view l = some v) :
    ∀ p ∈ v.held, (cellsOf n h.objects p).length = n := by
  intro p hp
  cases p with
  | none => exact List.length_replicate
  | some t =>
      obtain ⟨ft, -, hg, hok⟩ := table_at hi hv hp
      rw [cellsOf, hg, Option.map_some, Option.getD_some, List.length_map, hok.length_eq]

theorem length_cells (hi : IdInv n h) (hv : h.view l = some v) :
    (entries n h.objects v).cells.length = v.held.length * n :=
  length_chunks (length_cellsOf hi hv)

/-! ### Searching -/

theorem scan_eq (p : UInt64 → Bool) (es : List UInt64) (b : ℕ) : ∀ (k i : ℕ), i + k = es.length →
    scan p es k i =
      some ((firstFrom p (b + i) ((es.map some).drop i)).map fun r => (r.1 - b, r.2))
  | 0, i, hk => by
      rw [List.drop_eq_nil_of_le (by rw [List.length_map]; omega)]
      rfl
  | k + 1, i, hk => by
      have hi : i < es.length := by omega
      rw [scan, List.getElem?_eq_getElem hi,
        List.drop_eq_getElem_cons (by rw [List.length_map]; exact hi), List.getElem_map, firstFrom]
      simp only [bind, Option.bind_some]
      split
      · rw [Option.map_some, Nat.add_sub_cancel_left]
      · rw [scan_eq p es b k (i + 1) (by omega), Nat.add_assoc]

/-- The loop over the tables finds the first entry from a position on. -/
theorem find_eq (hi : IdInv n h) (hv : h.view l = some v) (p : UInt64 → Bool) :
    ∀ (k idx start : ℕ), idx + k = v.held.length → start ≤ n → find h l n p k idx start =
      some ((firstFrom p (idx * n + start)
        ((entries n h.objects v).cells.drop (idx * n + start))).map
          fun r => (r.1 / n, r.1 % n, r.2))
  | 0, idx, start, hk, _ => by
      rw [List.drop_eq_nil_of_le (by rw [length_cells hi hv, ← hk, Nat.add_zero]; omega)]
      rfl
  | k + 1, idx, start, hk, hs => by
      obtain ⟨q, hq⟩ : ∃ q, v.held[idx]? = some q :=
        ⟨_, List.getElem?_eq_getElem (by omega)⟩
      have hnext := find_eq hi hv p k (idx + 1) 0 (by omega) (Nat.zero_le n)
      rw [Nat.add_zero] at hnext
      have hlen := length_cellsOf hi hv q (List.mem_of_getElem? hq)
      have hdrop := drop_chunks (length_cellsOf hi hv) hq hs
      have hend : idx * n + start + (n - start) = (idx + 1) * n := by
        rw [Nat.add_assoc, Nat.add_sub_cancel' hs, Nat.succ_mul]
      rw [find, getTableAt_eq hi.inv hv hq]
      simp only [bind, Option.bind_some, entries] at hnext ⊢
      rw [hdrop, firstFrom_append, List.length_drop, hlen, hend]
      cases q with
      | none =>
          simp only [cellsOf, List.drop_replicate, firstFrom_none, Option.none_or]
          exact hnext
      | some t =>
          obtain ⟨ft, ha, hg, hok⟩ := table_at hi hv (List.mem_of_getElem? hq)
          simp only [ha, Option.bind_some]
          rw [scan_eq p ft.ptrEntries (idx * n) (n - start) start (by rw [hok.length_eq]; omega)]
          simp only [cellsOf, hg, Option.map_some, Option.getD_some, Option.bind_some]
          cases hf : firstFrom p (idx * n + start) ((ft.ptrEntries.map some).drop start) with
          | none => exact hnext
          | some r =>
              obtain ⟨j, e⟩ := r
              obtain ⟨hle, hget, -⟩ := firstFrom_eq_some hf
              have hlt := (List.getElem?_eq_some_iff.mp hget).1
              rw [List.length_drop, List.length_map, hok.length_eq] at hlt
              have hj : j = n * idx + (j - idx * n) := by rw [Nat.mul_comm]; omega
              have hdiv : j / n = idx := by
                rw [hj, Nat.mul_add_div (by omega), Nat.div_eq_of_lt (by omega), Nat.add_zero]
              have hmod : j % n = j - idx * n := by
                conv_lhs => rw [hj]
                rw [Nat.mul_add_mod, Nat.mod_eq_of_lt (by omega)]
              simp only [Option.map_some, Option.some_or, hdiv, hmod]

/-! ### Reading a list -/

/-- The entries can be counted in an `int`. -/
def Counts (c : IdCells) : Prop := c.cells.length < 2 ^ 31

theorem numTables_eq (hi : IdInv n h) (hv : h.view l = some v) (hn : 0 < n)
    (hc : Counts (entries n h.objects v)) : numTables h l = some v.held.length := by
  have hle : v.held.length ≤ v.held.length * n := Nat.le_mul_of_pos_right _ hn
  rw [Counts, length_cells hi hv] at hc
  rw [numTables, getUsedTables_eq hi.inv hv, Option.map_some, Nat.mod_eq_of_lt (by omega)]

theorem hasId_eq (hi : IdInv n h) (hv : h.view l = some v) (hn : 0 < n)
    (hc : Counts (entries n h.objects v)) (x : UInt64) : hasId h l x =
      some (if (firstFrom (· == x) 0 (entries n h.objects v).cells).isSome then 1 else 0) := by
  have hf := find_eq hi hv (· == x) v.held.length 0 0 (Nat.zero_add _) (Nat.zero_le n)
  rw [Nat.zero_mul, Nat.add_zero, List.drop_zero] at hf
  unfold hasId
  rw [getTableMaxEntries_eq hi hv, numTables_eq hi hv hn hc]
  simp only [bind, Option.bind_some]
  rw [hf, Option.bind_some, Option.isSome_map]

/-- The result of the iterator functions: the next id and the position behind it. -/
def nextOf : List (ℕ × UInt64) → UInt64 × ℕ
  | [] => (0, 0)
  | (j, e) :: _ => (e, j + 1)

theorem found_eq (hi : IdInv n h) (hv : h.view l = some v)
    (hc : Counts (entries n h.objects v)) (pos : ℕ) : found n v.held.length
      ((firstFrom (· != 0) pos ((entries n h.objects v).cells.drop pos)).map
        fun r => (r.1 / n, r.1 % n, r.2)) =
      some (nextOf (indexedFrom pos ((entries n h.objects v).cells.drop pos))) := by
  rw [indexedFrom_eq_cons]
  cases hf : firstFrom (· != 0) pos ((entries n h.objects v).cells.drop pos) with
  | none =>
      rw [Counts, length_cells hi hv] at hc
      exact if_pos hc
  | some r =>
      obtain ⟨j, e⟩ := r
      obtain ⟨hle, hget, -⟩ := firstFrom_eq_some hf
      have hlt := (List.getElem?_eq_some_iff.mp hget).1
      rw [List.length_drop] at hlt
      have hj : j / n * n + j % n = j := by rw [Nat.mul_comm]; exact Nat.div_add_mod j n
      rw [Counts] at hc
      rw [Option.map_some, found, hj, if_pos (by omega)]
      rfl

theorem getFirstId_eq (hi : IdInv n h) (hv : h.view l = some v) (hn : 0 < n)
    (hc : Counts (entries n h.objects v)) :
    getFirstId h l = some (nextOf (entries n h.objects v).indexed) := by
  have hf := find_eq hi hv (· != 0) v.held.length 0 0 (Nat.zero_add _) (Nat.zero_le n)
  rw [Nat.zero_mul, Nat.add_zero] at hf
  unfold getFirstId
  rw [getTableMaxEntries_eq hi hv, numTables_eq hi hv hn hc]
  simp only [bind, Option.bind_some]
  rw [hf, Option.bind_some, found_eq hi hv hc, List.drop_zero, indexed]

theorem getNextId_eq (hi : IdInv n h) (hv : h.view l = some v) (hn : 0 < n)
    (hc : Counts (entries n h.objects v)) {pos : ℕ} (h0 : pos ≠ 0)
    (hpos : pos ≤ (entries n h.objects v).cells.length) : getNextId h l pos =
      some (nextOf (indexedFrom pos ((entries n h.objects v).cells.drop pos))) := by
  have hle : pos / n ≤ v.held.length := by
    rw [length_cells hi hv] at hpos
    exact (Nat.div_le_div_right hpos).trans (Nat.mul_div_cancel _ hn).le
  have hdiv : pos / n * n + pos % n = pos := by rw [Nat.mul_comm]; exact Nat.div_add_mod pos n
  have hf := find_eq hi hv (· != 0) (v.held.length - pos / n) (pos / n) (pos % n) (by omega)
    (Nat.mod_lt _ hn).le
  rw [hdiv] at hf
  unfold getNextId
  rw [if_neg h0, getTableMaxEntries_eq hi hv, numTables_eq hi hv hn hc]
  simp only [bind, Option.bind_some]
  rw [if_neg (by omega), if_neg (by omega), hf, Option.bind_some, Nat.max_eq_left hle,
    found_eq hi hv hc]

theorem walkNext_end (h : IdHeap) (l : ℕ) : ∀ k, walkNext h l k 0 = some (List.replicate k 0)
  | 0 => rfl
  | k + 1 => by
      rw [walkNext, getNextId, if_pos rfl]
      simp only [bind, Option.bind_some]
      rw [walkNext_end h l k, Option.bind_some, List.replicate_succ]

theorem walkNext_eq (hi : IdInv n h) (hv : h.view l = some v) (hn : 0 < n)
    (hc : Counts (entries n h.objects v)) : ∀ (k pos : ℕ), pos ≠ 0 →
      pos ≤ (entries n h.objects v).cells.length → walkNext h l k pos = some (yields
        ((indexedFrom pos ((entries n h.objects v).cells.drop pos)).map Prod.snd) k)
  | 0, _, _, _ => by rw [walkNext, yields_zero]
  | k + 1, pos, h0, hpos => by
      rw [walkNext, getNextId_eq hi hv hn hc h0 hpos, indexedFrom_eq_cons]
      simp only [bind, Option.bind_some]
      cases hf : firstFrom (· != 0) pos ((entries n h.objects v).cells.drop pos) with
      | none =>
          simp only [nextOf]
          rw [walkNext_end, Option.bind_some, List.map_nil, yields_nil, List.replicate_succ]
      | some r =>
          obtain ⟨j, e⟩ := r
          obtain ⟨hle, hget, -⟩ := firstFrom_eq_some hf
          have hlt := (List.getElem?_eq_some_iff.mp hget).1
          rw [List.length_drop] at hlt
          simp only [nextOf]
          rw [walkNext_eq hi hv hn hc k (j + 1) (by omega) (by omega), Option.bind_some,
            List.drop_drop, show pos + (j + 1 - pos) = j + 1 by omega, List.map_cons, yields_cons]

theorem walk_eq (hi : IdInv n h) (hv : h.view l = some v) (hn : 0 < n)
    (hc : Counts (entries n h.objects v)) :
    ∀ k, walk h l k = some (yields (entries n h.objects v).ids k)
  | 0 => by rw [walk, yields_zero]
  | k + 1 => by
      rw [walk, getFirstId_eq hi hv hn hc, ids, indexed, indexedFrom_eq_cons]
      simp only [bind, Option.bind_some]
      cases hf : firstFrom (· != 0) 0 (entries n h.objects v).cells with
      | none =>
          simp only [nextOf]
          rw [walkNext_end, Option.bind_some, List.map_nil, yields_nil, List.replicate_succ]
      | some r =>
          obtain ⟨j, e⟩ := r
          obtain ⟨-, hget, -⟩ := firstFrom_eq_some hf
          have hlt := (List.getElem?_eq_some_iff.mp hget).1
          simp only [nextOf]
          rw [walkNext_eq hi hv hn hc k (j + 1) (by omega) (by omega), Option.bind_some,
            List.map_cons, yields_cons, Nat.sub_zero]

theorem getIdAt_eq (hi : IdInv n h) (hv : h.view l = some v) (hn : 0 < n) {idx : ℕ} {x : UInt64}
    (hx : (idx, x) ∈ (entries n h.objects v).indexed) :
    getIdAt h l idx = some x.toBitVec.toInt := by
  obtain ⟨-, hget, -⟩ := mem_indexedFrom hx
  rw [Nat.sub_zero] at hget
  have hlt := (List.getElem?_eq_some_iff.mp hget).1
  rw [length_cells hi hv] at hlt
  obtain ⟨q, hq⟩ : ∃ q, v.held[idx / n]? = some q :=
    ⟨_, List.getElem?_eq_getElem ((Nat.div_lt_iff_lt_mul hn).mpr hlt)⟩
  have hdiv : idx / n * n + idx % n = idx := by rw [Nat.mul_comm]; exact Nat.div_add_mod idx n
  have hcell : (entries n h.objects v).cells[idx / n * n + idx % n]? = _ :=
    getElem?_chunks (length_cellsOf hi hv) hq (Nat.mod_lt idx hn)
  rw [hdiv, hget] at hcell
  unfold getIdAt
  rw [getTableMaxEntries_eq hi hv]
  simp only [bind, Option.bind_some]
  rw [if_neg (by omega), getTableAt_eq hi.inv hv hq]
  have hmem := List.mem_of_getElem? hq
  cases q with
  | none =>
      rw [cellsOf, List.getElem?_replicate_of_lt (Nat.mod_lt idx hn)] at hcell
      cases hcell
  | some t =>
      obtain ⟨ft, ha, hg, -⟩ := table_at hi hv hmem
      simp only [cellsOf, hg, Option.map_some, Option.getD_some, List.getElem?_map] at hcell
      simp only [Option.bind_some, ha]
      cases he : ft.ptrEntries[idx % n]? with
      | none =>
          rw [he] at hcell
          cases hcell
      | some e =>
          rw [he, Option.map_some, Option.some.injEq, Option.some.injEq] at hcell
          rw [Option.bind_some, hcell]

end

end IdList64
end Gwenhywfar
