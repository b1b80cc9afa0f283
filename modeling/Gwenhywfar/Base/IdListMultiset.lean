import Gwenhywfar.Base.IdListWrite

/-! # A `GWEN_IDLIST64` is a multiset of ids

`Stores` tells which ids are stored after calls with given results, each with the index of its
entry, in the order of the entries.

* `IsMultiset`: after every prefix of a run the results are those of such a list, the counter is
  the number of stored ids, the iterator yields them, and `GWEN_IdList64_GetIdAt` finds them.
* A run is such a list when `GWEN_IdList64_HasId` and `GWEN_IdList64_DelId` are not called for 0
  while there is a free entry, and the entries can be counted in an `int` (`isMultiset_of_safe`). -/

namespace Gwenhywfar.IdList64

open SimplePtrList PtrHeap IdTable64 IdCells

/-- A call for a list of ids. -/
inductive Op where
  | addId (x : UInt64)
  | delId (x : UInt64)
  | hasId (x : UInt64)
  | sort
  | reverseSort
  | clear
deriving DecidableEq, Repr

def call (h : IdHeap) (l : ℕ) : Op → Option (ℤ × IdHeap)
  | .addId x => addId h l x
  | .delId x => delId h l x
  | .hasId x => (hasId h l x).map fun rv => (rv, h)
  | .sort => (sort h l true).map fun h => (0, h)
  | .reverseSort => (sort h l false).map fun h => (0, h)
  | .clear => (clear h l).map fun h => (0, h)

/-- A call that is recorded with its result. -/
def step (l : ℕ) (s : List (Op × ℤ) × IdHeap) (o : Op) : Option (List (Op × ℤ) × IdHeap) :=
  (call s.2 l o).map fun r => (s.1 ++ [(o, r.1)], r.2)

/-- Calls for a new list with `n` entries a table. -/
def run (n : ℕ) (ops : List Op) : Option (List (Op × ℤ) × IdHeap) :=
  (newWithSteps ⟨[], [], []⟩ n).bind fun (l, h) => Gwenhywfar.exec (step l) ([], h) ops

/-- Calls with their results. -/
abbrev Trace := List (Op × ℤ)

/-- Ids with the indices of their entries. -/
abbrev Indexed := List (ℕ × UInt64)

/-- The ids that are stored after calls with these results, with the indices of their entries. -/
inductive Stores : Trace → Indexed → Prop where
  | new : Stores [] []
  | addZero {tr : Trace} {m : Indexed} : Stores tr m → Stores (tr ++ [(.addId 0, errorInvalid)]) m
  | addId {tr : Trace} {m : Indexed} {x : UInt64} {idx : ℕ} : Stores tr m → x ≠ 0 →
      idx ∉ m.map Prod.fst → Stores (tr ++ [(.addId x, (idx : ℤ))]) (m ++ [(idx, x)])
  | delId {tr : Trace} {m : Indexed} {x : UInt64} : Stores tr m → x ∈ m.map Prod.snd →
      Stores (tr ++ [(.delId x, 1)]) (m.eraseP (·.2 == x))
  | delAbsent {tr : Trace} {m : Indexed} {x : UInt64} : Stores tr m → x ∉ m.map Prod.snd →
      Stores (tr ++ [(.delId x, 0)]) m
  | hasId {tr : Trace} {m : Indexed} {x : UInt64} : Stores tr m →
      Stores (tr ++ [(.hasId x, if x ∈ m.map Prod.snd then 1 else 0)]) m
  | sort {tr : Trace} {m m' : Indexed} : Stores tr m →
      m'.map Prod.snd = (m.map Prod.snd).mergeSort (· ≤ ·) → (m'.map Prod.fst).Nodup →
      Stores (tr ++ [(.sort, 0)]) m'
  | reverseSort {tr : Trace} {m m' : Indexed} : Stores tr m →
      m'.map Prod.snd = (m.map Prod.snd).mergeSort (· ≥ ·) → (m'.map Prod.fst).Nodup →
      Stores (tr ++ [(.reverseSort, 0)]) m'
  | clear {tr : Trace} {m : Indexed} : Stores tr m → Stores (tr ++ [(.clear, 0)]) []

/-- What can be seen of a list that stores `m`: the counter, what an iterator yields, and the ids
at the indices, as `int64_t`. -/
structure Observed (h : IdHeap) (l : ℕ) (m : Indexed) : Prop where
  count : getEntryCount h l = some m.length
  iterate : ∀ k, walk h l k = some (yields (m.map Prod.snd) k)
  idAt : ∀ idx x, (idx, x) ∈ m → getIdAt h l idx = some x.toBitVec.toInt
  nonzero : 0 ∉ m.map Prod.snd

/-- After every prefix of a run the list is a multiset of ids. -/
def IsMultiset (n : ℕ) (ops : List Op) : Prop :=
  ∀ pre, pre <+: ops → ∃ tr h m, run n pre = some (tr, h) ∧ tr.map Prod.fst = pre ∧
    Stores tr m ∧ Observed h 0 m

/-- No table of the list has a free entry when 0 is looked for, and the entries of the tables can
be counted in an `int`. -/
def SafeFor (n : ℕ) (c : IdCells) : Op → Prop
  | .addId x => x = 0 ∨ c.free ≠ 0 ∨ c.cells.length + n < 2 ^ 31
  | .delId x => x = 0 → some 0 ∉ c.cells
  | .hasId x => x = 0 → some 0 ∉ c.cells
  | .sort => c.cells.length + needed n c.ids.length < 2 ^ 31
  | .reverseSort => c.cells.length + needed n c.ids.length < 2 ^ 31
  | .clear => True

instance (n : ℕ) (c : IdCells) (o : Op) : Decidable (SafeFor n c o) := by
  cases o <;> dsimp only [SafeFor] <;> infer_instance

/-- A call for the list at `l` is safe. -/
def Safe (n : ℕ) (h : IdHeap) (l : ℕ) (o : Op) : Prop :=
  match state n h l with
  | none => True
  | some c => SafeFor n c o

instance (n : ℕ) (h : IdHeap) (l : ℕ) (o : Op) : Decidable (Safe n h l o) :=
  match hs : state n h l with
  | none => isTrue (by rw [Safe, hs]; trivial)
  | some c => decidable_of_iff (SafeFor n c o) (by rw [Safe, hs])

def RunSafe (n : ℕ) (ops : List Op) : Prop :=
  ∀ r, newWithSteps ⟨[], [], []⟩ n = some r →
    Along (step r.1) (fun s o => Safe n s.2 r.1 o) ([], r.2) ops

/-! ### One call -/

/-- The only list of the heap holds `c`, and its counter is right. -/
structure Single (n : ℕ) (h : IdHeap) (l : ℕ) (c : IdCells) : Prop where
  inv : IdInv n h
  state_eq : state n h l = some c
  ok : c.Ok
  count : c.counter = c.ids.length
  counts : Counts c
  alone : ∀ l', l' ≠ l → h.view l' = none

section
variable {n : ℕ} {h h' : IdHeap} {l : ℕ} {c c' : IdCells} {T : ℕ → Prop}

theorem Single.changed (hs : Single n h l c) (hc : Changed n h h' l c' T) (hok : c'.Ok)
    (hcount : c'.counter = c'.ids.length) (hcounts : Counts c') : Single n h' l c' :=
  ⟨hc.inv, hc.self, hok, hcount, hcounts,
    fun l' hne => (hc.view_other l' hne).trans (hs.alone l' hne)⟩

theorem length_ids : c.ids.length = c.indexed.length := List.length_map _

theorem Single.unshared (hs : Single n h l c) {v : View ℕ} (hv : h.view l = some v) :
    Unshared h l :=
  unshared_of_apart hs.inv hv fun l' t hne _ ⟨q, hq, _⟩ => by
    rw [hs.alone l' hne] at hq
    cases hq

theorem isSome_firstFrom {x : UInt64} (hx : x = 0 → some 0 ∉ c.cells) :
    (firstFrom (· == x) 0 c.cells).isSome = true ↔ x ∈ c.ids := by
  by_cases h0 : x = 0
  · have hno := hx h0
    subst h0
    cases hf : firstFrom (· == 0) 0 c.cells with
    | none => exact iff_of_false (by simp) ids_nonzero
    | some r =>
        obtain ⟨-, hj, he⟩ := firstFrom_eq_some (e := r.2) (j := r.1) hf
        rw [beq_iff_eq] at he
        exact absurd (he ▸ List.mem_of_getElem? hj) hno
  · cases hf : firstFrom (· == x) 0 c.cells with
    | none => exact iff_of_false (by simp) ((firstFrom_eq_none h0).mp hf)
    | some r =>
        refine iff_of_true rfl ?_
        by_contra hno
        rw [(firstFrom_eq_none h0).mpr hno] at hf
        cases hf

theorem addId_spec (hn : 0 < n) (hs : Single n h l c) {x : UInt64}
    (hsafe : SafeFor n c (.addId x)) :
    ∃ r h' c', call h l (.addId x) = some (r, h') ∧ Single n h' l c' ∧
      ∀ tr, Stores tr c.indexed → Stores (tr ++ [(.addId x, r)]) c'.indexed := by
  obtain ⟨v, hv, rfl⟩ := Option.map_eq_some_iff.mp hs.state_eq
  by_cases hx : x = 0
  · subst hx
    refine ⟨errorInvalid, h, _, ?_, hs, fun tr => Stores.addZero⟩
    simp only [call, addId, getTableMaxEntries_eq hs.inv hv, bind, Option.bind_some, if_pos]
  · obtain ⟨h', ha, hc⟩ := addId_changed hs.inv hv hn hx
    have hidx := indexed_add (n := n) hs.ok hx
    have hnew : (add n x (entries n h.objects v)).1 ∉
        (entries n h.objects v).indexed.map Prod.fst := by
      have hnd := nodup_indexedFrom 0 (add n x (entries n h.objects v)).2.cells
      rw [← indexed, hidx, List.map_append, List.nodup_append] at hnd
      exact fun hm => hnd.2.2 _ hm _ (List.mem_singleton_self _) rfl
    refine ⟨_, h', _, ha, hs.changed hc (ok_add hs.ok) ?_ ?_, fun tr ht => ?_⟩
    · rw [counter_add, hs.count, length_ids, length_ids, hidx, List.length_append]
      rfl
    · have hcounts := hs.counts
      unfold Counts at hcounts ⊢
      rcases hsafe with h0 | hfree | hroom
      · exact absurd h0 hx
      · rw [add, if_neg hfree, List.length_set]
        exact hcounts
      · have := length_add (n := n) (x := x) (c := entries n h.objects v)
        omega
    · rw [hidx]
      exact Stores.addId ht hx hnew

theorem delId_spec (hn : 0 < n) (hs : Single n h l c) {x : UInt64}
    (hsafe : SafeFor n c (.delId x)) :
    ∃ r h' c', call h l (.delId x) = some (r, h') ∧ Single n h' l c' ∧
      ∀ tr, Stores tr c.indexed → Stores (tr ++ [(.delId x, r)]) c'.indexed := by
  obtain ⟨v, hv, rfl⟩ := Option.map_eq_some_iff.mp hs.state_eq
  obtain ⟨h', ha, hc⟩ := delId_changed hs.inv hv hn hs.counts x
  have hiff := isSome_firstFrom hsafe
  by_cases hmem : x ∈ (entries n h.objects v).ids
  · have hx : x ≠ 0 := fun h0 => ids_nonzero (h0 ▸ hmem)
    have hdel := indexed_del (c := entries n h.objects v) hx
    have hlen : (del x (entries n h.objects v)).indexed.length + 1 =
        (entries n h.objects v).indexed.length := by
      obtain ⟨r, hr, hrx⟩ := List.mem_map.mp hmem
      have hle := List.length_pos_of_mem hr
      rw [hdel, List.length_eraseP_of_mem hr (by simpa using hrx)]
      omega
    refine ⟨1, h', _, ?_, hs.changed hc (ok_del hs.ok) ?_ ?_, fun tr ht => ?_⟩
    · rw [call, ha, if_pos (hiff.mpr hmem)]
    · rw [counter_del hx, if_pos hmem, hs.count, length_ids, length_ids]
      omega
    · exact (length_del (x := x)).trans_lt hs.counts
    · rw [hdel]
      exact Stores.delId ht hmem
  · have hnone : firstFrom (· == x) 0 (entries n h.objects v).cells = none := by
      rw [← Option.not_isSome_iff_eq_none]
      exact fun hsome => hmem (hiff.mp hsome)
    rw [del, hnone] at hc
    refine ⟨0, h', _, ?_, hs.changed hc hs.ok hs.count hs.counts, fun tr ht =>
      Stores.delAbsent ht hmem⟩
    rw [call, ha, if_neg (fun hsome => hmem (hiff.mp hsome))]

theorem hasId_spec (hn : 0 < n) (hs : Single n h l c) {x : UInt64}
    (hsafe : SafeFor n c (.hasId x)) :
    ∃ r h' c', call h l (.hasId x) = some (r, h') ∧ Single n h' l c' ∧
      ∀ tr, Stores tr c.indexed → Stores (tr ++ [(.hasId x, r)]) c'.indexed := by
  obtain ⟨v, hv, rfl⟩ := Option.map_eq_some_iff.mp hs.state_eq
  have hiff := isSome_firstFrom hsafe
  refine ⟨if x ∈ (entries n h.objects v).ids then 1 else 0, h, _, ?_, hs, fun tr => Stores.hasId⟩
  rw [call, hasId_eq hs.inv hv hn hs.counts, Option.map_some]
  by_cases hmem : x ∈ (entries n h.objects v).ids
  · rw [if_pos hmem, if_pos (hiff.mpr hmem)]
  · rw [if_neg hmem, if_neg (fun hsome => hmem (hiff.mp hsome))]

theorem sort_spec (hn : 0 < n) (hs : Single n h l c) (asc : Bool)
    (hsafe : c.cells.length + needed n c.ids.length < 2 ^ 31) :
    ∃ h', sort h l asc = some h' ∧ Single n h' l (c.sort n (inOrder asc)) := by
  obtain ⟨v, hv, rfl⟩ := Option.map_eq_some_iff.mp hs.state_eq
  obtain ⟨h', ha, hc⟩ := sort_changed hs.inv hv hn hs.counts asc hs.count.le
    fun _ => hs.unshared hv
  refine ⟨h', ha, hs.changed hc (ok_sort _ hs.ok) ?_ ?_⟩
  · rw [counter_sort _ hs.count.le, ids_sort _ hs.count, List.length_mergeSort, hs.count]
  · exact (length_sort hn _).trans_lt hsafe

/-- A safe call succeeds and does what a list of ids does. -/
theorem call_spec (hn : 0 < n) (hs : Single n h l c) {o : Op} (hsafe : SafeFor n c o) :
    ∃ r h' c', call h l o = some (r, h') ∧ Single n h' l c' ∧
      ∀ tr, Stores tr c.indexed → Stores (tr ++ [(o, r)]) c'.indexed := by
  cases o with
  | addId x => exact addId_spec hn hs hsafe
  | delId x => exact delId_spec hn hs hsafe
  | hasId x => exact hasId_spec hn hs hsafe
  | sort =>
      obtain ⟨h', ha, hs'⟩ := sort_spec hn hs true hsafe
      exact ⟨0, h', _, by rw [call, ha, Option.map_some], hs', fun tr ht =>
        Stores.sort ht (ids_sort _ hs.count) (nodup_indexedFrom 0 _)⟩
  | reverseSort =>
      obtain ⟨h', ha, hs'⟩ := sort_spec hn hs false hsafe
      exact ⟨0, h', _, by rw [call, ha, Option.map_some], hs', fun tr ht =>
        Stores.reverseSort ht (ids_sort _ hs.count) (nodup_indexedFrom 0 _)⟩
  | clear =>
      obtain ⟨v, hv, rfl⟩ := Option.map_eq_some_iff.mp hs.state_eq
      obtain ⟨h', ha, -, -, hc⟩ := clear_changed hs.inv hv (hs.unshared hv)
      refine ⟨0, h', _, by rw [call, ha, Option.map_some], hs.changed hc ok_clear ?_ ?_,
        fun tr ht => ?_⟩
      · rw [length_ids, indexed_clear]
        rfl
      · exact length_clear.trans_lt hs.counts
      · rw [indexed_clear]
        exact Stores.clear ht

theorem observed_of_single (hn : 0 < n) (hs : Single n h l c) : Observed h l c.indexed := by
  obtain ⟨v, hv, rfl⟩ := Option.map_eq_some_iff.mp hs.state_eq
  refine ⟨?_, walk_eq hs.inv hv hn hs.counts, fun idx x hx => getIdAt_eq hs.inv hv hn hx,
    ids_nonzero⟩
  rw [getEntryCount_eq hs.inv.inv hv, ← length_ids, ← hs.count]
  rfl

end

/-! ### Runs -/

theorem run_trace {l : ℕ} : ∀ {ops : List Op} {s t : Trace × IdHeap},
    Gwenhywfar.exec (step l) s ops = some t → t.1.map Prod.fst = s.1.map Prod.fst ++ ops
  | [], s, t, ht => by
      rw [exec_nil, Option.some.injEq] at ht
      rw [ht, List.append_nil]
  | o :: ops, s, t, ht => by
      rw [exec_cons, Option.bind_eq_some_iff] at ht
      obtain ⟨u, hu, ht⟩ := ht
      obtain ⟨r, -, rfl⟩ := Option.map_eq_some_iff.mp hu
      rw [run_trace ht, List.map_append, List.append_assoc]
      rfl

/-- A list is a multiset of ids in every run of safe calls. -/
theorem isMultiset_of_safe {n : ℕ} {ops : List Op} (hn : 0 < n) (hsafe : RunSafe n ops) :
    IsMultiset n ops := by
  obtain ⟨h, hnew, hview, hc⟩ := newWithSteps_changed (idInv_empty n)
  have hs : Single n h 0 ⟨[], 0, 0⟩ := ⟨hc.inv, hc.self, ok_new, rfl, Nat.two_pow_pos 31,
    fun l hne => (hc.view_other l hne).trans (view_eq_none (by simp [list]))⟩
  have halong : Along (step 0) (fun s o => Safe n s.2 0 o) ([], h) ops := hsafe _ hnew
  intro pre hpre
  have hstep : ∀ (s : Trace × IdHeap) (o : Op),
      (∃ c, Single n s.2 0 c ∧ Stores s.1 c.indexed) → Safe n s.2 0 o →
      ∃ t, step 0 s o = some t ∧ ∃ c, Single n t.2 0 c ∧ Stores t.1 c.indexed := by
    rintro s o ⟨c, hs, hst⟩ hp
    rw [Safe, hs.state_eq] at hp
    obtain ⟨r, h', c', hcall, hs', hnext⟩ := call_spec hn hs hp
    exact ⟨(s.1 ++ [(o, r)], h'), by rw [step, hcall, Option.map_some], c', hs', hnext s.1 hst⟩
  obtain ⟨t, ht, c, hs', hst⟩ :=
    Along.exec_initial hstep ⟨_, hs, Stores.new⟩ halong pre hpre
  refine ⟨t.1, t.2, _, ?_, ?_, hst, observed_of_single hn hs'⟩
  · rw [run, hnew, Option.bind_some]
    exact ht
  · rw [run_trace ht]
    rfl

theorem isMultiset_add_del : IsMultiset 2
    [.addId 7, .addId 5, .addId 7, .hasId 5, .delId 7, .delId 3, .clear, .addId 0, .addId 9] :=
  isMultiset_of_safe (by decide) fun r hr => by
    cases hr
    decide

/-- The free entries of a table are found when 0 is looked for: `GWEN_IdList64_DelId` reports that
it has deleted 0 and counts the list empty. -/
theorem isMultiset_fails : ¬ IsMultiset 256 [.addId 5, .delId 0] := by
  intro h
  obtain ⟨tr, h, m, hrun, -, -, ho⟩ := h _ (List.prefix_refl _)
  have hcount : (run 256 [.addId 5, .delId 0]).bind (fun r => getEntryCount r.2 0) = some 0 := by
    decide
  have hwalk : (run 256 [.addId 5, .delId 0]).bind (fun r => walk r.2 0 1) = some [5] := by
    decide
  rw [hrun, Option.bind_some] at hcount hwalk
  rw [ho.count, Option.some.injEq] at hcount
  rw [ho.iterate, List.eq_nil_of_length_eq_zero hcount] at hwalk
  exact absurd hwalk (by decide)
end Gwenhywfar.IdList64
