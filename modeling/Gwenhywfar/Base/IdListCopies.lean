import Gwenhywfar.Base.IdListDup
import Gwenhywfar.Base.IdListMultiset

/-! # Lazy copies of a `GWEN_IDLIST64`

The calls of a run are executed twice: once with `GWEN_IdList64_LazyCopy` and once with
`GWEN_IdList64_dup` in its place.

* `Independent`: a copy is equal to its original at birth, a call for one list changes nothing in
  the others, and every list is seen as if the copies were deep.
* `SafeStep`: only lists with counter 0 are copied, and no call writes to a table or clears a
  pointer block that another list uses.
* Lists are independent in every run of safe calls (`independent_of_safe`). -/

namespace Gwenhywfar

set_option maxRecDepth 4000

namespace IdList64

open SimplePtrList PtrHeap IdTable64 IdCells

/-! ### Runs with copies -/

/-- A call of a run: a copy of a list, or a call for a list.  The lists are numbered in the order
in which they are made. -/
inductive CopyOp where
  | copy (i : ℕ)
  | on (i : ℕ) (o : Op)
deriving DecidableEq, Repr

abbrev Lists := List ℕ × IdHeap

/-- A call, with a function that copies a list. -/
def stepWith (copyList : IdHeap → ℕ → Option (ℕ × IdHeap)) (s : Lists) : CopyOp → Option Lists
  | .copy i => do
      let l ← s.1[i]?
      let (l', h) ← copyList s.2 l
      some (s.1 ++ [l'], h)
  | .on i o => do
      let l ← s.1[i]?
      let (_, h) ← call s.2 l o
      some (s.1, h)

/-- `GWEN_IdList64_dup`, where it does not return NULL. -/
def deepCopy (h : IdHeap) (l : ℕ) : Option (ℕ × IdHeap) :=
  (dup h l).bind fun r => r.1.map fun l' => (l', r.2)

/-- A new list with `n` entries a table. -/
def start (n : ℕ) : Option Lists := (newWithSteps ⟨[], [], []⟩ n).map fun r => ([r.1], r.2)

def runLazy (n : ℕ) (ops : List CopyOp) : Option Lists :=
  (start n).bind fun s => Gwenhywfar.exec (stepWith lazyCopy) s ops

/-- The same calls with deep copies. -/
def runDeep (n : ℕ) (ops : List CopyOp) : Option Lists :=
  (start n).bind fun s => Gwenhywfar.exec (stepWith deepCopy) s ops

/-- Two lists cannot be told apart: they have the same number of entries, the same ids under
`GWEN_IdList64_HasId`, and an iterator yields the same ids. -/
structure Seen (h : IdHeap) (l : ℕ) (g : IdHeap) (m : ℕ) : Prop where
  count : getEntryCount h l = getEntryCount g m
  hasId : ∀ x, hasId h l x = hasId g m x
  iterate : ∀ k, walk h l k = walk g m k

/-- Lazy copies are equal to their originals at birth and independent afterwards. -/
structure Independent (n : ℕ) (ops : List CopyOp) : Prop where
  /-- Every list is seen as if the copies were deep. -/
  asDeep : ∀ pre, pre <+: ops → ∃ s r, runLazy n pre = some s ∧ runDeep n pre = some r ∧
    s.1.length = r.1.length ∧
    ∀ (i : ℕ) l m, s.1[i]? = some l → r.1[i]? = some m → Seen s.2 l r.2 m
  /-- A copy is equal to its original. -/
  birth : ∀ pre i, pre ++ [.copy i] <+: ops → ∃ s l l', runLazy n (pre ++ [.copy i]) = some s ∧
    s.1[i]? = some l ∧ s.1.getLast? = some l' ∧ Seen s.2 l s.2 l'
  /-- A call for one list changes nothing in the others. -/
  frame : ∀ pre i o, pre ++ [.on i o] <+: ops → ∃ s t, runLazy n pre = some s ∧
    runLazy n (pre ++ [.on i o]) = some t ∧ t.1 = s.1 ∧
    ∀ (j : ℕ) l, j ≠ i → s.1[j]? = some l → Seen s.2 l t.2 l

/-! ### Safe calls -/

instance (h : IdHeap) (l t : ℕ) : Decidable (Holds h l t) :=
  match hv : h.view l with
  | none => isFalse (by rintro ⟨v, hv', -⟩; rw [hv] at hv'; cases hv')
  | some v => decidable_of_iff (some t ∈ v.held)
      ⟨fun ht => ⟨v, hv, ht⟩, fun ⟨v', hv', ht⟩ => by
        rw [hv, Option.some.injEq] at hv'
        exact hv' ▸ ht⟩

/-- No other list holds the table. -/
def Sole (ls : List ℕ) (h : IdHeap) (l : ℕ) (o : Option ℕ) : Prop :=
  ∀ t ∈ o, ∀ l' ∈ ls, l' ≠ l → ¬ Holds h l' t

instance (ls : List ℕ) (h : IdHeap) (l : ℕ) (o : Option ℕ) : Decidable (Sole ls h l o) := by
  unfold Sole
  infer_instance

/-- No other list uses the pointer block of the list, or the list holds no table. -/
def ClearSafe (h : IdHeap) (l : ℕ) : Prop :=
  ∃ pl ∈ h.list l, ∃ b ∈ h.block pl.entryList,
    b.refCounter = 1 ∨ ∀ p ∈ pl.held b, p = none

instance (h : IdHeap) (l : ℕ) : Decidable (ClearSafe h l) := by
  unfold ClearSafe
  infer_instance

/-- A call for the list at `l`, which holds `c`, writes to nothing that another list uses, and the
entries of the tables can be counted in an `int`. -/
def SafeOn (n : ℕ) (s : Lists) (l : ℕ) (c : IdCells) : Op → Prop
  | .addId x => x = 0 ∨ Sole s.1 s.2 l (target s.2 l) ∧ (c.free ≠ 0 ∨ c.cells.length + n < 2 ^ 31)
  | .delId x => x = 0 ∨ Sole s.1 s.2 l (owner n s.2 l x)
  | .hasId _ => True
  | .sort => c.counter = 0 ∨ ClearSafe s.2 l ∧ c.cells.length + needed n c.ids.length < 2 ^ 31
  | .reverseSort =>
      c.counter = 0 ∨ ClearSafe s.2 l ∧ c.cells.length + needed n c.ids.length < 2 ^ 31
  | .clear => ClearSafe s.2 l

instance (n : ℕ) (s : Lists) (l : ℕ) (c : IdCells) : (o : Op) → Decidable (SafeOn n s l c o)
  | .addId _ => inferInstanceAs (Decidable (_ ∨ _ ∧ (_ ∨ _)))
  | .delId _ => inferInstanceAs (Decidable (_ ∨ _))
  | .hasId _ => inferInstanceAs (Decidable True)
  | .sort => inferInstanceAs (Decidable (_ ∨ _ ∧ _))
  | .reverseSort => inferInstanceAs (Decidable (_ ∨ _ ∧ _))
  | .clear => inferInstanceAs (Decidable (ClearSafe _ _))

def SafeStep (n : ℕ) (s : Lists) : CopyOp → Prop
  | .copy i => ∃ l ∈ s.1[i]?, getEntryCount s.2 l = some 0
  | .on i o => ∃ l ∈ s.1[i]?, ∃ c ∈ state n s.2 l, SafeOn n s l c o

instance (n : ℕ) (s : Lists) (o : CopyOp) : Decidable (SafeStep n s o) := by
  cases o <;> dsimp only [SafeStep] <;> infer_instance

def CopiesSafe (n : ℕ) (ops : List CopyOp) : Prop :=
  ∀ s, start n = some s → Along (stepWith lazyCopy) (SafeStep n) s ops

/-! ### One call -/

/-- What a list holds after a call. -/
def callCells (n : ℕ) : Op → IdCells → IdCells
  | .addId x, c => if x = 0 then c else (add n x c).2
  | .delId x, c => del x c
  | .hasId _, c => c
  | .sort, c => c.sort n (inOrder true)
  | .reverseSort, c => c.sort n (inOrder false)
  | .clear, c => c.clear

def writes (n : ℕ) (h : IdHeap) (l : ℕ) : Op → Option ℕ
  | .addId x => if x = 0 then none else target h l
  | .delId x => if x = 0 then none else owner n h l x
  | _ => none

/-- A call clears the pointer block of a list that holds `c`. -/
def Clears (c : IdCells) : Op → Prop
  | .sort => c.counter ≠ 0
  | .reverseSort => c.counter ≠ 0
  | .clear => True
  | _ => False

/-- A list with lazy copies and its double with deep ones. -/
structure Agree (c d : IdCells) : Prop where
  alike : Alike c d
  okLeft : Ok c
  okRight : Ok d
  covered : Covered c
  counts : Counts c

section
variable {n : ℕ} {h h' g g' : IdHeap} {l m : ℕ} {v : View ℕ} {c d : IdCells} {o : Op}

theorem Agree.counts_right (ha : Agree c d) : Counts d := ha.alike.length_le.trans_lt ha.counts

theorem Agree.covered_right (ha : Agree c d) : Covered d := by
  have hc := ha.covered
  rw [Covered, ha.alike.ids_eq, ha.alike.counter_eq] at hc
  exact hc

theorem Agree.self (ha : Agree c d) : Agree c c :=
  ⟨Alike.refl c, ha.okLeft, ha.okLeft, ha.covered, ha.counts⟩

theorem Agree.call (ha : Agree c d) (hcounts : Counts (callCells n o c)) :
    Agree (callCells n o c) (callCells n o d) := by
  obtain ⟨hs, hc, hd, hcov, -⟩ := ha
  cases o with
  | addId x =>
      by_cases hx : x = 0
      · simp only [callCells, if_pos hx] at hcounts ⊢
        exact ⟨hs, hc, hd, hcov, hcounts⟩
      · simp only [callCells, if_neg hx] at hcounts ⊢
        exact ⟨hs.add hc hd, ok_add hc, ok_add hd, covered_add hc hcov hx, hcounts⟩
  | delId x => exact ⟨hs.del x, ok_del hc, ok_del hd, covered_del hcov, hcounts⟩
  | hasId x => exact ⟨hs, hc, hd, hcov, hcounts⟩
  | sort => exact ⟨hs.sort _, ok_sort _ hc, ok_sort _ hd, covered_sort _ hcov, hcounts⟩
  | reverseSort => exact ⟨hs.sort _, ok_sort _ hc, ok_sort _ hd, covered_sort _ hcov, hcounts⟩
  | clear => exact ⟨hs.clear, ok_clear, ok_clear, Nat.zero_le _, hcounts⟩

/-- A call changes its list, and writes to one table at most. -/
theorem call_changed (hi : IdInv n h) (hv : h.view l = some v) (hn : 0 < n)
    (hcounts : Counts (entries n h.objects v)) (hcov : Covered (entries n h.objects v))
    (hu : Clears (entries n h.objects v) o → Unshared h l) : ∃ rv h', call h l o = some (rv, h') ∧
      Changed n h h' l (callCells n o (entries n h.objects v)) (fun t => writes n h l o = some t) := by
  cases o with
  | addId x =>
      by_cases hx : x = 0
      · refine ⟨errorInvalid, h, ?_, ?_⟩
        · simp only [call, addId, getTableMaxEntries_eq hi hv, bind, Option.bind_some, if_pos hx]
        · simp only [callCells, if_pos hx]
          exact (Changed.refl hi hv).mono fun _ _ hT => absurd hT id
      · obtain ⟨h', ha, hc⟩ := addId_changed hi hv hn hx
        refine ⟨_, h', ha, ?_⟩
        simp only [callCells, writes, if_neg hx]
        exact hc
  | delId x =>
      obtain ⟨h', ha, hc⟩ := delId_changed hi hv hn hcounts x
      refine ⟨_, h', ha, hc.mono fun t _ hT => ?_⟩
      simp only [writes, if_neg hT.1]
      exact hT.2
  | hasId x =>
      exact ⟨_, h, by rw [call, hasId_eq hi hv hn hcounts, Option.map_some],
        (Changed.refl hi hv).mono fun _ _ hT => absurd hT id⟩
  | sort =>
      obtain ⟨h', ha, hc⟩ := sort_changed hi hv hn hcounts true hcov hu
      exact ⟨0, h', by rw [call, ha, Option.map_some], hc.mono fun _ _ hT => absurd hT id⟩
  | reverseSort =>
      obtain ⟨h', ha, hc⟩ := sort_changed hi hv hn hcounts false hcov hu
      exact ⟨0, h', by rw [call, ha, Option.map_some], hc.mono fun _ _ hT => absurd hT id⟩
  | clear =>
      obtain ⟨h', ha, -, -, hc⟩ := clear_changed hi hv (hu trivial)
      exact ⟨0, h', by rw [call, ha, Option.map_some], hc.mono fun _ _ hT => absurd hT id⟩

/-- A list writes to no tables but its own. -/
theorem holds_of_writes {t : ℕ} (hv : h.view l = some v)
    (hw : writes n h l o = some t) : Holds h l t := by
  cases o with
  | addId x =>
      simp only [writes] at hw
      split at hw
      · cases hw
      · rw [target, hv, Option.bind_some, Option.filter_eq_some_iff, Option.join_eq_some_iff] at hw
        exact ⟨v, hv, List.mem_of_getLast? hw.1⟩
  | delId x =>
      simp only [writes] at hw
      split at hw
      · cases hw
      · rw [owner, hv, Option.bind_some, Option.bind_eq_some_iff] at hw
        obtain ⟨r, -, hr⟩ := hw
        rw [Option.join_eq_some_iff] at hr
        exact ⟨v, hv, List.mem_of_getElem? hr⟩
  | hasId x => cases hw
  | sort => cases hw
  | reverseSort => cases hw
  | clear => cases hw

theorem unshared_of_clearSafe (hs : ClearSafe h l) : Unshared h l := by
  obtain ⟨pl, hl, b, hb, h1 | hnull⟩ := hs
  · exact Or.inl ⟨pl, b, hl, hb, h1⟩
  · refine Or.inr fun t ⟨q, hq, ht⟩ => ?_
    rw [view_eq hl hb, Option.some.injEq] at hq
    rw [← hq] at ht
    cases hnull _ ht

theorem sole_of_safe {s : Lists} (hs : SafeOn n s l c o) {t : ℕ} (hw : writes n s.2 l o = some t) :
    ∀ l' ∈ s.1, l' ≠ l → ¬ Holds s.2 l' t := by
  cases o with
  | addId x =>
      simp only [writes] at hw
      split at hw
      · cases hw
      · next hx => exact (hs.resolve_left hx).1 t hw
  | delId x =>
      simp only [writes] at hw
      split at hw
      · cases hw
      · next hx => exact hs.resolve_left hx t hw
  | hasId x => cases hw
  | sort => cases hw
  | reverseSort => cases hw
  | clear => cases hw

theorem clearSafe_of_safe {s : Lists} (hs : SafeOn n s l c o) (hc : Clears c o) :
    ClearSafe s.2 l := by
  cases o with
  | addId x => exact absurd hc id
  | delId x => exact absurd hc id
  | hasId x => exact absurd hc id
  | sort => exact (hs.resolve_left hc).1
  | reverseSort => exact (hs.resolve_left hc).1
  | clear => exact hs

theorem counts_of_safe {s : Lists} (hn : 0 < n) (ha : Agree c d) (hs : SafeOn n s l c o) :
    Counts (callCells n o c) := by
  have hcounts := ha.counts
  have hsort : ∀ le, (c.counter = 0 ∨ ClearSafe s.2 l ∧
      c.cells.length + needed n c.ids.length < 2 ^ 31) → Counts (c.sort n le) := by
    rintro le (h0 | ⟨-, hroom⟩)
    · rw [IdCells.sort, if_pos h0]
      exact hcounts
    · exact (length_sort hn le).trans_lt hroom
  unfold Counts at hcounts ⊢
  cases o with
  | addId x =>
      simp only [callCells]
      split
      · exact hcounts
      · next hx =>
          rcases (hs.resolve_left hx).2 with hfree | hroom
          · rw [add, if_neg hfree, List.length_set]
            exact hcounts
          · have := length_add (n := n) (x := x) (c := c)
            omega
  | delId x => exact length_del.trans_lt hcounts
  | hasId x => exact hcounts
  | sort => exact hsort _ hs
  | reverseSort => exact hsort _ hs
  | clear => exact length_clear.trans_lt hcounts

theorem seen_of_agree (hi : IdInv n h) (hi' : IdInv n g) (hn : 0 < n) (hc : state n h l = some c)
    (hd : state n g m = some d) (ha : Agree c d) : Seen h l g m := by
  obtain ⟨v, hv, rfl⟩ := Option.map_eq_some_iff.mp hc
  obtain ⟨u, hu, rfl⟩ := Option.map_eq_some_iff.mp hd
  refine ⟨?_, fun x => ?_, fun k => ?_⟩
  · rw [getEntryCount_eq hi.inv hv, getEntryCount_eq hi'.inv hu]
    exact congrArg some ha.alike.counter_eq
  · rw [hasId_eq hi hv hn ha.counts, hasId_eq hi' hu hn ha.counts_right, ha.alike.isSome_eq x]
  · rw [walk_eq hi hv hn ha.counts, walk_eq hi' hu hn ha.counts_right, ha.alike.ids_eq]

theorem lazyCopy_state (hi : IdInv n h) (hv : h.view l = some v) :
    ∃ h', lazyCopy h l = some (h.lists.length, h') ∧ IdInv n h' ∧
      state n h' h.lists.length = some { entries n h.objects v with counter := 0 } ∧
      ∀ l', l' ≠ h.lists.length → state n h' l' = state n h l' := by
  have hok := hi.lists l v hv
  obtain ⟨pl, b, hl, hb, ho, rfl⟩ := exists_list hi.inv hv
  obtain ⟨h', hcopy, hk, hnew, hother⟩ := Ledger.lazyCopy_spec hi.inv hl hb
  have hsame : ∀ q, entries n h'.objects q = entries n h.objects q := fun q =>
    entries_congr fun t _ => same_getElem? hk.same t
  refine ⟨h', hcopy, ⟨hk.inv, tables_of_same hk.same hi.tables, fun l' q hq => ?_⟩, ?_,
    fun l' hne => ?_⟩
  · by_cases hne : l' = h.lists.length
    · rw [hne, hnew, Option.some.injEq] at hq
      rw [← hq]
      exact ⟨hok.1, hok.2, hok.3⟩
    · exact hi.lists l' q (hother l' hne ▸ hq)
  · rw [state, hnew, Option.map_some, hsame]
    rfl
  · rw [state, state, hother l' hne, funext hsame]

end

/-! ### Runs -/

/-- The lists of a run with lazy copies, and those of the run with deep copies. -/
structure Twin (n : ℕ) (s r : Lists) : Prop where
  left : IdInv n s.2
  right : IdInv n r.2
  nodupLeft : s.1.Nodup
  nodupRight : r.1.Nodup
  length_eq : s.1.length = r.1.length
  agree : ∀ (i : ℕ) l m, s.1[i]? = some l → r.1[i]? = some m →
    ∃ c d, state n s.2 l = some c ∧ state n r.2 m = some d ∧ Agree c d
  /-- Deep copies share no tables. -/
  apart : ∀ m m' t, m ≠ m' → Holds r.2 m t → ¬ Holds r.2 m' t

section
variable {n : ℕ} {s r t : Lists} {h g g' : IdHeap} {i l m : ℕ} {d : IdCells} {o : Op}
  {T : ℕ → Prop}

theorem ne_of_nodup {ls : List ℕ} {j l' : ℕ} (hd : ls.Nodup) (hi : ls[i]? = some l)
    (hj : ls[j]? = some l') (hne : j ≠ i) : l' ≠ l := by
  rintro rfl
  obtain ⟨h1, h2⟩ := List.getElem?_eq_some_iff.mp hi
  obtain ⟨h3, h4⟩ := List.getElem?_eq_some_iff.mp hj
  exact hne (hd.getElem_inj_iff.mp (h4.trans h2.symm))

theorem apart_changed (hi : IdInv n g) (hc : Changed n g g' m d T)
    (ha : ∀ m m' t, m ≠ m' → Holds g m t → ¬ Holds g m' t) :
    ∀ m m' t, m ≠ m' → Holds g' m t → ¬ Holds g' m' t := by
  have hother : ∀ {m' t}, m' ≠ m → Holds g' m' t → Holds g m' t :=
    fun hne ⟨v, hv, ht⟩ => ⟨v, hc.view_other _ hne ▸ hv, ht⟩
  have hself : ∀ {m' t}, m' ≠ m → Holds g' m t → ¬ Holds g m' t := by
    intro m' t hne hm hm'
    rcases hc.fresh t hm with hold | hnew
    · exact ha m m' t (Ne.symm hne) hold hm'
    · exact absurd (hm'.lt hi) (by omega)
  intro m1 m2 t hne h1 h2
  by_cases hm : m1 = m
  · subst hm
    exact hself (Ne.symm hne) h1 (hother (Ne.symm hne) h2)
  · by_cases hm' : m2 = m
    · subst hm'
      exact hself hne h2 (hother hne h1)
    · exact ha m1 m2 t hne (hother hm h1) (hother hm' h2)

theorem Twin.exists_right (ht : Twin n s r) (hl : s.1[i]? = some l) : ∃ m, r.1[i]? = some m :=
  ⟨_, List.getElem?_eq_getElem (ht.length_eq ▸ (List.getElem?_eq_some_iff.mp hl).1)⟩

theorem Twin.exists_left (ht : Twin n s r) (hm : r.1[i]? = some m) : ∃ l, s.1[i]? = some l :=
  ⟨_, List.getElem?_eq_getElem (ht.length_eq ▸ (List.getElem?_eq_some_iff.mp hm).1)⟩

theorem Twin.on_spec (hn : 0 < n) (ht : Twin n s r) (hs : SafeStep n s (.on i o)) :
    ∃ s' r', stepWith lazyCopy s (.on i o) = some s' ∧ stepWith deepCopy r (.on i o) = some r' ∧
      Twin n s' r' ∧ s'.1 = s.1 ∧
      ∀ (j : ℕ) l', j ≠ i → s.1[j]? = some l' → state n s'.2 l' = state n s.2 l' := by
  obtain ⟨l, hl, c, hc, hsafe⟩ := hs
  have hl : s.1[i]? = some l := hl
  obtain ⟨m, hm⟩ := ht.exists_right hl
  obtain ⟨c', d, hc', hd, hagree⟩ := ht.agree i l m hl hm
  obtain rfl : c' = c := Option.some.inj (hc'.symm.trans hc)
  obtain ⟨v, hv, rfl⟩ := Option.map_eq_some_iff.mp hc'
  obtain ⟨u, hu, rfl⟩ := Option.map_eq_some_iff.mp hd
  have hclears : Clears (entries n s.2.objects v) o → Unshared s.2 l := fun hcl =>
    unshared_of_clearSafe (clearSafe_of_safe hsafe hcl)
  have hclears' : Clears (entries n r.2.objects u) o → Unshared r.2 m := fun _ =>
    unshared_of_apart ht.right hu fun m' t hne => ht.apart m m' t (Ne.symm hne)
  obtain ⟨rv, h', hcall, hch⟩ :=
    call_changed ht.left hv hn hagree.counts hagree.covered hclears
  obtain ⟨rv', g', hcall', hch'⟩ :=
    call_changed ht.right hu hn hagree.counts_right hagree.covered_right hclears'
  -- the other lists hold no table that is written to: by the condition, or as copies are deep
  have hsame : ∀ (j : ℕ) l', j ≠ i → s.1[j]? = some l' → state n h' l' = state n s.2 l' := by
    intro j l' hne hj
    have hne' := ne_of_nodup ht.nodupLeft hl hj hne
    exact hch.state_other ht.left hne' fun t hw =>
      sole_of_safe hsafe hw l' (List.mem_of_getElem? hj) hne'
  have hsame' : ∀ (j : ℕ) m', j ≠ i → r.1[j]? = some m' → state n g' m' = state n r.2 m' := by
    intro j m' hne hj
    have hne' := ne_of_nodup ht.nodupRight hm hj hne
    exact hch'.state_other ht.right hne' fun t hw =>
      ht.apart m m' t (Ne.symm hne') (holds_of_writes hu hw)
  refine ⟨(s.1, h'), (r.1, g'), ?_, ?_, ?_, rfl, hsame⟩
  · simp only [stepWith, hl, hcall, bind, Option.bind_some]
  · simp only [stepWith, hm, hcall', bind, Option.bind_some]
  · refine ⟨hch.inv, hch'.inv, ht.nodupLeft, ht.nodupRight, ht.length_eq, fun j l' m' hj hj' => ?_,
      apart_changed ht.right hch' ht.apart⟩
    by_cases hji : j = i
    · subst hji
      obtain rfl : l = l' := Option.some.inj (hl.symm.trans hj)
      obtain rfl : m = m' := Option.some.inj (hm.symm.trans hj')
      exact ⟨_, _, hch.self, hch'.self, hagree.call (counts_of_safe hn hagree hsafe)⟩
    · rw [hsame j l' hji hj, hsame' j m' hji hj']
      exact ht.agree j l' m' hj hj'

theorem ne_of_state {c : IdCells} (hc : state n h l = some c) : l ≠ h.lists.length := by
  rintro rfl
  rw [state, view_eq_none (by simp [list])] at hc
  cases hc

theorem Twin.copy_spec (ht : Twin n s r) (hs : SafeStep n s (.copy i)) :
    ∃ s' r', stepWith lazyCopy s (.copy i) = some s' ∧ stepWith deepCopy r (.copy i) = some r' ∧
      Twin n s' r' ∧ ∃ l l' c d, s'.1[i]? = some l ∧ s'.1.getLast? = some l' ∧
        state n s'.2 l = some c ∧ state n s'.2 l' = some d ∧ Agree c d := by
  obtain ⟨l, hl, hcount⟩ := hs
  have hl : s.1[i]? = some l := hl
  obtain ⟨m, hm⟩ := ht.exists_right hl
  obtain ⟨c, d, hc, hd, hagree⟩ := ht.agree i l m hl hm
  obtain ⟨v, hv, rfl⟩ := Option.map_eq_some_iff.mp hc
  obtain ⟨u, hu, rfl⟩ := Option.map_eq_some_iff.mp hd
  have h0 : (entries n s.2.objects v).counter = 0 := by
    rw [getEntryCount_eq ht.left.inv hv] at hcount
    exact Option.some.inj hcount
  have hzero : { entries n s.2.objects v with counter := 0 } = entries n s.2.objects v := by
    rw [← h0]
  obtain ⟨h', hcopy, hi', hnew, hother⟩ := lazyCopy_state ht.left hv
  obtain ⟨g', hdup, hch⟩ := dup_changed ht.right hu
  rw [hzero] at hnew
  have hold : ∀ (j : ℕ) l' m', s.1[j]? = some l' → r.1[j]? = some m' →
      ∃ c d, state n h' l' = some c ∧ state n g' m' = some d ∧ Agree c d := by
    intro j l' m' hj hj'
    obtain ⟨c, d, hc, hd, ha⟩ := ht.agree j l' m' hj hj'
    exact ⟨c, d, (hother l' (ne_of_state hc)).trans hc,
      (hch.state_other ht.right (ne_of_state hd) fun _ hT => absurd hT id).trans hd, ha⟩
  have hcopied : Agree (entries n s.2.objects v) (entries n r.2.objects u).copied :=
    ⟨hagree.alike.trans alike_copied, hagree.okLeft, ok_copied hagree.okRight, hagree.covered,
      hagree.counts⟩
  have hnl : s.2.lists.length ∉ s.1 := by
    intro hmem
    obtain ⟨j, hj⟩ := List.mem_iff_getElem?.mp hmem
    obtain ⟨m', hm'⟩ := ht.exists_right hj
    obtain ⟨c, -, hc, -⟩ := ht.agree j _ m' hj hm'
    exact ne_of_state hc rfl
  have hnr : r.2.lists.length ∉ r.1 := by
    intro hmem
    obtain ⟨j, hj⟩ := List.mem_iff_getElem?.mp hmem
    obtain ⟨l', hl'⟩ := ht.exists_left hj
    obtain ⟨-, d, -, hd, -⟩ := ht.agree j l' _ hl' hj
    exact ne_of_state hd rfl
  refine ⟨(s.1 ++ [s.2.lists.length], h'), (r.1 ++ [r.2.lists.length], g'), ?_, ?_, ?_, ?_⟩
  · simp only [stepWith, hl, hcopy, bind, Option.bind_some]
  · simp only [stepWith, hm, deepCopy, hdup, bind, Option.bind_some, Option.map_some]
  · refine ⟨hi', hch.inv, ?_, ?_, ?_, fun j l' m' hj hj' => ?_,
      apart_changed ht.right hch ht.apart⟩
    · exact List.nodup_append'.mpr ⟨ht.nodupLeft, List.nodup_singleton _, by simpa using hnl⟩
    · exact List.nodup_append'.mpr ⟨ht.nodupRight, List.nodup_singleton _, by simpa using hnr⟩
    · simp only [List.length_append, List.length_singleton, ht.length_eq]
    · simp only at hj hj'
      rcases Nat.lt_or_ge j s.1.length with hlt | hge
      · rw [List.getElem?_append_left hlt] at hj
        rw [List.getElem?_append_left (ht.length_eq ▸ hlt)] at hj'
        exact hold j l' m' hj hj'
      · rw [List.getElem?_append_right hge, List.getElem?_singleton] at hj
        rw [List.getElem?_append_right (ht.length_eq ▸ hge), List.getElem?_singleton] at hj'
        split at hj
        · split at hj'
          · obtain rfl := Option.some.inj hj
            obtain rfl := Option.some.inj hj'
            exact ⟨_, _, hnew, hch.self, hcopied⟩
          · cases hj'
        · cases hj
  · refine ⟨l, s.2.lists.length, _, _, ?_, ?_, (hother l (ne_of_state hc)).trans hc, hnew,
      hagree.self⟩
    · simp only
      rw [List.getElem?_append_left (List.getElem?_eq_some_iff.mp hl).1, hl]
    · simp only [List.getLast?_append, List.getLast?_singleton, Option.some_or]

theorem Twin.step (hn : 0 < n) (o : CopyOp) (ht : Twin n s r) (hs : SafeStep n s o) :
    ∃ s' r', stepWith lazyCopy s o = some s' ∧ stepWith deepCopy r o = some r' ∧ Twin n s' r' := by
  cases o with
  | copy i =>
      obtain ⟨s', r', h1, h2, h3, -⟩ := ht.copy_spec hs
      exact ⟨s', r', h1, h2, h3⟩
  | on i o =>
      obtain ⟨s', r', h1, h2, h3, -⟩ := ht.on_spec hn hs
      exact ⟨s', r', h1, h2, h3⟩

theorem exists_twin (hn : 0 < n) {ops : List CopyOp} (hsafe : CopiesSafe n ops) :
    ∀ pre post, pre ++ post = ops → ∃ s r, runLazy n pre = some s ∧ runDeep n pre = some r ∧
      Twin n s r ∧ Along (stepWith lazyCopy) (SafeStep n) s post := by
  obtain ⟨h, hnew, -, hc⟩ := newWithSteps_changed (idInv_empty n)
  have hstart : start n = some ([0], h) := by rw [start, hnew, Option.map_some]; rfl
  have hself : state n h 0 = some ⟨[], 0, 0⟩ := hc.self
  have hagree : Agree ⟨[], 0, 0⟩ ⟨[], 0, 0⟩ :=
    ⟨Alike.refl _, ok_new, ok_new, Nat.zero_le _, Nat.two_pow_pos 31⟩
  have htwin : Twin n ([0], h) ([0], h) := by
    refine ⟨hc.inv, hc.inv, List.nodup_singleton 0, List.nodup_singleton 0, rfl,
      fun i l m hl hm => ?_, apart_changed (idInv_empty n) hc ?_⟩
    · rw [List.getElem?_singleton] at hl hm
      split at hl
      · next hi =>
          rw [if_pos hi] at hm
          obtain rfl := Option.some.inj hl
          obtain rfl := Option.some.inj hm
          exact ⟨_, _, hself, hself, hagree⟩
      · cases hl
    · rintro m m' t - ⟨v, hv, -⟩
      rw [view_eq_none (by simp [list])] at hv
      cases hv
  intro pre post hpre
  obtain ⟨s, r, hs, hr, ht, ha⟩ := Along.simulation
    (fun s r o ht hs => Twin.step hn o ht hs) htwin (hsafe _ hstart) pre post hpre
  exact ⟨s, r, by rw [runLazy, hstart, Option.bind_some, hs],
    by rw [runDeep, hstart, Option.bind_some, hr], ht, ha⟩

theorem runLazy_append {pre : List CopyOp} {o : CopyOp} (hs : runLazy n pre = some s)
    (ho : stepWith lazyCopy s o = some t) : runLazy n (pre ++ [o]) = some t := by
  obtain ⟨u, hu, hs⟩ := Option.bind_eq_some_iff.mp hs
  rw [runLazy, hu, Option.bind_some, exec_append, hs, Option.bind_some, exec_cons, ho,
    Option.bind_some, exec_nil]

end

/-- Lazy copies are independent in every run of safe calls. -/
theorem independent_of_safe {n : ℕ} {ops : List CopyOp} (hn : 0 < n) (hsafe : CopiesSafe n ops) :
    Independent n ops := by
  refine ⟨fun pre hpre => ?_, fun pre i hpre => ?_, fun pre i o hpre => ?_⟩
  · obtain ⟨post, hpost⟩ := hpre
    obtain ⟨s, r, hs, hr, ht, -⟩ := exists_twin hn hsafe pre post hpost
    refine ⟨s, r, hs, hr, ht.length_eq, fun i l m hl hm => ?_⟩
    obtain ⟨c, d, hc, hd, ha⟩ := ht.agree i l m hl hm
    exact seen_of_agree ht.left ht.right hn hc hd ha
  · obtain ⟨post, hpost⟩ := hpre
    rw [List.append_assoc, List.singleton_append] at hpost
    obtain ⟨s, r, hs, -, ht, ha⟩ := exists_twin hn hsafe pre _ hpost
    obtain ⟨s', r', hs', -, ht', l, l', c, d, hl, hl', hc, hd, hagree⟩ := ht.copy_spec ha.1
    exact ⟨s', l, l', runLazy_append hs hs', hl, hl',
      seen_of_agree ht'.left ht'.left hn hc hd hagree⟩
  · obtain ⟨post, hpost⟩ := hpre
    rw [List.append_assoc, List.singleton_append] at hpost
    obtain ⟨s, r, hs, hr, ht, ha⟩ := exists_twin hn hsafe pre _ hpost
    obtain ⟨s', r', hs', -, ht', hfst, hsame⟩ := ht.on_spec hn ha.1
    refine ⟨s, s', hs, runLazy_append hs hs', hfst, fun j l hne hl => ?_⟩
    obtain ⟨m, hm⟩ : ∃ m, r.1[j]? = some m :=
      ⟨_, List.getElem?_eq_getElem (ht.length_eq ▸ (List.getElem?_eq_some_iff.mp hl).1)⟩
    obtain ⟨c, d, hc, -, hagree⟩ := ht.agree j l m hl hm
    exact seen_of_agree ht.left ht'.left hn hc ((hsame j l hne hl).trans hc) hagree.self

/-- A list is copied twice while it is empty, then all three lists are used. -/
theorem independent_three_lists : Independent 2
    [.copy 0, .on 0 (.addId 5), .copy 1, .on 1 (.addId 9), .on 1 (.addId 7), .on 1 (.addId 8),
      .on 2 .sort, .on 2 (.addId 3), .on 0 (.delId 5), .copy 0, .on 1 .clear, .on 3 (.hasId 0)] :=
  independent_of_safe (by decide) fun s hs => by
    cases hs
    decide

/-- `GWEN_IdList64_LazyCopy` does not copy the counter. -/
theorem independent_fails : ¬ Independent 256 [.on 0 (.addId 5), .copy 0] := by
  intro h
  obtain ⟨s, l, l', hs, hl, hl', hseen⟩ := h.birth [.on 0 (.addId 5)] 0 (List.prefix_refl _)
  have hrun : (runLazy 256 [.on 0 (.addId 5), .copy 0]).map (fun s =>
      (s.1, getEntryCount s.2 0, getEntryCount s.2 1)) = some ([0, 1], some 1, some 0) := by
    decide
  have hs' : runLazy 256 [.on 0 (.addId 5), .copy 0] = some s := hs
  rw [hs', Option.map_some, Option.some.injEq, Prod.mk.injEq, Prod.mk.injEq] at hrun
  obtain ⟨hls, h0, h1⟩ := hrun
  rw [hls] at hl hl'
  obtain rfl : 0 = l := Option.some.inj hl
  obtain rfl : 1 = l' := Option.some.inj hl'
  have hcount := hseen.count
  rw [h0, h1] at hcount
  cases hcount

end IdList64
end Gwenhywfar
