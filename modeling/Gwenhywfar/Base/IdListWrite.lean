import Gwenhywfar.Base.IdListHeap

/-! # The functions that change a `GWEN_IDLIST64`

`Changed n h h' l c T`: the list at `l` holds `c` afterwards, the pointers of the other lists stay,
and the only tables that were written to are those in `T`.

* Each function makes the change that `IdCells` tells.
* `Changed.state_other`: a list that holds none of the tables in `T` holds what it held before. -/

namespace Gwenhywfar.IdList64

open SimplePtrList PtrHeap IdTable64 IdCells

/-- The list at `l` holds the table at `t`. -/
def Holds (h : IdHeap) (l t : ℕ) : Prop := ∃ v, h.view l = some v ∧ some t ∈ v.held

/-- A function for the list at `l` has written to no tables but those in `T`. -/
structure Changed (n : ℕ) (h h' : IdHeap) (l : ℕ) (c : IdCells) (T : ℕ → Prop) : Prop where
  inv : IdInv n h'
  self : state n h' l = some c
  view_other : ∀ l', l' ≠ l → h'.view l' = h.view l'
  kept : ∀ t, t < h.objects.length → ¬ T t →
    (h'.objects[t]?).map contents = (h.objects[t]?).map contents
  fresh : ∀ t, Holds h' l t → Holds h l t ∨ h.objects.length ≤ t
  length_le : h.objects.length ≤ h'.objects.length

section
variable {n : ℕ} {h h' h'' : IdHeap} {l : ℕ} {v : View ℕ} {c c' : IdCells} {T T' : ℕ → Prop}

theorem state_eq (hv : h.view l = some v) : state n h l = some (entries n h.objects v) := by
  rw [state, hv, Option.map_some]

theorem entries_congr {w w' : List IdTable64}
    (hw : ∀ t, some t ∈ v.held → (w'[t]?).map contents = (w[t]?).map contents) :
    entries n w' v = entries n w v := by
  have hcells : ∀ p ∈ v.held, cellsOf n w' p = cellsOf n w p := by
    intro p hp
    cases p with
    | none => rfl
    | some t =>
        have hm := congrArg (Option.map IdTable64.ptrEntries) (hw t hp)
        rw [Option.map_map, Option.map_map] at hm
        have hm' := congrArg (fun o => (o.map fun es => es.map some).getD []) hm
        simp only [Option.map_map] at hm'
        exact hm'
  have hfree : ∀ p, (v.held.getLast?).join = p → freeOf w' p = freeOf w p := by
    intro p hp
    cases p with
    | none => rfl
    | some t =>
        have hmem : some t ∈ v.held := by
          rw [Option.join_eq_some_iff] at hp
          exact List.mem_of_getLast? hp
        have hm := congrArg (Option.map IdTable64.freeEntries) (hw t hmem)
        rw [Option.map_map, Option.map_map] at hm
        exact congrArg (fun o => o.getD 0) hm
  rw [entries, entries, hfree _ rfl, List.flatMap_def, List.flatMap_def, List.map_congr_left hcells]

theorem Holds.lt (hi : IdInv n h) {t : ℕ} (ht : Holds h l t) : t < h.objects.length := by
  obtain ⟨v, hv, hmem⟩ := ht
  obtain ⟨ft, -, hg, -⟩ := table_at hi hv hmem
  exact (List.getElem?_eq_some_iff.mp hg).1

theorem Changed.state_other (hi : IdInv n h) (hc : Changed n h h' l c T) {l' : ℕ} (hne : l' ≠ l)
    (hT : ∀ t, T t → ¬ Holds h l' t) : state n h' l' = state n h l' := by
  rw [state, state, hc.view_other l' hne]
  cases hv : h.view l' with
  | none => rfl
  | some v =>
      rw [Option.map_some, Option.map_some, entries_congr fun t ht => ?_]
      have hh : Holds h l' t := ⟨v, hv, ht⟩
      exact hc.kept t (hh.lt hi) fun h0 => hT t h0 hh

theorem Changed.trans (hc : Changed n h h' l c T) (hc' : Changed n h' h'' l c' T') :
    Changed n h h'' l c' (fun t => T t ∨ t < h.objects.length ∧ T' t) where
  inv := hc'.inv
  self := hc'.self
  view_other := fun l' hne => (hc'.view_other l' hne).trans (hc.view_other l' hne)
  kept := fun t ht hT => by
    rw [hc'.kept t (ht.trans_le hc.length_le) fun h0 => hT (Or.inr ⟨ht, h0⟩),
      hc.kept t ht fun h0 => hT (Or.inl h0)]
  fresh := fun t ht => by
    rcases hc'.fresh t ht with h1 | h1
    · exact hc.fresh t h1
    · exact Or.inr (hc.length_le.trans h1)
  length_le := hc.length_le.trans hc'.length_le

theorem Changed.mono (hc : Changed n h h' l c T) (hT : ∀ t, t < h.objects.length → T t → T' t) :
    Changed n h h' l c T' :=
  ⟨hc.inv, hc.self, hc.view_other, fun t ht h0 => hc.kept t ht fun h1 => h0 (hT t ht h1),
    hc.fresh, hc.length_le⟩

/-! ### Changes of the pointers -/

theorem same_getElem? {w w' : List IdTable64} (hs : w.map contents = w'.map contents) (t : ℕ) :
    (w'[t]?).map contents = (w[t]?).map contents := by
  rw [← List.getElem?_map, ← List.getElem?_map, hs]

theorem tables_of_same {w w' : List IdTable64} (hs : w.map contents = w'.map contents)
    (hw : ∀ (t : ℕ) ft, w[t]? = some ft → TableOk n ft) :
    ∀ (t : ℕ) ft, w'[t]? = some ft → TableOk n ft := by
  intro t ft hft
  have hm := same_getElem? hs t
  rw [hft, Option.map_some] at hm
  cases hg : w[t]? with
  | none =>
      rw [hg] at hm
      cases hm
  | some ft' =>
      rw [hg, Option.map_some, Option.some.injEq] at hm
      have hok := (hw t ft' hg).refCount 0
      have hft' : contents ft = { ft' with refCount := 0 } := hm
      rw [← hft'] at hok
      exact ⟨hok.1, hok.2, hok.3, hok.4, hok.5⟩

/-- A function of the pointer list that leaves the list with pointers `v`. -/
theorem Changed.ofEffect {k : ℕ → ℕ} {v' : View ℕ} (hi : IdInv n h) (hv : h.view l = some v)
    (he : tableLedger.Effect h h' l k (some v')) (hok : ViewOk n v')
    (hheld : ∀ t, some t ∈ v'.held → some t ∈ v.held) :
    Changed n h h' l (entries n h.objects v') (fun _ => False) where
  inv := by
    refine ⟨he.inv, tables_of_same he.same hi.tables, fun l' q hq => ?_⟩
    by_cases hne : l' = l
    · subst hne
      rw [he.view_self, Option.some.injEq] at hq
      exact hq ▸ hok
    · exact hi.lists l' q ((he.view_other l' hne) ▸ hq)
  self := by
    rw [state_eq he.view_self, entries_congr fun t _ => same_getElem? he.same t]
  view_other := he.view_other
  kept := fun t _ _ => same_getElem? he.same t
  fresh := by
    rintro t ⟨q, hq, ht⟩
    rw [he.view_self, Option.some.injEq] at hq
    exact Or.inl ⟨v, hv, hheld t (hq ▸ ht)⟩
  length_le := by
    have := congrArg List.length he.same
    rw [List.length_map, List.length_map] at this
    exact this.le

theorem setCounter_changed (hi : IdInv n h) (hv : h.view l = some v) (m : ℕ) :
    ∃ pl, h.list l = some pl ∧ Changed n h (h.setList l { pl with userCounter := m }) l
      { entries n h.objects v with counter := m } (fun _ => False) := by
  obtain ⟨pl, b, hl, hb, ho, rfl⟩ := exists_list hi.inv hv
  have hok := hi.lists l _ hv
  exact ⟨pl, hl, Changed.ofEffect hi hv (Ledger.counter_effect hi.inv hl hb ho m)
    ⟨hok.1, hok.2, hok.3⟩ fun _ ht => ht⟩

theorem setUserCounter_changed (hi : IdInv n h) (hv : h.view l = some v) (m : ℕ) :
    ∃ h', setUserCounter h l m = some h' ∧
      Changed n h h' l { entries n h.objects v with counter := m } (fun _ => False) := by
  obtain ⟨pl, hl, hc⟩ := setCounter_changed hi hv m
  exact ⟨_, by rw [setUserCounter, hl, Option.map_some], hc⟩

theorem incUserCounter_changed (hi : IdInv n h) (hv : h.view l = some v) :
    ∃ h', incUserCounter h l = some h' ∧ Changed n h h' l
      { entries n h.objects v with counter := v.userCounter + 1 } (fun _ => False) := by
  obtain ⟨pl, hl, hc⟩ := setCounter_changed hi hv (v.userCounter + 1)
  obtain ⟨pl', b, hl', -, -, rfl⟩ := exists_list hi.inv hv
  rw [hl, Option.some.injEq] at hl'
  subst hl'
  exact ⟨_, by rw [incUserCounter, hl, Option.map_some]; rfl, hc⟩

theorem decUserCounter_changed (hi : IdInv n h) (hv : h.view l = some v) :
    ∃ rv h', decUserCounter h l = some (rv, h') ∧ Changed n h h' l
      { entries n h.objects v with counter := v.userCounter - 1 } (fun _ => False) := by
  obtain ⟨pl, hl, hc⟩ := setCounter_changed hi hv (v.userCounter - 1)
  obtain ⟨pl', b, hl', -, -, rfl⟩ := exists_list hi.inv hv
  rw [hl, Option.some.injEq] at hl'
  subst hl'
  by_cases h0 : pl.userCounter = 0
  · have hset : h.setList l { pl with userCounter := pl.userCounter - 1 } = h := by
      obtain ⟨hlt, he⟩ := List.getElem?_eq_some_iff.mp (list_eq_some.mp hl).1
      rw [h0, Nat.zero_sub, ← h0, setList, ← he, List.set_getElem_self]
    refine ⟨errorInvalid, h, by rw [decUserCounter, hl, Option.map_some, if_pos h0], ?_⟩
    have hview : (pl.view b).userCounter = pl.userCounter := rfl
    rw [hview, hset] at hc
    exact hc
  · exact ⟨0, _, by rw [decUserCounter, hl, Option.map_some, if_neg h0]; rfl, hc⟩

/-! ### Changes of a table -/

theorem ViewOk.index_unique (hv : ViewOk n v) {i j t : ℕ} (hi : v.held[i]? = some (some t))
    (hj : v.held[j]? = some (some t)) : i = j := by
  obtain ⟨k, ts, hs, hd⟩ := hv.shape
  have hpos : ∀ {i : ℕ}, v.held[i]? = some (some t) → k ≤ i ∧ ts[i - k]? = some t := by
    intro i hi
    rw [hs] at hi
    rcases Nat.lt_or_ge i k with hlt | hge
    · rw [List.getElem?_append_left (by rw [List.length_replicate]; exact hlt),
        List.getElem?_replicate_of_lt hlt] at hi
      cases hi
    · rw [List.getElem?_append_right (by rw [List.length_replicate]; exact hge),
        List.length_replicate, List.getElem?_map] at hi
      refine ⟨hge, ?_⟩
      cases hg : ts[i - k]? with
      | none =>
          rw [hg] at hi
          cases hi
      | some u =>
          rw [hg, Option.map_some, Option.some.injEq, Option.some.injEq] at hi
          rw [hi]
  obtain ⟨h1, h2⟩ := hpos hi
  obtain ⟨h3, h4⟩ := hpos hj
  have := hd.getElem_inj_iff.mp ((List.getElem?_eq_some_iff.mp h2).2.trans
    (List.getElem?_eq_some_iff.mp h4).2.symm)
  omega

theorem refs_setTable {w : List IdTable64} {t : ℕ} {ft ft' : IdTable64} (hg : w[t]? = some ft)
    (hr : ft'.refCount = ft.refCount) (o : ℕ) : refs (w.set t ft') o = refs w o := by
  have hset := refs_set hg ft'.refCount o
  have hlt := (List.getElem?_eq_some_iff.mp hg).1
  unfold refs
  rw [List.getElem?_set, if_pos hlt]
  split
  next ho => rw [← ho, hg, Option.map_some, Option.map_some, hr]
  next => rfl

theorem setTable_changed (hi : IdInv n h) (hv : h.view l = some v) {k i t : ℕ}
    {ft ft' : IdTable64} {x : UInt64} (hk : v.held[k]? = some (some t))
    (hg : h.objects[t]? = some ft) (hr : ft'.refCount = ft.refCount) (hok : TableOk n ft')
    (hin : i < n) (he : ft'.ptrEntries = ft.ptrEntries.set i x) : Changed n h (setTable h t ft') l
      ⟨(entries n h.objects v).cells.set (k * n + i) (some x),
        freeOf (h.objects.set t ft') v.held.getLast?.join, v.userCounter⟩ (· = t) := by
  have hlt := (List.getElem?_eq_some_iff.mp hg).1
  have hview : ∀ l', (setTable h t ft').view l' = h.view l' := fun _ => rfl
  have hcells : v.held.flatMap (cellsOf n (h.objects.set t ft')) =
      (v.held.flatMap (cellsOf n h.objects)).set (k * n + i) (some x) := by
    refine set_chunks (length_cellsOf hi hv) hk hin ?_ fun j b hb hj => ?_
    · simp only [cellsOf, List.getElem?_set_self hlt, hg, Option.map_some, Option.getD_some, he,
        List.map_set]
    · cases b with
      | none => rfl
      | some u =>
          have hne : t ≠ u := fun h0 => hj ((hi.lists l v hv).index_unique (h0 ▸ hb) hk)
          simp only [cellsOf, List.getElem?_set_ne hne]
  refine ⟨⟨hi.inv.withObjects trivial fun o => ?_, fun u fu hu => ?_, hi.lists⟩, ?_,
    fun l' _ => rfl, fun u _ hu => ?_, fun u hu => Or.inl hu, ?_⟩
  · change h.slots o ≤ refs (h.objects.set t ft') o
    rw [refs_setTable hg hr]
    exact hi.inv.covers o
  · simp only [setTable, List.getElem?_set] at hu
    split at hu
    · rw [Option.some.injEq] at hu
      exact hu ▸ hok
    · exact hi.tables u fu hu
  · rw [state_eq (hview l ▸ hv)]
    simp only [entries, setTable, hcells]
  · simp only [setTable]
    rw [List.getElem?_set_ne (Ne.symm hu)]
  · simp only [setTable, List.length_set, le_refl]

/-! ### A new table -/

theorem refs_append {w : List IdTable64} {ft : IdTable64} (h : ft.refCount = 1) (o : ℕ) :
    refs (w ++ [ft]) o = if o = w.length then 1 else refs w o := by
  unfold refs
  split
  next ho =>
      rw [ho, List.getElem?_append_right le_rfl, Nat.sub_self]
      exact h
  next ho =>
      rcases Nat.lt_or_gt_of_ne ho with hlt | hgt
      · rw [List.getElem?_append_left hlt]
      · rw [List.getElem?_eq_none (by rw [List.length_append, List.length_singleton]; omega),
          List.getElem?_eq_none (by omega)]

theorem entries_append (hi : IdInv n h) (hv : h.view l = some v) (ft : IdTable64) :
    entries n (h.objects ++ [ft]) { v with held := v.held ++ [some h.objects.length] } =
      ⟨(entries n h.objects v).cells ++ ft.ptrEntries.map some, ft.freeEntries,
        v.userCounter⟩ := by
  have hnew : (h.objects ++ [ft])[h.objects.length]? = some ft := by
    rw [List.getElem?_append_right le_rfl, Nat.sub_self]
    rfl
  have hold : entries n (h.objects ++ [ft]) v = entries n h.objects v :=
    entries_congr fun t ht => by
      rw [List.getElem?_append_left (Holds.lt hi ⟨v, hv, ht⟩)]
  have hcells : v.held.flatMap (cellsOf n (h.objects ++ [ft])) =
      (entries n h.objects v).cells := congrArg IdCells.cells hold
  simp only [entries, List.flatMap_append, hcells, List.flatMap_cons, List.flatMap_nil,
    List.append_nil, cellsOf, List.getLast?_append, List.getLast?_singleton, Option.some_or,
    Option.join_some, freeOf, hnew, Option.map_some, Option.getD_some]

/-- A new table goes to the end of the list, and only the list keeps it. -/
theorem addTable_changed (hi : IdInv n h) (hv : h.view l = some v) {ft : IdTable64}
    (hok : TableOk n ft) (hone : ft.refCount = 1) : ∃ (h₁ : IdHeap) (w : List IdTable64),
      addPtr served { h with objects := h.objects ++ [ft] } l (some h.objects.length) =
        some ((v.held.length : ℤ), h₁) ∧
      IdTable64.free h.objects.length h₁.objects = some w ∧
      PtrHeap.view { h₁ with objects := w } l =
        some { v with held := v.held ++ [some h.objects.length] } ∧
      w.map contents = (h.objects ++ [ft]).map contents ∧
      Changed n h { h₁ with objects := w } l
        ⟨(entries n h.objects v).cells ++ ft.ptrEntries.map some, ft.freeEntries, v.userCounter⟩
        (fun _ => False) := by
  have hvok := hi.lists l v hv
  obtain ⟨pl, b, hl, hb, ho, rfl⟩ := exists_list hi.inv hv
  have hslots : h.slots h.objects.length = 0 := by
    have := hi.inv.covers h.objects.length
    simp only [tableLedger, refs, List.getElem?_eq_none le_rfl] at this
    exact Nat.le_zero.mp this
  have hi0 : tableLedger.Inv { h with objects := h.objects ++ [ft] } := by
    refine hi.inv.withObjects trivial fun o => ?_
    change h.slots o ≤ refs (h.objects ++ [ft]) o
    rw [refs_append hone]
    split
    next he => rw [he, hslots]; exact Nat.zero_le _
    next => exact hi.inv.covers o
  have hcan : ∀ q, some h.objects.length = some q → 0 < refs (h.objects ++ [ft]) q := by
    rintro q ⟨⟩
    rw [refs_append hone, if_pos rfl]
    exact Nat.one_pos
  obtain ⟨rv, h₁, hadd, ⟨rfl, heff⟩ | ⟨-, -, hfail⟩⟩ :=
    Ledger.addPtr_effect served hi0 hl hb ho (some h.objects.length) hcan
  · -- the list has attached to the table, so that the first reference can go
    have hdrift := heff.drift h.objects.length
    change refs h₁.objects h.objects.length + h.slots h.objects.length =
      refs (h.objects ++ [ft]) h.objects.length + _ + _ at hdrift
    rw [hslots, refs_append hone, if_pos rfl] at hdrift
    obtain ⟨w, hw, -, hs, hr⟩ := tableLedger.free_spec heff.inv.ok
      (show 0 < refs h₁.objects h.objects.length by omega)
    have hsame : w.map contents = (h.objects ++ [ft]).map contents :=
      hs.symm.trans heff.same.symm
    have hinv : tableLedger.Inv { h₁ with objects := w } := by
      refine heff.inv.withObjects trivial fun o => ?_
      have h1 := hr o
      have h2 := heff.inv.covers o
      by_cases he : h.objects.length = o
      · subst he
        rw [if_pos rfl] at h1
        change refs w _ + 1 = refs h₁.objects _ at h1
        change h₁.slots _ ≤ refs w _
        omega
      · rw [if_neg (by simpa using he)] at h1
        omega
    have hvself : PtrHeap.view { h₁ with objects := w } l =
        some { pl.view b with held := (pl.view b).held ++ [some h.objects.length] } :=
      heff.view_self
    have hvother : ∀ l', l' ≠ l → PtrHeap.view { h₁ with objects := w } l' = h.view l' :=
      heff.view_other
    have hmem : ∀ t, some t ∈ (pl.view b).held → t < h.objects.length :=
      fun t ht => Holds.lt hi ⟨_, hv, ht⟩
    refine ⟨h₁, w, ?_, hw, hvself, hsame, ⟨⟨hinv, ?_, fun l' q hq => ?_⟩, ?_, hvother, ?_, ?_, ?_⟩⟩
    · rw [length_held ho]
      exact hadd
    · refine tables_of_same hsame.symm fun t fu hu => ?_
      rcases Nat.lt_trichotomy t h.objects.length with hlt | heq | hgt
      · rw [List.getElem?_append_left hlt] at hu
        exact hi.tables t fu hu
      · rw [heq, List.getElem?_append_right le_rfl, Nat.sub_self] at hu
        simp only [List.getElem?_cons_zero, Option.some.injEq] at hu
        exact hu ▸ hok
      · rw [List.getElem?_eq_none (by rw [List.length_append, List.length_singleton]; omega)] at hu
        cases hu
    · by_cases hne : l' = l
      · subst hne
        rw [hvself, Option.some.injEq] at hq
        obtain ⟨k, ts, hs', hd⟩ := hvok.shape
        have hnew : h.objects.length ∉ ts := fun hts => by
          have := hmem h.objects.length (by
            rw [hs']
            exact List.mem_append_right _ (List.mem_map_of_mem hts))
          omega
        rw [← hq]
        refine ⟨hvok.1, hvok.2, k, ts ++ [h.objects.length], ?_, ?_⟩
        · simp only [hs', List.map_append, List.map_cons, List.map_nil, List.append_assoc]
        · rw [List.nodup_append]
          exact ⟨hd, List.nodup_singleton _, fun a ha b hb hab => hnew (by
            rw [← List.mem_singleton.mp hb, ← hab]
            exact ha)⟩
      · exact hi.lists l' q ((hvother l' hne) ▸ hq)
    · rw [state_eq hvself, ← entries_append hi hv, entries_congr fun t _ =>
        same_getElem? hsame.symm t]
    · intro t ht _
      rw [same_getElem? hsame.symm t, List.getElem?_append_left ht]
    · rintro t ⟨q, hq, ht⟩
      rw [hvself, Option.some.injEq] at hq
      rw [← hq] at ht
      rcases List.mem_append.mp ht with ht | ht
      · exact Or.inl ⟨_, hv, ht⟩
      · simp only [List.mem_singleton, Option.some.injEq] at ht
        exact Or.inr ht.ge
    · have := congrArg List.length hsame
      rw [List.length_map, List.length_map, List.length_append] at this
      change h.objects.length ≤ w.length
      omega
  · rcases hfail with hfail | ⟨m, hm⟩
    · have hsteps : pl.steps = 64 := hvok.steps_eq
      omega
    · cases hm

/-! ### Adding an id -/

theorem ensureWritability_changed (hi : IdInv n h) (hv : h.view l = some v) :
    ∃ h', ensureWritability served h l = some (0, h') ∧ h'.view l = some v ∧
      Changed n h h' l (entries n h.objects v) (fun _ => False) := by
  have hvok := hi.lists l v hv
  obtain ⟨pl, b, hl, hb, ho, rfl⟩ := exists_list hi.inv hv
  obtain ⟨rv, h', he, heff, -, ⟨rfl, -⟩ | ⟨-, hf⟩⟩ :=
    Ledger.ensureWritability_effect served hi.inv hl hb ho
  · rw [hv] at heff
    exact ⟨h', he, heff.view_self, Changed.ofEffect hi hv heff hvok fun _ ht => ht⟩
  · cases hf

theorem lastTable_eq (hi : tableLedger.Inv h) (hv : h.view l = some v) :
    ∃ idx, getLastTablePos h l = some idx ∧ lastTable h l idx = some v.held.getLast?.join ∧
      (v.held.length ≠ 0 → idx = ((v.held.length - 1 : ℕ) : ℤ)) := by
  rw [getLastTablePos, getUsedTables_eq hi hv, Option.map_some]
  by_cases h0 : v.held.length = 0
  · refine ⟨errorNoData, by rw [if_pos h0], ?_, fun hne => absurd h0 hne⟩
    rw [List.eq_nil_of_length_eq_zero h0, lastTable, if_neg (by decide)]
    rfl
  · refine ⟨((v.held.length - 1 : ℕ) : ℤ), by rw [if_neg h0]; congr 1; omega, ?_, fun _ => rfl⟩
    have hget := List.getElem?_eq_getElem (show v.held.length - 1 < v.held.length by omega)
    rw [lastTable, if_pos (Int.natCast_nonneg _), Int.toNat_natCast, getTableAt_eq hi hv hget,
      List.getLast?_eq_getElem?, hget, Option.join_some]

theorem appendTable_changed (hi : IdInv n h) (hv : h.view l = some v) :
    ∃ h', appendTable h l n = some ((v.held.length : ℤ), h.objects.length, h') ∧
      h'.view l = some { v with held := v.held ++ [some h.objects.length] } ∧
      freeOf h'.objects (some h.objects.length) = n ∧
      Changed n h h' l ⟨(entries n h.objects v).cells ++ List.replicate n (some 0), n,
        v.userCounter⟩ (fun _ => False) := by
  obtain ⟨h₁, w, ha, hw, hview, hsame, hc⟩ := addTable_changed hi hv (tableOk_create n) rfl
  refine ⟨{ h₁ with objects := w }, ?_, hview, ?_, ?_⟩
  · unfold appendTable
    simp only [ha, hw, bind, Option.bind_some]
  · have hm := same_getElem? hsame.symm h.objects.length
    rw [List.getElem?_append_right le_rfl, Nat.sub_self] at hm
    have hf := congrArg (Option.map IdTable64.freeEntries) hm
    rw [Option.map_map, Option.map_map] at hf
    exact congrArg (fun o => o.getD 0) hf
  · simpa only [create, addRuntimeFlags, List.map_replicate] using hc

/-- The table that an id will be added to: the last one, if it has free entries. -/
def target (h : IdHeap) (l : ℕ) : Option ℕ :=
  ((h.view l).bind fun v => v.held.getLast?.join).filter fun t => freeOf h.objects (some t) != 0

/-- The table at the end of the list that an id is added to: the last one, if it has free
entries, or a new one. -/
def IsCurrent (n : ℕ) (h : IdHeap) (l : ℕ) (v : View ℕ) (r : Option (ℤ × ℕ × IdHeap)) : Prop :=
  ∃ (idx t : ℕ) (h' : IdHeap) (v' : View ℕ), r = some ((idx : ℤ), t, h') ∧
    h'.view l = some v' ∧ v'.held[idx]? = some (some t) ∧ idx + 1 = v'.held.length ∧
    freeOf h'.objects (some t) ≠ 0 ∧
    (target h l = some t ∧ h' = h ∧ v' = v ∧ freeOf h.objects v.held.getLast?.join ≠ 0 ∨
      freeOf h.objects v.held.getLast?.join = 0 ∧ h.objects.length ≤ t ∧
      Changed n h h' l ⟨(entries n h.objects v).cells ++ List.replicate n (some 0), n,
        v.userCounter⟩ (fun _ => False))

theorem isCurrent_append (hi : IdInv n h) (hv : h.view l = some v) (hn : 0 < n)
    (h0 : freeOf h.objects v.held.getLast?.join = 0) : IsCurrent n h l v (appendTable h l n) := by
  obtain ⟨h', ha, hview, hfree, hc⟩ := appendTable_changed hi hv
  refine ⟨v.held.length, h.objects.length, h', _, ha, hview, ?_, ?_, by omega,
    Or.inr ⟨h0, le_rfl, hc⟩⟩
  · rw [List.getElem?_append_right le_rfl, Nat.sub_self]
    rfl
  · rw [List.length_append, List.length_singleton]

theorem currentTable_eq (hi : IdInv n h) (hv : h.view l = some v) (hn : 0 < n) :
    IsCurrent n h l v (currentTable h l n) := by
  obtain ⟨idx, hidx, hlast, hpos⟩ := lastTable_eq hi.inv hv
  have happend := isCurrent_append hi hv hn
  unfold currentTable
  simp only [hidx, hlast, bind, Option.bind_some]
  cases hg : v.held.getLast?.join with
  | none => exact happend (by rw [hg]; rfl)
  | some t =>
      have hlast' := Option.join_eq_some_iff.mp hg
      obtain ⟨ft, ha, hft, -⟩ := table_at hi hv (List.mem_of_getLast? hlast')
      have hf : freeOf h.objects (some t) = ft.freeEntries := by
        rw [freeOf, hft, Option.map_some, Option.getD_some]
      simp only [ha, Option.bind_some]
      by_cases h0 : ft.freeEntries = 0
      · rw [if_pos h0]
        exact happend (by rw [hg, hf, h0])
      · have hne : v.held.length ≠ 0 := fun hz => by
          rw [List.eq_nil_of_length_eq_zero hz] at hlast'
          cases hlast'
        rw [List.getLast?_eq_getElem?] at hlast'
        refine ⟨v.held.length - 1, t, h, v, by rw [if_neg h0, hpos hne], hv, hlast', by omega,
          by rwa [hf], Or.inl ⟨?_, rfl, rfl, by rwa [hg, hf]⟩⟩
        rw [target, hv, Option.bind_some, hg, Option.filter_some, if_pos (by simpa [hf] using h0)]

/-- The id is stored in the first free entry of the last table. -/
theorem storeId_changed (hi : IdInv n h) (hv : h.view l = some v) (x : UInt64) {idx t : ℕ}
    (hidx : v.held[idx]? = some (some t)) (hlast : idx + 1 = v.held.length)
    (hfree : freeOf h.objects (some t) ≠ 0) :
    ∃ h', storeId h l n idx t x = some ((((entries n h.objects v).cells.length -
        (entries n h.objects v).free : ℕ) : ℤ), h') ∧
      Changed n h h' l ⟨(entries n h.objects v).cells.set ((entries n h.objects v).cells.length -
        (entries n h.objects v).free) (some x), (entries n h.objects v).free - 1,
        v.userCounter + 1⟩ (· = t) := by
  obtain ⟨ft, ha, hg, hok⟩ := table_at hi hv (List.mem_of_getElem? hidx)
  have hjoin : v.held.getLast?.join = some t := by
    rw [List.getLast?_eq_getElem?, show v.held.length - 1 = idx by omega, hidx, Option.join_some]
  have hf : freeOf h.objects (some t) = ft.freeEntries := by
    rw [freeOf, hg, Option.map_some, Option.getD_some]
  have hle := hok.free_le
  rw [hf] at hfree
  have hfree' : (entries n h.objects v).free = ft.freeEntries := by rw [entries, hjoin, hf]
  have hposn : (entries n h.objects v).cells.length - (entries n h.objects v).free =
      idx * n + (n - ft.freeEntries) := by
    rw [length_cells hi hv, hfree', ← hlast, Nat.succ_mul]
    omega
  rw [hposn, hfree']
  have hset := @setTable_changed n h l v hi hv idx (n - ft.freeEntries) t ft
    (ft.store (n - ft.freeEntries) x) x hidx hg rfl (hok.store hfree x) (by omega) rfl
  have hnew : freeOf (h.objects.set t (ft.store (n - ft.freeEntries) x)) (some t) =
      ft.freeEntries - 1 := by
    rw [freeOf, List.getElem?_set_self (List.getElem?_eq_some_iff.mp hg).1]
    rfl
  rw [hjoin, hnew] at hset
  have hview : (setTable h t (ft.store (n - ft.freeEntries) x)).view l = some v := hv
  obtain ⟨h', hinc, hc⟩ := incUserCounter_changed hset.inv hview
  have hself := hset.self
  rw [state_eq hview, Option.some.injEq] at hself
  rw [hself] at hc
  refine ⟨h', ?_, (hset.trans hc).mono fun u _ hu => ?_⟩
  · unfold storeId
    rw [ha]
    simp only [bind, Option.bind_some]
    rw [hok.freeEntryPos hfree]
    simp only [Option.bind_some]
    rw [if_pos (by omega), hinc, Option.bind_some]
  · rcases hu with hu | ⟨-, hu⟩
    · exact hu
    · exact absurd hu id

theorem target_congr (hv : h.view l = some v) (hv' : h'.view l = some v)
    (he : entries n h'.objects v = entries n h.objects v) : target h' l = target h l := by
  have hf : freeOf h'.objects v.held.getLast?.join = freeOf h.objects v.held.getLast?.join :=
    congrArg IdCells.free he
  rw [target, target, hv, hv', Option.bind_some]
  cases hg : v.held.getLast?.join with
  | none => rfl
  | some t =>
      rw [hg] at hf
      rw [Option.filter_some, Option.filter_some, hf]

/-- `GWEN_IdList64_AddId` adds the id and writes to no other table but its target. -/
theorem addId_changed (hi : IdInv n h) (hv : h.view l = some v) (hn : 0 < n) {x : UInt64}
    (hx : x ≠ 0) : ∃ h', addId h l x = some (((add n x (entries n h.objects v)).1 : ℤ), h') ∧
      Changed n h h' l (add n x (entries n h.objects v)).2 (fun t => target h l = some t) := by
  obtain ⟨h₁, hw, hv1, hc1⟩ := ensureWritability_changed hi hv
  have he1 : entries n h₁.objects v = entries n h.objects v := by
    have hself := hc1.self
    rw [state_eq hv1, Option.some.injEq] at hself
    exact hself
  have hfree : freeOf h₁.objects v.held.getLast?.join = (entries n h.objects v).free :=
    congrArg IdCells.free he1
  obtain ⟨idx, t, h₂, v2, hcur, hv2, hidx, hlast, hf, hcase⟩ := currentTable_eq hc1.inv hv1 hn
  have hi2 : IdInv n h₂ := by
    rcases hcase with ⟨-, rfl, -⟩ | ⟨-, -, hc2⟩
    · exact hc1.inv
    · exact hc2.inv
  obtain ⟨ft, ha, hg, hok⟩ := table_at hi2 hv2 (List.mem_of_getElem? hidx)
  have hft : ft.freeEntries ≠ 0 := by
    rw [freeOf, hg, Option.map_some, Option.getD_some] at hf
    exact hf
  obtain ⟨h₃, hs, hc3⟩ := storeId_changed hi2 hv2 x hidx hlast hf
  have hrun : addId h l x = some ((((entries n h₂.objects v2).cells.length -
      (entries n h₂.objects v2).free : ℕ) : ℤ), h₃) := by
    have hown : ownTable h₂ l idx t = some (t, h₂) := by
      unfold ownTable
      rw [ha]
      simp only [bind, Option.bind_some]
      rw [if_pos (by simpa using hok.isCopy)]
    unfold addId
    rw [getTableMaxEntries_eq hi hv]
    simp only [bind, Option.bind_some]
    rw [if_neg hx, hw]
    simp only [Option.bind_some]
    rw [if_neg (Int.lt_irrefl 0), hcur]
    simp only [Option.bind_some]
    rw [if_neg (by omega), ha, Option.bind_some, if_neg hft, Int.toNat_natCast, hown]
    exact hs
  rcases hcase with ⟨htarget, rfl, rfl, hne⟩ | ⟨hzero, hnew, hc2⟩
  · rw [he1] at hrun hc3
    rw [hfree] at hne
    have hadd : add n x (entries n h.objects v2) =
        ((entries n h.objects v2).cells.length - (entries n h.objects v2).free,
          ⟨(entries n h.objects v2).cells.set ((entries n h.objects v2).cells.length -
            (entries n h.objects v2).free) (some x), (entries n h.objects v2).free - 1,
            v2.userCounter + 1⟩) := by
      rw [add, if_neg hne]
      rfl
    rw [hadd]
    refine ⟨h₃, hrun, (hc1.trans hc3).mono fun u _ hu => ?_⟩
    rcases hu with hu | ⟨-, rfl⟩
    · exact absurd hu id
    · rw [← target_congr hv hv1 he1]
      exact htarget
  · rw [hfree] at hzero
    have he2 : entries n h₂.objects v2 = ⟨(entries n h.objects v).cells ++
        List.replicate n (some 0), n, v.userCounter⟩ := by
      have hself := hc2.self
      rw [state_eq hv2, Option.some.injEq, he1] at hself
      exact hself
    have hcount : v2.userCounter = v.userCounter := congrArg IdCells.counter he2
    have hlen : ((entries n h.objects v).cells ++ List.replicate n (some 0)).length - n =
        (entries n h.objects v).cells.length := by
      rw [List.length_append, List.length_replicate, Nat.add_sub_cancel]
    have hset : ((entries n h.objects v).cells ++ List.replicate n (some 0)).set
        (entries n h.objects v).cells.length (some x) =
        (entries n h.objects v).cells ++ some x :: List.replicate (n - 1) (some 0) := by
      rw [List.set_append_right _ _ le_rfl, Nat.sub_self]
      obtain ⟨m, rfl⟩ := Nat.exists_eq_succ_of_ne_zero hn.ne'
      rw [List.replicate_succ, List.set_cons_zero, Nat.succ_sub_one]
    rw [he2] at hrun hc3
    simp only [hlen, hset, hcount] at hrun hc3
    have hadd : add n x (entries n h.objects v) = ((entries n h.objects v).cells.length,
        ⟨(entries n h.objects v).cells ++ some x :: List.replicate (n - 1) (some 0), n - 1,
          v.userCounter + 1⟩) := by
      rw [add, if_pos hzero]
      rfl
    rw [hadd]
    refine ⟨h₃, hrun, ((hc1.trans hc2).trans hc3).mono fun u hu hT => ?_⟩
    have hle := hc1.length_le
    rcases hT with (hT | ⟨-, hT⟩) | ⟨-, hT⟩
    · exact absurd hT id
    · exact absurd hT id
    · omega

/-! ### Deleting an id -/

/-- The table in which an id is found. -/
def owner (n : ℕ) (h : IdHeap) (l : ℕ) (x : UInt64) : Option ℕ :=
  (h.view l).bind fun v =>
    (firstFrom (· == x) 0 (entries n h.objects v).cells).bind fun r => (v.held[r.1 / n]?).join

theorem Changed.refl (hi : IdInv n h) (hv : h.view l = some v) :
    Changed n h h l (entries n h.objects v) (fun _ => False) :=
  ⟨hi, state_eq hv, fun _ _ => rfl, fun _ _ _ => rfl, fun _ ht => Or.inl ht, le_rfl⟩

theorem table_of_cell (hi : IdInv n h) (hv : h.view l = some v) (hn : 0 < n) {j : ℕ} {e : UInt64}
    (hj : (entries n h.objects v).cells[j]? = some (some e)) :
    ∃ t ft, v.held[j / n]? = some (some t) ∧ IdTable64.at? h.objects t = some ft ∧
      h.objects[t]? = some ft ∧ TableOk n ft ∧ ft.ptrEntries[j % n]? = some e := by
  have hlt := (List.getElem?_eq_some_iff.mp hj).1
  rw [length_cells hi hv] at hlt
  obtain ⟨q, hq⟩ : ∃ q, v.held[j / n]? = some q :=
    ⟨_, List.getElem?_eq_getElem ((Nat.div_lt_iff_lt_mul hn).mpr hlt)⟩
  have hdiv : j / n * n + j % n = j := by rw [Nat.mul_comm]; exact Nat.div_add_mod j n
  have hcell : (entries n h.objects v).cells[j / n * n + j % n]? = _ :=
    getElem?_chunks (length_cellsOf hi hv) hq (Nat.mod_lt j hn)
  rw [hdiv, hj] at hcell
  cases q with
  | none =>
      rw [cellsOf, List.getElem?_replicate_of_lt (Nat.mod_lt j hn)] at hcell
      cases hcell
  | some t =>
      obtain ⟨ft, ha, hg, hok⟩ := table_at hi hv (List.mem_of_getElem? hq)
      refine ⟨t, ft, hq, ha, hg, hok, ?_⟩
      simp only [cellsOf, hg, Option.map_some, Option.getD_some, List.getElem?_map] at hcell
      cases he : ft.ptrEntries[j % n]? with
      | none =>
          rw [he] at hcell
          cases hcell
      | some e' =>
          rw [he, Option.map_some, Option.some.injEq, Option.some.injEq] at hcell
          rw [hcell]

/-- `GWEN_IdList64_DelId` deletes the first entry with the id; 0 is written over a free entry. -/
theorem delId_changed (hi : IdInv n h) (hv : h.view l = some v) (hn : 0 < n)
    (hc : Counts (entries n h.objects v)) (x : UInt64) :
    ∃ h', delId h l x = some (if (firstFrom (· == x) 0 (entries n h.objects v).cells).isSome then 1
        else 0, h') ∧
      Changed n h h' l (del x (entries n h.objects v))
        (fun t => x ≠ 0 ∧ owner n h l x = some t) := by
  have hf := find_eq hi hv (· == x) v.held.length 0 0 (Nat.zero_add _) (Nat.zero_le n)
  rw [Nat.zero_mul, Nat.add_zero, List.drop_zero] at hf
  unfold delId
  rw [getTableMaxEntries_eq hi hv, numTables_eq hi hv hn hc]
  simp only [bind, Option.bind_some, hf, del]
  cases hfirst : firstFrom (· == x) 0 (entries n h.objects v).cells with
  | none => exact ⟨h, rfl, (Changed.refl hi hv).mono fun _ _ hT => absurd hT id⟩
  | some r =>
      obtain ⟨j, e⟩ := r
      obtain ⟨-, hj, he⟩ := firstFrom_eq_some hfirst
      have he' : e = x := by simpa using he
      rw [Nat.sub_zero, he'] at hj
      obtain ⟨t, ft, hq, ha, hg, hok, hentry⟩ := table_of_cell hi hv hn hj
      have hdiv : j / n * n + j % n = j := by rw [Nat.mul_comm]; exact Nat.div_add_mod j n
      have hset := @setTable_changed n h l v hi hv (j / n) (j % n) t ft
        { ft with ptrEntries := ft.ptrEntries.set (j % n) 0 } 0 hq hg rfl (hok.zero _)
        (Nat.mod_lt j hn) rfl
      have hfree : freeOf (h.objects.set t { ft with ptrEntries := ft.ptrEntries.set (j % n) 0 })
          v.held.getLast?.join = freeOf h.objects v.held.getLast?.join := by
        cases hg' : v.held.getLast?.join with
        | none => rfl
        | some u =>
            have hlt := (List.getElem?_eq_some_iff.mp hg).1
            rw [freeOf, freeOf, List.getElem?_set, if_pos hlt]
            split
            next hu => rw [← hu, hg]; rfl
            next => rfl
      rw [hfree, hdiv] at hset
      have hview : (setTable h t { ft with ptrEntries := ft.ptrEntries.set (j % n) 0 }).view l =
        some v := hv
      obtain ⟨rv, h', hdec, hc'⟩ := decUserCounter_changed hset.inv hview
      have hself := hset.self
      rw [state_eq hview, Option.some.injEq] at hself
      rw [hself] at hc'
      have howner : owner n h l x = some t := by
        rw [owner, hv, Option.bind_some, hfirst, Option.bind_some, hq, Option.join_some]
      refine ⟨h', ?_, ?_⟩
      · simp only [Option.map_some, getTableAt_eq hi.inv hv hq, ha, hdec, Option.bind_some]
        rfl
      · have htotal := hset.trans hc'
        refine ⟨htotal.inv, htotal.self, htotal.view_other, fun u hu hT => ?_, htotal.fresh,
          htotal.length_le⟩
        by_cases hut : u = t
        · have hx : x = 0 := by
            by_contra hx
            exact hT ⟨hx, hut ▸ howner⟩
          have hsame : ft.ptrEntries.set (j % n) 0 = ft.ptrEntries := by
            obtain ⟨hlt, hget⟩ := List.getElem?_eq_some_iff.mp hentry
            rw [hx] at hget
            conv_lhs => rw [← hget, List.set_getElem_self]
          rw [hc'.kept u (hu.trans_le hset.length_le) id, hut, setTable,
            List.getElem?_set_self (List.getElem?_eq_some_iff.mp hg).1, hg, hsame]
        · exact htotal.kept u hu fun hu' => hu'.elim hut fun hu'' => hu''.2

/-! ### Clearing and sorting -/

/-- No other list uses the pointer block of the list, or it holds no table. -/
def Unshared (h : IdHeap) (l : ℕ) : Prop :=
  Ledger.Private h l ∨ ∀ t, ¬ Holds h l t

/-- Another list that uses the block holds the same tables. -/
theorem unshared_of_apart (hi : IdInv n h) (hv : h.view l = some v)
    (ha : ∀ l' t, l' ≠ l → Holds h l t → ¬ Holds h l' t) : Unshared h l := by
  obtain ⟨pl, b, hl, hb, ho, rfl⟩ := exists_list hi.inv hv
  obtain ⟨hg, hp⟩ := list_eq_some.mp hl
  rcases Nat.lt_or_ge 1 b.refCounter with h1 | h1
  · right
    have hcount := hi.inv.wf.counted pl.entryList
    rw [refCounterAt_of_block hb] at hcount
    have hone : uses pl.entryList pl = 1 := by rw [uses_of_pos hp, if_pos rfl]
    obtain ⟨l', q, hne, hq, hu⟩ := exists_other (uses pl.entryList) hg (by
      rw [hone]
      exact h1.trans_eq hcount)
    have hqpos : 0 < q.refCount ∧ q.entryList = pl.entryList := by
      by_contra hno
      rw [uses, if_neg hno] at hu
      omega
    have hl' : h.list l' = some q := list_eq_some.mpr ⟨hq, hqpos.1⟩
    obtain ⟨b', hb', ho'⟩ := hi.inv.wf.owned l' q hl'
    rw [hqpos.2, hb, Option.some.injEq] at hb'
    subst hb'
    rintro t ⟨v, hv', ht⟩
    rw [hv, Option.some.injEq] at hv'
    subst hv'
    have hmem : some t ∈ b.entries := List.mem_of_mem_take ht
    rw [← List.take_append_drop q.usedEntries b.entries, List.mem_append] at hmem
    rcases hmem with hmem | hmem
    · exact ha l' t hne ⟨_, hv, ht⟩ ⟨_, view_eq hl' (hqpos.2 ▸ hb), hmem⟩
    · cases ho'.rest _ hmem
  · have hpos := (block_eq_some.mp hb).2
    exact Or.inl ⟨pl, b, hl, hb, by omega⟩

theorem entries_null (w : List IdTable64) (v : View ℕ) (k m : ℕ) :
    entries n w { v with held := List.replicate k none, userCounter := m } =
      ⟨List.replicate (k * n) none, 0, m⟩ := by
  have hfree : freeOf w (List.replicate k (none : Option ℕ)).getLast?.join = 0 := by
    cases k with
    | zero => rfl
    | succ k =>
        rw [List.getLast?_replicate, if_neg (Nat.succ_ne_zero k)]
        rfl
  have hcells : (List.replicate k (none : Option ℕ)).flatMap (cellsOf n w) =
      List.replicate (k * n) none := by
    rw [List.flatMap_replicate]
    simp only [cellsOf, List.flatten_replicate_replicate]
  rw [entries, hfree, hcells]

/-- `GWEN_IdList64_Clear` leaves NULL tables, also to the lists on the same block. -/
theorem clear_changed (hi : IdInv n h) (hv : h.view l = some v) (hu : Unshared h l) :
    ∃ h', clear h l = some h' ∧ (∀ t, ¬ Holds h' l t) ∧
      h'.view l = some { v with held := List.replicate v.held.length none, userCounter := 0 } ∧
      Changed n h h' l (entries n h.objects v).clear (fun _ => False) := by
  have hvok := hi.lists l v hv
  have hlen := length_cells hi hv
  obtain ⟨pl, b, hl, hb, ho, rfl⟩ := exists_list hi.inv hv
  obtain ⟨h₁, hclear, hk, hself, hother⟩ := Ledger.clear_spec hi.inv hl hb ho
  have hu' : b.refCounter = 1 ∨ ∀ p ∈ pl.held b, p = none := by
    rcases hu with ⟨pl', b', hl', hb', h1⟩ | hu
    · rw [hl, Option.some.injEq] at hl'
      subst hl'
      rw [hb, Option.some.injEq] at hb'
      subst hb'
      exact Or.inl h1
    · refine Or.inr fun p hp => ?_
      cases p with
      | none => rfl
      | some t => exact absurd ⟨_, hv, hp⟩ (hu t)
  have heff : tableLedger.Effect h h₁ l (fun _ => 0)
      (some { pl.view b with held := List.replicate (pl.held b).length none }) :=
    ⟨hk, hself, hother hu'⟩
  have hok1 : ViewOk n { pl.view b with held := List.replicate (pl.held b).length none } :=
    ⟨hvok.1, hvok.2, (pl.held b).length, [], (List.append_nil _).symm, List.nodup_nil⟩
  have hc1 := Changed.ofEffect hi hv heff hok1 fun t ht => by
    cases (List.mem_replicate.mp ht).2
  obtain ⟨pl1, hl1, hc2⟩ := setCounter_changed hc1.inv heff.view_self 0
  have hview : (h₁.setList l { pl1 with userCounter := 0 }).view l =
      some { pl.view b with
        held := List.replicate (pl.view b).held.length none, userCounter := 0 } := by
    obtain ⟨pl2, b2, hl2, hb2, ho2, hv2⟩ := exists_list hc1.inv.inv heff.view_self
    rw [hl1, Option.some.injEq] at hl2
    subst hl2
    have := (Ledger.counter_effect hc1.inv.inv hl1 hb2 ho2 0).view_self
    rw [this, hv2]
    rfl
  refine ⟨_, ?_, ?_, hview, ?_⟩
  · unfold clear
    rw [hclear]
    simp only [bind, Option.bind_some]
    rw [setUserCounter, hl1, Option.map_some]
  · rintro t ⟨q, hq, ht⟩
    rw [hview, Option.some.injEq] at hq
    rw [← hq] at ht
    cases (List.mem_replicate.mp ht).2
  · have htotal := hc1.trans hc2
    refine ⟨htotal.inv, ?_, htotal.view_other, fun t ht _ => htotal.kept t ht (by simp),
      htotal.fresh, htotal.length_le⟩
    rw [state_eq hview, entries_null, IdCells.clear, hlen]

/-- `GWEN_IdList64_AddId` for several ids writes to no tables but those the list holds. -/
theorem addIds_changed (hn : 0 < n) : ∀ {xs : List UInt64} {h : IdHeap} {v : View ℕ},
    IdInv n h → h.view l = some v → 0 ∉ xs →
    ∃ h', addIds h l xs = some h' ∧
      Changed n h h' l (addAll n xs (entries n h.objects v)) (fun t => Holds h l t)
  | [], h, v, hi, hv, _ => ⟨h, rfl, (Changed.refl hi hv).mono fun _ _ hT => absurd hT id⟩
  | x :: xs, h, v, hi, hv, h0 => by
      have hx : x ≠ 0 := fun hx => h0 (hx ▸ List.mem_cons_self)
      obtain ⟨h₁, ha, hc1⟩ := addId_changed hi hv hn hx
      obtain ⟨v1, hv1, he1⟩ := Option.map_eq_some_iff.mp hc1.self
      obtain ⟨h₂, has, hc2⟩ := addIds_changed hn hc1.inv hv1
        fun hm => h0 (List.mem_cons_of_mem x hm)
      rw [he1] at hc2
      refine ⟨h₂, ?_, (hc1.trans hc2).mono fun t ht hT => ?_⟩
      · rw [addIds, ha]
        exact has
      · rcases hT with hT | ⟨-, hT⟩
        · rw [target, hv, Option.bind_some, Option.filter_eq_some_iff, Option.join_eq_some_iff] at hT
          exact ⟨v, hv, List.mem_of_getLast? hT.1⟩
        · exact (hc1.fresh t hT).resolve_right (by omega)

/-- `GWEN_IdList64__Sort` takes the ids out and adds them again in new tables. -/
theorem sort_changed (hi : IdInv n h) (hv : h.view l = some v) (hn : 0 < n)
    (hc : Counts (entries n h.objects v)) (asc : Bool)
    (hle : v.userCounter ≤ (entries n h.objects v).ids.length)
    (hu : v.userCounter ≠ 0 → Unshared h l) : ∃ h', sort h l asc = some h' ∧
      Changed n h h' l ((entries n h.objects v).sort n (inOrder asc)) (fun _ => False) := by
  have hcount : (entries n h.objects v).counter = v.userCounter := rfl
  unfold sort
  rw [getEntryCount_eq hi.inv hv]
  simp only [bind, Option.bind_some]
  by_cases h0 : v.userCounter = 0
  · rw [if_pos h0, IdCells.sort, hcount, if_pos h0]
    exact ⟨h, rfl, Changed.refl hi hv⟩
  · have hids : 0 ∉ (entries n h.objects v).ids.take v.userCounter :=
      fun hm => ids_nonzero (List.mem_of_mem_take hm)
    obtain ⟨h₁, hclear, hnone, hv1, hc1⟩ := clear_changed hi hv (hu h0)
    have he1 := hc1.self
    rw [state_eq hv1, Option.some.injEq] at he1
    have hids' : 0 ∉ ((entries n h.objects v).ids.take v.userCounter).mergeSort (inOrder asc) :=
      fun hm => hids (List.mem_mergeSort.mp hm)
    obtain ⟨h₂, hadd, hc2⟩ := addIds_changed hn hc1.inv hv1 hids'
    rw [he1] at hc2
    rw [if_neg h0, walk_eq hi hv hn hc, Option.bind_some, yields_of_le hle, if_neg hids, hclear,
      Option.bind_some, hadd, IdCells.sort, hcount, if_neg h0]
    refine ⟨h₂, rfl, (hc1.trans hc2).mono fun t _ hT => ?_⟩
    rcases hT with hT | ⟨-, hT⟩
    · exact hT
    · exact hnone t hT

/-! ### Making a list -/

/-- `GWEN_IdList64_newWithSteps` makes a list without tables. -/
theorem newWithSteps_changed (hi : IdInv n h) : ∃ h', newWithSteps h n = some (h.lists.length, h') ∧
      h'.view h.lists.length = some ⟨[], stepsOfList, n, 0⟩ ∧
      Changed n h h' h.lists.length ⟨[], 0, 0⟩ (fun _ => False) := by
  have hf : (0 ||| flagsAttachToObjects ||| flagsDetachFromObjects) &&& flagsAttachToObjects != 0 := by
    decide
  have hf' : (0 ||| flagsAttachToObjects ||| flagsDetachFromObjects) &&&
      flagsDetachFromObjects != 0 := by decide
  have hc : tableLedger.Counting ⟨initialEntryCount, 0, stepsOfList,
      0 ||| flagsAttachToObjects ||| flagsDetachFromObjects, 1, n, 0, h.blocks.length,
      some IdTable64.attach, some IdTable64.free⟩ := ⟨rfl, hf, hf', rfl, rfl⟩
  have heff := @Ledger.added_effect _ _ _ _ h _ hi.inv initialEntryCount hc rfl rfl rfl
  have hself : ∀ m u s f i c e a g, (h.added ⟨m, u, s, f, 1, i, c, e, a, g⟩
      initialEntryCount).list h.lists.length = some ⟨m, u, s, f, 1, i, c, e, a, g⟩ :=
    fun _ _ _ _ _ _ _ _ _ => list_added_new Nat.one_pos
  refine ⟨_, ?_, heff.view_self, ⟨heff.inv, tables_of_same heff.same hi.tables, fun l q hq => ?_⟩,
    state_eq heff.view_self, heff.view_other, fun t _ _ => same_getElem? heff.same t, ?_, le_rfl⟩
  · have hserved : served initialEntryCount = true := rfl
    simp only [newWithSteps, new_eq hserved, setAttachObjectFn, setFreeObjectFn, addFlags,
      setUserIntData, hself, setList_added, Option.map_some, bind, Option.bind_some]
  · by_cases hne : l = h.lists.length
    · rw [hne, heff.view_self, Option.some.injEq] at hq
      rw [← hq]
      exact ⟨rfl, rfl, 0, [], rfl, List.nodup_nil⟩
    · exact hi.lists l q ((heff.view_other l hne) ▸ hq)
  · rintro t ⟨q, hq, ht⟩
    rw [heff.view_self, Option.some.injEq] at hq
    rw [← hq] at ht
    cases ht

theorem idInv_empty (n : ℕ) : IdInv n ⟨[], [], []⟩ :=
  ⟨Ledger.inv_empty trivial, fun t ft ht => by simp at ht, fun l v hv => by
    rw [view_eq_none (by simp [list])] at hv
    cases hv⟩

end
end Gwenhywfar.IdList64
