import Gwenhywfar.Base.IdMap

/-! # `GWEN_IDMAP` against the finite map

`contents ops` is the finite map that the operations `ops` leave behind on an empty one, and
`RefinesMap ops` says that a new `GWEN_IDMAP` behaves as that map all along the sequence:
no assertion fails, every lookup and the size agree with the map after every prefix, and the
removal of an absent id is answered with `GWEN_IdMapResult_NotFound` and changes nothing.

The element counter is incremented by every insertion, decremented by every removal whose
pointer table exists, and not touched by `GWEN_IdMap_Clear`.  So the map is refined exactly
while each step is `Allowed` (`refinesMap_iff`). -/

namespace Gwenhywfar.IdMap

variable {α : Type}

/-! ### The finite map -/

/-- The effect of an operation on the finite map. -/
def Op.apply (f : UInt32 → Option α) : Op α → UInt32 → Option α
  | .insert id ptr => Function.update f id (some ptr)
  | .remove id => Function.update f id none
  | .clear => fun _ => none

/-- The last inserted and not removed pointer of every id. -/
def contents (ops : List (Op α)) : UInt32 → Option α := ops.foldl Op.apply fun _ => none

def ids (f : UInt32 → Option α) : Set UInt32 := {id | (f id).isSome}

@[simp] theorem contents_nil (id : UInt32) : contents ([] : List (Op α)) id = none := rfl

theorem contents_snoc (ops : List (Op α)) (o : Op α) :
    contents (ops ++ [o]) = o.apply (contents ops) := by
  simp [contents]

theorem ids_finite (f : UInt32 → Option α) : (ids f).Finite := by
  have : Finite UInt32 := Finite.of_injective UInt32.toFin fun _ _ h => UInt32.toFin_inj.mp h
  exact Set.toFinite _

theorem ids_insert (f : UInt32 → Option α) (id : UInt32) (ptr : α) :
    ids (Op.apply f (.insert id ptr)) = insert id (ids f) := by
  ext x
  by_cases h : x = id
  · simp [ids, Op.apply, h]
  · simp [ids, Op.apply, h]

theorem ids_remove (f : UInt32 → Option α) (id : UInt32) :
    ids (Op.apply f (.remove id)) = ids f \ {id} := by
  ext x
  by_cases h : x = id
  · simp [ids, Op.apply, h]
  · simp [ids, Op.apply, h]

theorem ids_clear (f : UInt32 → Option α) : ids (Op.apply f .clear) = ∅ := by
  ext x
  simp [ids, Op.apply]

theorem remove_of_none {f : UInt32 → Option α} {id : UInt32} (h : f id = none) :
    Op.apply f (.remove id) = f := by
  funext x
  by_cases hx : x = id
  · simp [Op.apply, hx, h]
  · simp [Op.apply, Function.update_of_ne hx]

/-! ### The pointer table of an id -/

theorem find_eq_getTable : ∀ (n : ℕ) (t : Table α n) (id : ℕ) (k : ℕ → Fin 16),
    (∀ i, 0 < i → i ≤ n → k i = nibble id i) →
    Trie.find (n + 1) t k = (getTable n t id).bind fun l => l.get (k 0)
  | 0, t, id, k, _ => by
      simp only [Trie.find, getTable, Option.bind_some]
      cases t.get (k 0) <;> rfl
  | n + 1, t, id, k, hk => by
      have h := hk (n + 1) (Nat.succ_pos n) le_rfl
      cases hs : t.get (nibble id (n + 1)) with
      | none =>
          rw [getTable, hs, Trie.find_none (h ▸ hs)]
          rfl
      | some s =>
          simp only [getTable, hs, Trie.find_some (h ▸ hs)]
          exact find_eq_getTable n s id k fun i h0 hi => hk i h0 (Nat.le_succ_of_le hi)

theorem getTable_occupied : ∀ (n : ℕ) {t : Table α (n + 1)} {id : ℕ} {l : Table α 0},
    Trie.Pruned (n + 2) t → getTable (n + 1) t id = some l → Trie.Occupied 1 l
  | 0, t, id, l, hp, h => by
      cases hs : t.get (nibble id 1) with
      | none => simp [getTable, hs] at h
      | some s =>
          simp only [getTable, hs, Option.some.injEq] at h
          exact h ▸ (hp _ s hs).1
  | n + 1, t, id, l, hp, h => by
      cases hs : t.get (nibble id (n + 2)) with
      | none => simp [getTable, hs] at h
      | some s =>
          rw [getTable, hs] at h
          exact getTable_occupied n (hp _ s hs).2 h

/-- The id with the upper nibbles of `id` and the last nibble `i`. -/
def withNibble (id : UInt32) (i : Fin 16) : UInt32 := UInt32.ofNat (id.toNat / 16 * 16 + i)

theorem withNibble_toNat (id : UInt32) (i : Fin 16) :
    (withNibble id i).toNat = id.toNat / 16 * 16 + i := by
  have h := id.toNat_lt
  exact UInt32.toNat_ofNat_of_lt' (by rw [UInt32.size]; omega)

theorem shiftRight_eq_iff (id id' : UInt32) :
    id' >>> 4 = id >>> 4 ↔ id'.toNat / 16 = id.toNat / 16 := by
  rw [← UInt32.toNat_inj, UInt32.toNat_shiftRight, UInt32.toNat_shiftRight]
  simp [Nat.shiftRight_eq_div_pow]

theorem nibble_congr {a b : ℕ} (h : a / 16 = b / 16) {i : ℕ} (hi : 0 < i) :
    nibble a i = nibble b i := by
  obtain ⟨j, rfl⟩ : ∃ j, i = j + 1 := ⟨i - 1, by omega⟩
  apply Fin.ext
  rw [nibble_val, nibble_val, pow_succ', ← Nat.div_div_eq_div_mul, ← Nat.div_div_eq_div_mul, h]

theorem find_eq (m : IdMap α) (id : UInt32) :
    m.find id = Trie.find 8 m.table (nibble id.toNat) := findPtr_eq 7 m.table id.toNat

/-- In a pruned map the pointer table of `id` exists exactly when an id with the same upper
seven nibbles is stored. -/
theorem getTable_ne_none_iff {m : IdMap α} (hp : Trie.Pruned 8 m.table) (id : UInt32) :
    getTable 7 m.table id.toNat ≠ none ↔ ∃ id' : UInt32, id' >>> 4 = id >>> 4 ∧ m.find id' ≠ none := by
  constructor
  · intro h
    obtain ⟨l, hl⟩ := Option.ne_none_iff_exists'.mp h
    obtain ⟨i, hi⟩ := getTable_occupied 6 hp hl
    have hd : (withNibble id i).toNat / 16 = id.toNat / 16 := by
      rw [withNibble_toNat]; omega
    have h0 : nibble (withNibble id i).toNat 0 = i := by
      apply Fin.ext
      rw [nibble_val, withNibble_toNat]
      have := i.isLt
      omega
    refine ⟨withNibble id i, (shiftRight_eq_iff _ _).mpr hd, ?_⟩
    rw [find_eq, find_eq_getTable 7 _ id.toNat _ fun j hj _ => nibble_congr hd hj, hl,
      Option.bind_some, h0]
    exact Option.isSome_iff_ne_none.mp hi
  · rintro ⟨id', he, h⟩ hn
    apply h
    rw [find_eq, find_eq_getTable 7 _ id.toNat _ fun j hj _ =>
      nibble_congr ((shiftRight_eq_iff _ _).mp he) hj, hn]
    rfl

/-! ### What a step does -/

theorem setPair_some (m : IdMap α) (id : UInt32) (ptr : α) : setPair m id (some ptr) =
      some (.ok, ⟨Trie.insert 8 m.table (nibble id.toNat) ptr, m.count + 1⟩) := by
  simp only [setPair, storePtr_some]

theorem setPair_none_absent {m : IdMap α} {id : UInt32} (h : getTable 7 m.table id.toNat = none) :
    setPair m id none = some (.notFound, m) := by
  simp only [setPair, (storePtr_none_eq_none_iff 7 m.table id.toNat).mpr h]

theorem setPair_none_present {m : IdMap α} {id : UInt32}
    (h : getTable 7 m.table id.toNat ≠ none) :
    setPair m id none = if m.count = 0 then none
      else some (.ok, ⟨Trie.erase 7 m.table (nibble id.toNat), m.count - 1⟩) := by
  obtain ⟨t, ht⟩ := Option.ne_none_iff_exists'.mp
    (mt (storePtr_none_eq_none_iff 7 m.table id.toNat).mp h)
  simp only [setPair, ht, map_cleanup_storePtr_none 7 m.table id.toNat ht]

theorem find_insert_eq (m : IdMap α) (id : UInt32) (ptr : α) (c : UInt32) :
    find ⟨Trie.insert 8 m.table (nibble id.toNat) ptr, c⟩ = Op.apply m.find (.insert id ptr) := by
  funext x
  rw [find_eq]
  by_cases h : x = id
  · subst h
    simp [Op.apply, Trie.find_insert]
  · rw [Trie.find_insert_ne _ _ _ fun ha => h ((agree_nibble_iff_eq id x).mp ha).symm,
      Op.apply, Function.update_of_ne h, find_eq]

theorem find_erase_eq (m : IdMap α) (id : UInt32) (c : UInt32) :
    find ⟨Trie.erase 7 m.table (nibble id.toNat), c⟩ = Op.apply m.find (.remove id) := by
  funext x
  rw [find_eq]
  by_cases h : x = id
  · subst h
    simp [Op.apply, Trie.find_erase]
  · rw [Trie.find_erase_ne _ _ fun ha => h ((agree_nibble_iff_eq id x).mp ha).symm,
      Op.apply, Function.update_of_ne h, find_eq]

theorem find_clear_eq (m : IdMap α) : find (clear m) = Op.apply m.find .clear := by
  funext x
  rw [find_eq]
  rfl

theorem step_pruned {m m' : IdMap α} {o : Op α} {r : IdMapResult}
    (hp : Trie.Pruned 8 m.table) (h : step m o = some (r, m')) : Trie.Pruned 8 m'.table := by
  cases o with
  | insert id ptr =>
      rw [step, setPair_some, Option.some.injEq, Prod.mk.injEq] at h
      exact h.2 ▸ (Trie.insert_ok 8 _ _ hp).2
  | remove id =>
      rw [step] at h
      by_cases hg : getTable 7 m.table id.toNat = none
      · rw [setPair_none_absent hg, Option.some.injEq, Prod.mk.injEq] at h
        exact h.2 ▸ hp
      · rw [setPair_none_present hg] at h
        split at h
        · cases h
        · rw [Option.some.injEq, Prod.mk.injEq] at h
          exact h.2 ▸ Trie.pruned_erase 7 _ hp
  | clear =>
      simp only [step, Option.some.injEq, Prod.mk.injEq] at h
      exact h.2 ▸ Trie.pruned_empty 7

theorem run_pruned {ops : List (Op α)} {m : IdMap α} (h : run ops = some m) :
    Trie.Pruned 8 m.table := by
  refine exec_invariant (I := fun m : IdMap α => Trie.Pruned 8 m.table) ?_
    (Trie.pruned_empty 7) h
  intro m o m' hp hs
  obtain ⟨⟨r, m''⟩, hs', rfl⟩ := Option.map_eq_some_iff.mp hs
  exact step_pruned hp hs'

theorem run_snoc (ops : List (Op α)) (o : Op α) :
    run (ops ++ [o]) = (run ops).bind fun m => (step m o).map Prod.snd := exec_snoc _ _ _ _

/-! ### When the finite map is refined -/

/-- After `ops` no assertion has failed, and lookups and size are those of the finite map. -/
def IsMap (ops : List (Op α)) : Prop :=
  ∃ m, run ops = some m ∧ m.find = contents ops ∧
    m.getSize.toNat = (ids (contents ops)).ncard

/-- If `o` removes an id that is not in the map, it reports that and changes nothing. -/
def AbsentRemoval (ops : List (Op α)) (o : Op α) : Prop :=
  ∀ id, o = .remove id → contents ops id = none →
    ∀ m, run ops = some m → step m o = some (.notFound, m)

/-- A new `GWEN_IDMAP` behaves as the finite map all along the operations. -/
def RefinesMap (ops : List (Op α)) : Prop :=
  (∀ pre, pre <+: ops → IsMap pre) ∧ ∀ pre o, pre ++ [o] <+: ops → AbsentRemoval pre o

/-- The operation, applied to the finite map `f`, stores an id that is not in it and leaves
room for the counter, removes an id that is in it or shares its upper seven nibbles with no id
in it, or clears it when it is empty. -/
def Op.Allowed (f : UInt32 → Option α) : Op α → Prop
  | .insert id _ => f id = none ∧ (ids f).ncard + 1 < 2 ^ 32
  | .remove id => f id ≠ none ∨ ∀ id' : UInt32, id' >>> 4 = id >>> 4 → f id' = none
  | .clear => ∀ id, f id = none

theorem isMap_nil : IsMap ([] : List (Op α)) := by
  refine ⟨new, rfl, ?_, ?_⟩
  · funext id
    rw [find_eq]
    rfl
  · have h : ids (contents ([] : List (Op α))) = ∅ := by ext; simp [ids]
    rw [h, Set.ncard_empty]
    rfl

section steps
variable {ops : List (Op α)} {m : IdMap α} (hr : run ops = some m)
  (hf : m.find = contents ops) (hn : m.getSize.toNat = (ids (contents ops)).ncard)
include hr hf hn

theorem isMap_insert_iff (id : UInt32) (ptr : α) :
    (IsMap (ops ++ [.insert id ptr]) ∧ AbsentRemoval ops (.insert id ptr)) ↔
      Op.Allowed (contents ops) (.insert id ptr) := by
  have hrun : run (ops ++ [.insert id ptr]) =
      some ⟨Trie.insert 8 m.table (nibble id.toNat) ptr, m.count + 1⟩ := by
    rw [run_snoc, hr, Option.bind_some, step, setPair_some, Option.map_some]
  have hcount : (m.count + 1).toNat = ((ids (contents ops)).ncard + 1) % 2 ^ 32 := by
    rw [← hn]; exact UInt32.toNat_add _ _
  have hlt : (ids (contents ops)).ncard < 2 ^ 32 := hn ▸ m.count.toNat_lt
  constructor
  · rintro ⟨⟨m', hm', -, hsz⟩, -⟩
    rw [hrun, Option.some.injEq] at hm'
    subst hm'
    rw [getSize, hcount, contents_snoc, ids_insert] at hsz
    by_cases hid : id ∈ ids (contents ops)
    · rw [Set.insert_eq_of_mem hid] at hsz
      omega
    · rw [Set.ncard_insert_of_notMem hid (ids_finite _)] at hsz
      refine ⟨by simpa [ids] using hid, ?_⟩
      omega
  · rintro ⟨hid, hlt'⟩
    have hid' : id ∉ ids (contents ops) := by simp [ids, hid]
    refine ⟨⟨_, hrun, ?_, ?_⟩, fun id' h => by cases h⟩
    · rw [find_insert_eq, contents_snoc, hf]
    · rw [getSize, hcount, contents_snoc, ids_insert,
        Set.ncard_insert_of_notMem hid' (ids_finite _), Nat.mod_eq_of_lt hlt']

theorem isMap_remove_iff (id : UInt32) :
    (IsMap (ops ++ [.remove id]) ∧ AbsentRemoval ops (.remove id)) ↔
      Op.Allowed (contents ops) (.remove id) := by
  have hg := getTable_ne_none_iff (run_pruned hr) id
  rw [hf] at hg
  by_cases hid : contents ops id = none
  · constructor
    · rintro ⟨-, habs⟩
      have hs := habs id rfl hid m hr
      by_contra hno
      simp only [Op.Allowed, hid, ne_eq, not_true_eq_false, false_or, not_forall] at hno
      obtain ⟨id', he, hne⟩ := hno
      rw [step, setPair_none_present (hg.mpr ⟨id', he, hne⟩)] at hs
      split at hs <;> simp at hs
    · rintro (h | h)
      · exact absurd hid h
      · have hnone : getTable 7 m.table id.toNat = none := by
          by_contra hne
          obtain ⟨id', he, hne'⟩ := hg.mp hne
          exact hne' (h id' he)
        refine ⟨⟨m, ?_, ?_, ?_⟩, fun id' he _ m' hm' => ?_⟩
        · rw [run_snoc, hr, Option.bind_some, step, setPair_none_absent hnone, Option.map_some]
        · rw [contents_snoc, remove_of_none hid, hf]
        · rw [contents_snoc, remove_of_none hid, hn]
        · cases he
          rw [hr, Option.some.injEq] at hm'
          subst hm'
          exact setPair_none_absent hnone
  · refine ⟨fun _ => Or.inl hid, fun _ => ⟨?_, fun id' he hnone => ?_⟩⟩
    · have hmem : id ∈ ids (contents ops) := Option.isSome_iff_ne_none.mpr hid
      have hpos : 0 < (ids (contents ops)).ncard :=
        (Set.ncard_pos (ids_finite _)).mpr ⟨id, hmem⟩
      have hne : m.count ≠ 0 := by
        intro h0
        rw [getSize, h0] at hn
        exact absurd hn.symm (Nat.pos_iff_ne_zero.mp hpos)
      have hone : (1 : UInt32) ≤ m.count := by
        rw [UInt32.le_iff_toNat_le]
        have : m.count.toNat ≠ 0 := fun h => hne (UInt32.toNat_inj.mp (by simpa using h))
        simpa using Nat.one_le_iff_ne_zero.mpr this
      refine ⟨⟨Trie.erase 7 m.table (nibble id.toNat), m.count - 1⟩, ?_, ?_, ?_⟩
      · rw [run_snoc, hr, Option.bind_some, step,
          setPair_none_present (hg.mpr ⟨id, rfl, hid⟩), if_neg hne, Option.map_some]
      · rw [find_erase_eq, contents_snoc, hf]
      · rw [contents_snoc, ids_remove, Set.ncard_sdiff_singleton_of_mem hmem, ← hn]
        exact UInt32.toNat_sub_of_le _ _ hone
    · cases he
      exact absurd hnone hid

theorem isMap_clear_iff : (IsMap (ops ++ [.clear]) ∧ AbsentRemoval ops .clear) ↔
      Op.Allowed (contents ops) (.clear : Op α) := by
  have hrun : run (ops ++ [.clear]) = some (clear m) := by
    rw [run_snoc, hr, Option.bind_some, step, Option.map_some]
  have hempty : ids (contents (ops ++ [.clear])) = ∅ := by rw [contents_snoc, ids_clear]
  constructor
  · rintro ⟨⟨m', hm', -, hsz⟩, -⟩ id
    rw [hrun, Option.some.injEq] at hm'
    subst hm'
    rw [hempty, Set.ncard_empty] at hsz
    have h0 : (ids (contents ops)).ncard = 0 := hn.symm.trans hsz
    rw [Set.ncard_eq_zero (ids_finite _)] at h0
    have : id ∉ ids (contents ops) := by rw [h0]; exact fun h => h
    simpa [ids] using this
  · intro h
    have h0 : ids (contents ops) = ∅ := by ext x; simp [ids, h x]
    refine ⟨⟨_, hrun, ?_, ?_⟩, fun id he => by cases he⟩
    · rw [find_clear_eq, contents_snoc, hf]
    · rw [hempty, Set.ncard_empty]
      rw [h0, Set.ncard_empty] at hn
      exact hn

end steps

/-- A new map refines the finite map along a sequence of operations exactly when every
operation is allowed by the contents before it. -/
theorem refinesMap_iff (ops : List (Op α)) :
    RefinesMap ops ↔ ∀ pre o, pre ++ [o] <+: ops → o.Allowed (contents pre) := by
  refine forall_prefix_iff isMap_nil ?_
  rintro pre o - ⟨m, hr, hf, hn⟩
  cases o with
  | insert id ptr => exact isMap_insert_iff hr hf hn id ptr
  | remove id => exact isMap_remove_iff hr hf hn id
  | clear => exact isMap_clear_iff hr hf hn

/-- Storing an id again counts it twice, removing an absent id next to a stored one counts the
stored one away until an assertion fails, and clearing the map keeps the count. -/
theorem refinesMap_fails : ¬ RefinesMap [Op.insert 1 (), .insert 1 ()] ∧
      ¬ RefinesMap [Op.insert 0 (), .remove 1, .remove 0] ∧
      ¬ RefinesMap [Op.insert 1 (), .clear] := by
  refine ⟨fun h => ?_, fun h => ?_, fun h => ?_⟩
  · obtain ⟨m, hr, hf, hn⟩ := h.1 [.insert 1 ()] (by simp)
    have hall := (isMap_insert_iff hr hf hn 1 ()).mp
      ⟨h.1 _ (List.prefix_refl _), h.2 [.insert 1 ()] _ (List.prefix_refl _)⟩
    exact absurd hall.1 (by decide)
  · obtain ⟨m, hr, -, -⟩ := h.1 _ (List.prefix_refl _)
    exact absurd (show run [Op.insert 0 (), .remove 1, .remove 0] = none from rfl) (by rw [hr]; simp)
  · obtain ⟨m, hr, hf, hn⟩ := h.1 [.insert 1 ()] (by simp)
    have hall := (isMap_clear_iff hr hf hn).mp
      ⟨h.1 _ (List.prefix_refl _), h.2 [.insert 1 ()] _ (List.prefix_refl _)⟩
    exact absurd (hall 1) (by decide)
end Gwenhywfar.IdMap
