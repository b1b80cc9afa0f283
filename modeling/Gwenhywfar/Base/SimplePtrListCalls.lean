import Gwenhywfar.Base.SimplePtrListHeap

/-! # The functions of the list as changes of the heap

Under the ownership invariant every function of `GWEN_SIMPLEPTRLIST` succeeds on a living list
and amounts to the changes `moved`, `written`, `shared` and `released`, given that attaching to
and detaching from the objects succeed.  There is one equation for each outcome. -/

namespace Gwenhywfar.SimplePtrList

variable {ω ι : Type}

open PtrHeap

/-- Attaching to the pointers in `es` as the flag and the function of the list say. -/
def attachAll (pl : SimplePtrList ω ι) (es : List (Option ι)) (w : ω) : Option ω :=
  if pl.hasFlag flagsAttachToObjects then
    match pl.attachObjectFn with
    | none => some w
    | some attach => forEachPtr attach es w
  else some w

/-- Detaching from the pointers in `es` as the flag and the function of the list say. -/
def detachAll (pl : SimplePtrList ω ι) (es : List (Option ι)) (w : ω) : Option ω :=
  if pl.hasFlag flagsDetachFromObjects then
    match pl.freeObjectFn with
    | none => some w
    | some free => forEachPtr free es w
  else some w

/-- The pointers that the list holds in its block. -/
def held (pl : SimplePtrList ω ι) (b : PtrBlock ι) : List (Option ι) :=
  b.entries.take pl.usedEntries

/-- The list after `GWEN_SimplePtrList_EnsureWritability` has copied its block to `a`. -/
def privatised (pl : SimplePtrList ω ι) (a : ℕ) : SimplePtrList ω ι :=
  { pl with
    entryList := a, maxEntries := pl.maxEntries + pl.steps
    flags := pl.flags &&& ~~~flagsCopyOnWrite }

/-- The allocator serves the copy that `GWEN_SimplePtrList_EnsureWritability` makes. -/
def copyFits (fits : ℕ → Bool) (pl : SimplePtrList ω ι) (b : PtrBlock ι) : Bool :=
  fits (max (pl.maxEntries + pl.steps) b.entries.length)

section calls
variable {fits : ℕ → Bool} {h : PtrHeap ω ι} {l : ℕ} {pl pl' : SimplePtrList ω ι}
  {b : PtrBlock ι} {w w' : ω} (hl : h.list l = some pl) (hb : h.block pl.entryList = some b) (ho : Owns pl b)

theorem take_grow {es : List (Option ι)} {n m : ℕ} (h : n ≤ es.length) :
    (grow es m).take n = es.take n := List.take_append_of_le_length h

theorem rest_grow {es : List (Option ι)} {n m : ℕ} (h : ∀ p ∈ es.drop n, p = none) (hn : n ≤ es.length) :
    ∀ p ∈ (grow es m).drop n, p = none := by
  intro p hp
  rw [grow, List.drop_append_of_le_length hn, List.mem_append] at hp
  rcases hp with hp | hp
  · exact h p hp
  · exact (List.mem_replicate.mp hp).2

theorem hasFlag_privatised (pl : SimplePtrList ω ι) (a : ℕ) {f : UInt32}
    (hf : ~~~flagsCopyOnWrite &&& f = f) : (pl.privatised a).hasFlag f = pl.hasFlag f := by
  simp only [privatised, hasFlag, UInt32.and_assoc, hf]

theorem take_set_length {es : List (Option ι)} {i : ℕ} (hi : i < es.length) (p : Option ι) :
    (es.set i p).take (i + 1) = es.take i ++ [p] := by
  rw [List.take_add_one, List.getElem?_set_self hi, List.take_set_of_le le_rfl]
  rfl

theorem or_and_ne_zero {x f : UInt32} (g : UInt32) (h : x &&& f ≠ 0) : (x ||| g) &&& f ≠ 0 := by
  intro h0
  have hd : (x ||| g) &&& f = (x &&& f) ||| (g &&& f) := by
    apply UInt32.toBitVec_inj.mp
    ext i
    simp only [UInt32.toBitVec_and, UInt32.toBitVec_or, BitVec.getElem_and, BitVec.getElem_or]
    cases x.toBitVec[i] <;> cases g.toBitVec[i] <;> cases f.toBitVec[i] <;> rfl
  rw [hd] at h0
  exact h (UInt32.or_eq_zero_iff.mp h0).1

theorem hasFlag_or_of_hasFlag {pl : SimplePtrList ω ι} {f : UInt32} (g : UInt32)
    (h : pl.hasFlag f = true) : { pl with flags := pl.flags ||| g }.hasFlag f = true := by
  simp only [hasFlag, bne_iff_ne] at h ⊢
  exact or_and_ne_zero g h

include hl in
theorem ensureWritability_of_not_cow (hc : pl.hasFlag flagsCopyOnWrite = false) :
    ensureWritability fits h l = some (0, h) := by
  simp [ensureWritability, hl, hc]

include hl hb in
theorem ensureWritability_of_full (hc : pl.hasFlag flagsCopyOnWrite = true)
    (hf : copyFits fits pl b = false) : ensureWritability fits h l = some (errorMemoryFull, h) := by
  rw [copyFits] at hf
  simp [ensureWritability, hl, hc, copyPtrList, hb, hf]

theorem freePtrList_append {a : ℕ} {b' : PtrBlock ι} (hb : h.block a = some b) :
    freePtrList { h with blocks := h.blocks ++ [b'] } a =
      { h with blocks := h.blocks.set a { b with refCounter := b.refCounter - 1 } ++ [b'] } := by
  obtain ⟨hg, hp⟩ := block_eq_some.mp hb
  have hlt := (List.getElem?_eq_some_iff.mp hg).1
  have hb' : PtrHeap.block { h with blocks := h.blocks ++ [b'] } a = some b :=
    block_eq_some.mpr ⟨by simp only; rw [List.getElem?_append_left hlt, hg], hp⟩
  rw [freePtrList, hb']
  simp only [setBlock, List.set_append_left _ _ hlt]

theorem attachToAllIfSet_eq (hb : h.block pl.entryList = some b)
    (hu : pl.usedEntries ≤ b.entries.length) :
    attachToAllIfSet h pl = (attachAll pl (held pl b) h.objects).map fun w =>
      { h with objects := w } := by
  rw [attachToAllIfSet, attachAll]
  by_cases hf : pl.hasFlag flagsAttachToObjects = true
  · rw [if_pos hf, if_pos hf, attachToAllObjects, hb]
    cases pl.attachObjectFn with
    | none => rfl
    | some attach => simp only [hu, if_true, held]
  · rw [if_neg hf, if_neg hf, Option.map_some]

theorem detachFromAllIfSet_eq (hb : h.block pl.entryList = some b)
    (hu : pl.usedEntries ≤ b.entries.length) :
    detachFromAllIfSet h pl = (detachAll pl (held pl b) h.objects).map fun w =>
      { h with objects := w } := by
  rw [detachFromAllIfSet, detachAll]
  by_cases hf : pl.hasFlag flagsDetachFromObjects = true
  · rw [if_pos hf, if_pos hf, detachFromAllObjects, hb]
    cases pl.freeObjectFn with
    | none => rfl
    | some free => simp only [hu, if_true, held]
  · rw [if_neg hf, if_neg hf, Option.map_some]

include hl hb ho in
/-- A list marked copy-on-write gets a copy of its block. -/
theorem ensureWritability_of_cow (hc : pl.hasFlag flagsCopyOnWrite = true)
    (hf : copyFits fits pl b = true) (hw : attachAll pl (held pl b) h.objects = some w) :
    ensureWritability fits h l = some (0, h.moved l pl (privatised pl h.blocks.length) b
      (grow b.entries (pl.maxEntries + pl.steps)) w) := by
  rw [copyFits] at hf
  have hused := ho.used_le.trans ho.max_le
  let h' : PtrHeap ω ι := { h with
    blocks := h.blocks.set pl.entryList { b with refCounter := b.refCounter - 1 } ++
      [⟨1, grow b.entries (pl.maxEntries + pl.steps)⟩] }
  let pl' := { pl with entryList := h.blocks.length, maxEntries := pl.maxEntries + pl.steps }
  have hb' : h'.block pl'.entryList = some ⟨1, grow b.entries (pl.maxEntries + pl.steps)⟩ :=
    block_eq_some.mpr ⟨by simp [h', pl'], Nat.one_pos⟩
  have hheld : held pl' ⟨1, grow b.entries (pl.maxEntries + pl.steps)⟩ = held pl b :=
    take_grow hused
  have hat : attachToAllIfSet h' pl' = some { h' with objects := w } := by
    rw [attachToAllIfSet_eq hb' (by simp [pl', grow]; omega), hheld]
    exact congrArg (Option.map _) hw
  simp only [ensureWritability, hl, hc, copyPtrList, hb, hf, if_true, freePtrList_append hb,
    Option.bind_eq_bind, Option.bind_some]
  change (attachToAllIfSet h' pl').bind _ = _
  rw [hat]
  rfl

/-! ### Making a list -/

theorem new_eq {n steps : ℕ} (hf : fits n = true) : new fits h n steps = some (h.lists.length,
    h.added ⟨n, 0, steps, 0, 1, 0, 0, h.blocks.length, none, none⟩ n) := by
  simp [new, mallocPtrList, hf, added]

theorem setList_added {n : ℕ} : (h.added pl n).setList h.lists.length pl' = h.added pl' n := by
  simp [setList, added]

/-! ### Adding an entry -/

include hl in
theorem makeRoom_of_lt (hlt : pl.usedEntries < pl.maxEntries) :
    makeRoom fits h l = some (0, h) := by
  simp [makeRoom, hl, Nat.not_le.mpr hlt]

/-- A full list cannot grow: its step size is 0 or the allocator fails. -/
def tableFull (fits : ℕ → Bool) (pl : SimplePtrList ω ι) (b : PtrBlock ι) : Prop :=
  pl.steps = 0 ∨ b.entries.length ≤ pl.maxEntries + pl.steps ∧ fits (pl.maxEntries + pl.steps) = false

include hl hb in
theorem makeRoom_of_full (hle : pl.maxEntries ≤ pl.usedEntries) (hf : tableFull fits pl b) :
    makeRoom fits h l = some (errorMemoryFull, h) := by
  rcases hf with hf | ⟨hlen, hf⟩
  · simp [makeRoom, hl, hle, hf]
  · simp [makeRoom, hl, hle, reallocPtrList, hb, hf, Nat.not_lt.mpr hlen]

/-- The list after `GWEN_SimplePtrList_AddPtr` has resized its block, which is now at `a`. -/
def resized (pl : SimplePtrList ω ι) (a : ℕ) : SimplePtrList ω ι :=
  { pl with entryList := a, maxEntries := pl.maxEntries + pl.steps }

include hl hb in
theorem makeRoom_of_spare (hle : pl.maxEntries ≤ pl.usedEntries) (hs : 0 < pl.steps)
    (hlen : pl.maxEntries + pl.steps < b.entries.length) :
    makeRoom fits h l = some (0, h.written l pl (resized pl pl.entryList) b b.entries h.objects) := by
  obtain ⟨hg, -⟩ := block_eq_some.mp hb
  have hset : h.blocks.set pl.entryList { b with entries := b.entries } = h.blocks := by
    obtain ⟨hlt, he⟩ := List.getElem?_eq_some_iff.mp hg
    rw [← he, List.set_getElem_self]
  simp only [makeRoom, hl, Option.bind_eq_bind, Option.bind_some, hle, if_true,
    Nat.lt_add_of_pos_right hs, reallocPtrList, hb, hlen, written, hset]
  rfl

include hl hb in
theorem makeRoom_of_grow (hle : pl.maxEntries ≤ pl.usedEntries) (hs : 0 < pl.steps)
    (h1 : b.refCounter = 1) (hlen : b.entries.length ≤ pl.maxEntries + pl.steps)
    (hf : fits (pl.maxEntries + pl.steps) = true) :
    makeRoom fits h l = some (0, h.moved l pl (resized pl h.blocks.length) b
      (grow b.entries (pl.maxEntries + pl.steps)) h.objects) := by
  simp only [makeRoom, hl, Option.bind_eq_bind, Option.bind_some, hle, if_true,
    Nat.lt_add_of_pos_right hs, reallocPtrList, hb, Nat.not_lt.mpr hlen, hf, if_false, moved, h1]
  rfl

theorem addPtr_eq {rv rv' : ℤ} {h₁ h2 : PtrHeap ω ι} {p : Option ι}
    (he : ensureWritability fits h l = some (rv, h₁)) (hrv : ¬ rv < 0)
    (hm : makeRoom fits h₁ l = some (rv', h2)) (hrv' : ¬ rv' < 0)
    (hl : h2.list l = some pl) (hb : h2.block pl.entryList = some b)
    (hlt : pl.usedEntries < b.entries.length) (hw : attachIfAny pl p h2.objects = some w) :
    addPtr fits h l p = some ((pl.usedEntries : ℤ), h2.written l pl
      { pl with usedEntries := pl.usedEntries + 1 } b (b.entries.set pl.usedEntries p) w) := by
  have hw' : attachIfAny pl p (h2.setBlock pl.entryList
      { b with entries := b.entries.set pl.usedEntries p }).objects = some w := hw
  simp only [addPtr, he, hrv, hm, hrv', Option.bind_eq_bind, Option.bind_some, if_false, hl, hb,
    hlt, if_true, hw']
  rfl

/-! ### Replacing an entry -/

theorem setPtrAt_eq {rv : ℤ} {pl0 : SimplePtrList ω ι} {h₁ : PtrHeap ω ι} {idx : ℕ}
    {p oldPtr : Option ι} (hl0 : h.list l = some pl0) (hidx : idx < pl0.usedEntries)
    (he : ensureWritability fits h l = some (rv, h₁)) (hrv : ¬ rv < 0)
    (hl : h₁.list l = some pl) (hb : h₁.block pl.entryList = some b)
    (hold : b.entries[idx]? = some oldPtr) (hw : attachIfAny pl p h₁.objects = some w)
    (hw' : detachIfAny pl oldPtr w = some w') : setPtrAt fits h l idx p =
      some (0, h₁.written l pl pl b (b.entries.set idx p) w') := by
  have hset : h₁.lists.set l pl = h₁.lists := by
    obtain ⟨hlt, he⟩ := List.getElem?_eq_some_iff.mp (list_eq_some.mp hl).1
    rw [← he, List.set_getElem_self]
  have hw'' : attachIfAny pl p (h₁.setBlock pl.entryList
      { b with entries := b.entries.set idx p }).objects = some w := hw
  simp only [setPtrAt, hl0, hidx, if_true, he, hrv, Option.bind_eq_bind, Option.bind_some,
    if_false, hl, hb, hold, hw'', hw', written, hset]
  rfl

include hl in
theorem setPtrAt_of_le {idx : ℕ} {p : Option ι} (hidx : pl.usedEntries ≤ idx) :
    setPtrAt fits h l idx p = some (errorBufferOverflow, h) := by
  simp [setPtrAt, hl, Nat.not_lt.mpr hidx]

/-! ### Copying, clearing and freeing a list -/

include hl hb in
theorem lazyCopy_eq : lazyCopy h l = some (h.lists.length, h.shared l pl b) := by
  simp [lazyCopy, hl, attachToPtrList, hb, setList, setBlock, shared]

include hl hb ho in
theorem clear_eq (hw : detachAll pl (held pl b) h.objects = some w) :
    clear h l = some (h.written l pl pl b
      (List.replicate pl.usedEntries none ++ b.entries.drop pl.usedEntries) w) := by
  have hused := ho.used_le.trans ho.max_le
  have hset : h.lists.set l pl = h.lists := by
    obtain ⟨hlt, he⟩ := List.getElem?_eq_some_iff.mp (list_eq_some.mp hl).1
    rw [← he, List.set_getElem_self]
  have hb' : PtrHeap.block { h with objects := w } pl.entryList = some b := hb
  simp only [clear, hl, Option.bind_eq_bind, Option.bind_some, detachFromAllIfSet_eq hb hused, hw,
    Option.map_some, hb', hused, if_true, written, hset]
  rfl

include hl hb ho in
theorem free_of_one (hc : pl.refCount = 1) (h1 : b.refCounter = 1)
    (hw : detachAll pl (held pl b) h.objects = some w) : free h l = some (h.released l pl b w) := by
  have hused := ho.used_le.trans ho.max_le
  have hb' : PtrHeap.block { h with objects := w } pl.entryList = some b := hb
  simp only [free, hl, Option.bind_eq_bind, Option.bind_some, hc, if_true, hb, h1,
    detachFromAllIfSet_eq hb hused, hw, Option.map_some, freePtrList, hb', released]
  rfl

include hl hb in
theorem free_of_shared (hc : pl.refCount = 1) (h1 : b.refCounter ≠ 1) :
    free h l = some (h.released l pl b h.objects) := by
  simp only [free, hl, Option.bind_eq_bind, Option.bind_some, hc, if_true, hb, h1, if_false,
    freePtrList]
  rfl

end calls
end Gwenhywfar.SimplePtrList
