import Gwenhywfar.Base.SimplePtrList

/-! # Ownership of the pointer blocks

`Wf h`: the reference counter of every block is the number of living lists that use it, every
living list has a living block with room for its entries and NULL behind them, and a block that
several lists use is marked copy-on-write in each of them.

* Each function of the list amounts to one of a few changes of the heap: `moved` (a list gets a
  block of its own), `written` (a list overwrites the block that only it uses), `shared`,
  `released` and `emptied`.  Each change keeps `Wf`, whatever happens to the objects.
* `slots h o` counts the entries of living blocks that hold the object `o`; every change comes
  with its effect on the slots. -/

namespace Gwenhywfar

variable {ω ι : Type}

namespace PtrHeap

theorem list_eq_some {h : PtrHeap ω ι} {l : ℕ} {pl : SimplePtrList ω ι} :
    h.list l = some pl ↔ h.lists[l]? = some pl ∧ 0 < pl.refCount := by
  simp [list, Option.filter_eq_some_iff]

theorem block_eq_some {h : PtrHeap ω ι} {a : ℕ} {b : PtrBlock ι} :
    h.block a = some b ↔ h.blocks[a]? = some b ∧ 0 < b.refCounter := by
  simp [block, Option.filter_eq_some_iff]

/-- Whether a list lives and uses the block at `a`, as a number. -/
def uses (a : ℕ) (pl : SimplePtrList ω ι) : ℕ :=
  if 0 < pl.refCount ∧ pl.entryList = a then 1 else 0

/-- The number of living lists that use the block at `a`. -/
def users (lists : List (SimplePtrList ω ι)) (a : ℕ) : ℕ := total (uses a) lists

def refCounterAt (blocks : List (PtrBlock ι)) (a : ℕ) : ℕ :=
  ((blocks[a]?).map PtrBlock.refCounter).getD 0

/-- A block has room for the entries of the list, NULL behind them, and is marked
copy-on-write when it is shared. -/
structure Owns (pl : SimplePtrList ω ι) (b : PtrBlock ι) : Prop where
  used_le : pl.usedEntries ≤ pl.maxEntries
  max_le : pl.maxEntries ≤ b.entries.length
  rest : ∀ p ∈ b.entries.drop pl.usedEntries, p = none
  cow : 1 < b.refCounter → pl.hasFlag SimplePtrList.flagsCopyOnWrite

/-- The ownership invariant. -/
structure Wf (h : PtrHeap ω ι) : Prop where
  counted : ∀ a, refCounterAt h.blocks a = users h.lists a
  owned : ∀ l pl, h.list l = some pl → ∃ b, h.block pl.entryList = some b ∧ Owns pl b

/-- The entries of living blocks that hold `o`. -/
def slots [DecidableEq ι] (h : PtrHeap ω ι) (o : ι) : ℕ :=
  total (fun b => if 0 < b.refCounter then b.entries.count (some o) else 0) h.blocks

theorem refCounterAt_of_block {h : PtrHeap ω ι} {a : ℕ} {b : PtrBlock ι}
    (hb : h.block a = some b) : refCounterAt h.blocks a = b.refCounter := by
  simp [refCounterAt, (block_eq_some.mp hb).1]

theorem refCounterAt_set {blocks : List (PtrBlock ι)} {i : ℕ} (hi : i < blocks.length)
    (b : PtrBlock ι) (a : ℕ) :
    refCounterAt (blocks.set i b) a = if a = i then b.refCounter else refCounterAt blocks a := by
  by_cases ha : a = i
  · subst ha
    simp [refCounterAt, hi]
  · rw [if_neg ha, refCounterAt, List.getElem?_set_ne (Ne.symm ha), refCounterAt]

theorem refCounterAt_append (blocks : List (PtrBlock ι)) (b : PtrBlock ι) (a : ℕ) :
    refCounterAt (blocks ++ [b]) a =
      if a = blocks.length then b.refCounter else refCounterAt blocks a := by
  by_cases ha : a = blocks.length
  · subst ha
    simp [refCounterAt]
  · rw [if_neg ha, refCounterAt, refCounterAt]
    rcases Nat.lt_or_gt_of_ne ha with hlt | hlt
    · rw [List.getElem?_append_left hlt]
    · rw [List.getElem?_eq_none (by simp; omega), List.getElem?_eq_none (by omega)]

theorem uses_of_pos {pl : SimplePtrList ω ι} (h : 0 < pl.refCount) (a : ℕ) :
    uses a pl = if a = pl.entryList then 1 else 0 := by
  simp only [uses, h, true_and, eq_comm]

theorem Wf.users_length {h : PtrHeap ω ι} (hw : h.Wf) : users h.lists h.blocks.length = 0 := by
  rw [← hw.counted, refCounterAt, List.getElem?_eq_none le_rfl]
  rfl

theorem Wf.one_lt_of_shared {h : PtrHeap ω ι} (hw : h.Wf) {l l' : ℕ}
    {pl pl' : SimplePtrList ω ι} {b : PtrBlock ι} (hl : h.list l = some pl)
    (hb : h.block pl.entryList = some b) (hl' : h.list l' = some pl') (hne : l' ≠ l)
    (he : pl'.entryList = pl.entryList) : 1 < b.refCounter := by
  rw [← refCounterAt_of_block hb, hw.counted]
  obtain ⟨hg, hp⟩ := list_eq_some.mp hl
  obtain ⟨hg', hp'⟩ := list_eq_some.mp hl'
  have h1 : uses pl.entryList pl = 1 := by rw [uses_of_pos hp, if_pos rfl]
  have h1' : uses pl.entryList pl' = 1 := by rw [uses_of_pos hp', if_pos he.symm]
  rcases Nat.lt_or_gt_of_ne hne with hlt | hlt
  · have := add_le_total (uses pl.entryList) hlt hg' hg
    rw [users]
    omega
  · have := add_le_total (uses pl.entryList) hlt hg hg'
    rw [users]
    omega

/-! ### A list gets a block of its own -/

/-- The heap after the list at `l`, which used the block `b`, has been given a new block with the
entries `es`; `pl'` is the list afterwards. -/
def moved (h : PtrHeap ω ι) (l : ℕ) (pl pl' : SimplePtrList ω ι) (b : PtrBlock ι)
    (es : List (Option ι)) (w : ω) : PtrHeap ω ι where
  blocks := h.blocks.set pl.entryList { b with refCounter := b.refCounter - 1 } ++ [⟨1, es⟩]
  lists := h.lists.set l pl'
  objects := w

section moved
variable {h : PtrHeap ω ι} {l : ℕ} {pl pl' : SimplePtrList ω ι} {b : PtrBlock ι}
  {es : List (Option ι)} (w : ω)

theorem list_moved_self (hl : h.list l = some pl) (hp' : 0 < pl'.refCount) :
    (h.moved l pl pl' b es w).list l = some pl' := by
  obtain ⟨hg, -⟩ := list_eq_some.mp hl
  have hlt := (List.getElem?_eq_some_iff.mp hg).1
  exact list_eq_some.mpr ⟨by simp [moved, hlt], hp'⟩

theorem list_moved_ne {l' : ℕ} (hne : l' ≠ l) : (h.moved l pl pl' b es w).list l' = h.list l' := by
  simp [moved, list, List.getElem?_set_ne hne.symm]

theorem block_moved_new : (h.moved l pl pl' b es w).block h.blocks.length = some ⟨1, es⟩ :=
  block_eq_some.mpr ⟨by simp [moved], Nat.one_pos⟩

theorem block_moved_ne {a : ℕ} (ha : a ≠ pl.entryList) {b' : PtrBlock ι}
    (hb' : h.block a = some b') : (h.moved l pl pl' b es w).block a = some b' := by
  obtain ⟨hg, hp⟩ := block_eq_some.mp hb'
  have hlt := (List.getElem?_eq_some_iff.mp hg).1
  refine block_eq_some.mpr ⟨?_, hp⟩
  simp only [moved]
  rw [List.getElem?_append_left (by simpa using hlt), List.getElem?_set_ne ha.symm, hg]

theorem block_moved_old (hb : h.block pl.entryList = some b) (h1 : 1 < b.refCounter) :
    (h.moved l pl pl' b es w).block pl.entryList =
      some { b with refCounter := b.refCounter - 1 } := by
  obtain ⟨hg, -⟩ := block_eq_some.mp hb
  have hlt := (List.getElem?_eq_some_iff.mp hg).1
  refine block_eq_some.mpr ⟨?_, by simp only; omega⟩
  simp only [moved]
  rw [List.getElem?_append_left (by simpa using hlt), List.getElem?_set_self hlt]

theorem Owns.sub_one {b : PtrBlock ι} (ho : Owns pl b) :
    Owns pl { b with refCounter := b.refCounter - 1 } :=
  ⟨ho.used_le, ho.max_le, ho.rest, fun h => ho.cow (by simp only at h; omega)⟩

theorem wf_moved (hw : h.Wf) (hl : h.list l = some pl) (hb : h.block pl.entryList = some b)
    (hp' : 0 < pl'.refCount) (he : pl'.entryList = h.blocks.length) (ho : Owns pl' ⟨1, es⟩) :
    (h.moved l pl pl' b es w).Wf := by
  obtain ⟨hg, hp⟩ := list_eq_some.mp hl
  obtain ⟨hgb, -⟩ := block_eq_some.mp hb
  have hlt := (List.getElem?_eq_some_iff.mp hgb).1
  refine ⟨fun a => ?_, fun l' q hq => ?_⟩
  · have hset := total_set (uses a) pl' hg
    have hc := hw.counted a
    rw [uses_of_pos hp, uses_of_pos hp', he] at hset
    simp only [moved, users] at hc hset ⊢
    rw [refCounterAt_append, refCounterAt_set hlt, List.length_set]
    by_cases ha : a = h.blocks.length
    · have := hw.users_length
      rw [users] at this
      subst ha
      simp only [if_pos, if_neg (Nat.ne_of_gt hlt)] at hset ⊢
      omega
    · by_cases ha' : a = pl.entryList
      · subst ha'
        rw [refCounterAt_of_block hb] at hc
        simp only [ha, if_pos, if_false] at hset ⊢
        omega
      · simp only [ha, ha', if_false] at hset ⊢
        omega
  · by_cases hne : l' = l
    · subst hne
      rw [list_moved_self w hl hp', Option.some.injEq] at hq
      subst hq
      exact ⟨_, he ▸ block_moved_new w, ho⟩
    · rw [list_moved_ne w hne] at hq
      obtain ⟨b', hb', ho'⟩ := hw.owned l' q hq
      by_cases hs : q.entryList = pl.entryList
      · have h1 := hw.one_lt_of_shared hl hb hq hne hs
        rw [hs, hb, Option.some.injEq] at hb'
        subst hb'
        exact ⟨_, hs ▸ block_moved_old w hb h1, ho'.sub_one⟩
      · exact ⟨b', block_moved_ne w hs hb', ho'⟩

theorem slots_moved [DecidableEq ι] (hb : h.block pl.entryList = some b) (o : ι) :
    (h.moved l pl pl' b es w).slots o + (if b.refCounter = 1 then b.entries.count (some o) else 0) =
      h.slots o + es.count (some o) := by
  obtain ⟨hg, hp⟩ := block_eq_some.mp hb
  have hset := total_set (fun b => if 0 < b.refCounter then b.entries.count (some o) else 0)
    { b with refCounter := b.refCounter - 1 } hg
  simp only [slots, moved, total_append, total_singleton, Nat.one_pos, if_true] at hset ⊢
  by_cases h1 : b.refCounter = 1
  · simp only [h1, Nat.sub_self, Nat.lt_irrefl, Nat.one_pos, if_true, if_false] at hset ⊢
    omega
  · have h2 : 0 < b.refCounter - 1 := by omega
    simp only [hp, h1, h2, if_true, if_false] at hset ⊢
    omega

end moved

/-! ### A list overwrites its block -/

/-- The heap after the entries of the block `b` of the list at `l` have become `es`; `pl'` is the
list afterwards. -/
def written (h : PtrHeap ω ι) (l : ℕ) (pl pl' : SimplePtrList ω ι) (b : PtrBlock ι)
    (es : List (Option ι)) (w : ω) : PtrHeap ω ι where
  blocks := h.blocks.set pl.entryList { b with entries := es }
  lists := h.lists.set l pl'
  objects := w

section written
variable {h : PtrHeap ω ι} {l : ℕ} {pl pl' : SimplePtrList ω ι} {b : PtrBlock ι}
  {es : List (Option ι)} (w : ω)

theorem list_written_self (hl : h.list l = some pl) (hp' : 0 < pl'.refCount) :
    (h.written l pl pl' b es w).list l = some pl' := by
  obtain ⟨hg, -⟩ := list_eq_some.mp hl
  have hlt := (List.getElem?_eq_some_iff.mp hg).1
  exact list_eq_some.mpr ⟨by simp [written, hlt], hp'⟩

theorem list_written_ne {l' : ℕ} (hne : l' ≠ l) :
    (h.written l pl pl' b es w).list l' = h.list l' := by
  simp [written, list, List.getElem?_set_ne hne.symm]

theorem block_written_self (hb : h.block pl.entryList = some b) :
    (h.written l pl pl' b es w).block pl.entryList = some { b with entries := es } := by
  obtain ⟨hg, hp⟩ := block_eq_some.mp hb
  have hlt := (List.getElem?_eq_some_iff.mp hg).1
  exact block_eq_some.mpr ⟨by simp [written, hlt], hp⟩

theorem block_written_ne {a : ℕ} (ha : a ≠ pl.entryList) :
    (h.written l pl pl' b es w).block a = h.block a := by
  simp [written, block, List.getElem?_set_ne ha.symm]

/-- Overwriting a block keeps the invariant when every list that uses the block fits the new
entries. -/
theorem wf_written (hw : h.Wf) (hl : h.list l = some pl) (hb : h.block pl.entryList = some b)
    (hp' : 0 < pl'.refCount) (he : pl'.entryList = pl.entryList)
    (ho : Owns pl' { b with entries := es })
    (hother : ∀ l' q, l' ≠ l → h.list l' = some q → q.entryList = pl.entryList →
      Owns q { b with entries := es }) : (h.written l pl pl' b es w).Wf := by
  obtain ⟨hg, hp⟩ := list_eq_some.mp hl
  obtain ⟨hgb, -⟩ := block_eq_some.mp hb
  have hlt := (List.getElem?_eq_some_iff.mp hgb).1
  refine ⟨fun a => ?_, fun l' q hq => ?_⟩
  · have hset := total_set (uses a) pl' hg
    have hc := hw.counted a
    rw [uses_of_pos hp, uses_of_pos hp', he] at hset
    simp only [written, users] at hc hset ⊢
    rw [refCounterAt_set hlt]
    by_cases ha : a = pl.entryList
    · subst ha
      rw [refCounterAt_of_block hb] at hc
      simp only [if_pos] at hset ⊢
      omega
    · simp only [ha, if_false] at hset ⊢
      omega
  · by_cases hne : l' = l
    · subst hne
      rw [list_written_self w hl hp', Option.some.injEq] at hq
      subst hq
      exact ⟨_, he ▸ block_written_self w hb, ho⟩
    · rw [list_written_ne w hne] at hq
      by_cases hs : q.entryList = pl.entryList
      · exact ⟨_, hs ▸ block_written_self w hb, hother l' q hne hq hs⟩
      · obtain ⟨b', hb', ho'⟩ := hw.owned l' q hq
        exact ⟨b', by rw [block_written_ne w hs, hb'], ho'⟩

theorem wf_written_of_one (hw : h.Wf) (hl : h.list l = some pl)
    (hb : h.block pl.entryList = some b) (h1 : b.refCounter = 1) (hp' : 0 < pl'.refCount)
    (he : pl'.entryList = pl.entryList) (ho : Owns pl' { b with entries := es }) :
    (h.written l pl pl' b es w).Wf :=
  wf_written w hw hl hb hp' he ho fun l' q hne hq hs => by
    have := hw.one_lt_of_shared hl hb hq hne hs
    omega

theorem slots_written [DecidableEq ι] (hb : h.block pl.entryList = some b) (o : ι) :
    (h.written l pl pl' b es w).slots o + b.entries.count (some o) =
      h.slots o + es.count (some o) := by
  obtain ⟨hg, hp⟩ := block_eq_some.mp hb
  have hset := total_set (fun b => if 0 < b.refCounter then b.entries.count (some o) else 0)
    { b with entries := es } hg
  simp only [slots, written, hp, if_true] at hset ⊢
  exact hset

end written

/-! ### A lazy copy is made -/

/-- The heap after a lazy copy of the list at `l`. -/
def shared (h : PtrHeap ω ι) (l : ℕ) (pl : SimplePtrList ω ι) (b : PtrBlock ι) : PtrHeap ω ι where
  blocks := h.blocks.set pl.entryList { b with refCounter := b.refCounter + 1 }
  lists := h.lists.set l
      { pl with flags := pl.flags ||| SimplePtrList.flagsCopyOnWrite } ++
    [{ pl with
      refCount := 1, userCounter := 0
      flags := pl.flags ||| SimplePtrList.flagsCopyOnWrite }]
  objects := h.objects

theorem hasFlag_or (pl : SimplePtrList ω ι) (f : UInt32) (hf : f ≠ 0) :
    { pl with flags := pl.flags ||| f }.hasFlag f := by
  simp only [SimplePtrList.hasFlag, bne_iff_ne, ne_eq]
  intro h
  have h' : (pl.flags ||| f) &&& f = f := by
    apply UInt32.toBitVec_inj.mp
    ext i
    simp only [UInt32.toBitVec_and, UInt32.toBitVec_or, BitVec.getElem_and, BitVec.getElem_or]
    cases pl.flags.toBitVec[i] <;> cases f.toBitVec[i] <;> rfl
  exact hf (h'.symm.trans h)

section shared
variable {h : PtrHeap ω ι} {l : ℕ} {pl : SimplePtrList ω ι} {b : PtrBlock ι}

theorem list_shared_new : (h.shared l pl b).list h.lists.length = some { pl with
      refCount := 1, userCounter := 0
      flags := pl.flags ||| SimplePtrList.flagsCopyOnWrite } :=
  list_eq_some.mpr ⟨by simp [shared], Nat.one_pos⟩

theorem list_shared_self (hl : h.list l = some pl) : (h.shared l pl b).list l =
      some { pl with flags := pl.flags ||| SimplePtrList.flagsCopyOnWrite } := by
  obtain ⟨hg, hp⟩ := list_eq_some.mp hl
  have hlt := (List.getElem?_eq_some_iff.mp hg).1
  refine list_eq_some.mpr ⟨?_, hp⟩
  simp only [shared]
  rw [List.getElem?_append_left (by simpa using hlt), List.getElem?_set_self hlt]

theorem list_shared_ne {l' : ℕ} (hne : l' ≠ l) (hnew : l' ≠ h.lists.length) :
    (h.shared l pl b).list l' = h.list l' := by
  simp only [shared, list]
  rcases Nat.lt_or_gt_of_ne hnew with hlt | hlt
  · rw [List.getElem?_append_left (by simpa using hlt), List.getElem?_set_ne hne.symm]
  · rw [List.getElem?_eq_none (by simp; omega), List.getElem?_eq_none (by omega)]

theorem block_shared_self (hb : h.block pl.entryList = some b) :
    (h.shared l pl b).block pl.entryList = some { b with refCounter := b.refCounter + 1 } := by
  obtain ⟨hg, -⟩ := block_eq_some.mp hb
  have hlt := (List.getElem?_eq_some_iff.mp hg).1
  exact block_eq_some.mpr ⟨by simp [shared, hlt], Nat.succ_pos _⟩

theorem block_shared_ne {a : ℕ} (ha : a ≠ pl.entryList) :
    (h.shared l pl b).block a = h.block a := by
  simp [shared, block, List.getElem?_set_ne ha.symm]

theorem wf_shared (hw : h.Wf) (hl : h.list l = some pl) (hb : h.block pl.entryList = some b) :
    (h.shared l pl b).Wf := by
  obtain ⟨hg, hp⟩ := list_eq_some.mp hl
  obtain ⟨hgb, -⟩ := block_eq_some.mp hb
  have hlt := (List.getElem?_eq_some_iff.mp hgb).1
  have hcow := hasFlag_or pl SimplePtrList.flagsCopyOnWrite (by decide)
  obtain ⟨b', hb', ho⟩ := hw.owned l pl hl
  rw [hb, Option.some.injEq] at hb'
  subst hb'
  refine ⟨fun a => ?_, fun l' q hq => ?_⟩
  · have hset := total_set (uses a)
      { pl with flags := pl.flags ||| SimplePtrList.flagsCopyOnWrite } hg
    have hc := hw.counted a
    simp only [shared, users, total_append, total_singleton] at hc hset ⊢
    have hu : uses a { pl with flags := pl.flags ||| SimplePtrList.flagsCopyOnWrite } =
        uses a pl := rfl
    rw [refCounterAt_set hlt, uses_of_pos Nat.one_pos]
    rw [hu, uses_of_pos hp] at hset
    by_cases ha : a = pl.entryList
    · subst ha
      rw [refCounterAt_of_block hb] at hc
      simp only [if_pos] at hset ⊢
      omega
    · simp only [ha, if_false] at hset ⊢
      omega
  · by_cases hne : l' = l
    · subst hne
      rw [list_shared_self hl, Option.some.injEq] at hq
      subst hq
      exact ⟨_, block_shared_self hb, ho.used_le, ho.max_le, ho.rest, fun _ => hcow⟩
    · by_cases hnew : l' = h.lists.length
      · subst hnew
        rw [list_shared_new, Option.some.injEq] at hq
        subst hq
        exact ⟨_, block_shared_self hb, ho.used_le, ho.max_le, ho.rest, fun _ => hcow⟩
      · rw [list_shared_ne hne hnew] at hq
        obtain ⟨b', hb', ho'⟩ := hw.owned l' q hq
        by_cases hs : q.entryList = pl.entryList
        · have h1 := hw.one_lt_of_shared hl hb hq hne hs
          rw [hs, hb, Option.some.injEq] at hb'
          subst hb'
          exact ⟨{ b with refCounter := b.refCounter + 1 }, hs ▸ block_shared_self hb,
            ho'.used_le, ho'.max_le, ho'.rest, fun _ => ho'.cow h1⟩
        · exact ⟨b', by rw [block_shared_ne hs, hb'], ho'⟩

theorem slots_shared [DecidableEq ι] (hb : h.block pl.entryList = some b) (o : ι) :
    (h.shared l pl b).slots o = h.slots o := by
  obtain ⟨hg, hp⟩ := block_eq_some.mp hb
  have hset := total_set (fun b => if 0 < b.refCounter then b.entries.count (some o) else 0)
    { b with refCounter := b.refCounter + 1 } hg
  simp only [slots, shared, hp, Nat.succ_pos, if_true] at hset ⊢
  omega

end shared

/-! ### A list is freed -/

/-- The heap after the list at `l`, which used the block `b`, has been freed. -/
def released (h : PtrHeap ω ι) (l : ℕ) (pl : SimplePtrList ω ι) (b : PtrBlock ι) (w : ω) :
    PtrHeap ω ι where
  blocks := h.blocks.set pl.entryList { b with refCounter := b.refCounter - 1 }
  lists := h.lists.set l { pl with refCount := 0, maxEntries := 0 }
  objects := w

section released
variable {h : PtrHeap ω ι} {l : ℕ} {pl : SimplePtrList ω ι} {b : PtrBlock ι} (w : ω)

theorem list_released_self : (h.released l pl b w).list l = none := by
  simp only [released, list]
  by_cases hlt : l < h.lists.length
  · rw [List.getElem?_set_self hlt]
    rfl
  · rw [List.getElem?_eq_none (by simpa using hlt)]
    rfl

theorem list_released_ne {l' : ℕ} (hne : l' ≠ l) : (h.released l pl b w).list l' = h.list l' := by
  simp [released, list, List.getElem?_set_ne hne.symm]

theorem block_released_old (hb : h.block pl.entryList = some b) (h1 : 1 < b.refCounter) :
    (h.released l pl b w).block pl.entryList = some { b with refCounter := b.refCounter - 1 } := by
  obtain ⟨hg, -⟩ := block_eq_some.mp hb
  have hlt := (List.getElem?_eq_some_iff.mp hg).1
  exact block_eq_some.mpr ⟨by simp [released, hlt], by simp only; omega⟩

theorem block_released_ne {a : ℕ} (ha : a ≠ pl.entryList) :
    (h.released l pl b w).block a = h.block a := by
  simp [released, block, List.getElem?_set_ne ha.symm]

theorem wf_released (hw : h.Wf) (hl : h.list l = some pl)
    (hb : h.block pl.entryList = some b) : (h.released l pl b w).Wf := by
  obtain ⟨hg, hp⟩ := list_eq_some.mp hl
  obtain ⟨hgb, -⟩ := block_eq_some.mp hb
  have hlt := (List.getElem?_eq_some_iff.mp hgb).1
  refine ⟨fun a => ?_, fun l' q hq => ?_⟩
  · have hset := total_set (uses a) { pl with refCount := 0, maxEntries := 0 } hg
    have hc := hw.counted a
    have h0 : uses a { pl with refCount := 0, maxEntries := 0 } = 0 := by simp [uses]
    rw [uses_of_pos hp, h0] at hset
    simp only [released, users] at hc hset ⊢
    rw [refCounterAt_set hlt]
    by_cases ha : a = pl.entryList
    · subst ha
      rw [refCounterAt_of_block hb] at hc
      simp only [if_pos] at hset ⊢
      omega
    · simp only [ha, if_false] at hset ⊢
      omega
  · by_cases hne : l' = l
    · subst hne
      rw [list_released_self] at hq
      cases hq
    · rw [list_released_ne w hne] at hq
      obtain ⟨b', hb', ho'⟩ := hw.owned l' q hq
      by_cases hs : q.entryList = pl.entryList
      · have h1 := hw.one_lt_of_shared hl hb hq hne hs
        rw [hs, hb, Option.some.injEq] at hb'
        subst hb'
        exact ⟨_, hs ▸ block_released_old w hb h1, ho'.sub_one⟩
      · exact ⟨b', by rw [block_released_ne w hs, hb'], ho'⟩

theorem slots_released [DecidableEq ι] (hb : h.block pl.entryList = some b) (o : ι) :
    (h.released l pl b w).slots o + (if b.refCounter = 1 then b.entries.count (some o) else 0) =
      h.slots o := by
  obtain ⟨hg, hp⟩ := block_eq_some.mp hb
  have hset := total_set (fun b => if 0 < b.refCounter then b.entries.count (some o) else 0)
    { b with refCounter := b.refCounter - 1 } hg
  simp only [slots, released] at hset ⊢
  by_cases h1 : b.refCounter = 1
  · simp only [h1, Nat.sub_self, Nat.lt_irrefl, Nat.one_pos, if_true, if_false] at hset ⊢
    omega
  · have h2 : 0 < b.refCounter - 1 := by omega
    simp only [hp, h1, h2, if_true, if_false] at hset ⊢
    omega

end released

/-! ### A list is made -/

/-- The heap with a new list on a new block of `n` entries. -/
def added (h : PtrHeap ω ι) (pl : SimplePtrList ω ι) (n : ℕ) : PtrHeap ω ι where
  blocks := h.blocks ++ [⟨1, List.replicate n none⟩]
  lists := h.lists ++ [pl]
  objects := h.objects

section added
variable {h : PtrHeap ω ι} {pl : SimplePtrList ω ι} {n : ℕ}

theorem list_added_new (hp : 0 < pl.refCount) :
    (h.added pl n).list h.lists.length = some pl := list_eq_some.mpr ⟨by simp [added], hp⟩

theorem list_added_ne {l : ℕ} (hne : l ≠ h.lists.length) : (h.added pl n).list l = h.list l := by
  simp only [added, list]
  rcases Nat.lt_or_gt_of_ne hne with hlt | hlt
  · rw [List.getElem?_append_left hlt]
  · rw [List.getElem?_eq_none (by simp; omega), List.getElem?_eq_none (by omega)]

theorem block_added_new : (h.added pl n).block h.blocks.length = some ⟨1, List.replicate n none⟩ :=
  block_eq_some.mpr ⟨by simp [added], Nat.one_pos⟩

theorem block_added_of_block {a : ℕ} {b : PtrBlock ι} (hb : h.block a = some b) :
    (h.added pl n).block a = some b := by
  obtain ⟨hg, hp⟩ := block_eq_some.mp hb
  refine block_eq_some.mpr ⟨?_, hp⟩
  simp only [added]
  rw [List.getElem?_append_left (List.getElem?_eq_some_iff.mp hg).1, hg]

theorem wf_added (hw : h.Wf) (hp : 0 < pl.refCount) (he : pl.entryList = h.blocks.length)
    (hu : pl.usedEntries = 0) (hm : pl.maxEntries = n) : (h.added pl n).Wf := by
  refine ⟨fun a => ?_, fun l q hq => ?_⟩
  · have hc := hw.counted a
    simp only [added, users, total_append, total_singleton] at hc ⊢
    rw [refCounterAt_append, uses_of_pos hp, he]
    by_cases ha : a = h.blocks.length
    · have hlen := hw.users_length
      rw [users] at hlen
      subst ha
      simp only [if_true]
      omega
    · simp only [ha, if_false]
      omega
  · by_cases hne : l = h.lists.length
    · subst hne
      rw [list_added_new hp, Option.some.injEq] at hq
      subst hq
      refine ⟨_, he ▸ block_added_new, ?_, ?_, ?_, fun h => absurd h (Nat.lt_irrefl 1)⟩
      · omega
      · simp only [List.length_replicate]; omega
      · exact fun p hp => (List.mem_replicate.mp (List.mem_of_mem_drop hp)).2
    · rw [list_added_ne hne] at hq
      obtain ⟨b, hb, ho⟩ := hw.owned l q hq
      exact ⟨b, block_added_of_block hb, ho⟩

theorem slots_added [DecidableEq ι] (o : ι) : (h.added pl n).slots o = h.slots o := by
  simp [slots, added, total_append, List.count_replicate]

end added

theorem wf_empty (w : ω) : (⟨[], [], w⟩ : PtrHeap ω ι).Wf :=
  ⟨fun _ => rfl, fun _ _ h => by simp [list] at h⟩

/-- When all lists have been freed, so have all blocks. -/
theorem slots_of_freed [DecidableEq ι] {h : PtrHeap ω ι} (hw : h.Wf)
    (hf : ∀ l, h.list l = none) (o : ι) : h.slots o = 0 := by
  have hu : ∀ a, users h.lists a = 0 := by
    intro a
    rw [users, total, List.sum_eq_zero]
    intro n hn
    obtain ⟨pl, hpl, rfl⟩ := List.mem_map.mp hn
    obtain ⟨l, hl⟩ := List.getElem?_of_mem hpl
    have hfl := hf l
    rw [list, hl, Option.filter_some] at hfl
    by_cases hp : 0 < pl.refCount
    · simp [hp] at hfl
    · exact if_neg fun h => hp h.1
  rw [slots, total, List.sum_eq_zero]
  intro n hn
  obtain ⟨b, hb, rfl⟩ := List.mem_map.mp hn
  obtain ⟨a, ha⟩ := List.getElem?_of_mem hb
  have hc := hw.counted a
  rw [hu, refCounterAt, ha] at hc
  simp only [Option.map_some, Option.getD_some] at hc
  rw [hc]
  rfl

end PtrHeap
end Gwenhywfar
