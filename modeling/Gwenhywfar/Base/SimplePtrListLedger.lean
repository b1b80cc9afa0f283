import Gwenhywfar.Base.SimplePtrListCalls

/-! # Lists that count the references of their objects

A `Ledger` is a pair of attach and free functions that count the references of every object up
and down.  `Inv L h` says that every living list attaches to and detaches from its objects by
the functions of the ledger, and that no object has fewer references than slots.

* `Effect L h h' l k v` describes a call for the list at `l`: the invariant is kept, the list
  looks like `v` afterwards (`View`), the other lists look as before, and every object `o` has
  gained `k o` references more than slots.
* `k` is 0 except where `GWEN_SimplePtrList_EnsureWritability` drops the block that only this
  list used (`leak`). -/

namespace Gwenhywfar

/-- Attach and free functions that count references.  `Can w p` allows to attach to `p`, and
`Same` holds of the objects before and after. -/
structure Ledger (ω ι : Type) [DecidableEq ι] where
  attach : ι → ω → Option ω
  free : ι → ω → Option ω
  refs : ω → ι → ℕ
  Ok : ω → Prop
  Can : ω → ι → Prop
  Same : ω → ω → Prop
  same_refl : ∀ w, Same w w
  same_trans : ∀ {w w' w''}, Same w w' → Same w' w'' → Same w w''
  can_of_refs : ∀ {w p}, 0 < refs w p → Can w p
  attach_spec : ∀ {w p}, Ok w → Can w p → ∃ w', attach p w = some w' ∧ Ok w' ∧ Same w w' ∧
    (∀ q, Can w q → Can w' q) ∧ ∀ o, refs w' o = refs w o + if some p = some o then 1 else 0
  free_spec : ∀ {w p}, Ok w → 0 < refs w p → ∃ w', free p w = some w' ∧ Ok w' ∧ Same w w' ∧
    ∀ o, refs w' o + (if some p = some o then 1 else 0) = refs w o

/-- What a list holds, apart from the address of its block. -/
structure View (ι : Type) where
  held : List (Option ι)
  steps : ℕ
  userIntData : ℤ
  userCounter : ℕ

variable {ω ι : Type}

open SimplePtrList PtrHeap

def SimplePtrList.view (pl : SimplePtrList ω ι) (b : PtrBlock ι) : View ι :=
  ⟨pl.held b, pl.steps, pl.userIntData, pl.userCounter⟩

def PtrHeap.view (h : PtrHeap ω ι) (l : ℕ) : Option (View ι) :=
  (h.list l).bind fun pl => (h.block pl.entryList).map pl.view

theorem PtrHeap.view_eq {h : PtrHeap ω ι} {l : ℕ} {pl : SimplePtrList ω ι} {b : PtrBlock ι}
    (hl : h.list l = some pl) (hb : h.block pl.entryList = some b) :
    h.view l = some (pl.view b) := by
  rw [PtrHeap.view, hl, Option.bind_some, hb, Option.map_some]

theorem PtrHeap.view_eq_none {h : PtrHeap ω ι} {l : ℕ} (hl : h.list l = none) :
    h.view l = none := by
  rw [PtrHeap.view, hl, Option.bind_none]

variable [DecidableEq ι]

theorem count_set_add {es : List (Option ι)} {i : ℕ} {x : Option ι} (h : es[i]? = some x)
    (p : Option ι) (o : ι) :
    (es.set i p).count (some o) + (if x = some o then 1 else 0) =
      es.count (some o) + if p = some o then 1 else 0 := by
  have hcount : ∀ es : List (Option ι),
      es.count (some o) = total (fun e => if e = some o then 1 else 0) es := by
    intro es
    induction es with
    | nil => rfl
    | cons e es ih =>
        simp only [List.count_cons, ih, total, List.map_cons, List.sum_cons, beq_iff_eq]
        omega
  rw [hcount, hcount]
  exact total_set _ p h

namespace Ledger

variable (L : Ledger ω ι)

/-- The list attaches to and detaches from its objects by the ledger. -/
structure Counting (pl : SimplePtrList ω ι) : Prop where
  refCount : pl.refCount = 1
  attachFlag : pl.hasFlag flagsAttachToObjects = true
  detachFlag : pl.hasFlag flagsDetachFromObjects = true
  attachFn : pl.attachObjectFn = some L.attach
  freeFn : pl.freeObjectFn = some L.free

/-- The invariant of lists that count the references of their objects. -/
structure Inv (h : PtrHeap ω ι) : Prop where
  wf : h.Wf
  ok : L.Ok h.objects
  counting : ∀ l pl, h.list l = some pl → L.Counting pl
  covers : ∀ o, h.slots o ≤ L.refs h.objects o

/-- A call keeps the invariant, and every object `o` gains `k o` references more than slots. -/
structure Kept (h h' : PtrHeap ω ι) (k : ι → ℕ) : Prop where
  inv : L.Inv h'
  same : L.Same h.objects h'.objects
  drift : ∀ o, L.refs h'.objects o + h.slots o = L.refs h.objects o + h'.slots o + k o

/-- The effect of a call for the list at `l`. -/
structure Effect (h h' : PtrHeap ω ι) (l : ℕ) (k : ι → ℕ) (v : Option (View ι)) : Prop
    extends L.Kept h h' k where
  view_self : h'.view l = v
  view_other : ∀ l', l' ≠ l → h'.view l' = h.view l'

section
variable {L} {h h' h'' : PtrHeap ω ι} {l : ℕ} {pl pl' : SimplePtrList ω ι} {b : PtrBlock ι}
  {w : ω} {es : List (Option ι)}

theorem Effect.refl (hi : L.Inv h) : L.Effect h h l (fun _ => 0) (h.view l) :=
  ⟨⟨hi, L.same_refl _, fun _ => rfl⟩, rfl, fun _ _ => rfl⟩

theorem Effect.trans {k k' : ι → ℕ} {v v' : Option (View ι)} (he : L.Effect h h' l k v)
    (he' : L.Effect h' h'' l k' v') : L.Effect h h'' l (fun o => k o + k' o) v' where
  inv := he'.inv
  same := L.same_trans he.same he'.same
  drift := fun o => by have h1 := he.drift o; have h2 := he'.drift o; omega
  view_self := he'.view_self
  view_other := fun l' hne => (he'.view_other l' hne).trans (he.view_other l' hne)

theorem Inv.refs_pos (hi : L.Inv h) {a : ℕ} (hb : h.block a = some b) {o : ι}
    (ho : some o ∈ b.entries) : 0 < L.refs h.objects o := by
  obtain ⟨hg, hp⟩ := block_eq_some.mp hb
  have hle := le_total (fun b => if 0 < b.refCounter then b.entries.count (some o) else 0) hg
  have hc := hi.covers o
  have hpos := List.count_pos_iff.mpr ho
  simp only [hp, if_true] at hle
  rw [slots] at hc
  omega

theorem forEachPtr_attach : ∀ {es : List (Option ι)} {w : ω}, L.Ok w →
    (∀ p, some p ∈ es → 0 < L.refs w p) →
    ∃ w', forEachPtr L.attach es w = some w' ∧ L.Ok w' ∧ L.Same w w' ∧
      (∀ q, L.Can w q → L.Can w' q) ∧ ∀ o, L.refs w' o = L.refs w o + es.count (some o)
  | [], w, hok, _ => ⟨w, rfl, hok, L.same_refl w, fun _ h => h, fun _ => rfl⟩
  | none :: es, w, hok, hpos => by
      obtain ⟨w', he, hok', hs, hcan, hr⟩ := @forEachPtr_attach es _ hok
        fun p hp => hpos p (List.mem_cons_of_mem _ hp)
      exact ⟨w', he, hok', hs, hcan, fun o => by simp [hr o]⟩
  | some p :: es, w, hok, hpos => by
      obtain ⟨w1, he1, hok1, hs1, hcan1, hr1⟩ :=
        L.attach_spec hok (L.can_of_refs (hpos p List.mem_cons_self))
      obtain ⟨w', he, hok', hs, hcan, hr⟩ := @forEachPtr_attach es _ hok1 fun q hq => by
        have := hpos q (List.mem_cons_of_mem _ hq)
        rw [hr1]
        omega
      refine ⟨w', by rw [forEachPtr, he1]; exact he, hok', L.same_trans hs1 hs,
        fun q hq => hcan q (hcan1 q hq), fun o => ?_⟩
      rw [hr, hr1, List.count_cons]
      simp only [beq_iff_eq]
      omega

theorem forEachPtr_free : ∀ {es : List (Option ι)} {w : ω}, L.Ok w →
    (∀ o, es.count (some o) ≤ L.refs w o) →
    ∃ w', forEachPtr L.free es w = some w' ∧ L.Ok w' ∧ L.Same w w' ∧
      ∀ o, L.refs w' o + es.count (some o) = L.refs w o
  | [], w, hok, _ => ⟨w, rfl, hok, L.same_refl w, fun _ => rfl⟩
  | none :: es, w, hok, hle => by
      obtain ⟨w', he, hok', hs, hr⟩ := @forEachPtr_free es _ hok
        fun o => by simpa using hle o
      exact ⟨w', he, hok', hs, fun o => by simpa using hr o⟩
  | some p :: es, w, hok, hle => by
      have hp := hle p
      rw [List.count_cons_self] at hp
      obtain ⟨w1, he1, hok1, hs1, hr1⟩ := L.free_spec hok (p := p) (by omega)
      obtain ⟨w', he, hok', hs, hr⟩ := @forEachPtr_free es _ hok1 fun o => by
        have h1 := hle o
        have h2 := hr1 o
        rw [List.count_cons] at h1
        simp only [beq_iff_eq] at h1
        omega
      refine ⟨w', by rw [forEachPtr, he1]; exact he, hok', L.same_trans hs1 hs, fun o => ?_⟩
      have h1 := hr o
      have h2 := hr1 o
      rw [List.count_cons]
      simp only [beq_iff_eq]
      omega

/-! ### The changes of the heap as effects -/

theorem Inv.kept (hi : L.Inv h) {k : ι → ℕ} (hw : h'.Wf) (hok : L.Ok h'.objects)
    (hs : L.Same h.objects h'.objects) (hc : ∀ l pl, h'.list l = some pl → L.Counting pl)
    (hd : ∀ o, L.refs h'.objects o + h.slots o = L.refs h.objects o + h'.slots o + k o) :
    L.Kept h h' k :=
  ⟨⟨hw, hok, hc, fun o => by have h1 := hd o; have h2 := hi.covers o; omega⟩, hs, hd⟩

section effects
variable {k : ι → ℕ} (hi : L.Inv h) (hl : h.list l = some pl) (hb : h.block pl.entryList = some b)
  (hcnt : L.Counting pl') (hok : L.Ok w) (hs : L.Same h.objects w)
include hi hl hb hcnt hok hs

theorem effect_moved (he : pl'.entryList = h.blocks.length) (ho : Owns pl' ⟨1, es⟩)
    (hk : ∀ o, L.refs w o + (if b.refCounter = 1 then b.entries.count (some o) else 0) =
      L.refs h.objects o + es.count (some o) + k o) :
    L.Effect h (h.moved l pl pl' b es w) l k (some (pl'.view ⟨1, es⟩)) := by
  have hp' : 0 < pl'.refCount := by rw [hcnt.refCount]; exact Nat.one_pos
  have hself : (h.moved l pl pl' b es w).list l = some pl' := list_moved_self w hl hp'
  have hcounting : ∀ l' q, (h.moved l pl pl' b es w).list l' = some q → L.Counting q := by
    intro l' q hq
    by_cases hne : l' = l
    · subst hne
      rw [hself, Option.some.injEq] at hq
      exact hq ▸ hcnt
    · exact hi.counting l' q ((list_moved_ne w hne) ▸ hq)
  have hdrift : ∀ o, L.refs w o + h.slots o =
      L.refs h.objects o + (h.moved l pl pl' b es w).slots o + k o := by
    intro o
    have h1 := @slots_moved _ _ h l pl pl' b es w _ hb o
    have h2 := hk o
    omega
  refine ⟨hi.kept (wf_moved w hi.wf hl hb hp' he ho) hok hs hcounting hdrift,
    view_eq hself (he ▸ block_moved_new w), fun l' hne => ?_⟩
  cases hq : h.list l' with
  | none => rw [view_eq_none hq, view_eq_none ((list_moved_ne w hne).trans hq)]
  | some q =>
      obtain ⟨b', hb', -⟩ := hi.wf.owned l' q hq
      have hq' : (h.moved l pl pl' b es w).list l' = some q := (list_moved_ne w hne).trans hq
      by_cases hsh : q.entryList = pl.entryList
      · have h1 := hi.wf.one_lt_of_shared hl hb hq hne hsh
        rw [view_eq hq' (hsh ▸ block_moved_old w hb h1), view_eq hq (hsh ▸ hb)]
        rfl
      · rw [view_eq hq' (block_moved_ne w hsh hb'), view_eq hq hb']

theorem effect_written (h1 : b.refCounter = 1) (he : pl'.entryList = pl.entryList)
    (ho : Owns pl' { b with entries := es })
    (hk : ∀ o, L.refs w o + b.entries.count (some o) =
      L.refs h.objects o + es.count (some o) + k o) :
    L.Effect h (h.written l pl pl' b es w) l k (some (pl'.view { b with entries := es })) := by
  have hp' : 0 < pl'.refCount := by rw [hcnt.refCount]; exact Nat.one_pos
  have hself : (h.written l pl pl' b es w).list l = some pl' := list_written_self w hl hp'
  have hcounting : ∀ l' q, (h.written l pl pl' b es w).list l' = some q → L.Counting q := by
    intro l' q hq
    by_cases hne : l' = l
    · subst hne
      rw [hself, Option.some.injEq] at hq
      exact hq ▸ hcnt
    · exact hi.counting l' q ((list_written_ne w hne) ▸ hq)
  have hdrift : ∀ o, L.refs w o + h.slots o =
      L.refs h.objects o + (h.written l pl pl' b es w).slots o + k o := by
    intro o
    have h1 := @slots_written _ _ h l pl pl' b es w _ hb o
    have h2 := hk o
    omega
  refine ⟨hi.kept (wf_written_of_one w hi.wf hl hb h1 hp' he ho) hok hs hcounting hdrift,
    view_eq hself (he ▸ block_written_self w hb), fun l' hne => ?_⟩
  cases hq : h.list l' with
  | none => rw [view_eq_none hq, view_eq_none ((list_written_ne w hne).trans hq)]
  | some q =>
      obtain ⟨b', hb', -⟩ := hi.wf.owned l' q hq
      have hq' : (h.written l pl pl' b es w).list l' = some q := (list_written_ne w hne).trans hq
      have hsh : q.entryList ≠ pl.entryList := fun hsh => by
        have := hi.wf.one_lt_of_shared hl hb hq hne hsh
        omega
      rw [view_eq hq' ((block_written_ne w hsh).trans hb'), view_eq hq hb']

end effects

/-! ### Writability -/

/-- The references that `GWEN_SimplePtrList_EnsureWritability` leaves behind: the block that
only this list used is dropped without detaching from its objects. -/
def leak (fits : ℕ → Bool) (pl : SimplePtrList ω ι) (b : PtrBlock ι) (o : ι) : ℕ :=
  if pl.hasFlag flagsCopyOnWrite = true ∧ copyFits fits pl b = true ∧ b.refCounter = 1 then
    b.entries.count (some o)
  else 0

def Private (h : PtrHeap ω ι) (l : ℕ) : Prop :=
  ∃ pl b, h.list l = some pl ∧ h.block pl.entryList = some b ∧ b.refCounter = 1

theorem count_eq_count_held (ho : Owns pl b) (o : ι) :
    b.entries.count (some o) = (pl.held b).count (some o) := by
  have hrest : (b.entries.drop pl.usedEntries).count (some o) = 0 :=
    List.count_eq_zero.mpr fun hmem => by cases ho.rest _ hmem
  conv_lhs => rw [← List.take_append_drop pl.usedEntries b.entries]
  rw [List.count_append, hrest]
  rfl

theorem count_grow (es : List (Option ι)) (n : ℕ) (o : ι) :
    (grow es n).count (some o) = es.count (some o) := by
  simp [grow, List.count_replicate]

theorem Counting.privatised (hc : L.Counting pl) (a : ℕ) : L.Counting (pl.privatised a) where
  refCount := hc.refCount
  attachFlag := (hasFlag_privatised pl a (by decide)).trans hc.attachFlag
  detachFlag := (hasFlag_privatised pl a (by decide)).trans hc.detachFlag
  attachFn := hc.attachFn
  freeFn := hc.freeFn

theorem attachAll_spec (hi : L.Inv h) (hc : L.Counting pl) (hb : h.block pl.entryList = some b) :
    ∃ w, attachAll pl (pl.held b) h.objects = some w ∧ L.Ok w ∧ L.Same h.objects w ∧
      (∀ q, L.Can h.objects q → L.Can w q) ∧
      ∀ o, L.refs w o = L.refs h.objects o + (pl.held b).count (some o) := by
  rw [attachAll, if_pos hc.attachFlag, hc.attachFn]
  exact forEachPtr_attach hi.ok fun p hp => hi.refs_pos hb (List.mem_of_mem_take hp)

/-- `GWEN_SimplePtrList_EnsureWritability` leaves the list with a block of its own, unless
memory is full. -/
theorem ensureWritability_effect (fits : ℕ → Bool) (hi : L.Inv h) (hl : h.list l = some pl)
    (hb : h.block pl.entryList = some b) (ho : Owns pl b) :
    ∃ rv h', ensureWritability fits h l = some (rv, h') ∧
      L.Effect h h' l (leak fits pl b) (h.view l) ∧ (∀ p, L.Can h.objects p → L.Can h'.objects p) ∧
      (rv = 0 ∧ Private h' l ∨ rv = errorMemoryFull ∧ copyFits fits pl b = false) := by
  have hc := hi.counting l pl hl
  by_cases hcow : pl.hasFlag flagsCopyOnWrite = true
  · by_cases hf : copyFits fits pl b = true
    · obtain ⟨w, hw, hok, hs, hcan, hr⟩ := attachAll_spec hi hc hb
      refine ⟨0, _, ensureWritability_of_cow hl hb ho hcow hf hw, ?_, hcan, Or.inl ⟨rfl, ?_⟩⟩
      · have hused := ho.used_le.trans ho.max_le
        have ho' : Owns (pl.privatised h.blocks.length)
            ⟨1, grow b.entries (pl.maxEntries + pl.steps)⟩ := by
          refine ⟨?_, ?_, rest_grow ho.rest hused, fun h => absurd h (Nat.lt_irrefl 1)⟩
          · simp only [privatised]; have := ho.used_le; omega
          · simp only [privatised, grow, List.length_append, List.length_replicate]; omega
        have hview : h.view l = some ((pl.privatised h.blocks.length).view
            ⟨1, grow b.entries (pl.maxEntries + pl.steps)⟩) := by
          rw [view_eq hl hb]
          simp only [SimplePtrList.view, privatised, held, take_grow hused]
        rw [hview]
        refine effect_moved hi hl hb (hc.privatised _) hok hs rfl ho' fun o => ?_
        rw [hr, count_grow, leak, count_eq_count_held ho]
        simp only [hcow, hf, true_and]
      · exact ⟨_, _, list_moved_self w hl (by rw [(hc.privatised _).refCount]; exact Nat.one_pos),
          block_moved_new w, rfl⟩
    · rw [Bool.not_eq_true] at hf
      refine ⟨errorMemoryFull, h, ensureWritability_of_full hl hb hcow hf, ?_, fun _ hp => hp,
        Or.inr ⟨rfl, hf⟩⟩
      have hk : leak fits pl b = fun _ => 0 := by
        funext o
        simp [leak, hf]
      exact hk ▸ Effect.refl hi
  · have hk : leak fits pl b = fun _ => 0 := by
      funext o
      simp [leak, hcow]
    have h1 : b.refCounter = 1 := by
      have := (block_eq_some.mp hb).2
      have := mt ho.cow hcow
      omega
    exact ⟨0, h, ensureWritability_of_not_cow hl (by simpa using hcow), hk ▸ Effect.refl hi,
      fun _ hp => hp, Or.inl ⟨rfl, pl, b, hl, hb, h1⟩⟩

/-! ### Adding an entry -/

def Roomy (h : PtrHeap ω ι) (l : ℕ) : Prop :=
  ∃ pl b, h.list l = some pl ∧ h.block pl.entryList = some b ∧ b.refCounter = 1 ∧ Owns pl b ∧
    pl.usedEntries < b.entries.length ∧ pl.usedEntries < pl.maxEntries

theorem makeRoom_effect (fits : ℕ → Bool) (hi : L.Inv h) (hl : h.list l = some pl)
    (hb : h.block pl.entryList = some b) (h1 : b.refCounter = 1) :
    ∃ rv h', makeRoom fits h l = some (rv, h') ∧ L.Effect h h' l (fun _ => 0) (h.view l) ∧
      h'.objects = h.objects ∧ (rv = 0 ∧ Roomy h' l ∨
        rv = errorMemoryFull ∧ (pl.steps = 0 ∨ ∃ n, fits n = false)) := by
  obtain ⟨b', hb', ho⟩ := hi.wf.owned l pl hl
  rw [hb, Option.some.injEq] at hb'
  subst hb'
  have hc := hi.counting l pl hl
  have hp : 0 < pl.refCount := by rw [hc.refCount]; exact Nat.one_pos
  have hused := ho.used_le.trans ho.max_le
  rcases Nat.lt_or_ge pl.usedEntries pl.maxEntries with hlt | hle
  · exact ⟨0, h, makeRoom_of_lt hl hlt, Effect.refl hi, rfl,
      Or.inl ⟨rfl, pl, b, hl, hb, h1, ho, hlt.trans_le ho.max_le, hlt⟩⟩
  · rcases Nat.eq_zero_or_pos pl.steps with hs | hs
    · exact ⟨_, h, makeRoom_of_full hl hb hle (Or.inl hs), Effect.refl hi, rfl,
        Or.inr ⟨rfl, Or.inl hs⟩⟩
    rcases Nat.lt_or_ge (pl.maxEntries + pl.steps) b.entries.length with hlen | hlen
    · -- the block has room although the list counts it as full
      have hc' : L.Counting (resized pl pl.entryList) := ⟨hc.1, hc.2, hc.3, hc.4, hc.5⟩
      have ho' : Owns (resized pl pl.entryList) { b with entries := b.entries } := by
        refine ⟨?_, hlen.le, ho.rest, fun h => absurd h (by simp [h1])⟩
        have := ho.used_le
        simp only [resized]
        omega
      have he := effect_written (k := fun _ => 0) hi hl hb hc' hi.ok (L.same_refl _) h1 rfl
        ho' fun o => rfl
      refine ⟨0, _, makeRoom_of_spare hl hb hle hs hlen, ?_, rfl, Or.inl ⟨rfl, ?_⟩⟩
      · rw [view_eq hl hb]
        exact he
      · refine ⟨_, _, list_written_self _ hl hp, block_written_self _ hb, h1, ho', ?_, ?_⟩
        · have := ho.used_le; simp only [resized]; omega
        · have := ho.used_le; simp only [resized]; omega
    · by_cases hf : fits (pl.maxEntries + pl.steps) = true
      · have hc' : L.Counting (resized pl h.blocks.length) := ⟨hc.1, hc.2, hc.3, hc.4, hc.5⟩
        have hlen' : (grow b.entries (pl.maxEntries + pl.steps)).length =
            pl.maxEntries + pl.steps := by
          simp only [grow, List.length_append, List.length_replicate]; omega
        have ho' : Owns (resized pl h.blocks.length)
            ⟨1, grow b.entries (pl.maxEntries + pl.steps)⟩ := by
          refine ⟨?_, hlen'.ge, rest_grow ho.rest hused, fun h => absurd h (Nat.lt_irrefl 1)⟩
          have := ho.used_le
          simp only [resized]
          omega
        have he := effect_moved (k := fun _ => 0) hi hl hb hc' hi.ok (L.same_refl _) rfl
          ho' fun o => by rw [count_grow, if_pos h1, Nat.add_zero]
        refine ⟨0, _, makeRoom_of_grow hl hb hle hs h1 hlen hf, ?_, rfl, Or.inl ⟨rfl, ?_⟩⟩
        · have hview : h.view l = some ((resized pl h.blocks.length).view
              ⟨1, grow b.entries (pl.maxEntries + pl.steps)⟩) := by
            rw [view_eq hl hb]
            simp only [SimplePtrList.view, resized, held, take_grow hused]
          rw [hview]
          exact he
        · have hlt : pl.usedEntries < pl.maxEntries + pl.steps := by
            have := ho.used_le
            omega
          exact ⟨_, _, list_moved_self _ hl hp, block_moved_new _, rfl, ho',
            lt_of_lt_of_eq hlt hlen'.symm, hlt⟩
      · rw [Bool.not_eq_true] at hf
        exact ⟨_, h, makeRoom_of_full hl hb hle (Or.inr ⟨hlen, hf⟩), Effect.refl hi, rfl,
          Or.inr ⟨rfl, Or.inr ⟨_, hf⟩⟩⟩

theorem attachIfAny_spec (hc : L.Counting pl) (hok : L.Ok w) (p : Option ι)
    (hp : ∀ q, p = some q → L.Can w q) :
    ∃ w', attachIfAny pl p w = some w' ∧ L.Ok w' ∧ L.Same w w' ∧ (∀ q, L.Can w q → L.Can w' q) ∧
      ∀ o, L.refs w' o = L.refs w o + if p = some o then 1 else 0 := by
  cases p with
  | none => exact ⟨w, rfl, hok, L.same_refl w, fun _ h => h, fun o => by simp⟩
  | some p =>
      obtain ⟨w', he, h⟩ := L.attach_spec hok (hp p rfl)
      refine ⟨w', ?_, h⟩
      simp only [attachIfAny, hc.attachFlag, if_true, attachToObject, hc.attachFn, he]

theorem detachIfAny_spec (hc : L.Counting pl) (hok : L.Ok w) (p : Option ι)
    (hp : ∀ q, p = some q → 0 < L.refs w q) :
    ∃ w', detachIfAny pl p w = some w' ∧ L.Ok w' ∧ L.Same w w' ∧
      ∀ o, L.refs w' o + (if p = some o then 1 else 0) = L.refs w o := by
  cases p with
  | none => exact ⟨w, rfl, hok, L.same_refl w, fun o => by simp⟩
  | some p =>
      obtain ⟨w', he, h⟩ := L.free_spec hok (hp p rfl)
      refine ⟨w', ?_, h⟩
      simp only [detachIfAny, hc.detachFlag, if_true, detachFromObject, hc.freeFn, he]

/-- `GWEN_SimplePtrList_AddPtr` appends the pointer, unless memory or the table is full. -/
theorem addPtr_effect (fits : ℕ → Bool) (hi : L.Inv h) (hl : h.list l = some pl)
    (hb : h.block pl.entryList = some b) (ho : Owns pl b) (p : Option ι)
    (hp : ∀ q, p = some q → L.Can h.objects q) : ∃ rv h', addPtr fits h l p = some (rv, h') ∧
      (rv = pl.usedEntries ∧ L.Effect h h' l (leak fits pl b)
          (some { pl.view b with held := pl.held b ++ [p] }) ∨
        rv = errorMemoryFull ∧ L.Effect h h' l (leak fits pl b) (h.view l) ∧
          (pl.steps = 0 ∨ ∃ n, fits n = false)) := by
  obtain ⟨rv, h₁, he, heff, hcan, hcase⟩ := ensureWritability_effect fits hi hl hb ho
  rcases hcase with ⟨rfl, pl1, b1, hl1, hb1, h1⟩ | ⟨rfl, hf⟩
  · obtain ⟨rv', h₂, hm, heff', hobj, hcase⟩ := makeRoom_effect fits heff.inv hl1 hb1 h1
    have hv1 : pl1.view b1 = pl.view b := by
      have h1 := heff.view_self
      rw [view_eq hl1 hb1, view_eq hl hb, Option.some.injEq] at h1
      exact h1
    rcases hcase with ⟨rfl, pl2, b2, hl2, hb2, h2, ho2, hlt, hlt'⟩ | ⟨rfl, hf⟩
    · have hv2 : pl2.view b2 = pl.view b := by
        have h1 := heff'.view_self
        rw [view_eq hl2 hb2, view_eq hl1 hb1, Option.some.injEq] at h1
        exact h1.trans hv1
      have hi2 := heff'.inv
      have hc2 := hi2.counting l pl2 hl2
      obtain ⟨w, hw, hok, hs, -, hr⟩ := attachIfAny_spec hc2 hi2.ok p
        fun q hq => hobj.symm ▸ hcan q (hp q hq)
      have hnull : b2.entries[pl2.usedEntries]? = some none := by
        have hmem : b2.entries[pl2.usedEntries] ∈ b2.entries.drop pl2.usedEntries := by
          rw [List.drop_eq_getElem_cons hlt]
          exact List.mem_cons_self
        rw [List.getElem?_eq_getElem hlt, ho2.rest _ hmem]
      have hc' : L.Counting { pl2 with usedEntries := pl2.usedEntries + 1 } :=
        ⟨hc2.1, hc2.2, hc2.3, hc2.4, hc2.5⟩
      have ho' : Owns { pl2 with usedEntries := pl2.usedEntries + 1 }
          { b2 with entries := b2.entries.set pl2.usedEntries p } := by
        refine ⟨hlt', by simpa using ho2.max_le, fun q hq => ?_, fun h => absurd h (by simp [h2])⟩
        rw [List.drop_set_of_lt (Nat.lt_succ_self _)] at hq
        refine ho2.rest q ?_
        rw [List.drop_eq_getElem_cons hlt]
        exact List.mem_cons_of_mem _ hq
      have hlen : (pl.held b).length = pl.usedEntries := by
        have := ho.used_le.trans ho.max_le
        simp only [held, List.length_take]
        omega
      have hused : pl2.usedEntries = pl.usedEntries := by
        have hh := congrArg (fun v => v.held.length) hv2
        have := ho2.used_le.trans ho2.max_le
        simp only [SimplePtrList.view, hlen] at hh
        simp only [held, List.length_take] at hh
        omega
      have hadd := effect_written (k := fun _ => 0) hi2 hl2 hb2 hc' hok hs h2 rfl ho'
        fun o => by
          have h3 := count_set_add hnull p o
          simp only [reduceCtorEq, if_false] at h3
          rw [hr]
          omega
      refine ⟨_, _, addPtr_eq he (by simp) hm (by simp) hl2 hb2 hlt hw,
        Or.inl ⟨by rw [hused], ?_⟩⟩
      have hview : some ((SimplePtrList.view { pl2 with usedEntries := pl2.usedEntries + 1 })
          { b2 with entries := b2.entries.set pl2.usedEntries p }) =
          some { pl.view b with held := pl.held b ++ [p] } := by
        rw [← show (pl2.view b2).held = pl.held b from congrArg View.held hv2, ← hv2]
        simp only [SimplePtrList.view, held, take_set_length hlt]
      rw [hview] at hadd
      exact (heff.trans (heff'.trans hadd))
    · have hsteps : pl1.steps = pl.steps := congrArg View.steps hv1
      have htot := heff.trans heff'
      rw [heff.view_self] at htot
      refine ⟨errorMemoryFull, h₂, ?_, Or.inr ⟨rfl, htot, hsteps ▸ hf⟩⟩
      simp [addPtr, he, hm]
  · refine ⟨errorMemoryFull, h₁, ?_, Or.inr ⟨rfl, heff, Or.inr ⟨_, hf⟩⟩⟩
    simp [addPtr, he]

/-! ### Replacing an entry -/

/-- `GWEN_SimplePtrList_SetPtrAt` replaces a used entry, unless memory is full. -/
theorem setPtrAt_effect (fits : ℕ → Bool) (hi : L.Inv h) (hl : h.list l = some pl)
    (hb : h.block pl.entryList = some b) (ho : Owns pl b) {idx : ℕ}
    (hidx : idx < pl.usedEntries) (p : Option ι) (hp : ∀ q, p = some q → L.Can h.objects q) :
    ∃ rv h', setPtrAt fits h l idx p = some (rv, h') ∧ (rv = 0 ∧ L.Effect h h' l (leak fits pl b)
          (some { pl.view b with held := (pl.held b).set idx p }) ∨
        rv = errorMemoryFull ∧ L.Effect h h' l (leak fits pl b) (h.view l) ∧
          ∃ n, fits n = false) := by
  obtain ⟨rv, h₁, he, heff, hcan, hcase⟩ := ensureWritability_effect fits hi hl hb ho
  rcases hcase with ⟨rfl, pl1, b1, hl1, hb1, h1⟩ | ⟨rfl, hf⟩
  · have hv1 : pl1.view b1 = pl.view b := by
      have h1 := heff.view_self
      rw [view_eq hl1 hb1, view_eq hl hb, Option.some.injEq] at h1
      exact h1
    have hi1 := heff.inv
    have hc1 := hi1.counting l pl1 hl1
    obtain ⟨b', hb', ho1⟩ := hi1.wf.owned l pl1 hl1
    rw [hb1, Option.some.injEq] at hb'
    subst hb'
    have hidx1 : idx < b1.entries.length := by
      have hh := congrArg (fun v => v.held.length) hv1
      have := ho.used_le.trans ho.max_le
      simp only [SimplePtrList.view, held, List.length_take] at hh
      omega
    obtain ⟨w, hw, hok, hs, -, hr⟩ := attachIfAny_spec hc1 hi1.ok p fun q hq => hcan q (hp q hq)
    have hold : b1.entries[idx]? = some b1.entries[idx] := List.getElem?_eq_getElem hidx1
    obtain ⟨w', hw', hok', hs', hr'⟩ := detachIfAny_spec hc1 hok b1.entries[idx] fun q hq => by
      have := hi1.refs_pos hb1 (hq ▸ List.getElem_mem hidx1)
      rw [hr]
      omega
    have ho' : Owns pl1 { b1 with entries := b1.entries.set idx p } := by
      have hlt : idx < pl1.usedEntries := by
        have hh := congrArg (fun v => v.held.length) hv1
        have := ho.used_le.trans ho.max_le
        have := ho1.used_le.trans ho1.max_le
        simp only [SimplePtrList.view, held, List.length_take] at hh
        omega
      refine ⟨ho1.used_le, by simpa using ho1.max_le, fun q hq => ?_, ho1.cow⟩
      rw [List.drop_set_of_lt hlt] at hq
      exact ho1.rest q hq
    have hset := effect_written (k := fun _ => 0) hi1 hl1 hb1 hc1 hok' (L.same_trans hs hs') h1 rfl
      ho' fun o => by
        have h2 := hr o
        have h3 := hr' o
        have h4 := count_set_add hold p o
        omega
    refine ⟨0, _, setPtrAt_eq hl hidx he (by simp) hl1 hb1 hold hw hw', Or.inl ⟨rfl, ?_⟩⟩
    have hview : some (pl1.view { b1 with entries := b1.entries.set idx p }) =
        some { pl.view b with held := (pl.held b).set idx p } := by
      rw [← show (pl1.view b1).held = pl.held b from congrArg View.held hv1, ← hv1]
      simp only [SimplePtrList.view, held, List.take_set]
    rw [hview] at hset
    exact heff.trans hset
  · refine ⟨errorMemoryFull, h₁, ?_, Or.inr ⟨rfl, heff, _, hf⟩⟩
    simp [setPtrAt, hl, hidx, he]

/-! ### Copying, clearing and freeing a list -/

theorem Counting.addFlag (hc : L.Counting pl) (f : UInt32) (n : ℕ) :
    L.Counting { pl with refCount := 1, userCounter := n, flags := pl.flags ||| f } where
  refCount := rfl
  attachFlag := hasFlag_or_of_hasFlag _ hc.attachFlag
  detachFlag := hasFlag_or_of_hasFlag _ hc.detachFlag
  attachFn := hc.attachFn
  freeFn := hc.freeFn

/-- `GWEN_SimplePtrList_LazyCopy` makes a list that holds the same pointers, with counter 0. -/
theorem lazyCopy_spec (hi : L.Inv h) (hl : h.list l = some pl)
    (hb : h.block pl.entryList = some b) :
    ∃ h', lazyCopy h l = some (h.lists.length, h') ∧ L.Kept h h' (fun _ => 0) ∧
      h'.view h.lists.length = some { pl.view b with userCounter := 0 } ∧
      ∀ l', l' ≠ h.lists.length → h'.view l' = h.view l' := by
  have hc := hi.counting l pl hl
  have hcounting : ∀ l' q, (h.shared l pl b).list l' = some q → L.Counting q := by
    intro l' q hq
    by_cases hne : l' = l
    · subst hne
      rw [list_shared_self hl, Option.some.injEq] at hq
      have := hc.addFlag flagsCopyOnWrite pl.userCounter
      rw [← hq]
      exact ⟨hc.1, this.2, this.3, this.4, this.5⟩
    · by_cases hnew : l' = h.lists.length
      · subst hnew
        rw [list_shared_new, Option.some.injEq] at hq
        exact hq ▸ hc.addFlag flagsCopyOnWrite 0
      · exact hi.counting l' q ((list_shared_ne hne hnew) ▸ hq)
  refine ⟨_, lazyCopy_eq hl hb, hi.kept (wf_shared hi.wf hl hb) hi.ok (L.same_refl _) hcounting
    (fun o => ?_), ?_, fun l' hnew => ?_⟩
  · rw [slots_shared hb]
    rfl
  · rw [view_eq list_shared_new (block_shared_self hb)]
    rfl
  · cases hq : h.list l' with
    | none =>
        have hne : l' ≠ l := by
          rintro rfl
          rw [hl] at hq
          cases hq
        rw [view_eq_none hq, view_eq_none ((list_shared_ne hne hnew).trans hq)]
    | some q =>
        obtain ⟨b', hb', -⟩ := hi.wf.owned l' q hq
        by_cases hne : l' = l
        · subst hne
          rw [hl, Option.some.injEq] at hq
          subst hq
          rw [view_eq (list_shared_self hl) (block_shared_self hb), view_eq hl hb]
          rfl
        · have hq' : (h.shared l pl b).list l' = some q := (list_shared_ne hne hnew).trans hq
          by_cases hs : q.entryList = pl.entryList
          · rw [view_eq hq' (hs ▸ block_shared_self hb), view_eq hq (hs ▸ hb)]
            rfl
          · rw [view_eq hq' ((block_shared_ne hs).trans hb'), view_eq hq hb']

theorem detachAll_spec (hi : L.Inv h) (hc : L.Counting pl) (hb : h.block pl.entryList = some b)
    (ho : Owns pl b) :
    ∃ w, detachAll pl (pl.held b) h.objects = some w ∧ L.Ok w ∧ L.Same h.objects w ∧
      ∀ o, L.refs w o + b.entries.count (some o) = L.refs h.objects o := by
  rw [detachAll, if_pos hc.detachFlag, hc.freeFn]
  obtain ⟨w, hw, hok, hs, hr⟩ := @forEachPtr_free _ _ _ L (pl.held b) _ hi.ok fun o => by
    obtain ⟨hg, hp⟩ := block_eq_some.mp hb
    have hle := le_total (fun b => if 0 < b.refCounter then b.entries.count (some o) else 0) hg
    have hcov := hi.covers o
    simp only [hp, if_true] at hle
    rw [← count_eq_count_held ho]
    rw [slots] at hcov
    omega
  exact ⟨w, hw, hok, hs, fun o => by rw [count_eq_count_held ho]; exact hr o⟩

/-- `GWEN_SimplePtrList_Clear` sets the entries of the list to NULL; lists that share the block
lose theirs too. -/
theorem clear_spec (hi : L.Inv h) (hl : h.list l = some pl) (hb : h.block pl.entryList = some b)
    (ho : Owns pl b) : ∃ h', clear h l = some h' ∧ L.Kept h h' (fun _ => 0) ∧
      h'.view l = some { pl.view b with held := List.replicate (pl.held b).length none } ∧
      (b.refCounter = 1 ∨ (∀ p ∈ pl.held b, p = none) →
        ∀ l', l' ≠ l → h'.view l' = h.view l') := by
  have hc := hi.counting l pl hl
  have hp : 0 < pl.refCount := by rw [hc.refCount]; exact Nat.one_pos
  have hused := ho.used_le.trans ho.max_le
  obtain ⟨w, hw, hok, hs, hr⟩ := detachAll_spec hi hc hb ho
  have hnone : ∀ p ∈ List.replicate pl.usedEntries none ++ b.entries.drop pl.usedEntries,
      p = none := by
    intro p hp
    rcases List.mem_append.mp hp with hp | hp
    · exact (List.mem_replicate.mp hp).2
    · exact ho.rest p hp
  have hlen : (List.replicate pl.usedEntries (none : Option ι) ++
      b.entries.drop pl.usedEntries).length = b.entries.length := by
    simp only [List.length_append, List.length_replicate, List.length_drop]
    omega
  have hheld : (pl.held b).length = pl.usedEntries := by
    simp only [held, List.length_take]
    omega
  have hcounting : ∀ l' q, (h.written l pl pl b
      (List.replicate pl.usedEntries none ++ b.entries.drop pl.usedEntries) w).list l' =
      some q → L.Counting q := by
    intro l' q hq
    by_cases hne : l' = l
    · subst hne
      rw [list_written_self w hl hp, Option.some.injEq] at hq
      exact hq ▸ hc
    · exact hi.counting l' q ((list_written_ne w hne) ▸ hq)
  -- the cleared block holds NULL everywhere, which fits every list that uses it
  have howns : ∀ q : SimplePtrList ω ι, Owns q b → Owns q { b with
      entries := List.replicate pl.usedEntries none ++ b.entries.drop pl.usedEntries } :=
    fun q hq => ⟨hq.used_le, hq.max_le.trans_eq hlen.symm,
      fun p hp => hnone p (List.mem_of_mem_drop hp), hq.cow⟩
  have hwf := wf_written w hi.wf hl hb hp rfl (howns pl ho) fun l' q _ hq hsh => by
    obtain ⟨b', hb', ho'⟩ := hi.wf.owned l' q hq
    rw [hsh, hb, Option.some.injEq] at hb'
    exact howns q (hb' ▸ ho')
  refine ⟨_, clear_eq hl hb ho hw, hi.kept hwf hok hs hcounting fun o => ?_, ?_, fun h1 l' hne => ?_⟩
  · have h1 := @slots_written _ _ h l pl pl b
      (List.replicate pl.usedEntries none ++ b.entries.drop pl.usedEntries) w _ hb o
    have h2 := hr o
    have h3 : (List.replicate pl.usedEntries none ++ b.entries.drop pl.usedEntries).count
        (some o) = 0 := List.count_eq_zero.mpr fun hmem => by cases hnone _ hmem
    change L.refs w o + h.slots o = _
    omega
  · rw [view_eq (list_written_self w hl hp) (block_written_self w hb), hheld]
    simp only [SimplePtrList.view, held]
    rw [List.take_append_of_le_length (by simp), List.take_of_length_le (by simp)]
  · cases hq : h.list l' with
    | none => rw [view_eq_none hq, view_eq_none ((list_written_ne w hne).trans hq)]
    | some q =>
        obtain ⟨b', hb', -⟩ := hi.wf.owned l' q hq
        have hq' : (h.written l pl pl b (List.replicate pl.usedEntries none ++
            b.entries.drop pl.usedEntries) w).list l' = some q := (list_written_ne w hne).trans hq
        by_cases hsh : q.entryList = pl.entryList
        · have hlt := hi.wf.one_lt_of_shared hl hb hq hne hsh
          rcases h1 with h1 | h1
          · omega
          · have hes : List.replicate pl.usedEntries none ++ b.entries.drop pl.usedEntries =
                b.entries := by
              have hh : List.replicate pl.usedEntries none = pl.held b := by
                rw [← hheld]
                exact (List.eq_replicate_of_mem h1).symm
              rw [hh]
              exact List.take_append_drop pl.usedEntries b.entries
            rw [view_eq hq' (hsh ▸ block_written_self w hb), view_eq hq (hsh ▸ hb)]
            simp only [hes]
        · rw [view_eq hq' ((block_written_ne w hsh).trans hb'), view_eq hq hb']

/-- `GWEN_SimplePtrList_free` detaches from the objects with the last list on the block. -/
theorem free_effect (hi : L.Inv h) (hl : h.list l = some pl) (hb : h.block pl.entryList = some b)
    (ho : Owns pl b) :
    ∃ h', SimplePtrList.free h l = some h' ∧ L.Effect h h' l (fun _ => 0) none := by
  have hc := hi.counting l pl hl
  have heff : ∀ w, L.Ok w → L.Same h.objects w → (∀ o, L.refs w o +
      (if b.refCounter = 1 then b.entries.count (some o) else 0) = L.refs h.objects o) →
      L.Effect h (h.released l pl b w) l (fun _ => 0) none := by
    intro w hok hs hr
    refine ⟨hi.kept (wf_released w hi.wf hl hb) hok hs (fun l' q hq => ?_) (fun o => ?_),
      view_eq_none (list_released_self w), fun l' hne => ?_⟩
    · by_cases hne : l' = l
      · subst hne
        rw [list_released_self] at hq
        cases hq
      · exact hi.counting l' q ((list_released_ne w hne) ▸ hq)
    · have h1 := slots_released (l := l) w hb o
      have h2 := hr o
      change L.refs w o + h.slots o = _
      omega
    · cases hq : h.list l' with
      | none => rw [view_eq_none hq, view_eq_none ((list_released_ne w hne).trans hq)]
      | some q =>
          obtain ⟨b', hb', -⟩ := hi.wf.owned l' q hq
          have hq' : (h.released l pl b w).list l' = some q := (list_released_ne w hne).trans hq
          by_cases hsh : q.entryList = pl.entryList
          · have hlt := hi.wf.one_lt_of_shared hl hb hq hne hsh
            rw [view_eq hq' (hsh ▸ block_released_old w hb hlt), view_eq hq (hsh ▸ hb)]
            rfl
          · rw [view_eq hq' ((block_released_ne w hsh).trans hb'), view_eq hq hb']
  by_cases h1 : b.refCounter = 1
  · obtain ⟨w, hw, hok, hs, hr⟩ := detachAll_spec hi hc hb ho
    exact ⟨_, free_of_one hl hb ho hc.refCount h1 hw, heff w hok hs fun o => by
      rw [if_pos h1]; exact hr o⟩
  · exact ⟨_, free_of_shared hl hb hc.refCount h1, heff _ hi.ok (L.same_refl _) fun o => by
      rw [if_neg h1]; rfl⟩

/-! ### The user counter -/

theorem counter_effect (hi : L.Inv h) (hl : h.list l = some pl)
    (hb : h.block pl.entryList = some b) (ho : Owns pl b) (n : ℕ) :
    L.Effect h (h.setList l { pl with userCounter := n }) l (fun _ => 0)
      (some { pl.view b with userCounter := n }) := by
  have hc := hi.counting l pl hl
  have hp : 0 < pl.refCount := by rw [hc.refCount]; exact Nat.one_pos
  have hview : ({ pl.view b with userCounter := n } : View ι) =
      SimplePtrList.view { pl with userCounter := n } b := rfl
  have hcnt : L.Counting { pl with userCounter := n } := ⟨hc.1, hc.2, hc.3, hc.4, hc.5⟩
  have hown : Owns { pl with userCounter := n } b := ⟨ho.1, ho.2, ho.3, ho.4⟩
  have hp' : 0 < SimplePtrList.refCount { pl with userCounter := n } := hp
  have he' : SimplePtrList.entryList { pl with userCounter := n } = pl.entryList := rfl
  rw [hview]
  generalize ({ pl with userCounter := n } : SimplePtrList ω ι) = pl' at hcnt hown hp' he' ⊢
  have hset : h.setList l pl' = h.written l pl pl' b b.entries h.objects := by
    obtain ⟨hlt, he⟩ := List.getElem?_eq_some_iff.mp (block_eq_some.mp hb).1
    rw [setList, written, ← he, List.set_getElem_self]
  have hwf := wf_written h.objects hi.wf hl hb hp' he' hown fun l' q _ hq hsh => by
    obtain ⟨b', hb', ho'⟩ := hi.wf.owned l' q hq
    rw [hsh, hb, Option.some.injEq] at hb'
    exact hb' ▸ ho'
  rw [hset]
  refine ⟨hi.kept hwf hi.ok (L.same_refl _) (fun l' q hq => ?_) (fun o => ?_),
    view_eq (list_written_self _ hl hp') (he' ▸ block_written_self _ hb), fun l' hne => ?_⟩
  · by_cases hne : l' = l
    · subst hne
      rw [list_written_self _ hl hp', Option.some.injEq] at hq
      exact hq ▸ hcnt
    · exact hi.counting l' q ((list_written_ne _ hne) ▸ hq)
  · have h1 := @slots_written _ _ h l pl pl' b b.entries h.objects _ hb o
    change L.refs h.objects o + h.slots o = _
    omega
  · cases hq : h.list l' with
    | none => rw [view_eq_none hq, view_eq_none ((list_written_ne _ hne).trans hq)]
    | some q =>
        obtain ⟨b', hb', -⟩ := hi.wf.owned l' q hq
        have hq' : (h.written l pl pl' b b.entries h.objects).list l' = some q :=
          (list_written_ne _ hne).trans hq
        by_cases hsh : q.entryList = pl.entryList
        · rw [view_eq hq' (hsh ▸ block_written_self _ hb), view_eq hq (hsh ▸ hb)]
        · rw [view_eq hq' ((block_written_ne _ hsh).trans hb'), view_eq hq hb']

theorem Inv.withObjects (hi : L.Inv h) (hok : L.Ok w) (hc : ∀ o, h.slots o ≤ L.refs w o) :
    L.Inv { h with objects := w } :=
  ⟨⟨hi.wf.counted, hi.wf.owned⟩, hok, hi.counting, hc⟩

/-! ### Making a list -/

theorem added_effect (hi : L.Inv h) {n : ℕ} (hc : L.Counting pl)
    (he : pl.entryList = h.blocks.length) (hu : pl.usedEntries = 0) (hm : pl.maxEntries = n) :
    L.Effect h (h.added pl n) h.lists.length (fun _ => 0)
      (some ⟨[], pl.steps, pl.userIntData, pl.userCounter⟩) := by
  have hp : 0 < pl.refCount := by rw [hc.refCount]; exact Nat.one_pos
  refine ⟨hi.kept (wf_added hi.wf hp he hu hm) hi.ok (L.same_refl _) (fun l q hq => ?_)
    (fun o => ?_), ?_, fun l hne => ?_⟩
  · by_cases hne : l = h.lists.length
    · subst hne
      rw [list_added_new hp, Option.some.injEq] at hq
      exact hq ▸ hc
    · exact hi.counting l q ((list_added_ne hne) ▸ hq)
  · rw [slots_added]
    rfl
  · rw [view_eq (list_added_new hp) (he ▸ block_added_new)]
    simp only [SimplePtrList.view, held, hu, List.take_zero]
  · cases hq : h.list l with
    | none => rw [view_eq_none hq, view_eq_none ((list_added_ne hne).trans hq)]
    | some q =>
        obtain ⟨b, hb, -⟩ := hi.wf.owned l q hq
        rw [view_eq ((list_added_ne hne).trans hq) (block_added_of_block hb), view_eq hq hb]

theorem inv_empty {w : ω} (hok : L.Ok w) : L.Inv (⟨[], [], w⟩ : PtrHeap ω ι) :=
  ⟨wf_empty w, hok, fun _ _ hq => by simp [list] at hq, fun _ => Nat.zero_le _⟩

end

end Ledger
end Gwenhywfar
