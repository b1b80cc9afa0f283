import Gwenhywfar.Base.ListCopies
import Gwenhywfar.Lib.Run

/-! # `GWEN_LIST` refines sequences that are copied at once

* `ListRun.step` executes the operations on the heap, `ListSpec.step` on a sequence for each list.
  After an erasure both tell what the iterator has still to read.
* `ListOp.Fits`: a list is not cleared while it is shared, and what is erased or removed has link
  count 1 and can be found.
* In a run whose operations fit, every list is seen as its sequence after every step
  (`seen_of_fits`). -/

namespace Gwenhywfar

open Function

/-- The operations on the lists, which are told by their numbers. -/
inductive ListOp where
  | new
  | dup (l : ℕ)
  | pushBack (l p : ℕ)
  | pushFront (l p : ℕ)
  | popBack (l : ℕ)
  | popFront (l : ℕ)
  | clear (l : ℕ)
  | unshare (l : ℕ)
  | remove (l p : ℕ)
  | erase (l : ℕ) (start : ListEnd) (ms : List ListMove)
  | incLinkCount (l : ℕ) (start : ListEnd) (ms : List ListMove)
deriving DecidableEq

/-! ### Runs on the heap -/

/-- The heap, and what the iterator of the last erasure has still to read. -/
structure ListRun where
  heap : ListHeap
  read : List ListItem

namespace ListHeap

def eraseAt (h : ListHeap) (l : ℕ) (start : ListEnd) (ms : List ListMove) : Option ListRun := do
  let lp ← h.lists[l]?
  let it ← h.iterAt lp start ms
  let it' ← it.2.erase l it.1
  some ⟨it'.2.release it'.1, it'.2.readAll it'.2.next it'.2.entries it'.1⟩

/-- `GWEN_ListIterator_IncLinkCount`. -/
def incLinkCount (h : ListHeap) : Option ℕ → ListHeap
  | none => h
  | some le => { h with linkCount := update h.linkCount le (h.linkCount le + 1) }

def incLinkCountAt (h : ListHeap) (l : ℕ) (start : ListEnd) (ms : List ListMove) :
    Option ListHeap := do
  let lp ← h.lists[l]?
  let it ← h.iterAt lp start ms
  some ((it.2.incLinkCount it.1).release it.1)

end ListHeap

namespace ListRun

/-- No list yet. -/
def init : ListRun := ⟨ListHeap.empty, []⟩

/-- One operation on the heap. -/
def step (s : ListRun) : ListOp → Option ListRun
  | .new => some ⟨s.heap.new, []⟩
  | .dup l => (s.heap.dup l).map fun h => ⟨h, []⟩
  | .pushBack l p => (s.heap.pushBack l p).map fun h => ⟨h, []⟩
  | .pushFront l p => (s.heap.pushFront l p).map fun h => ⟨h, []⟩
  | .popBack l => (s.heap.popBack l).map fun h => ⟨h, []⟩
  | .popFront l => (s.heap.popFront l).map fun h => ⟨h, []⟩
  | .clear l => (s.heap.clear l).map fun h => ⟨h, []⟩
  | .unshare l => (s.heap.unshare l).map fun h => ⟨h, []⟩
  | .remove l p => (s.heap.remove l p).map fun h => ⟨h, []⟩
  | .erase l start ms => s.heap.eraseAt l start ms
  | .incLinkCount l start ms => (s.heap.incLinkCountAt l start ms).map fun h => ⟨h, []⟩

end ListRun

/-! ### Runs on sequences -/

/-- A sequence for each list, and the rest behind the last erasure. -/
structure ListSpec where
  lists : List (List ListItem)
  read : List ListItem
deriving DecidableEq

namespace ListSpec

def startPos (n : ℕ) : ListEnd → ℕ
  | .first => 0
  | .last => n - 1

/-- Where an iterator moves to; it stays behind an end that it has passed. -/
def movePos (n : ℕ) : Option ℕ → ListMove → Option ℕ
  | none, _ => none
  | some i, .next => if i + 1 < n then some (i + 1) else none
  | some i, .previous => if i = 0 then none else some (i - 1)

/-- Where an iterator is after its moves. -/
def posAt (n : ℕ) (start : ListEnd) (ms : List ListMove) : Option ℕ :=
  ms.foldl (movePos n) (some (startPos n start))

/-- The item at a position goes, or has one link less. -/
def eraseItem (items : List ListItem) (i : ℕ) : List ListItem :=
  match items[i]? with
  | none => items
  | some x => if x.2 = 1 then items.eraseIdx i else items.set i (x.1, x.2 - 1)

/-- The first item with the data `p` goes, or has one link less. -/
def removeItem (items : List ListItem) (p : ℕ) : List ListItem :=
  match items.findIdx? fun x => x.1 = p with
  | none => items
  | some i => eraseItem items i

/-- The sequence of one list takes another value. -/
def write (s : ListSpec) (l : ℕ) (f : List ListItem → List ListItem) : Option ListSpec :=
  (s.lists[l]?).map fun items => ⟨s.lists.set l (f items), []⟩

/-- One operation on the sequences. -/
def step (s : ListSpec) : ListOp → Option ListSpec
  | .new => some ⟨s.lists ++ [[]], []⟩
  | .dup l => (s.lists[l]?).map fun items => ⟨s.lists ++ [items], []⟩
  | .pushBack l p => s.write l fun items => items ++ [(p, 1)]
  | .pushFront l p => s.write l fun items => (p, 1) :: items
  | .popBack l => s.write l List.dropLast
  | .popFront l => s.write l List.tail
  | .clear l => s.write l fun _ => []
  | .unshare l => s.write l id
  | .remove l p => s.write l fun items => removeItem items p
  | .erase l start ms => (s.lists[l]?).bind fun items =>
      if items = [] then none
      else match posAt items.length start ms with
        | none => some ⟨s.lists, []⟩
        | some i => some ⟨s.lists.set l (eraseItem items i), items.drop (i + 1)⟩
  | .incLinkCount l start ms => (s.lists[l]?).bind fun items =>
      if items = [] then none
      else match posAt items.length start ms with
        | none => some ⟨s.lists, []⟩
        | some i => some ⟨s.lists.set l (items.modify i fun x => (x.1, x.2 + 1)), []⟩

end ListSpec

/-! ### What is claimed and when -/

/-- A list is seen as a sequence. -/
structure SeenAs (h : ListHeap) (l : ℕ) (items : List ListItem) : Prop where
  size : h.getSize l = some items.length
  front : h.getFront l = some ((items.head?.map Prod.fst).getD 0)
  back : h.getBack l = some ((items.getLast?.map Prod.fst).getD 0)
  forward : h.forward l = some items
  backward : h.backward l = some items.reverse

/-- Every list is seen as its sequence, and the iterator reads what is behind the erasure. -/
structure Seen (s : ListRun) (r : ListSpec) : Prop where
  count : s.heap.lists.length = r.lists.length
  list : ∀ l items, r.lists[l]? = some items → SeenAs s.heap l items
  read : s.read = r.read

namespace ListHeap

/-- Another list uses the same list pointer. -/
def shared (h : ListHeap) (l : ℕ) : Bool :=
  match h.lists[l]? with
  | none => false
  | some lp => 1 < h.refCount lp

def items (h : ListHeap) (l : ℕ) : List ListItem := (h.forward l).getD []

end ListHeap

/-- The items before the first one with the data `p` have data, and that one has link count 1. -/
def Removable (items : List ListItem) (p : ℕ) : Prop :=
  match items.findIdx? fun x => x.1 = p with
  | none => True
  | some i => p ≠ 0 ∧ (∀ x ∈ items.take i, x.1 ≠ 0) ∧ (items[i]?).map Prod.snd = some 1

instance (items : List ListItem) (p : ℕ) : Decidable (Removable items p) :=
  match h : items.findIdx? fun x => x.1 = p with
  | none => isTrue (by rw [Removable, h]; trivial)
  | some i => decidable_of_iff
      (p ≠ 0 ∧ (∀ x ∈ items.take i, x.1 ≠ 0) ∧ (items[i]?).map Prod.snd = some 1)
      (by rw [Removable, h])

/-- There is an iterator; it has not passed an end of a shared list, and the entry it stands at has
link count 1. -/
def Erasable (shared : Bool) (items : List ListItem) (start : ListEnd) (ms : List ListMove) :
    Prop :=
  items ≠ [] ∧ match ListSpec.posAt items.length start ms with
    | none => shared = false
    | some i => (items[i]?).map Prod.snd = some 1

instance (shared : Bool) (items : List ListItem) (start : ListEnd) (ms : List ListMove) :
    Decidable (Erasable shared items start ms) :=
  match h : ListSpec.posAt items.length start ms with
  | none => decidable_of_iff (items ≠ [] ∧ shared = false) (by rw [Erasable, h])
  | some i => decidable_of_iff (items ≠ [] ∧ (items[i]?).map Prod.snd = some 1)
      (by rw [Erasable, h])

/-- The operation names a list, is done with an iterator if it takes one, and goes none of the
ways on which the code does not do what it is for. -/
def ListOp.Fits (s : ListRun) : ListOp → Prop
  | .new => True
  | .dup l | .pushBack l _ | .pushFront l _ | .popBack l | .popFront l | .unshare l =>
      l < s.heap.lists.length
  | .clear l => l < s.heap.lists.length ∧ (s.heap.shared l → s.heap.items l = [])
  | .remove l p => l < s.heap.lists.length ∧ Removable (s.heap.items l) p
  | .erase l start ms =>
      l < s.heap.lists.length ∧ Erasable (s.heap.shared l) (s.heap.items l) start ms
  | .incLinkCount l _ _ =>
      l < s.heap.lists.length ∧ s.heap.items l ≠ [] ∧ s.heap.shared l = false

instance ListOp.decidableFits (s : ListRun) : (o : ListOp) → Decidable (o.Fits s)
  | .new => inferInstanceAs (Decidable True)
  | .dup l | .pushBack l _ | .pushFront l _ | .popBack l | .popFront l | .unshare l =>
      inferInstanceAs (Decidable (l < s.heap.lists.length))
  | .clear l => inferInstanceAs
      (Decidable (l < s.heap.lists.length ∧ (s.heap.shared l → s.heap.items l = [])))
  | .remove l p => inferInstanceAs
      (Decidable (l < s.heap.lists.length ∧ Removable (s.heap.items l) p))
  | .erase l start ms => inferInstanceAs (Decidable
      (l < s.heap.lists.length ∧ Erasable (s.heap.shared l) (s.heap.items l) start ms))
  | .incLinkCount l _ _ => inferInstanceAs (Decidable
      (l < s.heap.lists.length ∧ s.heap.items l ≠ [] ∧ s.heap.shared l = false))

/-! ### The representation of the sequences -/

/-- The sequences are what the list pointers of the lists hold; every list pointer counts the lists
that use it. -/
structure Rep (h : ListHeap) (seqs : ℕ → List ℕ) (ls : List (List ListItem)) : Prop where
  links : h.Links seqs
  counted : ∀ p, h.refCount p = h.lists.count p
  known : ∀ p ∈ h.lists, p < h.listPtrs
  items : ls = h.lists.map fun p => (seqs p).map h.item

theorem map_eq_set {α β : Type} [DecidableEq α] {f g : α → β} : ∀ {as : List α} {i : ℕ} {a : α},
    as[i]? = some a → as.count a ≤ 1 → (∀ b, b ≠ a → g b = f b) →
    as.map g = (as.map f).set i (g a)
  | [], i, a, hi, _, _ => by simp at hi
  | b :: as, 0, a, hi, hc, hg => by
      obtain rfl : b = a := by simpa using hi
      have ha : b ∉ as := by
        rw [List.count_cons_self] at hc
        exact List.count_eq_zero.mp (by omega)
      rw [List.map_cons, List.map_cons, List.set_cons_zero]
      congr 1
      exact List.map_congr_left fun c hc => hg c fun he => ha (he ▸ hc)
  | b :: as, i + 1, a, hi, hc, hg => by
      rw [List.getElem?_cons_succ] at hi
      have hpos : 0 < as.count a := List.count_pos_iff.mpr (List.mem_of_getElem? hi)
      have hba : b ≠ a := by
        rintro rfl
        rw [List.count_cons_self] at hc
        omega
      rw [List.count_cons_of_ne hba] at hc
      rw [List.map_cons, List.map_cons, List.set_cons_succ, map_eq_set hi hc hg, hg b hba]

namespace Rep

variable {h h' : ListHeap} {seqs : ℕ → List ℕ} {ls : List (List ListItem)} {l lp le : ℕ}
  {l1 : List ℕ} {items : List ListItem}

theorem length_eq (hr : Rep h seqs ls) : ls.length = h.lists.length := by
  rw [hr.items, List.length_map]

theorem getElem? (hr : Rep h seqs ls) (hl : h.lists[l]? = some lp) :
    ls[l]? = some ((seqs lp).map h.item) := by
  rw [hr.items, List.getElem?_map, hl, Option.map_some]

theorem exists_listPtr (hr : Rep h seqs ls) (hl : ls[l]? = some items) :
    ∃ lp, h.lists[l]? = some lp ∧ items = (seqs lp).map h.item := by
  rw [hr.items, List.getElem?_map, Option.map_eq_some_iff] at hl
  obtain ⟨lp, hlp, rfl⟩ := hl
  exact ⟨lp, hlp, rfl⟩

theorem write (hr : Rep h seqs ls) (hl : h.lists[l]? = some lp) (hc : h.refCount lp ≤ 1)
    (hk : h'.Links (update seqs lp l1)) (ht : h.Touches h' lp (seqs lp)) :
    Rep h' (update seqs lp l1) (ls.set l (l1.map h'.item)) where
  links := hk
  counted p := by rw [ht.refCount, ht.lists, hr.counted]
  known p hp := by
    rw [ht.lists] at hp
    rw [ht.listPtrs]
    exact hr.known p hp
  items := by
    rw [hr.counted] at hc
    have hm := map_eq_set (f := fun p => (seqs p).map h.item)
      (g := fun p => (update seqs lp l1 p).map h'.item) hl hc fun q hq => by
        simp only [update_of_ne hq]
        exact hr.links.items_of_ne ht hq
    rw [hr.items, ht.lists, hm]
    simp only [update_self]

theorem new (hr : Rep h seqs ls) : Rep h.new (update seqs h.listPtrs []) (ls ++ [[]]) where
  links := ⟨hr.links.listPtrNew.list, hr.links.listPtrNew.apart, hr.links.listPtrNew.bound,
    hr.links.listPtrNew.used, hr.links.listPtrNew.size⟩
  counted p := by
    have hn : h.listPtrs ∉ h.lists := fun hn => (hr.known _ hn).false
    rcases eq_or_ne p h.listPtrs with rfl | hp
    · simp [ListHeap.new, ListHeap.listPtrNew, List.count_eq_zero.mpr hn]
    · simp [ListHeap.new, ListHeap.listPtrNew, update_of_ne hp, hr.counted, hp.symm]
  known p hp := by
    rcases List.mem_append.mp hp with hp | hp
    · exact Nat.lt_succ_of_lt (hr.known p hp)
    · rw [List.mem_singleton.mp hp]
      exact Nat.lt_succ_self _
  items := by
    have hm : (h.lists.map fun p => (update seqs h.listPtrs [] p).map h.new.item) = ls := by
      rw [hr.items]
      refine List.map_congr_left fun p hp => ?_
      rw [update_of_ne (hr.known p hp).ne]
      rfl
    simp only [ListHeap.new, List.map_append, List.map_cons, List.map_nil, update_self]
    exact congrArg (· ++ [[]]) hm.symm

/-- A list gets a list pointer of its own, with the same items. -/
theorem ownCopy (hr : Rep h seqs ls) (hl : h.lists[l]? = some lp) (hc : 1 < h.refCount lp) :
    ∃ h' seqs', h.ownCopy l lp = some h' ∧ Rep h' seqs' ls ∧
      h'.lists[l]? = some h.listPtrs ∧ h'.refCount h.listPtrs = 1 := by
  have hmem := List.mem_of_getElem? hl
  have hne : lp ≠ h.listPtrs := (hr.known lp hmem).ne
  have hn : h.listPtrs ∉ h.lists := fun hn => (hr.known _ hn).false
  obtain ⟨hlt, hget⟩ := List.getElem?_eq_some_iff.mp hl
  obtain ⟨h', copies, ho, hk, hi, hcopy, hlists, hptrs, hrc⟩ := hr.links.ownCopy hne hc l
  have hl' : h'.lists[l]? = some h.listPtrs := by
    rw [hlists, List.getElem?_set_self hlt]
  refine ⟨h', _, ho, ⟨hk, ?_, ?_, ?_⟩, hl', ?_⟩
  · intro p
    have hcount := hr.counted p
    rw [hrc, hlists, List.count_set hlt, hget]
    rcases eq_or_ne p lp with rfl | hp
    · have hb : (h.listPtrs == p) = false := by simpa using hne.symm
      simp only [update_self, beq_self_eq_true, if_true, hb, hcount]
      rfl
    · have hb : (lp == p) = false := by simpa using hp.symm
      rw [update_of_ne hp, hb]
      rcases eq_or_ne p h.listPtrs with rfl | hp'
      · simp [List.count_eq_zero.mpr hn]
      · have hb' : (h.listPtrs == p) = false := by simpa using hp'.symm
        rw [update_of_ne hp', hb', hcount]
        rfl
  · intro p hp
    rw [hptrs]
    rw [hlists] at hp
    rcases List.mem_or_eq_of_mem_set hp with hp | rfl
    · exact Nat.lt_succ_of_lt (hr.known p hp)
    · exact Nat.lt_succ_self _
  · have hm : ∀ p ∈ h.lists,
        (update seqs h.listPtrs copies p).map h'.item = (seqs p).map h.item := by
      intro p hp
      rw [update_of_ne (hr.known p hp).ne]
      exact List.map_congr_left fun x hx => hi x (hr.links.bound hx)
    rw [hlists, List.map_set, update_self, hcopy, List.map_congr_left hm, ← hr.items]
    obtain ⟨hlt', hget'⟩ := List.getElem?_eq_some_iff.mp (hr.getElem? hl)
    rw [← hget', List.set_getElem_self]
  · rw [hrc, update_of_ne hne.symm, update_self]

theorem unshare (hr : Rep h seqs ls) (hl : l < h.lists.length) :
    ∃ h' seqs' lp, h.unshare l = some h' ∧ Rep h' seqs' ls ∧ h'.lists[l]? = some lp ∧
      h'.refCount lp ≤ 1 := by
  obtain ⟨lp, hlp⟩ : ∃ lp, h.lists[l]? = some lp := ⟨_, List.getElem?_eq_getElem hl⟩
  unfold ListHeap.unshare
  rw [hlp, Option.bind_eq_bind, Option.bind_some]
  by_cases hc : 1 < h.refCount lp
  · obtain ⟨h', seqs', ho, hr', hl', hc'⟩ := hr.ownCopy hlp hc
    rw [if_pos hc]
    exact ⟨h', seqs', _, ho, hr', hl', hc'.le⟩
  · rw [if_neg hc]
    exact ⟨h, seqs, lp, rfl, hr, hlp, Nat.le_of_not_lt hc⟩

/-! ### Writing to the ends -/

theorem items_eq (hr : Rep h seqs ls) (hl : h.lists[l]? = some lp) (hi : ls[l]? = some items) :
    items = (seqs lp).map h.item := by
  rw [hr.getElem? hl, Option.some.injEq] at hi
  exact hi.symm

theorem dup (hr : Rep h seqs ls) (hi : ls[l]? = some items) :
    ∃ h' seqs', h.dup l = some h' ∧ Rep h' seqs' (ls ++ [items]) := by
  obtain ⟨lp, hlp, rfl⟩ := hr.exists_listPtr hi
  have hpos : 0 < h.refCount lp := by
    rw [hr.counted]
    exact List.count_pos_iff.mpr (List.mem_of_getElem? hlp)
  refine ⟨{ h with
    refCount := update h.refCount lp (h.refCount lp + 1)
    lists := h.lists ++ [lp] }, seqs, by
      rw [ListHeap.dup, hlp, Option.bind_eq_bind, Option.bind_some, if_neg hpos.ne'],
    ⟨hr.links.list, hr.links.apart, hr.links.bound, hr.links.used, hr.links.size⟩, ?_, ?_, ?_⟩
  · intro p
    rw [List.count_append, ← hr.counted, List.count_singleton]
    simp only [update_apply]
    by_cases hp : p = lp
    · subst hp
      simp
    · have hb : (lp == p) = false := by simpa using Ne.symm hp
      rw [if_neg hp, hb]
      rfl
  · intro p hp
    rcases List.mem_append.mp hp with hp | hp
    · exact hr.known p hp
    · rw [List.mem_singleton.mp hp]
      exact hr.known lp (List.mem_of_getElem? hlp)
  · rw [List.map_append, hr.items]
    rfl

theorem pushBack (hr : Rep h seqs ls) (hi : ls[l]? = some items) (p : ℕ) :
    ∃ h' seqs', h.pushBack l p = some h' ∧ Rep h' seqs' (ls.set l (items ++ [(p, 1)])) := by
  obtain ⟨lp0, hlp0, -⟩ := hr.exists_listPtr hi
  obtain ⟨h1, seqs1, lp, hu, hr1, hlp, hc⟩ := hr.unshare (List.getElem?_eq_some_iff.mp hlp0).1
  have hw := hr1.write hlp hc (hr1.links.append lp p 1) (hr1.links.touches_append p)
  have hold : (seqs1 lp).map (h1.appendEntry lp p 1).item = items := by
    rw [hr1.items_eq hlp hi]
    exact List.map_congr_left fun x hx => ListHeap.item_appendEntry (hr1.links.bound hx)
  rw [List.map_append, hold, List.map_singleton, ListHeap.item_appendEntry_self] at hw
  refine ⟨_, _, ?_, hw⟩
  unfold ListHeap.pushBack
  simp only [hu, hlp, Option.bind_eq_bind, Option.bind_some]

theorem pushFront (hr : Rep h seqs ls) (hi : ls[l]? = some items) (p : ℕ) :
    ∃ h' seqs', h.pushFront l p = some h' ∧ Rep h' seqs' (ls.set l ((p, 1) :: items)) := by
  obtain ⟨lp0, hlp0, -⟩ := hr.exists_listPtr hi
  obtain ⟨h1, seqs1, lp, hu, hr1, hlp, hc⟩ := hr.unshare (List.getElem?_eq_some_iff.mp hlp0).1
  have hw := hr1.write hlp hc (hr1.links.prepend lp p 1) (hr1.links.touches_prepend p)
  have hold : (seqs1 lp).map (h1.prependEntry lp p 1).item = items := by
    rw [hr1.items_eq hlp hi]
    exact List.map_congr_left fun x hx => ListHeap.item_prependEntry (hr1.links.bound hx)
  rw [List.map_cons, hold, ListHeap.item_prependEntry_self] at hw
  refine ⟨_, _, ?_, hw⟩
  unfold ListHeap.pushFront
  simp only [hu, hlp, Option.bind_eq_bind, Option.bind_some]

theorem set_self (hi : ls[l]? = some items) : ls.set l items = ls := by
  obtain ⟨hlt, rfl⟩ := List.getElem?_eq_some_iff.mp hi
  exact List.set_getElem_self hlt

theorem unshare_nonempty (hr : Rep h seqs ls) (hi : ls[l]? = some items) (hne : items ≠ []) :
    ∃ h' seqs' lp, h.unshare l = some h' ∧ Rep h' seqs' ls ∧ h'.lists[l]? = some lp ∧
      h'.refCount lp ≤ 1 ∧ items = (seqs' lp).map h'.item ∧ seqs' lp ≠ [] := by
  obtain ⟨lp0, hlp0, -⟩ := hr.exists_listPtr hi
  obtain ⟨h', seqs', lp, hu, hr', hlp, hc⟩ := hr.unshare (List.getElem?_eq_some_iff.mp hlp0).1
  have hitems := hr'.items_eq hlp hi
  refine ⟨h', seqs', lp, hu, hr', hlp, hc, hitems, fun hs => hne ?_⟩
  rw [hitems, hs, List.map_nil]

theorem popBack (hr : Rep h seqs ls) (hi : ls[l]? = some items) :
    ∃ h' seqs', h.popBack l = some h' ∧ Rep h' seqs' (ls.set l items.dropLast) := by
  obtain ⟨lp0, hlp0, hitems⟩ := hr.exists_listPtr hi
  unfold ListHeap.popBack
  rw [hlp0, Option.bind_eq_bind, Option.bind_some, hr.links.last_eq]
  by_cases hs : seqs lp0 = []
  · have hnil : items = [] := by rw [hitems, hs, List.map_nil]
    rw [hs, List.getLast?_nil, if_pos rfl]
    refine ⟨h, seqs, rfl, ?_⟩
    rwa [hnil, List.dropLast_nil, ← hnil, set_self hi]
  · rw [if_neg (by rwa [List.getLast?_eq_none_iff])]
    have hne : items ≠ [] := fun hnil => hs (List.map_eq_nil_iff.mp (hitems.symm.trans hnil))
    obtain ⟨h1, seqs1, lp, hu, hr1, hlp, hc, hitems1, hs1⟩ := hr.unshare_nonempty hi hne
    obtain ⟨front, le, hsplit⟩ : ∃ front le, seqs1 lp = front ++ [le] :=
      ⟨_, _, (List.dropLast_append_getLast hs1).symm⟩
    have hlast : h1.last lp = some le := by
      rw [hr1.links.last_eq, hsplit, List.getLast?_concat]
    have hle : le ∈ seqs1 lp := by simp [hsplit]
    have hw := hr1.write hlp hc (hr1.links.dropBack hsplit) (hr1.links.touches_dropBack hle)
    have hold : front.map (h1.dropBack lp le).item = items.dropLast := by
      rw [hitems1, hsplit, List.map_append, List.map_singleton, List.dropLast_concat]
      refine List.map_congr_left fun x hx => ListHeap.item_dropBack ?_
      have hsplit' : seqs1 lp = front ++ le :: [] := hsplit
      exact hr1.links.not_mem hsplit' x (by simpa using hx)
    rw [hold] at hw
    refine ⟨_, _, ?_, hw⟩
    simp only [hu, hlp, hlast, Option.bind_eq_bind, Option.bind_some]

theorem popFront (hr : Rep h seqs ls) (hi : ls[l]? = some items) :
    ∃ h' seqs', h.popFront l = some h' ∧ Rep h' seqs' (ls.set l items.tail) := by
  obtain ⟨lp0, hlp0, hitems⟩ := hr.exists_listPtr hi
  unfold ListHeap.popFront
  rw [hlp0, Option.bind_eq_bind, Option.bind_some, hr.links.first_eq]
  by_cases hs : seqs lp0 = []
  · have hnil : items = [] := by rw [hitems, hs, List.map_nil]
    rw [hs, List.head?_nil, if_pos rfl]
    refine ⟨h, seqs, rfl, ?_⟩
    rwa [hnil, List.tail_nil, ← hnil, set_self hi]
  · rw [if_neg (by rwa [List.head?_eq_none_iff])]
    have hne : items ≠ [] := fun hnil => hs (List.map_eq_nil_iff.mp (hitems.symm.trans hnil))
    obtain ⟨h1, seqs1, lp, hu, hr1, hlp, hc, hitems1, hs1⟩ := hr.unshare_nonempty hi hne
    obtain ⟨le, rest, hsplit⟩ := List.exists_cons_of_ne_nil hs1
    have hfirst : h1.first lp = some le := by
      rw [hr1.links.first_eq, hsplit, List.head?_cons]
    have hle : le ∈ seqs1 lp := by simp [hsplit]
    have hw := hr1.write hlp hc (hr1.links.dropFront hsplit) (hr1.links.touches_dropFront hle)
    have hold : rest.map (h1.dropFront lp le).item = items.tail := by
      rw [hitems1, hsplit, List.map_cons, List.tail_cons]
      refine List.map_congr_left fun x hx => ListHeap.item_dropFront ?_
      have hsplit' : seqs1 lp = [] ++ le :: rest := hsplit
      exact hr1.links.not_mem hsplit' x hx
    rw [hold] at hw
    refine ⟨_, _, ?_, hw⟩
    simp only [hu, hlp, hfirst, Option.bind_eq_bind, Option.bind_some]

theorem clear (hr : Rep h seqs ls) (hi : ls[l]? = some items) (hf : h.shared l → items = []) :
    ∃ h' seqs', h.clear l = some h' ∧ Rep h' seqs' (ls.set l []) := by
  obtain ⟨lp, hlp, -⟩ := hr.exists_listPtr hi
  unfold ListHeap.clear
  rw [hlp, Option.bind_eq_bind, Option.bind_some]
  by_cases hc : 1 < h.refCount lp
  · rw [if_pos hc]
    obtain ⟨h', seqs', ho, hr', -⟩ := hr.ownCopy hlp hc
    have hnil : items = [] := hf (by simp [ListHeap.shared, hlp, hc])
    rw [hnil] at hi
    exact ⟨h', seqs', ho, by rwa [set_self hi]⟩
  · rw [if_neg hc]
    obtain ⟨h', ho, hk, ht⟩ := hr.links.listPtrClear lp
    exact ⟨h', _, ho, hr.write hlp (Nat.le_of_not_lt hc) hk ht⟩

end Rep

/-! ### Iterators -/

namespace ListHeap

variable {h : ListHeap} {seqs : ℕ → List ℕ} {lp x i : ℕ} {pos : Option ℕ}

/-- What an iterator at a position stands at. -/
def entryAt (seq : List ℕ) (pos : Option ℕ) : Option ℕ := pos.bind fun i => seq[i]?

/-- A position that is not behind an end is in the sequence. -/
def PosIn (n : ℕ) (pos : Option ℕ) : Prop := ∀ i, pos = some i → i < n

theorem posIn_movePos {n : ℕ} (hp : PosIn n pos) (m : ListMove) :
    PosIn n (ListSpec.movePos n pos m) := by
  cases pos with
  | none => exact fun i hi => by cases m <;> cases hi
  | some j =>
      have hj := hp j rfl
      intro i hi
      cases m with
      | next =>
          simp only [ListSpec.movePos] at hi
          split_ifs at hi with hlt
          · exact Option.some.inj hi ▸ hlt
      | previous =>
          simp only [ListSpec.movePos] at hi
          split_ifs at hi with h0
          · have := Option.some.inj hi
            omega

theorem Links.entryAt_used (hk : Links h seqs) (hx : entryAt (seqs lp) pos = some x) :
    0 < h.usage x := by
  obtain ⟨i, -, hi⟩ := Option.bind_eq_some_iff.mp hx
  exact hk.used (List.mem_of_getElem? hi)

theorem Links.iterMove (hk : Links h seqs) (hp : PosIn (seqs lp).length pos) (m : ListMove) :
    (h.hold (entryAt (seqs lp) pos)).iterMove (entryAt (seqs lp) pos) m =
      (entryAt (seqs lp) (ListSpec.movePos (seqs lp).length pos m),
        h.hold (entryAt (seqs lp) (ListSpec.movePos (seqs lp).length pos m))) := by
  have hto : ((entryAt (seqs lp) pos).bind ((h.hold (entryAt (seqs lp) pos)).link m)) =
      entryAt (seqs lp) (ListSpec.movePos (seqs lp).length pos m) := by
    cases pos with
    | none => cases m <;> rfl
    | some i =>
        have hi := hp i rfl
        have hx : (seqs lp)[i]? = some ((seqs lp)[i]) := List.getElem?_eq_getElem hi
        simp only [entryAt, Option.bind_some, hx]
        cases m with
        | next =>
            simp only [link, hold_next, hk.next_eq hx, ListSpec.movePos]
            split_ifs with hlt
            · rfl
            · exact List.getElem?_eq_none (Nat.le_of_not_lt hlt)
        | previous =>
            simp only [link, hold_previous, hk.previous_eq hx, ListSpec.movePos]
            split_ifs <;> rfl
  unfold ListHeap.iterMove
  simp only [hto, release_hold fun x hx => hk.entryAt_used hx]

theorem Links.iterMoves (hk : Links h seqs) : ∀ (ms : List ListMove) {pos : Option ℕ},
    PosIn (seqs lp).length pos →
    (h.hold (entryAt (seqs lp) pos)).iterMoves (entryAt (seqs lp) pos) ms =
      (entryAt (seqs lp) (ms.foldl (ListSpec.movePos (seqs lp).length) pos),
        h.hold (entryAt (seqs lp) (ms.foldl (ListSpec.movePos (seqs lp).length) pos)))
  | [], _, _ => rfl
  | m :: ms, pos, hp => by
      rw [ListHeap.iterMoves, hk.iterMove hp m]
      exact hk.iterMoves ms (posIn_movePos hp m)

theorem posIn_foldl {n : ℕ} : ∀ (ms : List ListMove) {pos : Option ℕ}, PosIn n pos →
    PosIn n (ms.foldl (ListSpec.movePos n) pos)
  | [], _, hp => hp
  | m :: ms, _, hp => posIn_foldl ms (posIn_movePos hp m)

theorem Links.iterAt (hk : Links h seqs) (hs : seqs lp ≠ []) (start : ListEnd)
    (ms : List ListMove) :
    h.iterAt lp start ms = some (entryAt (seqs lp) (ListSpec.posAt (seqs lp).length start ms),
      h.hold (entryAt (seqs lp) (ListSpec.posAt (seqs lp).length start ms))) ∧
    PosIn (seqs lp).length (ListSpec.posAt (seqs lp).length start ms) := by
  have hpos : 0 < (seqs lp).length := List.length_pos_iff.mpr hs
  have hstart : PosIn (seqs lp).length (some (ListSpec.startPos (seqs lp).length start)) := by
    intro i hi
    obtain rfl := Option.some.inj hi
    cases start <;> simp only [ListSpec.startPos] <;> omega
  have hend : h.endOf lp start =
      entryAt (seqs lp) (some (ListSpec.startPos (seqs lp).length start)) := by
    cases start with
    | first => exact hk.first_eq.trans List.head?_eq_getElem?
    | last => exact hk.last_eq.trans List.getLast?_eq_getElem?
  obtain ⟨x, hx⟩ : ∃ x, entryAt (seqs lp) (some (ListSpec.startPos (seqs lp).length start)) =
      some x := ⟨_, List.getElem?_eq_getElem (hstart _ rfl)⟩
  have hmoves := hk.iterMoves ms hstart
  rw [hx] at hmoves hend
  refine ⟨?_, posIn_foldl ms hstart⟩
  unfold ListHeap.iterAt
  rw [hend]
  exact congrArg some hmoves

end ListHeap

namespace Rep

variable {h : ListHeap} {seqs : ℕ → List ℕ} {ls : List (List ListItem)} {l lp x i p : ℕ}
  {items : List ListItem}

theorem hold (hr : Rep h seqs ls) (o : Option ℕ) : Rep (h.hold o) seqs ls where
  links := hr.links.hold o
  counted p := by simp [hr.counted]
  known p hp := by
    rw [ListHeap.hold_lists] at hp
    rw [ListHeap.hold_listPtrs]
    exact hr.known p hp
  items := by
    rw [hr.items, ListHeap.hold_lists]
    simp [ListHeap.item]

theorem release (hr : Rep h seqs ls) {o : Option ℕ} (ho : ∀ x, o = some x → 1 < h.usage x) :
    Rep (h.release o) seqs ls := by
  cases o with
  | none => exact hr
  | some y =>
      have hk := hr.links.release ho
      unfold ListHeap.release at hk ⊢
      refine ⟨hk, fun p => ?_, fun p hp => ?_, ?_⟩
      · simp [hr.counted]
      · rw [ListHeap.entryFree_lists] at hp
        rw [ListHeap.entryFree_listPtrs]
        exact hr.known p hp
      · rw [hr.items, ListHeap.entryFree_lists]
        simp [ListHeap.item]

/-! ### Erasing -/

theorem eraseEntry (hr : Rep h seqs ls) (hl : h.lists[l]? = some lp) (hc : h.refCount lp ≤ 1)
    (hi : ls[l]? = some items) (hx : (seqs lp)[i]? = some x) (hlink : h.linkCount x = 1) :
    ∃ current h' seqs', h.eraseEntry lp x = some (current, h') ∧
      Rep h' seqs' (ls.set l (items.eraseIdx i)) ∧
      h'.readAll h'.next h'.entries current = items.drop (i + 1) ∧
      ∀ y, current = some y → 1 < h'.usage y := by
  have hitems := hr.items_eq hl hi
  obtain ⟨hlt, rfl⟩ := List.getElem?_eq_some_iff.mp hx
  have hs : seqs lp = (seqs lp).take i ++ (seqs lp)[i] :: (seqs lp).drop (i + 1) := by simp
  have hk := hr.links.unlinkEntry hs
  have hw := hr.write hl hc hk (hr.links.touches_unlinkEntry (List.getElem_mem hlt))
  have hitem : (h.unlinkEntry lp (seqs lp)[i]).item = h.item :=
    funext ListHeap.item_unlinkEntry
  rw [hitem, List.map_append, List.map_take, List.map_drop, ← hitems,
    ← List.eraseIdx_eq_take_drop_succ items i] at hw
  refine ⟨_, _, _, by rw [ListHeap.eraseEntry, if_pos hlink], hw, ?_,
    fun y hy => hr.links.used_next hs hy⟩
  have hlen := hk.length_le lp
  rw [update_self, List.length_append] at hlen
  rw [(hr.links.neighbours hs).2, hk.readAll_next (update_self lp _ seqs) (by omega), hitem,
    hitems, List.map_drop]

theorem erase (hr : Rep h seqs ls) (hl : h.lists[l]? = some lp) (hi : ls[l]? = some items)
    (hx : (seqs lp)[i]? = some x) (hlink : h.linkCount x = 1) :
    ∃ current h' seqs', h.erase l (some x) = some (current, h') ∧
      Rep h' seqs' (ls.set l (items.eraseIdx i)) ∧
      h'.readAll h'.next h'.entries current = items.drop (i + 1) ∧
      ∀ y, current = some y → 1 < h'.usage y := by
  unfold ListHeap.erase
  rw [hl, Option.bind_eq_bind, Option.bind_some]
  by_cases hc : 1 < h.refCount lp
  · obtain ⟨h1, seqs1, ho, hr1, hl1, hc1⟩ := hr.ownCopy hl hc
    have hlt : i < (seqs lp).length := (List.getElem?_eq_some_iff.mp hx).1
    have hcount := hr.links.countBack hx (Nat.lt_of_lt_of_le hlt (hr.links.length_le lp))
    have hsame := (hr.items_eq hl hi).symm.trans (hr1.items_eq hl1 hi)
    have hlt1 : i < (seqs1 h.listPtrs).length := by
      have hlen := congrArg List.length hsame
      rw [List.length_map, List.length_map] at hlen
      omega
    have hx1 : (seqs1 h.listPtrs)[i]? = some (seqs1 h.listPtrs)[i] :=
      List.getElem?_eq_getElem hlt1
    have hlink1 : h1.linkCount (seqs1 h.listPtrs)[i] = 1 := by
      have hget := congrArg (·[i]?) hsame
      simp only [List.getElem?_map, hx, hx1, Option.map_some, Option.some.injEq] at hget
      rw [← hlink]
      exact (congrArg Prod.snd hget).symm
    have hseek : h1.seek (h1.first h.listPtrs) i = some (seqs1 h.listPtrs)[i] := by
      rw [hr1.links.first_eq, List.head?_eq_getElem?, hr1.links.seek, Nat.zero_add, hx1]
    rw [if_pos hc]
    simp only [Option.bind_eq_bind, Option.bind_some, hcount, ho, hseek]
    exact hr1.eraseEntry hl1 hc1.le hi hx1 hlink1
  · rw [if_neg hc]
    exact hr.eraseEntry hl (Nat.le_of_not_lt hc) hi hx hlink

theorem linkCount_of_getElem? (hr : Rep h seqs ls) (hl : h.lists[l]? = some lp)
    (hi : ls[l]? = some items) (hx : (seqs lp)[i]? = some x)
    (hlink : (items[i]?).map Prod.snd = some 1) : h.linkCount x = 1 := by
  rw [hr.items_eq hl hi, List.getElem?_map, hx] at hlink
  exact Option.some.inj hlink

theorem eraseItem_of_linked (hlink : (items[i]?).map Prod.snd = some 1) :
    ListSpec.eraseItem items i = items.eraseIdx i := by
  obtain ⟨y, hy, hy1⟩ := Option.map_eq_some_iff.mp hlink
  simp only [ListSpec.eraseItem, hy, hy1, if_true]

theorem eraseAt (hr : Rep h seqs ls) (hi : ls[l]? = some items) {start : ListEnd}
    {ms : List ListMove} (hf : Erasable (h.shared l) items start ms) :
    ∃ s seqs' r, h.eraseAt l start ms = some s ∧
      ListSpec.step ⟨ls, []⟩ (.erase l start ms) = some r ∧
      Rep s.heap seqs' r.lists ∧ s.read = r.read := by
  obtain ⟨lp, hlp, hitems⟩ := hr.exists_listPtr hi
  have hlen : items.length = (seqs lp).length := by rw [hitems, List.length_map]
  obtain ⟨hne, hf⟩ := hf
  have hs : seqs lp ≠ [] := by
    intro hs
    rw [hs] at hitems
    exact hne hitems
  obtain ⟨hit, hin⟩ := hr.links.iterAt hs start ms
  unfold ListHeap.eraseAt
  simp only [ListSpec.step, hi, hlp, hit, Option.bind_eq_bind, Option.bind_some, if_neg hne]
  rw [hlen] at hf ⊢
  cases hpos : ListSpec.posAt (seqs lp).length start ms with
  | none =>
      rw [hpos] at hf
      have hc : ¬ 1 < h.refCount lp := by simpa [ListHeap.shared, hlp] using hf
      have he : h.erase l none = some (none, h) := by
        rw [ListHeap.erase, hlp, Option.bind_eq_bind, Option.bind_some, if_neg hc]
      have hat : ListHeap.entryAt (seqs lp) none = none := rfl
      have hhold : h.hold none = h := rfl
      refine ⟨⟨h, []⟩, seqs, ⟨ls, []⟩, ?_, rfl, hr, rfl⟩
      simp only [hat, hhold, he, Option.bind_some]
      cases h.entries <;> rfl
  | some i =>
      rw [hpos] at hf
      have hlt : i < (seqs lp).length := hin i hpos
      have hx : (seqs lp)[i]? = some (seqs lp)[i] := List.getElem?_eq_getElem hlt
      have hlink := hr.linkCount_of_getElem? hlp hi hx hf
      have hlp' : (h.hold (some (seqs lp)[i])).lists[l]? = some lp := by simpa using hlp
      obtain ⟨current, h', seqs', he, hr', hread, hused⟩ :=
        (hr.hold (some (seqs lp)[i])).erase hlp' hi hx (by simpa using hlink)
      refine ⟨⟨h'.release current, items.drop (i + 1)⟩, seqs', _, ?_, rfl, ?_, rfl⟩
      · simp only [ListHeap.entryAt, Option.bind_some, hx, he, hread]
      · rw [eraseItem_of_linked hf]
        exact hr'.release hused

/-! ### Removing -/

theorem iterData_entryAt (hr : Rep h seqs ls) (hl : h.lists[l]? = some lp)
    (hi : ls[l]? = some items) {j : ℕ} {y : ListItem} (hj : items[j]? = some y) :
    h.iterData (ListHeap.entryAt (seqs lp) (some j)) = y.1 := by
  rw [hr.items_eq hl hi, List.getElem?_map, Option.map_eq_some_iff] at hj
  obtain ⟨x, hx, rfl⟩ := hj
  simp only [ListHeap.entryAt, Option.bind_some, hx]
  rfl

theorem iterData_hold (h : ListHeap) (o current : Option ℕ) :
    (h.hold o).iterData current = h.iterData current := by
  cases current <;> simp [ListHeap.iterData]

theorem findLoop_found (hr : Rep h seqs ls) (hl : h.lists[l]? = some lp)
    (hi : ls[l]? = some items) {y : ListItem} (hy : items[i]? = some y) (hyp : y.1 = p)
    (hp : p ≠ 0) (hbefore : ∀ j z, j < i → items[j]? = some z → z.1 ≠ 0 ∧ z.1 ≠ p) :
    ∀ {fuel j : ℕ}, j ≤ i → i - j < fuel →
      ListHeap.findLoop p fuel (ListHeap.entryAt (seqs lp) (some j))
        (h.hold (ListHeap.entryAt (seqs lp) (some j))) =
      some (ListHeap.entryAt (seqs lp) (some i), h.hold (ListHeap.entryAt (seqs lp) (some i)))
  | 0, j, _, hf => absurd hf (Nat.not_lt_zero _)
  | fuel + 1, j, hji, hf => by
      have hlen : items.length = (seqs lp).length := by
        rw [hr.items_eq hl hi, List.length_map]
      have hlt := (List.getElem?_eq_some_iff.mp hy).1
      unfold ListHeap.findLoop
      rw [iterData_hold]
      rcases hji.eq_or_lt with rfl | hji
      · rw [hr.iterData_entryAt hl hi hy, if_neg (hyp ▸ hp), if_pos hyp]
      · have hz : items[j]? = some items[j] := List.getElem?_eq_getElem (by omega)
        obtain ⟨hz0, hzp⟩ := hbefore j _ hji hz
        have hin : ListHeap.PosIn (seqs lp).length (some j) := by
          intro k hk
          obtain rfl := Option.some.inj hk
          omega
        have hmove : ListSpec.movePos (seqs lp).length (some j) .next = some (j + 1) := by
          rw [ListSpec.movePos, if_pos (by omega)]
        rw [hr.iterData_entryAt hl hi hz, if_neg hz0, if_neg hzp, hr.links.iterMove hin, hmove]
        exact hr.findLoop_found hl hi hy hyp hp hbefore hji (by omega)

theorem findLoop_none (hr : Rep h seqs ls) (hl : h.lists[l]? = some lp)
    (hi : ls[l]? = some items) (hp : ∀ z ∈ items, z.1 ≠ p) :
    ∀ {fuel j : ℕ}, j < items.length → items.length - j < fuel →
      ListHeap.findLoop p fuel (ListHeap.entryAt (seqs lp) (some j))
        (h.hold (ListHeap.entryAt (seqs lp) (some j))) = some (none, h)
  | 0, j, _, hf => absurd hf (Nat.not_lt_zero _)
  | fuel + 1, j, hj, hf => by
      have hlen : items.length = (seqs lp).length := by
        rw [hr.items_eq hl hi, List.length_map]
      have hz : items[j]? = some items[j] := List.getElem?_eq_getElem hj
      have hin : ListHeap.PosIn (seqs lp).length (some j) := by
        intro k hk
        obtain rfl := Option.some.inj hk
        omega
      unfold ListHeap.findLoop
      rw [iterData_hold, hr.iterData_entryAt hl hi hz]
      by_cases h0 : items[j].1 = 0
      · rw [if_pos h0, ListHeap.release_hold fun x hx => hr.links.entryAt_used hx]
      · rw [if_neg h0, if_neg (hp _ (List.getElem_mem hj)), hr.links.iterMove hin]
        by_cases hnext : j + 1 < (seqs lp).length
        · rw [ListSpec.movePos, if_pos hnext]
          exact hr.findLoop_none hl hi hp (by omega) (by omega)
        · rw [ListSpec.movePos, if_neg hnext]
          obtain ⟨fuel, rfl⟩ : ∃ n, fuel = n + 1 := ⟨fuel - 1, by omega⟩
          rfl

theorem remove (hr : Rep h seqs ls) (hi : ls[l]? = some items) (hf : Removable items p) :
    ∃ h' seqs', h.remove l p = some h' ∧ Rep h' seqs' (ls.set l (ListSpec.removeItem items p)) := by
  obtain ⟨lp, hlp, hitems⟩ := hr.exists_listPtr hi
  have hlen : items.length = (seqs lp).length := by rw [hitems, List.length_map]
  unfold ListHeap.remove ListHeap.findIter
  rw [hlp, Option.bind_eq_bind, Option.bind_some, hr.links.first_eq]
  by_cases hs : seqs lp = []
  · rw [hs, List.map_nil] at hitems
    subst hitems
    refine ⟨h, seqs, by rw [hs]; rfl, ?_⟩
    have hnone : ListSpec.removeItem [] p = [] := rfl
    rwa [hnone, set_self hi]
  · have hpos : 0 < (seqs lp).length := List.length_pos_iff.mpr hs
    have hfirst : (seqs lp).head? = ListHeap.entryAt (seqs lp) (some 0) :=
      List.head?_eq_getElem?
    obtain ⟨x0, hx0⟩ : ∃ x, (seqs lp).head? = some x := ⟨_, List.head?_eq_some_head hs⟩
    have hfuel := hr.links.length_le lp
    unfold Removable at hf
    cases hfind : items.findIdx? fun x => x.1 = p with
    | none =>
        have hp : ∀ z ∈ items, z.1 ≠ p := by simpa using hfind
        have hloop : ListHeap.findLoop p (h.entries + 1) (ListHeap.entryAt (seqs lp) (some 0))
            (h.hold (ListHeap.entryAt (seqs lp) (some 0))) = some (none, h) :=
          hr.findLoop_none hlp hi hp (by omega) (by omega)
        rw [← hfirst, hx0] at hloop
        refine ⟨h, seqs, ?_, ?_⟩
        · simp only [hx0, hloop, Option.bind_eq_bind, Option.bind_some]
        · rw [ListSpec.removeItem, hfind]
          rwa [set_self hi]
    | some i =>
        rw [hfind] at hf
        obtain ⟨hp, hbefore, hlink⟩ := hf
        obtain ⟨hlt, hip, hnot⟩ := List.findIdx?_eq_some_iff_getElem.mp hfind
        have hnext : ∀ j z, j < i → items[j]? = some z → z.1 ≠ 0 ∧ z.1 ≠ p := by
          intro j z hj hz
          obtain ⟨hjlt, rfl⟩ := List.getElem?_eq_some_iff.mp hz
          refine ⟨hbefore _ ?_, by simpa using hnot j hj⟩
          rw [List.mem_take_iff_getElem]
          exact ⟨j, by omega, rfl⟩
        have hx : (seqs lp)[i]? = some (seqs lp)[i] := List.getElem?_eq_getElem (by omega)
        have hat : ListHeap.entryAt (seqs lp) (some i) = some (seqs lp)[i] := hx
        have hloop : ListHeap.findLoop p (h.entries + 1) (ListHeap.entryAt (seqs lp) (some 0))
            (h.hold (ListHeap.entryAt (seqs lp) (some 0))) =
            some (ListHeap.entryAt (seqs lp) (some i),
              h.hold (ListHeap.entryAt (seqs lp) (some i))) :=
          hr.findLoop_found hlp hi (List.getElem?_eq_getElem hlt) (by simpa using hip) hp hnext
            (Nat.zero_le i) (by omega)
        have hlink' := hr.linkCount_of_getElem? hlp hi hx hlink
        have hlp' : (h.hold (some (seqs lp)[i])).lists[l]? = some lp := by simpa using hlp
        obtain ⟨current, h', seqs', he, hr', -, hused⟩ :=
          (hr.hold (some (seqs lp)[i])).erase hlp' hi hx (by simpa using hlink')
        rw [← hfirst, hx0, hat] at hloop
        refine ⟨h'.release current, seqs', ?_, ?_⟩
        · simp only [hx0, hloop, he, Option.bind_eq_bind, Option.bind_some]
        · rw [ListSpec.removeItem, hfind]
          simp only [eraseItem_of_linked hlink]
          exact hr'.release hused

/-! ### Link counts -/

theorem incLinkCountAt (hr : Rep h seqs ls) (hi : ls[l]? = some items) (hne : items ≠ [])
    (hsh : h.shared l = false) (start : ListEnd) (ms : List ListMove) :
    ∃ h' seqs' r, h.incLinkCountAt l start ms = some h' ∧
      ListSpec.step ⟨ls, []⟩ (.incLinkCount l start ms) = some r ∧
      Rep h' seqs' r.lists ∧ r.read = [] := by
  obtain ⟨lp, hlp, hitems⟩ := hr.exists_listPtr hi
  have hlen : items.length = (seqs lp).length := by rw [hitems, List.length_map]
  have hs : seqs lp ≠ [] := by
    intro hs
    rw [hs] at hitems
    exact hne hitems
  have hc : h.refCount lp ≤ 1 := by simpa [ListHeap.shared, hlp] using hsh
  obtain ⟨hit, hin⟩ := hr.links.iterAt hs start ms
  unfold ListHeap.incLinkCountAt
  simp only [ListSpec.step, hi, hlp, hit, Option.bind_eq_bind, Option.bind_some, if_neg hne, hlen]
  cases hpos : ListSpec.posAt (seqs lp).length start ms with
  | none => exact ⟨h, seqs, _, rfl, rfl, hr, rfl⟩
  | some i =>
      have hlt : i < (seqs lp).length := hin i hpos
      have hx : (seqs lp)[i]? = some (seqs lp)[i] := List.getElem?_eq_getElem hlt
      have hused := hr.links.used (List.getElem_mem hlt)
      have hmem : (seqs lp)[i] ∈ seqs lp := List.getElem_mem hlt
      have hd := (hr.links.list lp).nodup
      have hk : (h.incLinkCount (some (seqs lp)[i])).Links (update seqs lp (seqs lp)) := by
        rw [update_eq_self]
        exact ⟨hr.links.list, hr.links.apart, hr.links.bound, hr.links.used, hr.links.size⟩
      have ht : h.Touches (h.incLinkCount (some (seqs lp)[i])) lp (seqs lp) :=
        { ListHeap.Touches.refl h lp (seqs lp) with
          item := fun {x} _ hown => by
            have hxne : x ≠ (seqs lp)[i] := fun he => hown (he ▸ hmem)
            simp [ListHeap.item, ListHeap.incLinkCount, update_of_ne hxne] }
      have hw := hr.write hlp hc hk ht
      have hmodify : (seqs lp).map (h.incLinkCount (some (seqs lp)[i])).item =
          items.modify i fun x => (x.1, x.2 + 1) := by
        rw [hitems]
        refine List.ext_getElem (by simp) fun j hj hj' => ?_
        rw [List.getElem_map, List.getElem_modify]
        by_cases hij : i = j
        · subst hij
          simp [ListHeap.item, ListHeap.incLinkCount]
        · have hjlt : j < (seqs lp).length := by simpa using hj
          have hjne : (seqs lp)[j] ≠ (seqs lp)[i] :=
            fun he => hij ((hd.getElem_inj_iff).mp he).symm
          simp [ListHeap.item, ListHeap.incLinkCount, update_of_ne hjne, hij]
      rw [hmodify] at hw
      refine ⟨_, _, _, ?_, rfl, hw, rfl⟩
      simp only [ListHeap.entryAt, Option.bind_some, hx]
      have hg := ListHeap.release_hold (h := h.incLinkCount (some (seqs lp)[i]))
        (o := some (seqs lp)[i]) fun x hx => Option.some.inj hx ▸ hused
      rw [← hg]
      simp [ListHeap.hold, ListHeap.incLinkCount]

/-! ### What is seen -/

theorem seenAs (hr : Rep h seqs ls) (hi : ls[l]? = some items) : SeenAs h l items := by
  obtain ⟨lp, hlp, rfl⟩ := hr.exists_listPtr hi
  have hlen := hr.links.length_le lp
  have hall : seqs lp = [] ++ seqs lp := rfl
  constructor
  · rw [ListHeap.getSize, hlp, Option.map_some, hr.links.size, List.length_map]
  · rw [ListHeap.getFront, hlp, Option.map_some, hr.links.first_eq, List.head?_map]
    cases (seqs lp).head? <;> rfl
  · rw [ListHeap.getBack, hlp, Option.map_some, hr.links.last_eq, List.getLast?_map]
    cases (seqs lp).getLast? <;> rfl
  · rw [ListHeap.forward, hlp, Option.map_some, hr.links.first_eq, hr.links.readAll_next hall hlen]
  · have hrev : seqs lp = (seqs lp).reverse.reverse ++ [] := by simp
    have hlen' : (seqs lp).reverse.length ≤ h.entries := by simpa using hlen
    have hback := hr.links.readAll_previous hrev hlen'
    rw [ListHeap.backward, hlp, Option.map_some, hr.links.last_eq, ← List.head?_reverse, hback,
      List.map_reverse]

theorem items_eq_items (hr : Rep h seqs ls) (hi : ls[l]? = some items) : h.items l = items := by
  rw [ListHeap.items, (hr.seenAs hi).forward, Option.getD_some]

theorem empty : Rep ListHeap.empty (fun _ => []) [] where
  links := ⟨fun _ => IsList.empty, fun hx => absurd hx (by simp), fun hx => absurd hx (by simp),
    fun hx => absurd hx (by simp), fun _ => rfl⟩
  counted _ := rfl
  known _ hp := absurd hp (by simp [ListHeap.empty])
  items := rfl

end Rep

/-! ### Runs that fit -/

/-- The heap represents the sequences, and what is read is the same. -/
def Refines (s : ListRun) (r : ListSpec) : Prop :=
  (∃ seqs, Rep s.heap seqs r.lists) ∧ s.read = r.read

theorem Refines.seen {s : ListRun} {r : ListSpec} (h : Refines s r) : Seen s r := by
  obtain ⟨⟨seqs, hr⟩, hread⟩ := h
  exact ⟨hr.length_eq.symm, fun l items hi => hr.seenAs hi, hread⟩

/-- An operation that fits does the same to the heap and to the sequences. -/
theorem Refines.step {s : ListRun} {r : ListSpec} (h : Refines s r) {o : ListOp}
    (hf : o.Fits s) : ∃ t u, s.step o = some t ∧ r.step o = some u ∧ Refines t u := by
  obtain ⟨⟨seqs, hr⟩, -⟩ := h
  have hget : ∀ {l : ℕ}, l < s.heap.lists.length → ∃ items, r.lists[l]? = some items := by
    intro l hl
    exact ⟨_, List.getElem?_eq_getElem (by rwa [hr.length_eq])⟩
  have done : ∀ {h' : ListHeap} {seqs' : ℕ → List ℕ} {ls' : List (List ListItem)},
      Rep h' seqs' ls' → Refines ⟨h', []⟩ ⟨ls', []⟩ := fun hr' => ⟨⟨_, hr'⟩, rfl⟩
  unfold ListRun.step ListSpec.step ListSpec.write
  cases o with
  | new => exact ⟨_, _, rfl, rfl, done hr.new⟩
  | dup l =>
      obtain ⟨items, hi⟩ := hget hf
      obtain ⟨h', seqs', ho, hr'⟩ := hr.dup hi
      simp only [ho, hi, Option.map_some]
      exact ⟨_, _, rfl, rfl, done hr'⟩
  | pushBack l p =>
      obtain ⟨items, hi⟩ := hget hf
      obtain ⟨h', seqs', ho, hr'⟩ := hr.pushBack hi p
      simp only [ho, hi, Option.map_some]
      exact ⟨_, _, rfl, rfl, done hr'⟩
  | pushFront l p =>
      obtain ⟨items, hi⟩ := hget hf
      obtain ⟨h', seqs', ho, hr'⟩ := hr.pushFront hi p
      simp only [ho, hi, Option.map_some]
      exact ⟨_, _, rfl, rfl, done hr'⟩
  | popBack l =>
      obtain ⟨items, hi⟩ := hget hf
      obtain ⟨h', seqs', ho, hr'⟩ := hr.popBack hi
      simp only [ho, hi, Option.map_some]
      exact ⟨_, _, rfl, rfl, done hr'⟩
  | popFront l =>
      obtain ⟨items, hi⟩ := hget hf
      obtain ⟨h', seqs', ho, hr'⟩ := hr.popFront hi
      simp only [ho, hi, Option.map_some]
      exact ⟨_, _, rfl, rfl, done hr'⟩
  | clear l =>
      obtain ⟨items, hi⟩ := hget hf.1
      have hempty := hf.2
      rw [hr.items_eq_items hi] at hempty
      obtain ⟨h', seqs', ho, hr'⟩ := hr.clear hi hempty
      simp only [ho, hi, Option.map_some]
      exact ⟨_, _, rfl, rfl, done hr'⟩
  | unshare l =>
      obtain ⟨items, hi⟩ := hget hf
      obtain ⟨h', seqs', lp, ho, hr', -⟩ := hr.unshare hf
      simp only [ho, hi, Option.map_some, id_eq]
      exact ⟨_, _, rfl, rfl, done (by rwa [Rep.set_self hi])⟩
  | remove l p =>
      obtain ⟨items, hi⟩ := hget hf.1
      have hrem := hf.2
      rw [hr.items_eq_items hi] at hrem
      obtain ⟨h', seqs', ho, hr'⟩ := hr.remove hi hrem
      simp only [ho, hi, Option.map_some]
      exact ⟨_, _, rfl, rfl, done hr'⟩
  | erase l start ms =>
      obtain ⟨items, hi⟩ := hget hf.1
      have hera := hf.2
      rw [hr.items_eq_items hi] at hera
      obtain ⟨t, seqs', u, ho, hu, hr', hread⟩ := hr.eraseAt hi hera
      exact ⟨t, u, ho, hu, ⟨seqs', hr'⟩, hread⟩
  | incLinkCount l start ms =>
      obtain ⟨items, hi⟩ := hget hf.1
      have hne := hf.2.1
      rw [hr.items_eq_items hi] at hne
      obtain ⟨h', seqs', u, ho, hu, hr', hread⟩ := hr.incLinkCountAt hi hne hf.2.2 start ms
      exact ⟨⟨h', []⟩, u, by simp only [ho, Option.map_some], hu, ⟨seqs', hr'⟩, hread.symm⟩

/-- In a run whose operations fit every list behaves as if it had been copied at once. -/
theorem seen_of_fits (ops : List ListOp)
    (hf : Along ListRun.step (fun s o => o.Fits s) ListRun.init ops) :
    ∀ pre, pre <+: ops → ∃ s r, exec ListRun.step ListRun.init pre = some s ∧
      exec ListSpec.step ⟨[], []⟩ pre = some r ∧ Seen s r := by
  rintro pre ⟨post, hpost⟩
  have hinit : Refines ListRun.init ⟨[], []⟩ := ⟨⟨_, Rep.empty⟩, rfl⟩
  have hstep : ∀ s r o, Refines s r → ListOp.Fits s o → ∃ t u, ListRun.step s o = some t ∧
      ListSpec.step r o = some u ∧ Refines t u := fun _ _ _ href ho => href.step ho
  obtain ⟨s, r, hs, hr, href, -⟩ := Along.simulation hstep hinit hf pre post hpost
  exact ⟨s, r, hs, hr, href.seen⟩

/-- A list and a copy of it, one of which is written to, with an entry erased from the other. -/
theorem seen_of_fits_copy : ∃ s r, exec ListRun.step ListRun.init
        [.new, .pushBack 0 7, .pushBack 0 8, .dup 0, .pushFront 1 9, .unshare 0, .dup 1,
          .erase 2 .last [.previous], .remove 1 8, .clear 0] = some s ∧ exec ListSpec.step ⟨[], []⟩
        [.new, .pushBack 0 7, .pushBack 0 8, .dup 0, .pushFront 1 9, .unshare 0, .dup 1,
          .erase 2 .last [.previous], .remove 1 8, .clear 0] = some r ∧ Seen s r :=
  seen_of_fits _ (by decide) _ (List.prefix_refl _)

/-- A list is cleared while a copy shares its list pointer: it still has its entry. -/
theorem not_seen_clear_shared : ¬ ∀ (ops : List ListOp) (s : ListRun) (r : ListSpec),
      exec ListRun.step ListRun.init ops = some s →
      exec ListSpec.step ⟨[], []⟩ ops = some r → Seen s r := by
  intro h
  have hs := h [.new, .pushBack 0 1, .dup 0, .clear 0] _ _ rfl rfl
  have hsize : (1 : ℕ) = 0 := Option.some.inj (hs.list 0 [] rfl).size
  cases hsize

end Gwenhywfar
