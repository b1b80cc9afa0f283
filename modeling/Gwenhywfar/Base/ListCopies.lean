import Gwenhywfar.Base.ListHeap
import Mathlib.Algebra.Order.Ring.Int
import Mathlib.Data.List.Perm.Subperm

/-! # Copies of `GWEN_LIST`

`Links h seqs`: the entries of each list pointer `p` are linked in the order `seqs p`, and no two
list pointers share an entry.

* `Touches h h' lp own`: a function that writes through `lp` changes no other list pointer and
  none of the entries outside of `own` that were there before.
* Putting entries at the ends, taking them out, emptying a list pointer and copying it keep
  `Links` and touch the list pointer they write to (`Links.append`, `Links.dropBack`,
  `Links.eraseEntry`, `Links.listPtrClear`, `Links.ownCopy`). -/

namespace Gwenhywfar.ListHeap

open Function

variable {h h' : ListHeap} {seqs : ℕ → List ℕ} {lp le l p x : ℕ} {l1 l2 : List ℕ} {c : UInt32}
  {o : Option ℕ}

/-- The entries of the list pointers, in their order. -/
structure Links (h : ListHeap) (seqs : ℕ → List ℕ) : Prop where
  list : ∀ p, IsList h.next h.previous (h.first p) (h.last p) (seqs p)
  apart : ∀ {p q x}, x ∈ seqs p → x ∈ seqs q → p = q
  bound : ∀ {p x}, x ∈ seqs p → x < h.entries
  used : ∀ {p x}, x ∈ seqs p → 0 < h.usage x
  size : ∀ p, h.size p = (seqs p).length

/-- Nothing has changed but the list pointer `lp`, the entries `own` and new entries. -/
structure Touches (h h' : ListHeap) (lp : ℕ) (own : List ℕ) : Prop where
  ends : ∀ {q}, q ≠ lp → h'.first q = h.first q ∧ h'.last q = h.last q ∧ h'.size q = h.size q
  links : ∀ {x}, x < h.entries → x ∉ own → h'.next x = h.next x ∧ h'.previous x = h.previous x
  usage : ∀ {x}, x < h.entries → x ∉ own → h.usage x ≤ h'.usage x
  item : ∀ {x}, x < h.entries → x ∉ own → h'.item x = h.item x
  entries : h.entries ≤ h'.entries
  lists : h'.lists = h.lists
  refCount : h'.refCount = h.refCount
  listPtrs : h'.listPtrs = h.listPtrs

theorem Links.change (hk : Links h seqs) (ht : Touches h h' lp (seqs lp))
    (hl : IsList h'.next h'.previous (h'.first lp) (h'.last lp) l1)
    (hown : ∀ x ∈ l1, x ∈ seqs lp ∨ h.entries ≤ x)
    (hb : ∀ x ∈ l1, x < h'.entries ∧ 0 < h'.usage x) (hs : h'.size lp = l1.length) :
    Links h' (update seqs lp l1) := by
  have hout : ∀ {q x}, q ≠ lp → x ∈ seqs q → x ∉ seqs lp := fun hq hx hx' => hq (hk.apart hx hx')
  have hin : ∀ {q x}, q ≠ lp → x ∈ seqs q → x ∉ l1 := by
    intro q x hq hx hx'
    rcases hown x hx' with hx'' | hx''
    · exact hout hq hx hx''
    · exact absurd (hk.bound hx) (by omega)
  constructor
  · intro q
    rcases eq_or_ne q lp with rfl | hq
    · rwa [update_self]
    · rw [update_of_ne hq, (ht.ends hq).1, (ht.ends hq).2.1]
      exact (hk.list q).congr (fun x hx => (ht.links (hk.bound hx) (hout hq hx)).1)
        fun x hx => (ht.links (hk.bound hx) (hout hq hx)).2
  · intro q r x hx hx'
    rcases eq_or_ne q lp with hq | hq <;> rcases eq_or_ne r lp with hr | hr
    · exact hq.trans hr.symm
    · rw [hq, update_self] at hx
      rw [update_of_ne hr] at hx'
      exact absurd hx (hin hr hx')
    · rw [hr, update_self] at hx'
      rw [update_of_ne hq] at hx
      exact absurd hx' (hin hq hx)
    · rw [update_of_ne hq] at hx
      rw [update_of_ne hr] at hx'
      exact hk.apart hx hx'
  · intro q x hx
    rcases eq_or_ne q lp with rfl | hq
    · rw [update_self] at hx
      exact (hb x hx).1
    · rw [update_of_ne hq] at hx
      exact Nat.lt_of_lt_of_le (hk.bound hx) ht.entries
  · intro q x hx
    rcases eq_or_ne q lp with rfl | hq
    · rw [update_self] at hx
      exact (hb x hx).2
    · rw [update_of_ne hq] at hx
      exact Nat.lt_of_lt_of_le (hk.used hx) (ht.usage (hk.bound hx) (hout hq hx))
  · intro q
    rcases eq_or_ne q lp with rfl | hq
    · rwa [update_self]
    · rw [update_of_ne hq, (ht.ends hq).2.2, hk.size]

theorem Links.items_of_ne (hk : Links h seqs) (ht : Touches h h' lp (seqs lp)) {q : ℕ}
    (hq : q ≠ lp) : (seqs q).map h'.item = (seqs q).map h.item :=
  List.map_congr_left fun _ hx => ht.item (hk.bound hx) fun hx' => hq (hk.apart hx hx')

theorem Links.length_le (hk : Links h seqs) (p : ℕ) : (seqs p).length ≤ h.entries := by
  have hsub : seqs p ⊆ List.range h.entries := fun x hx => List.mem_range.mpr (hk.bound hx)
  simpa using ((hk.list p).nodup.subperm hsub).length_le

theorem Links.first_eq (hk : Links h seqs) : h.first p = (seqs p).head? := (hk.list p).first

theorem Links.last_eq (hk : Links h seqs) : h.last p = (seqs p).getLast? := (hk.list p).last

/-! ### Usage counters -/

section
variable (h : ListHeap) (le : ℕ)

@[simp] theorem entryFree_first : (h.entryFree le).first = h.first := by
  unfold entryFree; split_ifs <;> rfl
@[simp] theorem entryFree_last : (h.entryFree le).last = h.last := by
  unfold entryFree; split_ifs <;> rfl
@[simp] theorem entryFree_size : (h.entryFree le).size = h.size := by
  unfold entryFree; split_ifs <;> rfl
@[simp] theorem entryFree_entries : (h.entryFree le).entries = h.entries := by
  unfold entryFree; split_ifs <;> rfl
@[simp] theorem entryFree_lists : (h.entryFree le).lists = h.lists := by
  unfold entryFree; split_ifs <;> rfl
@[simp] theorem entryFree_refCount : (h.entryFree le).refCount = h.refCount := by
  unfold entryFree; split_ifs <;> rfl
@[simp] theorem entryFree_listPtrs : (h.entryFree le).listPtrs = h.listPtrs := by
  unfold entryFree; split_ifs <;> rfl
@[simp] theorem entryFree_dataPtr : (h.entryFree le).dataPtr = h.dataPtr := by
  unfold entryFree; split_ifs <;> rfl
@[simp] theorem entryFree_linkCount : (h.entryFree le).linkCount = h.linkCount := by
  unfold entryFree; split_ifs <;> rfl

end

theorem entryFree_next_of_ne (hx : x ≠ le) : (h.entryFree le).next x = h.next x := by
  unfold entryFree; split_ifs <;> simp [update_of_ne hx]

theorem entryFree_previous_of_ne (hx : x ≠ le) : (h.entryFree le).previous x = h.previous x := by
  unfold entryFree; split_ifs <;> simp [update_of_ne hx]

theorem entryFree_usage_of_ne (hx : x ≠ le) : (h.entryFree le).usage x = h.usage x := by
  unfold entryFree; split_ifs <;> simp [update_of_ne hx]

section
variable (h : ListHeap) (o : Option ℕ)

@[simp] theorem hold_next : (h.hold o).next = h.next := by cases o <;> rfl
@[simp] theorem hold_previous : (h.hold o).previous = h.previous := by cases o <;> rfl
@[simp] theorem hold_first : (h.hold o).first = h.first := by cases o <;> rfl
@[simp] theorem hold_last : (h.hold o).last = h.last := by cases o <;> rfl
@[simp] theorem hold_size : (h.hold o).size = h.size := by cases o <;> rfl
@[simp] theorem hold_entries : (h.hold o).entries = h.entries := by cases o <;> rfl
@[simp] theorem hold_lists : (h.hold o).lists = h.lists := by cases o <;> rfl
@[simp] theorem hold_refCount : (h.hold o).refCount = h.refCount := by cases o <;> rfl
@[simp] theorem hold_listPtrs : (h.hold o).listPtrs = h.listPtrs := by cases o <;> rfl
@[simp] theorem hold_dataPtr : (h.hold o).dataPtr = h.dataPtr := by cases o <;> rfl
@[simp] theorem hold_linkCount : (h.hold o).linkCount = h.linkCount := by cases o <;> rfl

end

theorem hold_usage (o : Option ℕ) (x : ℕ) :
    (h.hold o).usage x = h.usage x + if o = some x then 1 else 0 := by
  cases o with
  | none => simp [hold]
  | some y =>
      simp only [hold, update_apply, Option.some.injEq, @eq_comm ℕ y x]
      split_ifs with hx
      · rw [hx]
      · rfl

theorem entryFree_of_lt (hu : 1 < h.usage le) :
    h.entryFree le = { h with usage := update h.usage le (h.usage le - 1) } := by
  unfold entryFree
  rw [if_neg (by omega), if_neg (by omega)]

theorem Links.set_usage (hk : Links h seqs) {u : ℕ → ℕ} (hu : ∀ {p x}, x ∈ seqs p → 0 < u x) :
    Links { h with usage := u } seqs :=
  ⟨hk.list, hk.apart, hk.bound, hu, hk.size⟩

theorem release_hold (hu : ∀ x, o = some x → 0 < h.usage x) : (h.hold o).release o = h := by
  cases o with
  | none => rfl
  | some x =>
      have hx := hu x rfl
      rw [hold, release, entryFree_of_lt (by simpa using hx)]
      simp

theorem Links.hold (hk : Links h seqs) (o : Option ℕ) : Links (h.hold o) seqs := by
  cases o with
  | none => exact hk
  | some y =>
      refine hk.set_usage fun {p x} hx => ?_
      have hx' := hk.used hx
      rw [update_apply]
      split_ifs <;> omega

theorem Links.release (hk : Links h seqs) (ho : ∀ x, o = some x → 1 < h.usage x) :
    Links (h.release o) seqs := by
  cases o with
  | none => exact hk
  | some y =>
      have hy := ho y rfl
      rw [ListHeap.release, entryFree_of_lt hy]
      refine hk.set_usage fun {p x} hx => ?_
      have hx' := hk.used hx
      rw [update_apply]
      split_ifs <;> omega

/-! ### New entries -/

theorem setAt_of_ne {f : ℕ → Option ℕ} {v : Option ℕ} (hx : o ≠ some x) : setAt f o v x = f x := by
  rw [setAt_apply, if_neg hx]

theorem item_appendEntry {data : ℕ} (hx : x < h.entries) :
    (h.appendEntry lp data c).item x = h.item x := by
  simp [item, appendEntry, update_of_ne hx.ne]

@[simp] theorem item_appendEntry_self {data : ℕ} :
    (h.appendEntry lp data c).item h.entries = (data, c) := by
  simp [item, appendEntry]

theorem item_prependEntry {data : ℕ} (hx : x < h.entries) :
    (h.prependEntry lp data c).item x = h.item x := by
  simp [item, prependEntry, update_of_ne hx.ne]

@[simp] theorem item_prependEntry_self {data : ℕ} :
    (h.prependEntry lp data c).item h.entries = (data, c) := by
  simp [item, prependEntry]

theorem Links.last_bound (hk : Links h seqs) (hx : h.last lp = some x) : x ∈ seqs lp :=
  List.mem_of_getLast? (hk.last_eq.symm.trans hx)

theorem Links.first_bound (hk : Links h seqs) (hx : h.first lp = some x) : x ∈ seqs lp :=
  List.mem_of_head? (hk.first_eq.symm.trans hx)

theorem Links.touches_append (hk : Links h seqs) (data : ℕ) :
    Touches h (h.appendEntry lp data c) lp (seqs lp) where
  ends hq := by simp [appendEntry, update_of_ne hq]
  links {x} hx hown := by
    have hl : h.last lp ≠ some x := fun hl => hown (hk.last_bound hl)
    simp [appendEntry, setAt_of_ne hl, update_of_ne hx.ne]
  usage hx _ := by simp [appendEntry, update_of_ne hx.ne]
  item hx _ := item_appendEntry hx
  entries := Nat.le_succ _
  lists := rfl
  refCount := rfl
  listPtrs := rfl

theorem Links.touches_prepend (hk : Links h seqs) (data : ℕ) :
    Touches h (h.prependEntry lp data c) lp (seqs lp) where
  ends hq := by simp [prependEntry, update_of_ne hq]
  links {x} hx hown := by
    have hf : h.first lp ≠ some x := fun hf => hown (hk.first_bound hf)
    simp [prependEntry, setAt_of_ne hf, update_of_ne hx.ne]
  usage hx _ := by simp [prependEntry, update_of_ne hx.ne]
  item hx _ := item_prependEntry hx
  entries := Nat.le_succ _
  lists := rfl
  refCount := rfl
  listPtrs := rfl

theorem Links.bound_new (hk : Links h seqs) (lp : ℕ) {u : ℕ → ℕ} (hu : u h.entries = 1)
    (hu' : ∀ x, x < h.entries → u x = h.usage x) (hx : x = h.entries ∨ x ∈ seqs lp) :
    x < h.entries + 1 ∧ 0 < u x := by
  rcases hx with rfl | hx
  · exact ⟨Nat.lt_succ_self _, by omega⟩
  · exact ⟨Nat.lt_succ_of_lt (hk.bound hx), by rw [hu' x (hk.bound hx)]; exact hk.used hx⟩

theorem Links.append (hk : Links h seqs) (lp data : ℕ) (c : UInt32) :
    Links (h.appendEntry lp data c) (update seqs lp (seqs lp ++ [h.entries])) := by
  have hlt : ∀ {x}, x ∈ seqs lp → x ≠ h.entries := fun hx => (hk.bound hx).ne
  have hlast : h.last lp ≠ some h.entries := fun hl => hlt (hk.last_bound hl) rfl
  have hl : IsList (h.appendEntry lp data c).next (h.appendEntry lp data c).previous
      ((h.first lp).or (some h.entries)) (some h.entries) (seqs lp ++ [h.entries]) := by
    refine (hk.list lp).append ?_ ?_ ?_ ?_
    · simp [appendEntry, setAt_of_ne hlast]
    · simp [appendEntry]
    · intro x hx
      simp only [appendEntry, setAt_apply, update_of_ne (hlt hx)]
    · intro x hx
      simp only [appendEntry, update_of_ne (hlt hx)]
  refine hk.change (hk.touches_append data) (by simpa [appendEntry] using hl) ?_ ?_ ?_
  · intro x hx
    rcases List.mem_append.mp hx with hx | hx
    · exact .inl hx
    · exact .inr (List.mem_singleton.mp hx).ge
  · intro x hx
    refine hk.bound_new lp (by simp [appendEntry]) (fun y hy => ?_) ?_
    · simp [appendEntry, update_of_ne hy.ne]
    · simpa [or_comm] using hx
  · simp [appendEntry, hk.size]

theorem Links.prepend (hk : Links h seqs) (lp data : ℕ) (c : UInt32) :
    Links (h.prependEntry lp data c) (update seqs lp (h.entries :: seqs lp)) := by
  have hlt : ∀ {x}, x ∈ seqs lp → x ≠ h.entries := fun hx => (hk.bound hx).ne
  have hfirst : h.first lp ≠ some h.entries := fun hf => hlt (hk.first_bound hf) rfl
  have hl : IsList (h.prependEntry lp data c).next (h.prependEntry lp data c).previous
      (some h.entries) ((h.last lp).or (some h.entries)) (h.entries :: seqs lp) := by
    refine (hk.list lp).prepend ?_ ?_ ?_ ?_
    · simp [prependEntry]
    · simp [prependEntry, setAt_of_ne hfirst]
    · intro x hx
      simp only [prependEntry, update_of_ne (hlt hx)]
    · intro x hx
      simp only [prependEntry, setAt_apply, update_of_ne (hlt hx)]
  refine hk.change (hk.touches_prepend data) (by simpa [prependEntry] using hl) ?_ ?_ ?_
  · intro x hx
    rcases List.mem_cons.mp hx with hx | hx
    · exact .inr hx.ge
    · exact .inl hx
  · intro x hx
    refine hk.bound_new lp (by simp [prependEntry]) (fun y hy => ?_) (List.mem_cons.mp hx)
    simp [prependEntry, update_of_ne hy.ne]
  · simp [prependEntry, hk.size]

/-! ### Entries that go -/

theorem Links.take_out (hk : Links h seqs) (hs : seqs lp = l1 ++ le :: l2)
    (ht : Touches h h' lp (seqs lp))
    (hn : ∀ x ∈ l1 ++ l2, h'.next x = if h.previous le = some x then h.next le else h.next x)
    (hp : ∀ x ∈ l1 ++ l2,
      h'.previous x = if h.next le = some x then h.previous le else h.previous x)
    (hf : h'.first lp = if h.first lp = some le then h.next le else h.first lp)
    (hl : h'.last lp = if h.last lp = some le then h.previous le else h.last lp)
    (hu : ∀ x ∈ l1 ++ l2, h.usage x ≤ h'.usage x) (hz : h'.size lp = h.size lp - 1) :
    Links h' (update seqs lp (l1 ++ l2)) := by
  have hmem : ∀ x ∈ l1 ++ l2, x ∈ seqs lp := by
    intro x hx
    rw [hs]
    simp only [List.mem_append, List.mem_cons] at hx ⊢
    tauto
  have hlist := hk.list lp
  rw [hs] at hlist
  refine hk.change ht ?_ (fun x hx => .inl (hmem x hx)) ?_ ?_
  · rw [hf, hl]
    exact hlist.remove hn hp
  · intro x hx
    exact ⟨Nat.lt_of_lt_of_le (hk.bound (hmem x hx)) ht.entries,
      Nat.lt_of_lt_of_le (hk.used (hmem x hx)) (hu x hx)⟩
  · rw [hz, hk.size, hs]
    simp only [List.length_append, List.length_cons]
    omega

theorem Links.not_mem (hk : Links h seqs) (hs : seqs lp = l1 ++ le :: l2) :
    ∀ x ∈ l1 ++ l2, x ≠ le := by
  have hd := (hk.list lp).nodup
  rw [hs, List.nodup_append] at hd
  rintro x hx rfl
  rcases List.mem_append.mp hx with hx | hx
  · exact hd.2.2 x hx x List.mem_cons_self rfl
  · exact (List.nodup_cons.mp hd.2.1).1 hx

theorem Links.neighbours (hk : Links h seqs) (hs : seqs lp = l1 ++ le :: l2) :
    h.previous le = l1.getLast? ∧ h.next le = l2.head? := by
  have hl := hk.list lp
  rw [hs] at hl
  exact hl.neighbours

theorem Links.mem_of_next (hk : Links h seqs) (hle : le ∈ seqs lp) (hx : h.next le = some x) :
    x ∈ seqs lp :=
  (hk.list lp).next_mem hle hx

theorem Links.mem_of_previous (hk : Links h seqs) (hle : le ∈ seqs lp)
    (hx : h.previous le = some x) : x ∈ seqs lp :=
  (hk.list lp).prev_mem hle hx

theorem item_dropBack (hx : x ≠ le) : (h.dropBack lp le).item x = h.item x := by
  simp [item, dropBack, update_of_ne hx]

theorem Links.touches_dropBack (hk : Links h seqs) (hle : le ∈ seqs lp) :
    Touches h (h.dropBack lp le) lp (seqs lp) where
  ends hq := by
    simp only [dropBack, entryFree_first, entryFree_last, entryFree_size, update_of_ne hq, and_true]
    split_ifs <;> simp [update_of_ne hq]
  links {x} _ hown := by
    have hne : x ≠ le := fun he => hown (he ▸ hle)
    have hp : h.previous le ≠ some x := fun hp => hown (hk.mem_of_previous hle hp)
    simp [dropBack, entryFree_next_of_ne hne, entryFree_previous_of_ne hne, setAt_of_ne hp]
  usage {x} _ hown := by
    have hne : x ≠ le := fun he => hown (he ▸ hle)
    simp [dropBack, entryFree_usage_of_ne hne]
  item _ hown := item_dropBack fun he => hown (he ▸ hle)
  entries := by simp [dropBack]
  lists := by simp [dropBack]
  refCount := by simp [dropBack]
  listPtrs := by simp [dropBack]

theorem Links.dropBack (hk : Links h seqs) (hs : seqs lp = l1 ++ [le]) :
    Links (h.dropBack lp le) (update seqs lp l1) := by
  have hs' : seqs lp = l1 ++ le :: [] := hs
  have hle : le ∈ seqs lp := by simp [hs]
  obtain ⟨hprev, hnext⟩ := hk.neighbours hs'
  rw [List.head?_nil] at hnext
  have hl := hk.take_out hs' (hk.touches_dropBack hle) ?_ ?_ ?_ ?_ ?_ ?_
  · rwa [List.append_nil] at hl
  · intro x hx
    have hne := hk.not_mem hs' x hx
    simp only [ListHeap.dropBack, entryFree_next_of_ne hne, setAt_apply, hnext]
  · intro x hx
    have hne := hk.not_mem hs' x hx
    simp [ListHeap.dropBack, entryFree_previous_of_ne hne, hnext]
  · rw [hnext]
    simp only [ListHeap.dropBack, entryFree_first, hprev]
    have hlist := hk.list lp
    rw [hs'] at hlist
    simp only [hlist.first_eq_iff, List.getLast?_eq_none_iff]
    split_ifs <;> simp
  · have hlast : h.last lp = some le := by rw [hk.last_eq, hs, List.getLast?_concat]
    simp [ListHeap.dropBack, hlast]
  · intro x hx
    simp [ListHeap.dropBack, entryFree_usage_of_ne (hk.not_mem hs' x hx)]
  · simp [ListHeap.dropBack]

theorem item_dropFront (hx : x ≠ le) : (h.dropFront lp le).item x = h.item x := by
  simp [item, dropFront, update_of_ne hx]

theorem Links.touches_dropFront (hk : Links h seqs) (hle : le ∈ seqs lp) :
    Touches h (h.dropFront lp le) lp (seqs lp) where
  ends hq := by
    simp only [dropFront, entryFree_first, entryFree_last, entryFree_size, update_of_ne hq,
      true_and, and_true]
    split_ifs <;> simp [update_of_ne hq]
  links {x} _ hown := by
    have hne : x ≠ le := fun he => hown (he ▸ hle)
    have hp : h.next le ≠ some x := fun hp => hown (hk.mem_of_next hle hp)
    simp [dropFront, entryFree_next_of_ne hne, entryFree_previous_of_ne hne, setAt_of_ne hp]
  usage {x} _ hown := by
    have hne : x ≠ le := fun he => hown (he ▸ hle)
    simp [dropFront, entryFree_usage_of_ne hne]
  item _ hown := item_dropFront fun he => hown (he ▸ hle)
  entries := by simp [dropFront]
  lists := by simp [dropFront]
  refCount := by simp [dropFront]
  listPtrs := by simp [dropFront]

theorem Links.dropFront (hk : Links h seqs) (hs : seqs lp = le :: l2) :
    Links (h.dropFront lp le) (update seqs lp l2) := by
  have hs' : seqs lp = [] ++ le :: l2 := hs
  have hle : le ∈ seqs lp := by simp [hs]
  obtain ⟨hprev, hnext⟩ := hk.neighbours hs'
  rw [List.getLast?_nil] at hprev
  refine hk.take_out hs' (hk.touches_dropFront hle) ?_ ?_ ?_ ?_ ?_ ?_
  · intro x hx
    have hne := hk.not_mem hs' x hx
    simp [ListHeap.dropFront, entryFree_next_of_ne hne, hprev]
  · intro x hx
    have hne := hk.not_mem hs' x hx
    simp only [ListHeap.dropFront, entryFree_previous_of_ne hne, setAt_apply, hprev]
  · have hfirst : h.first lp = some le := by rw [hk.first_eq, hs, List.head?_cons]
    simp [ListHeap.dropFront, hfirst]
  · rw [hprev]
    simp only [ListHeap.dropFront, entryFree_last, hnext]
    have hlist := hk.list lp
    rw [hs'] at hlist
    simp only [hlist.last_eq_iff, List.head?_eq_none_iff]
    split_ifs <;> simp
  · intro x hx
    simp [ListHeap.dropFront, entryFree_usage_of_ne (hk.not_mem hs' x hx)]
  · simp [ListHeap.dropFront]

theorem item_unlinkEntry (x : ℕ) : (h.unlinkEntry lp le).item x = h.item x := by
  simp [item, unlinkEntry]

theorem unlinkEntry_usage_of_ne (hx : x ≠ le) :
    (h.unlinkEntry lp le).usage x = h.usage x + if h.next le = some x then 1 else 0 := by
  simp only [unlinkEntry, entryFree_usage_of_ne hx, update_of_ne hx, hold_usage]

theorem Links.touches_unlinkEntry (hk : Links h seqs) (hle : le ∈ seqs lp) :
    Touches h (h.unlinkEntry lp le) lp (seqs lp) where
  ends hq := by
    simp only [unlinkEntry, entryFree_first, entryFree_last, entryFree_size, hold_first, hold_last,
      hold_size, update_of_ne hq]
    split_ifs <;> simp [update_of_ne hq]
  links {x} _ hown := by
    have hne : x ≠ le := fun he => hown (he ▸ hle)
    have hn : h.next le ≠ some x := fun hn => hown (hk.mem_of_next hle hn)
    have hp : h.previous le ≠ some x := fun hp => hown (hk.mem_of_previous hle hp)
    simp [unlinkEntry, entryFree_next_of_ne hne, entryFree_previous_of_ne hne, setAt_of_ne hn,
      setAt_of_ne hp]
  usage {x} _ hown := by
    have hne : x ≠ le := fun he => hown (he ▸ hle)
    rw [unlinkEntry_usage_of_ne hne]
    exact Nat.le_add_right _ _
  item _ _ := item_unlinkEntry _
  entries := by simp [unlinkEntry]
  lists := by simp [unlinkEntry]
  refCount := by simp [unlinkEntry]
  listPtrs := by simp [unlinkEntry]

theorem Links.unlinkEntry (hk : Links h seqs) (hs : seqs lp = l1 ++ le :: l2) :
    Links (h.unlinkEntry lp le) (update seqs lp (l1 ++ l2)) := by
  have hle : le ∈ seqs lp := by simp [hs]
  refine hk.take_out hs (hk.touches_unlinkEntry hle) ?_ ?_ ?_ ?_ ?_ ?_
  · intro x hx
    have hne := hk.not_mem hs x hx
    simp only [ListHeap.unlinkEntry, entryFree_next_of_ne hne, setAt_apply]
  · intro x hx
    have hne := hk.not_mem hs x hx
    simp only [ListHeap.unlinkEntry, entryFree_previous_of_ne hne, setAt_apply]
  · simp only [ListHeap.unlinkEntry, entryFree_first, hold_first]
    split_ifs <;> simp
  · simp only [ListHeap.unlinkEntry, entryFree_last, hold_last]
    split_ifs <;> simp
  · intro x hx
    rw [unlinkEntry_usage_of_ne (hk.not_mem hs x hx)]
    exact Nat.le_add_right _ _
  · simp [ListHeap.unlinkEntry]

theorem Links.used_next (hk : Links h seqs) (hs : seqs lp = l1 ++ le :: l2)
    (hx : h.next le = some x) : 1 < (h.unlinkEntry lp le).usage x := by
  have hx2 : l2.head? = some x := (hk.neighbours hs).2.symm.trans hx
  have hmem : x ∈ l1 ++ l2 := List.mem_append_right _ (List.mem_of_head? hx2)
  rw [unlinkEntry_usage_of_ne (hk.not_mem hs x hmem), if_pos hx]
  have hle : le ∈ seqs lp := by simp [hs]
  have hused := hk.used (hk.mem_of_next hle hx)
  omega

/-! ### Loops over a list pointer -/

namespace Touches

variable {h1 h2 : ListHeap} {own own' : List ℕ}

theorem refl (h : ListHeap) (lp : ℕ) (own : List ℕ) : Touches h h lp own :=
  ⟨fun _ => ⟨rfl, rfl, rfl⟩, fun _ _ => ⟨rfl, rfl⟩, fun _ _ => le_rfl, fun _ _ => rfl, le_rfl, rfl,
    rfl, rfl⟩

theorem trans (ht : Touches h h1 lp own) (ht' : Touches h1 h2 lp own')
    (hsub : ∀ x ∈ own', x < h.entries → x ∈ own) : Touches h h2 lp own where
  ends hq := by
    obtain ⟨hf, hl, hz⟩ := ht.ends hq
    obtain ⟨hf', hl', hz'⟩ := ht'.ends hq
    exact ⟨hf'.trans hf, hl'.trans hl, hz'.trans hz⟩
  links {x} hx hown := by
    have hx' : x < h1.entries := Nat.lt_of_lt_of_le hx ht.entries
    have hown' : x ∉ own' := fun h => hown (hsub x h hx)
    exact ⟨(ht'.links hx' hown').1.trans (ht.links hx hown).1,
      (ht'.links hx' hown').2.trans (ht.links hx hown).2⟩
  usage {x} hx hown := (ht.usage hx hown).trans
    (ht'.usage (Nat.lt_of_lt_of_le hx ht.entries) fun h => hown (hsub x h hx))
  item {x} hx hown :=
    (ht'.item (Nat.lt_of_lt_of_le hx ht.entries) fun h => hown (hsub x h hx)).trans
      (ht.item hx hown)
  entries := ht.entries.trans ht'.entries
  lists := ht'.lists.trans ht.lists
  refCount := ht'.refCount.trans ht.refCount
  listPtrs := ht'.listPtrs.trans ht.listPtrs

end Touches

theorem touches_entryFree (hle : le ∈ l1) : Touches h (h.entryFree le) lp l1 where
  ends _ := by simp
  links {x} _ hown := by
    have hne : x ≠ le := fun he => hown (he ▸ hle)
    exact ⟨entryFree_next_of_ne hne, entryFree_previous_of_ne hne⟩
  usage {x} _ hown := by
    have hne : x ≠ le := fun he => hown (he ▸ hle)
    exact (entryFree_usage_of_ne hne).ge
  item _ _ := by simp [item]
  entries := by simp
  lists := by simp
  refCount := by simp
  listPtrs := by simp

theorem clearLoop_spec (lp : ℕ) : ∀ {l1 : List ℕ} {fuel : ℕ} {h : ListHeap}, l1.Nodup →
    (∀ pre x post, l1 = pre ++ x :: post → h.next x = post.head?) → l1.length ≤ fuel →
    ∃ h', clearLoop fuel l1.head? h = some h' ∧ Touches h h' lp l1
  | [], fuel, h, _, _, _ => ⟨h, by cases fuel <;> rfl, Touches.refl h lp []⟩
  | x :: l1, 0, _, _, _, hf => absurd hf (by simp)
  | x :: l1, fuel + 1, h, hd, hn, hf => by
      obtain ⟨hx, hd'⟩ := List.nodup_cons.mp hd
      have hn' : ∀ pre y post, l1 = pre ++ y :: post → (h.entryFree x).next y = post.head? := by
        intro pre y post hl
        have hy : y ≠ x := fun he => hx (by rw [hl, he]; simp)
        rw [entryFree_next_of_ne hy]
        exact hn (x :: pre) y post (by rw [hl, List.cons_append])
      obtain ⟨h', hc, ht⟩ := clearLoop_spec lp hd' hn' (Nat.le_of_succ_le_succ hf)
      refine ⟨h', ?_, (touches_entryFree List.mem_cons_self).trans ht
        fun y hy _ => List.mem_cons_of_mem x hy⟩
      rw [List.head?_cons, clearLoop, hn [] x l1 rfl]
      exact hc

theorem Links.listPtrClear (hk : Links h seqs) (lp : ℕ) :
    ∃ h', h.listPtrClear lp = some h' ∧ Links h' (update seqs lp []) ∧
      Touches h h' lp (seqs lp) := by
  have hn : ∀ pre x post, seqs lp = pre ++ x :: post → h.next x = post.head? :=
    fun _ _ _ hs => (hk.neighbours hs).2
  obtain ⟨h', hc, ht⟩ := clearLoop_spec lp (hk.list lp).nodup hn (hk.length_le lp)
  rw [← hk.first_eq] at hc
  have ht' : Touches h { h' with
      first := update h'.first lp none
      last := update h'.last lp none
      size := update h'.size lp 0 } lp (seqs lp) :=
    { ends := fun hq => by simpa [update_of_ne hq] using ht.ends hq
      links := ht.links
      usage := ht.usage
      item := ht.item
      entries := ht.entries
      lists := ht.lists
      refCount := ht.refCount
      listPtrs := ht.listPtrs }
  refine ⟨_, by rw [ListHeap.listPtrClear, hc, Option.map_some], hk.change ht' ?_ ?_ ?_ ?_, ht'⟩
  · simpa using IsList.empty
  · exact fun x hx => absurd hx (by simp)
  · exact fun x hx => absurd hx (by simp)
  · simp

theorem Links.listPtrNew (hk : Links h seqs) : Links h.listPtrNew (update seqs h.listPtrs []) where
  list p := by
    rcases eq_or_ne p h.listPtrs with rfl | hp
    · simpa [ListHeap.listPtrNew] using IsList.empty
    · simpa [ListHeap.listPtrNew, update_of_ne hp] using hk.list p
  apart {p q x} hx hx' := by
    rcases eq_or_ne p h.listPtrs with rfl | hp
    · simp at hx
    · rcases eq_or_ne q h.listPtrs with rfl | hq
      · simp at hx'
      · rw [update_of_ne hp] at hx
        rw [update_of_ne hq] at hx'
        exact hk.apart hx hx'
  bound {p x} hx := by
    rcases eq_or_ne p h.listPtrs with rfl | hp
    · simp at hx
    · rw [update_of_ne hp] at hx
      exact hk.bound hx
  used {p x} hx := by
    rcases eq_or_ne p h.listPtrs with rfl | hp
    · simp at hx
    · rw [update_of_ne hp] at hx
      exact hk.used hx
  size p := by
    rcases eq_or_ne p h.listPtrs with rfl | hp
    · simp [ListHeap.listPtrNew]
    · simpa [ListHeap.listPtrNew, update_of_ne hp] using hk.size p

theorem Links.dupLoop {nlp : ℕ} (hne : lp ≠ nlp) : ∀ {rest pre : List ℕ} {fuel : ℕ} {h : ListHeap}
    {seqs : ℕ → List ℕ}, Links h seqs → seqs lp = pre ++ rest → rest.length ≤ fuel →
    ∃ h' copies, dupLoop nlp fuel rest.head? h = some h' ∧
      Links h' (update seqs nlp (seqs nlp ++ copies)) ∧ Touches h h' nlp (seqs nlp) ∧
      (∀ x, x < h.entries → h'.item x = h.item x) ∧
      copies.map h'.item = rest.map h.item
  | [], pre, fuel, h, seqs, hk, _, _ =>
      ⟨h, [], by cases fuel <;> rfl, by rwa [List.append_nil, update_eq_self],
        Touches.refl h nlp _, fun _ _ => rfl, rfl⟩
  | le :: rest, pre, 0, _, _, _, _, hf => absurd hf (by simp)
  | le :: rest, pre, fuel + 1, h, seqs, hk, hs, hf => by
      have hk1 := hk.append nlp (h.dataPtr le) (h.linkCount le)
      have hs1 : update seqs nlp (seqs nlp ++ [h.entries]) lp = pre ++ le :: rest := by
        rw [update_of_ne hne, hs]
      have hs2 : update seqs nlp (seqs nlp ++ [h.entries]) lp = (pre ++ [le]) ++ rest := by
        rw [hs1, List.append_assoc, List.singleton_append]
      obtain ⟨h', copies, hd, hk', ht, hi, hc⟩ :=
        Links.dupLoop hne hk1 hs2 (Nat.le_of_succ_le_succ hf)
      have hbound : ∀ x ∈ le :: rest, x < h.entries :=
        fun x hx => hk.bound (p := lp) (by rw [hs]; exact List.mem_append_right _ hx)
      refine ⟨h', h.entries :: copies, ?_, ?_, ?_, ?_, ?_⟩
      · rw [List.head?_cons, ListHeap.dupLoop, (hk1.neighbours hs1).2]
        exact hd
      · rwa [update_self, update_idem, List.append_assoc] at hk'
      · refine (hk.touches_append _).trans ht fun x hx hlt => ?_
        rw [update_self, List.mem_append, List.mem_singleton] at hx
        exact hx.resolve_right (by omega)
      · intro x hx
        rw [hi x (Nat.lt_succ_of_lt hx), item_appendEntry hx]
      · rw [List.map_cons, List.map_cons, hc, hi _ (Nat.lt_succ_self _), item_appendEntry_self]
        congr 1
        exact List.map_congr_left fun x hx =>
          item_appendEntry (hbound x (List.mem_cons_of_mem le hx))

theorem Links.ownCopy (hk : Links h seqs) (hne : lp ≠ h.listPtrs) (hr : 1 < h.refCount lp) (l : ℕ) :
    ∃ h' copies, h.ownCopy l lp = some h' ∧ Links h' (update seqs h.listPtrs copies) ∧
      (∀ x, x < h.entries → h'.item x = h.item x) ∧ copies.map h'.item = (seqs lp).map h.item ∧
      h'.lists = h.lists.set l h.listPtrs ∧ h'.listPtrs = h.listPtrs + 1 ∧
      h'.refCount = update (update h.refCount h.listPtrs 1) lp (h.refCount lp - 1) := by
  have hs : update seqs h.listPtrs [] lp = [] ++ seqs lp := update_of_ne hne _ _
  obtain ⟨h', copies, hd, hk', ht, hi, hc⟩ := Links.dupLoop hne hk.listPtrNew hs (hk.length_le lp)
  rw [update_self, update_idem, List.nil_append] at hk'
  have hrc : h'.refCount lp = h.refCount lp := by
    rw [ht.refCount]
    exact update_of_ne hne _ _
  refine ⟨{ h' with
    refCount := update h'.refCount lp (h.refCount lp - 1)
    lists := h'.lists.set l h.listPtrs }, copies, ?_,
    ⟨hk'.list, hk'.apart, hk'.bound, hk'.used, hk'.size⟩, hi, hc,
    congrArg (List.set · l h.listPtrs) ht.lists, ht.listPtrs, ?_⟩
  · unfold ListHeap.ownCopy listPtrDup listPtrFree
    rw [hk.first_eq, hd]
    simp only [hrc, Option.bind_eq_bind, Option.bind_some]
    rw [if_neg (by omega), if_neg (by omega)]
    rfl
  · exact congrArg (update · lp (h.refCount lp - 1)) ht.refCount

/-! ### Positions -/

variable {i : ℕ}

theorem Links.next_eq (hk : Links h seqs) (hx : (seqs lp)[i]? = some x) :
    h.next x = (seqs lp)[i + 1]? := by
  obtain ⟨hi, rfl⟩ := List.getElem?_eq_some_iff.mp hx
  have hs : seqs lp = (seqs lp).take i ++ (seqs lp)[i] :: (seqs lp).drop (i + 1) := by simp
  rw [(hk.neighbours hs).2, List.head?_drop]

theorem Links.previous_eq (hk : Links h seqs) (hx : (seqs lp)[i]? = some x) :
    h.previous x = if i = 0 then none else (seqs lp)[i - 1]? := by
  obtain ⟨hi, rfl⟩ := List.getElem?_eq_some_iff.mp hx
  have hs : seqs lp = (seqs lp).take i ++ (seqs lp)[i] :: (seqs lp).drop (i + 1) := by simp
  rw [(hk.neighbours hs).1, List.getLast?_take]
  split_ifs with h0
  · rfl
  · rw [List.getElem?_eq_getElem (by omega), Option.some_or]

theorem Links.countBack (hk : Links h seqs) : ∀ {i fuel x : ℕ}, (seqs lp)[i]? = some x →
    i < fuel → h.countBack fuel x = some i
  | _, 0, _, _, hf => absurd hf (Nat.not_lt_zero _)
  | 0, fuel + 1, x, hx, _ => by
      rw [ListHeap.countBack, hk.previous_eq hx, if_pos rfl]
  | i + 1, fuel + 1, x, hx, hf => by
      have hi : i < (seqs lp).length := by
        have := (List.getElem?_eq_some_iff.mp hx).1
        omega
      have hprev : h.previous x = some (seqs lp)[i] := by
        rw [hk.previous_eq hx, if_neg (Nat.succ_ne_zero i), Nat.add_sub_cancel]
        exact List.getElem?_eq_getElem hi
      rw [ListHeap.countBack, hprev]
      simp only [hk.countBack (List.getElem?_eq_getElem hi) (Nat.lt_of_succ_lt_succ hf),
        Option.map_some]

theorem Links.seek (hk : Links h seqs) : ∀ {i j : ℕ}, h.seek ((seqs lp)[j]?) i = (seqs lp)[j + i]?
  | 0, j => by cases (seqs lp)[j]? <;> rfl
  | i + 1, j => by
      cases hx : (seqs lp)[j]? with
      | none =>
          have hle := List.getElem?_eq_none_iff.mp hx
          rw [List.getElem?_eq_none (by omega)]
          rfl
      | some x =>
          rw [ListHeap.seek, hk.next_eq hx, hk.seek]
          congr 1
          omega

theorem Links.readAll_next (hk : Links h seqs) : ∀ {rest pre : List ℕ} {fuel : ℕ},
    seqs lp = pre ++ rest → rest.length ≤ fuel →
    h.readAll h.next fuel rest.head? = rest.map h.item
  | [], _, fuel, _, _ => by cases fuel <;> rfl
  | x :: rest, _, 0, _, hf => absurd hf (by simp)
  | x :: rest, pre, fuel + 1, hs, hf => by
      rw [List.head?_cons, readAll, (hk.neighbours hs).2, List.map_cons]
      congr 1
      have hs' : seqs lp = (pre ++ [x]) ++ rest := by
        rw [hs, List.append_assoc, List.singleton_append]
      exact hk.readAll_next hs' (Nat.le_of_succ_le_succ hf)

theorem Links.readAll_previous (hk : Links h seqs) : ∀ {before post : List ℕ} {fuel : ℕ},
    seqs lp = before.reverse ++ post → before.length ≤ fuel →
    h.readAll h.previous fuel before.head? = before.map h.item
  | [], _, fuel, _, _ => by cases fuel <;> rfl
  | x :: before, _, 0, _, hf => absurd hf (by simp)
  | x :: before, post, fuel + 1, hs, hf => by
      rw [List.reverse_cons, List.append_assoc] at hs
      rw [List.head?_cons, readAll, (hk.neighbours hs).1, List.getLast?_reverse, List.map_cons]
      congr 1
      exact hk.readAll_previous hs (Nat.le_of_succ_le_succ hf)
end Gwenhywfar.ListHeap
