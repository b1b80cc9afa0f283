import Mathlib.Data.List.Nodup
import Mathlib.Logic.Function.Basic
import Mathlib.Tactic.Common

/-! # Doubly linked lists

The fields of the nodes are functions from addresses; a null pointer is `none`.

* `Seg next prev p l n`: the nodes of `l` are linked in this order, the first one back to `p`
  and the last one on to `n`.
* `IsList next prev first last l`: `l` is a whole list with its two ends.
* `Linked next prev first last place lists`: many such lists, with the place of each node.
* Appending a node (`Linked.append`), taking one out (`Linked.remove`) and putting another in
  its place (`Linked.substitute`) change the pointers of the neighbours only. -/

namespace Gwenhywfar

open Function

variable {α β : Type}

/-! ### Assignments through pointers -/

/-- Assigns through a pointer unless it is null. -/
def setAt [DecidableEq α] (f : α → β) : Option α → β → α → β
  | none, _ => f
  | some x, v => update f x v

/-- Assigns through a pointer when the field there points to `e`. -/
def replaceAt [DecidableEq α] (f : α → Option α) (p : Option α) (e : α) (v : Option α) :
    α → Option α :=
  match p with
  | none => f
  | some x => if f x = some e then update f x v else f

theorem setAt_apply [DecidableEq α] (f : α → β) (p : Option α) (v : β) (y : α) :
    setAt f p v y = if p = some y then v else f y := by
  cases p with
  | none => simp [setAt]
  | some x => simp only [setAt, update_apply, Option.some.injEq, eq_comm]

@[simp] theorem setAt_apply_self [DecidableEq α] (f : α → β) (p : Option α) (x : α) :
    setAt f p (f x) x = f x := by
  rw [setAt_apply, ite_self]

theorem replaceAt_apply [DecidableEq α] (f : α → Option α) (p : Option α) (e : α)
    (v : Option α) (y : α) :
    replaceAt f p e v y = if p = some y ∧ f y = some e then v else f y := by
  cases p with
  | none => simp [replaceAt]
  | some x =>
      simp only [replaceAt, Option.some.injEq]
      by_cases hxy : x = y
      · subst hxy
        by_cases he : f x = some e <;> simp [he]
      · have hy : ¬(x = y ∧ f y = some e) := fun h => hxy h.1
        rw [if_neg hy]
        by_cases he : f x = some e
        · rw [if_pos he, update_of_ne (Ne.symm hxy)]
        · rw [if_neg he]

/-! ### Segments -/

/-- The nodes are linked in this order, from `p` before the first to `n` after the last. -/
def Seg (next prev : α → Option α) : Option α → List α → Option α → Prop
  | _, [], _ => True
  | p, x :: xs, n => prev x = p ∧ next x = xs.head?.or n ∧ Seg next prev (some x) xs n

variable {next prev next' prev' : α → Option α} {p p' n n' : Option α}

theorem seg_append : ∀ {p : Option α} {l r : List α} {n : Option α},
    Seg next prev p (l ++ r) n ↔
      Seg next prev p l (r.head?.or n) ∧ Seg next prev (l.getLast?.or p) r n
  | p, [], r, n => by simp [Seg]
  | p, x :: l, r, n => by
      rw [List.cons_append, Seg, Seg, seg_append, List.head?_append, Option.or_assoc,
        List.getLast?_cons]
      have hlast : l.getLast?.or (some x) = (some (l.getLast?.getD x)).or p := by
        cases l.getLast? <;> rfl
      rw [hlast, and_assoc, and_assoc]

theorem Seg.congr : ∀ {p : Option α} {l : List α} {n : Option α}, Seg next prev p l n →
    (∀ x ∈ l, next' x = next x) → (∀ x ∈ l, prev' x = prev x) → Seg next' prev' p l n
  | _, [], _, _, _, _ => trivial
  | p, x :: l, n, ⟨h1, h2, h3⟩, hn, hp => by
      have hx : x ∈ x :: l := List.mem_cons_self
      exact ⟨(hp x hx).trans h1, (hn x hx).trans h2,
        Seg.congr h3 (fun y hy => hn y (List.mem_cons_of_mem x hy))
          fun y hy => hp y (List.mem_cons_of_mem x hy)⟩

theorem Seg.relink_next : ∀ {p : Option α} {l : List α}, Seg next prev p l n → l.Nodup →
    (∀ x ∈ l, prev' x = prev x) →
    (∀ x ∈ l, l.getLast? = some x → next' x = n') →
    (∀ x ∈ l, l.getLast? ≠ some x → next' x = next x) → Seg next' prev' p l n'
  | _, [], _, _, _, _, _ => trivial
  | p, [x], ⟨h1, _, _⟩, _, hp, hlast, _ =>
      ⟨(hp x (by simp)).trans h1, by rw [hlast x (by simp) (by simp)]; rfl, trivial⟩
  | p, x :: y :: l, ⟨h1, h2, h3⟩, hd, hp, hlast, hother => by
      obtain ⟨hxl, hd'⟩ := List.nodup_cons.mp hd
      have hx : (x :: y :: l).getLast? ≠ some x := by
        rw [List.getLast?_cons_cons]
        exact fun h => hxl (List.mem_of_getLast? h)
      refine ⟨(hp x (by simp)).trans h1, (hother x (by simp) hx).trans h2, ?_⟩
      refine Seg.relink_next h3 hd' (fun z hz => hp z (List.mem_cons_of_mem x hz)) ?_ ?_
      · intro z hz hl
        exact hlast z (List.mem_cons_of_mem x hz) (by rw [List.getLast?_cons_cons, hl])
      · intro z hz hl
        exact hother z (List.mem_cons_of_mem x hz) (by rw [List.getLast?_cons_cons]; exact hl)

theorem Seg.relink_prev {l : List α} (h : Seg next prev p l n) (hd : l.Nodup)
    (hn : ∀ x ∈ l, next' x = next x) (hfirst : ∀ x ∈ l, l.head? = some x → prev' x = p')
    (hother : ∀ x ∈ l, l.head? ≠ some x → prev' x = prev x) : Seg next' prev' p' l n := by
  cases l with
  | nil => trivial
  | cons x l =>
      obtain ⟨hxl, -⟩ := List.nodup_cons.mp hd
      obtain ⟨-, h2, h3⟩ := h
      refine ⟨hfirst x (by simp) rfl, (hn x (by simp)).trans h2, ?_⟩
      refine h3.congr (fun y hy => hn y (List.mem_cons_of_mem x hy)) fun y hy => ?_
      refine hother y (List.mem_cons_of_mem x hy) fun he => hxl ?_
      rwa [Option.some.inj he]

theorem Seg.exists_prev : ∀ {a : α} {l : List α}, Seg next prev (some a) l n → ∀ {x : α},
    x ∈ l → ∃ q ∈ a :: l, prev x = some q
  | a, y :: l, ⟨h1, _, h3⟩, x, hx => by
      rcases List.mem_cons.mp hx with rfl | hx
      · exact ⟨a, by simp, h1⟩
      · obtain ⟨q, hq, he⟩ := h3.exists_prev hx
        exact ⟨q, List.mem_cons_of_mem a hq, he⟩

theorem Seg.nodup : ∀ {p : Option α} {l : List α}, Seg next prev p l n →
    (∀ a ∈ l, p ≠ some a) → l.Nodup
  | _, [], _, _ => List.nodup_nil
  | p, x :: l, ⟨h1, _, h3⟩, hp => by
      have hx : x ∉ l := by
        intro hx
        obtain ⟨q, hq, he⟩ := h3.exists_prev hx
        exact hp q hq (h1.symm.trans he)
      exact List.nodup_cons.mpr ⟨hx, h3.nodup fun a ha he => hx (Option.some.inj he ▸ ha)⟩

/-! ### Whole lists -/

/-- The nodes of a list between its two ends. -/
structure IsList (next prev : α → Option α) (first last : Option α) (l : List α) : Prop where
  first : first = l.head?
  last : last = l.getLast?
  seg : Seg next prev none l none

namespace IsList

variable {first last : Option α} {l l1 l2 : List α} {e r : α}

theorem nodup (h : IsList next prev first last l) : l.Nodup :=
  h.seg.nodup fun _ _ => nofun

theorem empty : IsList next prev none none [] := ⟨rfl, rfl, trivial⟩

theorem congr (h : IsList next prev first last l) (hn : ∀ x ∈ l, next' x = next x)
    (hp : ∀ x ∈ l, prev' x = prev x) : IsList next' prev' first last l :=
  ⟨h.first, h.last, h.seg.congr hn hp⟩

theorem eq_nil (h : IsList next prev first last l) : first = none ↔ l = [] := by
  rw [h.first, List.head?_eq_none_iff]

theorem neighbours (h : IsList next prev first last (l1 ++ e :: l2)) :
    prev e = l1.getLast? ∧ next e = l2.head? := by
  obtain ⟨-, h1, h2, -⟩ := seg_append.mp h.seg
  exact ⟨by rw [h1, Option.or_none], by rw [h2, Option.or_none]⟩

theorem prev_mem (h : IsList next prev first last l) (he : e ∈ l) (hr : prev e = some r) :
    r ∈ l := by
  obtain ⟨l1, l2, rfl⟩ := List.append_of_mem he
  rw [h.neighbours.1] at hr
  exact List.mem_append_left _ (List.mem_of_getLast? hr)

theorem next_mem (h : IsList next prev first last l) (he : e ∈ l) (hr : next e = some r) :
    r ∈ l := by
  obtain ⟨l1, l2, rfl⟩ := List.append_of_mem he
  rw [h.neighbours.2] at hr
  exact List.mem_append_right _ (List.mem_cons_of_mem e (List.mem_of_head? hr))

theorem first_eq_iff (h : IsList next prev first last (l1 ++ e :: l2)) :
    first = some e ↔ l1 = [] := by
  obtain ⟨-, -, hdisj⟩ := List.nodup_append.mp h.nodup
  rw [h.first]
  cases l1 with
  | nil => simp
  | cons x l1 =>
      have hx : x ≠ e := fun hx => hdisj x (by simp) e (by simp) hx
      simpa using hx

theorem last_eq_iff (h : IsList next prev first last (l1 ++ e :: l2)) :
    last = some e ↔ l2 = [] := by
  obtain ⟨-, hd, -⟩ := List.nodup_append.mp h.nodup
  rw [h.last, List.getLast?_append]
  cases l2 with
  | nil => simp
  | cons x l2 =>
      have he : (x :: l2).getLast? ≠ some e :=
        fun hl => (List.nodup_cons.mp hd).1 (List.mem_of_getLast? hl)
      rw [List.getLast?_cons_cons]
      obtain ⟨y, hy⟩ : ∃ y, (x :: l2).getLast? = some y := ⟨_, List.getLast?_cons⟩
      rw [hy] at he ⊢
      simpa using he

theorem not_insert {first' last' : Option α} (h : IsList next prev first last l)
    (hne : l ≠ []) (hp : ∀ x ∈ l, prev' x = prev x) :
    ¬ IsList next' prev' first' last' (e :: l) := by
  intro h'
  obtain ⟨c, rest, rfl⟩ := List.exists_cons_of_ne_nil hne
  obtain ⟨hc, -⟩ := h.seg
  obtain ⟨-, -, hc', -⟩ := h'.seg
  rw [hp c (by simp), hc] at hc'
  cases hc'

variable [DecidableEq α]

theorem append (h : IsList next prev first last l) (hne : next' e = none)
    (hpe : prev' e = last) (hn : ∀ x ∈ l, next' x = if last = some x then some e else next x)
    (hp : ∀ x ∈ l, prev' x = prev x) :
    IsList next' prev' (first.or (some e)) (some e) (l ++ [e]) := by
  refine ⟨by rw [List.head?_append, h.first]; rfl, by simp, seg_append.mpr ⟨?_, ?_⟩⟩
  · refine h.seg.relink_next h.nodup hp ?_ ?_
    · intro x hx hl
      rw [hn x hx, if_pos (h.last.trans hl)]
      rfl
    · intro x hx hl
      rw [hn x hx, if_neg fun hl' => hl (h.last.symm.trans hl')]
  · exact ⟨by rw [hpe, h.last, Option.or_none], hne, trivial⟩

theorem prepend (h : IsList next prev first last l) (hne : next' e = first)
    (hpe : prev' e = none) (hn : ∀ x ∈ l, next' x = next x)
    (hp : ∀ x ∈ l, prev' x = if first = some x then some e else prev x) :
    IsList next' prev' (some e) (last.or (some e)) (e :: l) := by
  refine ⟨rfl, ?_, hpe, ?_, ?_⟩
  · rw [List.getLast?_cons, h.last]
    cases l.getLast? <;> rfl
  · rw [hne, h.first, Option.or_none]
  · refine h.seg.relink_prev h.nodup hn ?_ ?_
    · intro x hx hh
      rw [hp x hx, if_pos (h.first.trans hh)]
    · intro x hx hh
      rw [hp x hx, if_neg fun hf => hh (h.first.symm.trans hf)]

theorem seg_relink (h : IsList next prev first last (l1 ++ e :: l2))
    (hn : ∀ x ∈ l1 ++ l2, next' x = if prev e = some x then n' else next x)
    (hp : ∀ x ∈ l1 ++ l2, prev' x = if next e = some x then p' else prev x) :
    Seg next' prev' none l1 n' ∧ Seg next' prev' p' l2 none := by
  obtain ⟨hpe, hne⟩ := h.neighbours
  obtain ⟨hd1, hd2, hdisj⟩ := List.nodup_append.mp h.nodup
  obtain ⟨-, hd2⟩ := List.nodup_cons.mp hd2
  obtain ⟨h1, -, -, h2⟩ := seg_append.mp h.seg
  rw [hpe] at hn
  rw [hne] at hp
  constructor
  · refine h1.relink_next hd1 ?_ ?_ ?_
    · intro x hx
      rw [hp x (List.mem_append_left _ hx), if_neg]
      exact fun hh => hdisj x hx x (List.mem_cons_of_mem e (List.mem_of_head? hh)) rfl
    · intro x hx hl
      rw [hn x (List.mem_append_left _ hx), if_pos hl]
    · intro x hx hl
      rw [hn x (List.mem_append_left _ hx), if_neg hl]
  · refine h2.relink_prev hd2 ?_ ?_ ?_
    · intro x hx
      rw [hn x (List.mem_append_right _ hx), if_neg]
      exact fun hl => hdisj x (List.mem_of_getLast? hl) x (List.mem_cons_of_mem e hx) rfl
    · intro x hx hh
      rw [hp x (List.mem_append_right _ hx), if_pos hh]
    · intro x hx hh
      rw [hp x (List.mem_append_right _ hx), if_neg hh]

theorem remove (h : IsList next prev first last (l1 ++ e :: l2))
    (hn : ∀ x ∈ l1 ++ l2, next' x = if prev e = some x then next e else next x)
    (hp : ∀ x ∈ l1 ++ l2, prev' x = if next e = some x then prev e else prev x) :
    IsList next' prev' (if first = some e then next e else first)
      (if last = some e then prev e else last) (l1 ++ l2) := by
  obtain ⟨hpe, hne⟩ := h.neighbours
  obtain ⟨h1, h2⟩ := h.seg_relink hn hp
  refine ⟨?_, ?_, seg_append.mpr ⟨by rw [Option.or_none, ← hne]; exact h1, by
    rw [Option.or_none, ← hpe]; exact h2⟩⟩
  · by_cases he : first = some e
    · rw [if_pos he, h.first_eq_iff.mp he, hne, List.nil_append]
    · rw [if_neg he, h.first, List.head?_append, List.head?_append]
      cases l1 with
      | nil => exact absurd (h.first_eq_iff.mpr rfl) he
      | cons x l1 => rfl
  · by_cases he : last = some e
    · rw [if_pos he, h.last_eq_iff.mp he, hpe, List.append_nil]
    · rw [if_neg he, h.last, List.getLast?_append, List.getLast?_append]
      cases l2 with
      | nil => exact absurd (h.last_eq_iff.mpr rfl) he
      | cons x l2 => rw [List.getLast?_cons_cons, List.getLast?_cons]

theorem substitute (h : IsList next prev first last (l1 ++ e :: l2))
    (hne : next' r = next e) (hpe : prev' r = prev e)
    (hn : ∀ x ∈ l1 ++ l2, next' x = if prev e = some x then some r else next x)
    (hp : ∀ x ∈ l1 ++ l2, prev' x = if next e = some x then some r else prev x) :
    IsList next' prev' (if first = some e then some r else first)
      (if last = some e then some r else last) (l1 ++ r :: l2) := by
  obtain ⟨hpe', hne'⟩ := h.neighbours
  obtain ⟨h1, h2⟩ := h.seg_relink hn hp
  refine ⟨?_, ?_, seg_append.mpr ⟨h1, ?_, ?_, h2⟩⟩
  · by_cases he : first = some e
    · rw [if_pos he, h.first_eq_iff.mp he]
      rfl
    · rw [if_neg he, h.first, List.head?_append, List.head?_append]
      cases l1 with
      | nil => exact absurd (h.first_eq_iff.mpr rfl) he
      | cons x l1 => rfl
  · by_cases he : last = some e
    · rw [if_pos he, h.last_eq_iff.mp he]
      simp
    · rw [if_neg he, h.last, List.getLast?_append, List.getLast?_append]
      cases l2 with
      | nil => exact absurd (h.last_eq_iff.mpr rfl) he
      | cons x l2 => rw [List.getLast?_cons_cons, List.getLast?_cons_cons]
  · rw [hpe, hpe', Option.or_none]
  · rw [hne, hne', Option.or_none]

end IsList

/-! ### Many lists -/

/-- Every node is in the list at its place, if it has one; the others are not linked. -/
structure Linked {ι : Type} (next prev : α → Option α) (first last : ι → Option α)
    (place : α → Option ι) (lists : ι → List α) : Prop where
  list : ∀ i, IsList next prev (first i) (last i) (lists i)
  mem_iff : ∀ i x, x ∈ lists i ↔ place x = some i
  unlinked : ∀ x, place x = none → next x = none ∧ prev x = none

namespace Linked

variable {ι : Type} {first last first' last' : ι → Option α} {place place' : α → Option ι}
  {lists : ι → List α} {i j : ι} {el x y o r : α}

theorem empty : Linked (fun _ => none) (fun _ => none) (fun _ : ι => none) (fun _ => none)
    (fun _ : α => none) fun _ => [] where
  list _ := IsList.empty
  mem_iff i x := by simp
  unlinked _ _ := ⟨rfl, rfl⟩

theorem place_prev (h : Linked next prev first last place lists) (hx : prev x = some y) :
    place y = place x := by
  cases hp : place x with
  | none => rw [(h.unlinked x hp).2] at hx; cases hx
  | some i => exact (h.mem_iff i y).mp ((h.list i).prev_mem ((h.mem_iff i x).mpr hp) hx)

theorem place_next (h : Linked next prev first last place lists) (hx : next x = some y) :
    place y = place x := by
  cases hp : place x with
  | none => rw [(h.unlinked x hp).1] at hx; cases hx
  | some i => exact (h.mem_iff i y).mp ((h.list i).next_mem ((h.mem_iff i x).mpr hp) hx)

theorem prev_ne (h : Linked next prev first last place lists) (hx : place x = none) :
    prev y ≠ some x := by
  intro hy
  have hp := (h.place_prev hy).symm.trans hx
  rw [(h.unlinked y hp).2] at hy
  cases hy

theorem next_ne (h : Linked next prev first last place lists) (hx : place x = none) :
    next y ≠ some x := by
  intro hy
  have hp := (h.place_next hy).symm.trans hx
  rw [(h.unlinked y hp).1] at hy
  cases hy

theorem first_mem (h : Linked next prev first last place lists) (hx : first i = some x) :
    x ∈ lists i :=
  List.mem_of_head? ((h.list i).first.symm.trans hx)

theorem last_mem (h : Linked next prev first last place lists) (hx : last i = some x) :
    x ∈ lists i :=
  List.mem_of_getLast? ((h.list i).last.symm.trans hx)

theorem ne_of_mem (h : Linked next prev first last place lists) (hel : place el = none)
    (hx : x ∈ lists i) : x ≠ el := by
  rintro rfl
  rw [(h.mem_iff i x).mp hx] at hel
  cases hel

theorem exists_split (h : Linked next prev first last place lists) (hp : place x = some i) :
    ∃ l1 l2, lists i = l1 ++ x :: l2 ∧ x ∉ l1 ∧ x ∉ l2 ∧ prev x = l1.getLast? ∧
      next x = l2.head? := by
  obtain ⟨l1, l2, hl⟩ := List.append_of_mem ((h.mem_iff i x).mpr hp)
  have hlist := h.list i
  rw [hl] at hlist
  have hd := hlist.nodup
  rw [List.nodup_append] at hd
  exact ⟨l1, l2, hl, fun hx => hd.2.2 x hx x (by simp) rfl, (List.nodup_cons.mp hd.2.1).1,
    hlist.neighbours⟩

theorem prev_ne_self (h : Linked next prev first last place lists) : prev x ≠ some x := by
  intro hx
  cases hp : place x with
  | none => rw [(h.unlinked x hp).2] at hx; cases hx
  | some i =>
      obtain ⟨l1, l2, -, hx1, -, hprev, -⟩ := h.exists_split hp
      exact hx1 (List.mem_of_getLast? (hprev.symm.trans hx))

theorem list_of_apart (h : Linked next prev first last place lists) (hi : place el ≠ some i)
    (hn : ∀ x ∈ lists i, prev el ≠ some x → next' x = next x)
    (hp : ∀ x ∈ lists i, next el ≠ some x → prev' x = prev x) :
    IsList next' prev' (first i) (last i) (lists i) := by
  refine (h.list i).congr (fun x hx => hn x hx fun he => ?_) fun x hx => hp x hx fun he => ?_
  · exact hi ((h.place_prev he).symm.trans ((h.mem_iff i x).mp hx))
  · exact hi ((h.place_next he).symm.trans ((h.mem_iff i x).mp hx))

theorem map_eq_self [DecidableEq α] {l : List α} (ho : o ∉ l) :
    (l.map fun x => if x = o then r else x) = l := by
  refine (List.map_congr_left fun x hx => if_neg ?_).trans (List.map_id l)
  rintro rfl
  exact ho hx

variable [DecidableEq α] [DecidableEq ι]

theorem append (h : Linked next prev first last place lists) (hel : place el = none)
    (hn : ∀ x, next' x = if last i = some x then some el else next x)
    (hp : ∀ x, prev' x = if x = el then last i else prev x)
    (hf : ∀ j, first' j = if j = i then (first i).or (some el) else first j)
    (hl : ∀ j, last' j = if j = i then some el else last j)
    (ho : ∀ x, place' x = if x = el then some i else place x) :
    Linked next' prev' first' last' place' (update lists i (lists i ++ [el])) where
  list j := by
    by_cases hj : j = i
    · subst hj
      have hlast : last j ≠ some el := fun hl => h.ne_of_mem hel (h.last_mem hl) rfl
      rw [hf, hl, if_pos rfl, if_pos rfl, update_self]
      refine (h.list j).append ?_ ?_ (fun x _ => hn x) fun x hx => ?_
      · rw [hn, if_neg hlast, (h.unlinked el hel).1]
      · rw [hp, if_pos rfl]
      · rw [hp, if_neg (h.ne_of_mem hel hx)]
    · rw [hf, hl, if_neg hj, if_neg hj, update_of_ne hj]
      refine (h.list j).congr (fun x hx => ?_) fun x hx => ?_
      · have hlast : last i ≠ some x := by
          intro hl
          have hx' := (h.mem_iff i x).mp (h.last_mem hl)
          rw [(h.mem_iff j x).mp hx] at hx'
          exact hj (Option.some.inj hx')
        rw [hn, if_neg hlast]
      · rw [hp, if_neg (h.ne_of_mem hel hx)]
  mem_iff j x := by
    rw [ho, update_apply]
    by_cases hj : j = i
    · subst hj
      rw [if_pos rfl, List.mem_append, h.mem_iff, List.mem_singleton]
      by_cases hx : x = el <;> simp [hx]
    · rw [if_neg hj, h.mem_iff]
      by_cases hx : x = el
      · subst hx
        simpa [hel] using Ne.symm hj
      · rw [if_neg hx]
  unlinked x hx := by
    rw [ho] at hx
    split at hx
    case isTrue => cases hx
    case isFalse hne =>
      have hlast : last i ≠ some x := by
        intro hl
        rw [(h.mem_iff i x).mp (h.last_mem hl)] at hx
        cases hx
      rw [hn, if_neg hlast, hp, if_neg hne]
      exact h.unlinked x hx

theorem remove (h : Linked next prev first last place lists)
    (hn : ∀ x, next' x = if x = el then none else if prev el = some x then next el else next x)
    (hp : ∀ x, prev' x = if x = el then none else if next el = some x then prev el else prev x)
    (hf : ∀ j, first' j = if place el = some j ∧ first j = some el then next el else first j)
    (hl : ∀ j, last' j = if place el = some j ∧ last j = some el then prev el else last j)
    (ho : ∀ x, place' x = if x = el then none else place x) :
    Linked next' prev' first' last' place' fun j => (lists j).erase el where
  list j := by
    by_cases hj : place el = some j
    · obtain ⟨l1, l2, hsplit, hx1, hx2, -⟩ := h.exists_split hj
      have hlist := h.list j
      rw [hsplit] at hlist
      have hother : ∀ x ∈ l1 ++ l2, x ≠ el := by
        rintro x hx rfl
        exact (List.mem_append.mp hx).elim hx1 hx2
      simp only [hsplit, List.erase_append_right _ hx1, List.erase_cons_head, hf, hl, hj, true_and]
      refine hlist.remove (fun x hx => ?_) fun x hx => ?_
      · rw [hn, if_neg (hother x hx)]
      · rw [hp, if_neg (hother x hx)]
    · have hel : el ∉ lists j := fun hx => hj ((h.mem_iff j el).mp hx)
      have hother : ∀ x ∈ lists j, x ≠ el := by
        rintro x hx rfl
        exact hel hx
      simp only [List.erase_of_not_mem hel, hf, hl, hj, false_and, if_false]
      refine h.list_of_apart hj (fun x hx hne => ?_) fun x hx hne => ?_
      · rw [hn, if_neg (hother x hx), if_neg hne]
      · rw [hp, if_neg (hother x hx), if_neg hne]
  mem_iff j x := by
    rw [(h.list j).nodup.mem_erase_iff, h.mem_iff, ho]
    by_cases hx : x = el <;> simp [hx]
  unlinked x hx := by
    rw [hn, hp]
    by_cases he : x = el
    · rw [if_pos he, if_pos he]
      exact ⟨rfl, rfl⟩
    · rw [ho, if_neg he] at hx
      rw [if_neg he, if_neg he, if_neg (h.prev_ne hx), if_neg (h.next_ne hx)]
      exact h.unlinked x hx

theorem substitute (h : Linked next prev first last place lists) (hr : place r = none)
    (hor : o ≠ r)
    (hn : ∀ x, next' x = if x = o then none else if x = r then next o
      else if prev o = some x then some r else next x)
    (hp : ∀ x, prev' x = if x = o then none else if x = r then prev o
      else if next o = some x then some r else prev x)
    (hf : ∀ j, first' j = if place o = some j ∧ first j = some o then some r else first j)
    (hl : ∀ j, last' j = if place o = some j ∧ last j = some o then some r else last j)
    (ho : ∀ x, place' x = if x = o then none else if x = r then place o else place x) :
    Linked next' prev' first' last' place'
      fun j => (lists j).map fun x => if x = o then r else x where
  list j := by
    by_cases hj : place o = some j
    · obtain ⟨l1, l2, hsplit, hx1, hx2, -⟩ := h.exists_split hj
      have hlist := h.list j
      have hother : ∀ x ∈ l1 ++ l2, x ≠ o ∧ x ≠ r := by
        intro x hx
        refine ⟨?_, h.ne_of_mem (i := j) hr ?_⟩
        · rintro rfl
          exact (List.mem_append.mp hx).elim hx1 hx2
        · rw [hsplit]
          simp only [List.mem_append, List.mem_cons] at hx ⊢
          exact hx.imp_right Or.inr
      rw [hsplit] at hlist
      simp only [hsplit, List.map_append, List.map_cons, if_true, map_eq_self hx1,
        map_eq_self hx2, hf, hl, hj, true_and]
      refine hlist.substitute ?_ ?_ (fun x hx => ?_) fun x hx => ?_
      · rw [hn, if_neg hor.symm, if_pos rfl]
      · rw [hp, if_neg hor.symm, if_pos rfl]
      · rw [hn, if_neg (hother x hx).1, if_neg (hother x hx).2]
      · rw [hp, if_neg (hother x hx).1, if_neg (hother x hx).2]
    · have hoj : o ∉ lists j := fun hx => hj ((h.mem_iff j o).mp hx)
      have hother : ∀ x ∈ lists j, x ≠ o ∧ x ≠ r := by
        intro x hx
        refine ⟨?_, h.ne_of_mem hr hx⟩
        rintro rfl
        exact hoj hx
      simp only [map_eq_self hoj, hf, hl, hj, false_and, if_false]
      refine h.list_of_apart hj (fun x hx hne => ?_) fun x hx hne => ?_
      · rw [hn, if_neg (hother x hx).1, if_neg (hother x hx).2, if_neg hne]
      · rw [hp, if_neg (hother x hx).1, if_neg (hother x hx).2, if_neg hne]
  mem_iff j x := by
    have hrj : r ∉ lists j := fun hx => h.ne_of_mem hr hx rfl
    rw [ho, List.mem_map]
    by_cases hxo : x = o
    · subst hxo
      rw [if_pos rfl]
      constructor
      · rintro ⟨y, -, hy⟩
        split at hy
        case isTrue => exact absurd hy.symm hor
        case isFalse hne => exact absurd hy hne
      · exact nofun
    · rw [if_neg hxo]
      by_cases hxr : x = r
      · subst hxr
        rw [if_pos rfl, ← h.mem_iff]
        constructor
        · rintro ⟨y, hy, he⟩
          split at he
          case isTrue hyo => exact hyo ▸ hy
          case isFalse => exact absurd (he ▸ hy) hrj
        · exact fun ho => ⟨o, ho, if_pos rfl⟩
      · rw [if_neg hxr, ← h.mem_iff]
        constructor
        · rintro ⟨y, hy, he⟩
          split at he
          case isTrue => exact absurd he.symm hxr
          case isFalse => exact he ▸ hy
        · exact fun hx => ⟨x, hx, if_neg hxo⟩
  unlinked x hx := by
    rw [ho] at hx
    rw [hn, hp]
    by_cases hxo : x = o
    · rw [if_pos hxo, if_pos hxo]
      exact ⟨rfl, rfl⟩
    · rw [if_neg hxo] at hx
      rw [if_neg hxo, if_neg hxo]
      by_cases hxr : x = r
      · rw [if_pos hxr] at hx
        rw [if_pos hxr, if_pos hxr]
        exact h.unlinked o hx
      · rw [if_neg hxr] at hx
        rw [if_neg hxr, if_neg hxr, if_neg (h.prev_ne hx), if_neg (h.next_ne hx)]
        exact h.unlinked x hx

end Linked
end Gwenhywfar
