import Gwenhywfar.Base.Tree2

/-! # GWEN_TREE2: sorting the children

* `sortChildren`: the children are counted, unlinked into an array, which is sorted, and linked
  again.  `sort_r` is a parameter.
* `sorts_iff`: `GWEN_Tree2Element_GetChildrenCount` counts the children but returns 0, so that
  the children are in order afterwards exactly when they were in order before. -/

namespace Gwenhywfar.Tree2

namespace Heap

/-- The loop of `GWEN_Tree2Element_GetChildrenCount`; it is `none` when the fuel runs out. -/
def countChildren (h : Heap) : ℕ → Option ℕ → ℕ → Option ℕ
  | _, none, num => some num
  | 0, some _, _ => none
  | k + 1, some child, num => countChildren h k (h.nextElement child) (num + 1)

/-- `GWEN_Tree2Element_GetChildrenCount`: it does not return the number. -/
def getChildrenCount (h : Heap) (fuel el : ℕ) : Option ℕ :=
  (h.countChildren fuel (h.firstChild el) 0).map fun _ => 0

def unlinkChildren (el : ℕ) : ℕ → Heap → List ℕ → Option (Heap × List ℕ)
  | 0, _, _ => none
  | k + 1, h, tmpEntries =>
      match h.firstChild el with
      | none => some (h, tmpEntries)
      | some child => unlinkChildren el k (h.unlink child) (tmpEntries ++ [child])

/-- `_compare`: it takes the addresses of two slots of the array for elements.  Since `data` is
the first field of an element, the callback gets what the slots hold. -/
def compare (cb : ℕ → ℕ → ℤ) (slotA slotB : ℕ) : ℤ := cb slotA slotB

/-- `GWEN_Tree2Element_SortChildren`. -/
def sortChildren (sortR : (ℕ → ℕ → ℤ) → List ℕ → List ℕ) (cb : ℕ → ℕ → ℤ) (fuel : ℕ) (h : Heap)
    (el : ℕ) : Option Heap := do
  let numChildren ← h.getChildrenCount fuel el
  if numChildren ≠ 0 then
    let (h, tmpEntries) ← unlinkChildren el fuel h []
    some ((sortR (compare cb) (tmpEntries.take numChildren)).foldl (fun h c => h.addChild el c) h)
  else some h

end Heap

open Heap Function

/-- A callback that is a total preorder of the data pointers. -/
structure IsPreorder (cb : ℕ → ℕ → ℤ) : Prop where
  total : ∀ a b, cb a b ≤ 0 ∨ cb b a ≤ 0
  trans : ∀ a b c, cb a b ≤ 0 → cb b c ≤ 0 → cb a c ≤ 0

def InOrder (cb : ℕ → ℕ → ℤ) (data : ℕ → ℕ) (l : List ℕ) : Prop :=
  l.Pairwise fun x y => cb (data x) (data y) ≤ 0

instance (cb : ℕ → ℕ → ℤ) (data : ℕ → ℕ) (l : List ℕ) : Decidable (InOrder cb data l) :=
  inferInstanceAs (Decidable (l.Pairwise _))

/-- What `sort_r` does with an array and a total preorder of what is in its slots. -/
def SortsArrays (sortR : (ℕ → ℕ → ℤ) → List ℕ → List ℕ) : Prop :=
  ∀ c, IsPreorder c → ∀ l, (sortR c l).Perm l ∧ (sortR c l).Pairwise fun a b => c a b ≤ 0

/-- Afterwards the children are those that were there before, in order and with consistent
links, and all other lists of children are as before. -/
def Sorts (sortR : (ℕ → ℕ → ℤ) → List ℕ → List ℕ) (cb : ℕ → ℕ → ℤ) (data : ℕ → ℕ) (h : Heap)
    (kids : ℕ → List ℕ) (el : ℕ) : Prop :=
  ∃ fuel h' l, sortChildren sortR cb fuel h el = some h' ∧
    Represents h' (update kids el l) ∧ l.Perm (kids el) ∧ InOrder cb data l

section
variable {h h' : Heap} {kids : ℕ → List ℕ} {el fuel : ℕ} {cb : ℕ → ℕ → ℤ} {data : ℕ → ℕ}
  {sortR : (ℕ → ℕ → ℤ) → List ℕ → List ℕ}

theorem countChildren_eq : ∀ {l : List ℕ} {p : Option ℕ} (fuel num : ℕ),
    Seg h.nextElement h.prevElement p l none → l.length ≤ fuel →
    h.countChildren fuel l.head? num = some (num + l.length)
  | [], _, fuel, num, _, _ => by
      cases fuel <;> rfl
  | x :: l, p, fuel, num, ⟨_, hnext, hseg⟩, hfuel => by
      rw [List.length_cons] at hfuel
      obtain ⟨k, rfl⟩ : ∃ k, fuel = k + 1 := ⟨fuel - 1, by omega⟩
      rw [Option.or_none] at hnext
      rw [List.head?_cons, countChildren, hnext, countChildren_eq k (num + 1) hseg (by omega),
        List.length_cons, Nat.add_assoc, Nat.add_comm 1]

theorem sortChildren_eq (hr : Represents h kids) (hfuel : (kids el).length ≤ fuel) :
    sortChildren sortR cb fuel h el = some h := by
  have hcount := countChildren_eq fuel 0 (hr.list el).seg hfuel
  rw [← (hr.list el).first] at hcount
  rw [sortChildren, getChildrenCount, hcount]
  rfl

theorem eq_of_sortChildren (hsort : sortChildren sortR cb fuel h el = some h') : h' = h := by
  cases hcount : h.countChildren fuel (h.firstChild el) 0 with
  | none =>
      rw [sortChildren, getChildrenCount, hcount] at hsort
      cases hsort
  | some num =>
      rw [sortChildren, getChildrenCount, hcount] at hsort
      exact (Option.some.inj hsort).symm

theorem seg_unique : ∀ {l l' : List ℕ} {p p' : Option ℕ},
    Seg h.nextElement h.prevElement p l none → Seg h.nextElement h.prevElement p' l' none →
    l.head? = l'.head? → l = l'
  | [], [], _, _, _, _, _ => rfl
  | [], y :: l', _, _, _, _, hhead => by cases hhead
  | x :: l, [], _, _, _, _, hhead => by cases hhead
  | x :: l, y :: l', _, _, ⟨_, hnext, hseg⟩, ⟨_, hnext', hseg'⟩, hhead => by
      obtain rfl := Option.some.inj hhead
      rw [Option.or_none] at hnext hnext'
      rw [seg_unique hseg hseg' (hnext.symm.trans hnext')]

/-- The children are in order afterwards exactly when they were in order before. -/
theorem sorts_iff (sortR : (ℕ → ℕ → ℤ) → List ℕ → List ℕ) (cb : ℕ → ℕ → ℤ) (data : ℕ → ℕ)
    (hr : Represents h kids) (el : ℕ) :
    Sorts sortR cb data h kids el ↔ InOrder cb data (kids el) := by
  constructor
  · rintro ⟨fuel, h', l, hsort, hr', -, horder⟩
    obtain rfl := eq_of_sortChildren hsort
    have hlist := hr'.list el
    rw [update_self] at hlist
    have hl : l = kids el :=
      seg_unique hlist.seg (hr.list el).seg (hlist.first.symm.trans (hr.list el).first)
    rwa [← hl]
  · intro horder
    refine ⟨(kids el).length, h, kids el, sortChildren_eq hr (Nat.le_refl _), ?_,
      List.Perm.refl _, horder⟩
    rwa [update_eq_self]

end

def twoChildren : Heap := (Heap.new.addChild 0 1).addChild 0 2

theorem represents_twoChildren : Represents twoChildren
    (update (update (fun _ => []) 0 [1]) 0 [1, 2]) :=
  (represents_new.addChild rfl).addChild rfl

/-- The children 1 and 2 are in order before and afterwards. -/
theorem sorts_twoChildren : Sorts (fun c l => l.mergeSort fun a b => c a b ≤ 0)
    (fun a b => a - b) id twoChildren
    (update (update (fun _ => []) 0 [1]) 0 [1, 2]) 0 :=
  (sorts_iff _ _ id represents_twoChildren 0).mpr (by decide)

theorem sortsArrays_mergeSort : SortsArrays fun c l => l.mergeSort fun a b => decide (c a b ≤ 0) := by
  intro c hc l
  refine ⟨List.mergeSort_perm l _, ?_⟩
  have hsorted : (l.mergeSort fun a b => decide (c a b ≤ 0)).Pairwise
      fun a b => decide (c a b ≤ 0) = true :=
    List.pairwise_mergeSort (fun a b d hab hbd => decide_eq_true
      (hc.trans a b d (of_decide_eq_true hab) (of_decide_eq_true hbd)))
      (fun a b => by simpa using hc.total a b) l
  exact hsorted.imp of_decide_eq_true

/-- The children 1 and 2 stay as they are when 2 comes before 1. -/
theorem not_sorts_twoChildren : ¬∀ (sortR : (ℕ → ℕ → ℤ) → List ℕ → List ℕ) (cb : ℕ → ℕ → ℤ)
    (data : ℕ → ℕ) (h : Heap) (kids : ℕ → List ℕ) (el : ℕ), SortsArrays sortR → IsPreorder cb →
    Represents h kids → Sorts sortR cb data h kids el := by
  intro hall
  have horder : IsPreorder fun a b => (b : ℤ) - a :=
    ⟨fun a b => by omega, fun a b c h1 h2 => by omega⟩
  have hsorts := hall _ _ id _ _ 0 sortsArrays_mergeSort horder represents_twoChildren
  have hkids := (sorts_iff _ _ id represents_twoChildren 0).mp hsorts
  exact absurd hkids (by decide)
end Gwenhywfar.Tree2
