import Gwenhywfar.Lib.Siblings
import Gwenhywfar.Lib.Ancestors

/-! # GWEN_TREE2: the links

The elements are named by their addresses, and each field of `GWEN_TREE2_ELEMENT` is a function
of the address.  An element stands for the object its `data` points to.

* `Heap.addChild`, `Heap.insertChild`, `Heap.unlink` and `Heap.replace` assign the pointers in
  the order of the source.
* `Represents h kids`: the pointers of `h` are those of the forest with the lists of children
  `kids`.
* Three of the operations keep this and change the lists as they should (`Represents.addChild`,
  `Represents.unlink`, `Represents.replace`).  `insertChild` does so exactly when there was no
  child before (`Represents.insertChild`, `not_represents_insertChild`). -/

namespace Gwenhywfar.Tree2

open Function

/-- The fields of the elements. -/
structure Heap where
  nextElement : ℕ → Option ℕ
  prevElement : ℕ → Option ℕ
  firstChild : ℕ → Option ℕ
  lastChild : ℕ → Option ℕ
  parent : ℕ → Option ℕ

/-- Every element is as `GWEN_Tree2Element_new` makes it. -/
def Heap.new : Heap :=
  ⟨fun _ => none, fun _ => none, fun _ => none, fun _ => none, fun _ => none⟩

/-! ### Operations -/

namespace Heap

/-- `GWEN_Tree2_Unlink`. -/
def unlink (h : Heap) (el : ℕ) : Heap :=
  let h := { h with nextElement := setAt h.nextElement (h.prevElement el) (h.nextElement el) }
  let h := { h with prevElement := setAt h.prevElement (h.nextElement el) (h.prevElement el) }
  let h := { h with firstChild := replaceAt h.firstChild (h.parent el) el (h.nextElement el) }
  let h := { h with lastChild := replaceAt h.lastChild (h.parent el) el (h.prevElement el) }
  { h with
    nextElement := update h.nextElement el none
    prevElement := update h.prevElement el none
    parent := update h.parent el none }

/-- The relinking with the parent in `GWEN_Tree2_Replace`. -/
def replaceInParent (h : Heap) (elToReplace elReplacement : ℕ) : Heap :=
  match h.parent elToReplace with
  | none => h
  | some p =>
      { h with
        parent := update h.parent elReplacement (some p)
        firstChild := replaceAt h.firstChild (some p) elToReplace (some elReplacement)
        lastChild := replaceAt h.lastChild (some p) elToReplace (some elReplacement) }

/-- `GWEN_Tree2_Replace`. -/
def replace (h : Heap) (elToReplace elReplacement : ℕ) : Heap :=
  let h :=
    { h with
      nextElement := update h.nextElement elReplacement none
      prevElement := update h.prevElement elReplacement none
      parent := update h.parent elReplacement none }
  let h :=
    { h with
      nextElement := setAt h.nextElement (h.prevElement elToReplace) (some elReplacement) }
  let h :=
    { h with
      prevElement := update h.prevElement elReplacement (h.prevElement elToReplace) }
  let h :=
    { h with
      prevElement := setAt h.prevElement (h.nextElement elToReplace) (some elReplacement) }
  let h :=
    { h with
      nextElement := update h.nextElement elReplacement (h.nextElement elToReplace) }
  let h := h.replaceInParent elToReplace elReplacement
  { h with
    nextElement := update h.nextElement elToReplace none
    prevElement := update h.prevElement elToReplace none
    parent := update h.parent elToReplace none }

/-- `GWEN_Tree2_AddChild`. -/
def addChild (h : Heap) (place el : ℕ) : Heap :=
  let h :=
    if h.firstChild place = none then
      { h with firstChild := update h.firstChild place (some el) }
    else h
  let h := { h with prevElement := update h.prevElement el (h.lastChild place) }
  let h := { h with nextElement := setAt h.nextElement (h.lastChild place) (some el) }
  let h := { h with lastChild := update h.lastChild place (some el) }
  { h with parent := update h.parent el (some place) }

/-- `GWEN_Tree2_InsertChild`: the `prevElement` of the first child so far is not set. -/
def insertChild (h : Heap) (place el : ℕ) : Heap :=
  let h := { h with nextElement := update h.nextElement el (h.firstChild place) }
  let h := { h with firstChild := update h.firstChild place (some el) }
  let h :=
    if h.lastChild place = none then
      { h with lastChild := update h.lastChild place (some el) }
    else h
  { h with parent := update h.parent el (some place) }

section
variable (h : Heap) (place el x a : ℕ)

theorem addChild_nextElement : (h.addChild place el).nextElement x =
    if h.lastChild place = some x then some el else h.nextElement x := by
  unfold addChild
  split <;> exact setAt_apply ..

theorem addChild_prevElement : (h.addChild place el).prevElement x =
    if x = el then h.lastChild place else h.prevElement x := by
  unfold addChild
  split <;> exact update_apply ..

theorem addChild_firstChild : (h.addChild place el).firstChild a =
    if a = place then (h.firstChild place).or (some el) else h.firstChild a := by
  unfold addChild
  split
  case isTrue hf => simp only [hf, update_apply, Option.none_or]
  case isFalse hf =>
    obtain ⟨c, hc⟩ := Option.ne_none_iff_exists'.mp hf
    split
    case isTrue ha => rw [ha, hc, Option.some_or]
    case isFalse => rfl

theorem addChild_lastChild : (h.addChild place el).lastChild a =
    if a = place then some el else h.lastChild a := by
  unfold addChild
  split <;> exact update_apply ..

theorem addChild_parent : (h.addChild place el).parent =
    update h.parent el (some place) := by
  unfold addChild
  split <;> rfl

theorem unlink_nextElement : (h.unlink el).nextElement x =
    if x = el then none
    else if h.prevElement el = some x then h.nextElement el else h.nextElement x := by
  simp only [unlink, update_apply, setAt_apply]

theorem unlink_prevElement : (h.unlink el).prevElement x =
    if x = el then none
    else if h.nextElement el = some x then h.prevElement el else h.prevElement x := by
  simp only [unlink, update_apply, setAt_apply_self, setAt_apply]

theorem unlink_firstChild : (h.unlink el).firstChild a =
    if h.parent el = some a ∧ h.firstChild a = some el then h.nextElement el
    else h.firstChild a := by
  simp only [unlink, setAt_apply_self, replaceAt_apply]

theorem unlink_lastChild : (h.unlink el).lastChild a =
    if h.parent el = some a ∧ h.lastChild a = some el then h.prevElement el
    else h.lastChild a := by
  simp only [unlink, setAt_apply_self, replaceAt_apply]

theorem unlink_parent : (h.unlink el).parent = update h.parent el none := rfl

end

section
variable {h : Heap} {o r : ℕ}

theorem replaceInParent_nextElement : (h.replaceInParent o r).nextElement = h.nextElement := by
  unfold replaceInParent
  split <;> rfl

theorem replaceInParent_prevElement : (h.replaceInParent o r).prevElement = h.prevElement := by
  unfold replaceInParent
  split <;> rfl

theorem replaceInParent_firstChild (a : ℕ) : (h.replaceInParent o r).firstChild a =
    if h.parent o = some a ∧ h.firstChild a = some o then some r else h.firstChild a := by
  unfold replaceInParent
  split
  case h_1 hp => simp [hp]
  case h_2 p hp =>
    rw [hp]
    exact replaceAt_apply h.firstChild (some p) o (some r) a

theorem replaceInParent_lastChild (a : ℕ) : (h.replaceInParent o r).lastChild a =
    if h.parent o = some a ∧ h.lastChild a = some o then some r else h.lastChild a := by
  unfold replaceInParent
  split
  case h_1 hp => simp [hp]
  case h_2 p hp =>
    rw [hp]
    exact replaceAt_apply h.lastChild (some p) o (some r) a

theorem replaceInParent_parent (x : ℕ) (hr : h.parent r = none) :
    (h.replaceInParent o r).parent x = if x = r then h.parent o else h.parent x := by
  unfold replaceInParent
  split
  case h_1 hp =>
    split
    case isTrue hx => rw [hx, hr, hp]
    case isFalse => rfl
  case h_2 p hp =>
    rw [hp]
    exact update_apply ..

theorem replace_nextElement (x : ℕ) (hor : o ≠ r) (hpo : h.prevElement o ≠ some o) :
    (h.replace o r).nextElement x =
      if x = o then none
      else if x = r then h.nextElement o
      else if h.prevElement o = some x then some r else h.nextElement x := by
  simp only [replace, replaceInParent_nextElement, update_apply, setAt_apply, hor, hpo,
    if_false]
  split
  case isTrue => rfl
  case isFalse =>
    split <;> rfl

theorem replace_prevElement (x : ℕ) (hor : o ≠ r) (hpo : h.prevElement o ≠ some o)
    (hnr : h.nextElement o ≠ some r) :
    (h.replace o r).prevElement x =
      if x = o then none
      else if x = r then h.prevElement o
      else if h.nextElement o = some x then some r else h.prevElement x := by
  simp only [replace, replaceInParent_prevElement, update_apply, setAt_apply, hor, hpo,
    if_false]
  by_cases hxr : x = r
  · subst hxr
    simp [hnr]
  · simp [hxr]

theorem replace_firstChild (a : ℕ) (hor : o ≠ r) : (h.replace o r).firstChild a =
    if h.parent o = some a ∧ h.firstChild a = some o then some r else h.firstChild a := by
  simp only [replace, replaceInParent_firstChild, update_apply, hor, if_false]

theorem replace_lastChild (a : ℕ) (hor : o ≠ r) : (h.replace o r).lastChild a =
    if h.parent o = some a ∧ h.lastChild a = some o then some r else h.lastChild a := by
  simp only [replace, replaceInParent_lastChild, update_apply, hor, if_false]

theorem replace_parent (x : ℕ) (hor : o ≠ r) : (h.replace o r).parent x =
    if x = o then none else if x = r then h.parent o else h.parent x := by
  simp only [replace, update_apply]
  rw [replaceInParent_parent x (by simp)]
  simp only [update_apply, hor, if_false]
  split
  case isTrue => rfl
  case isFalse =>
    split <;> rfl

end

end Heap

/-! ### Forests -/

/-- The pointers are those of the forest with these lists of children. -/
def Represents (h : Heap) (kids : ℕ → List ℕ) : Prop :=
  Linked h.nextElement h.prevElement h.firstChild h.lastChild h.parent kids

theorem represents_new : Represents Heap.new fun _ => [] := Linked.empty

namespace Represents

open Heap

variable {h : Heap} {kids : ℕ → List ℕ} {place el o r : ℕ}

theorem addChild (hr : Represents h kids) (hel : h.parent el = none) :
    Represents (h.addChild place el) (update kids place (kids place ++ [el])) :=
  Linked.append hr hel (addChild_nextElement h place el) (addChild_prevElement h place el)
    (addChild_firstChild h place el) (addChild_lastChild h place el) fun x => by
      rw [addChild_parent, update_apply]

theorem insertChild (hr : Represents h kids) (hel : h.parent el = none)
    (hf : h.firstChild place = none) :
    Represents (h.insertChild place el) (update kids place (el :: kids place)) := by
  have hnil : kids place = [] := (hr.list place).eq_nil.mp hf
  have hl : h.lastChild place = none := by rw [(hr.list place).last, hnil]; rfl
  have heq : h.insertChild place el = h.addChild place el := by
    have hnext : update h.nextElement el none = h.nextElement := by
      rw [← (hr.unlinked el hel).1, update_eq_self]
    have hprev : update h.prevElement el none = h.prevElement := by
      rw [← (hr.unlinked el hel).2, update_eq_self]
    simp only [Heap.insertChild, Heap.addChild, hf, hl, if_true, setAt, hnext, hprev]
  rw [heq, hnil]
  have hadd : Represents (h.addChild place el) (update kids place (kids place ++ [el])) :=
    hr.addChild hel
  rwa [hnil] at hadd

theorem unlink (hr : Represents h kids) (el : ℕ) :
    Represents (h.unlink el) (fun a => (kids a).erase el) :=
  Linked.remove hr (unlink_nextElement h el) (unlink_prevElement h el) (unlink_firstChild h el)
    (unlink_lastChild h el) fun x => by rw [unlink_parent, update_apply]

theorem replace (hr : Represents h kids) (hp : h.parent r = none) (hor : o ≠ r) :
    Represents (h.replace o r) (fun a => (kids a).map fun x => if x = o then r else x) :=
  have hpo : h.prevElement o ≠ some o := hr.prev_ne_self
  have hnr : h.nextElement o ≠ some r := hr.next_ne hp
  Linked.substitute hr hp hor (fun x => replace_nextElement x hor hpo)
    (fun x => replace_prevElement x hor hpo hnr) (fun a => replace_firstChild a hor)
    (fun a => replace_lastChild a hor) fun x => replace_parent x hor

end Represents

theorem not_represents_insertChild {h : Heap} {kids : ℕ → List ℕ} {place el : ℕ}
    (hr : Represents h kids) (hf : h.firstChild place ≠ none) :
    ¬ Represents (h.insertChild place el) (update kids place (el :: kids place)) := by
  intro hr'
  have hprev : (h.insertChild place el).prevElement = h.prevElement := by
    simp only [Heap.insertChild]
    split <;> rfl
  have hlist := hr'.list place
  rw [update_self] at hlist
  refine (hr.list place).not_insert (mt (hr.list place).eq_nil.mpr hf) (fun x _ => ?_) hlist
  rw [hprev]
end Gwenhywfar.Tree2
