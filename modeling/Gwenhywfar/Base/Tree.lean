import Gwenhywfar.Lib.Siblings
import Gwenhywfar.Lib.Run

/-! # GWEN_TREE

Trees and elements are named by their addresses, and each field of `GWEN_TREE` and
`GWEN_TREE_ELEMENT` is a function of the address.  An operation is `none` when an assertion fails
or a null pointer is followed.

* The elements at the top of a tree and the children of an element are doubly linked lists, one
  for each `Place`; `Represents h lists` says that the pointers and counters of `h` are those of
  the forest with these lists.
* `links_consistent`: after every run the forest is represented exactly when the insertions, the
  replacements and the counters met `Fits`. -/

namespace Gwenhywfar.Tree

open Function

/-- The fields of the trees and of their elements. -/
structure Heap where
  firstElement : ℕ → Option ℕ
  lastElement : ℕ → Option ℕ
  treeCount : ℕ → UInt32
  nextElement : ℕ → Option ℕ
  prevElement : ℕ → Option ℕ
  treePtr : ℕ → Option ℕ
  parent : ℕ → Option ℕ
  firstChild : ℕ → Option ℕ
  lastChild : ℕ → Option ℕ
  count : ℕ → UInt32

def Heap.new : Heap where
  firstElement _ := none
  lastElement _ := none
  treeCount _ := 0
  nextElement _ := none
  prevElement _ := none
  treePtr _ := none
  parent _ := none
  firstChild _ := none
  lastChild _ := none
  count _ := 0

/-! ### Operations -/

namespace Heap

/-- The assignments of `GWEN_Tree_Add`. -/
def addLinks (h : Heap) (l el : ℕ) : Heap :=
  let h :=
    if h.firstElement l = none then
      { h with firstElement := update h.firstElement l (some el) }
    else h
  let h := { h with prevElement := update h.prevElement el (h.lastElement l) }
  let h := { h with nextElement := setAt h.nextElement (h.lastElement l) (some el) }
  { h with
    lastElement := update h.lastElement l (some el)
    treePtr := update h.treePtr el (some l)
    parent := update h.parent el none
    treeCount := update h.treeCount l (h.treeCount l + 1) }

/-- `GWEN_Tree_Add`. -/
def add (h : Heap) (l el : ℕ) : Option Heap :=
  if h.treePtr el = none then some (h.addLinks l el) else none

/-- The assignments of `GWEN_Tree_Insert`: the `prevElement` of the first element so far is not
set. -/
def insertLinks (h : Heap) (l el : ℕ) : Heap :=
  let h := { h with nextElement := update h.nextElement el (h.firstElement l) }
  let h := { h with firstElement := update h.firstElement l (some el) }
  let h :=
    if h.lastElement l = none then
      { h with lastElement := update h.lastElement l (some el) }
    else h
  { h with
    treePtr := update h.treePtr el (some l)
    parent := update h.parent el none
    treeCount := update h.treeCount l (h.treeCount l + 1) }

/-- `GWEN_Tree_Insert`; an element of a tree is only logged. -/
def insert (h : Heap) (l el : ℕ) : Heap :=
  if h.treePtr el = none then h.insertLinks l el else h

/-- The unlinking from the parent in `GWEN_Tree_Del`. -/
def delFromParent (h : Heap) (el : ℕ) : Heap :=
  match h.parent el with
  | none => h
  | some p =>
      { h with
        firstChild := replaceAt h.firstChild (some p) el (h.nextElement el)
        lastChild := replaceAt h.lastChild (some p) el (h.prevElement el)
        count := update h.count p (h.count p - 1) }

/-- The assignments of `GWEN_Tree_Del`. -/
def delLinks (h : Heap) (l el : ℕ) : Heap :=
  let h := { h with nextElement := setAt h.nextElement (h.prevElement el) (h.nextElement el) }
  let h := { h with prevElement := setAt h.prevElement (h.nextElement el) (h.prevElement el) }
  let h :=
    { h with
      firstElement := replaceAt h.firstElement (some l) el (h.nextElement el)
      lastElement := replaceAt h.lastElement (some l) el (h.prevElement el)
      treeCount := update h.treeCount l (h.treeCount l - 1) }
  let h := h.delFromParent el
  { h with
    nextElement := update h.nextElement el none
    prevElement := update h.prevElement el none
    parent := update h.parent el none
    treePtr := update h.treePtr el none }

/-- `GWEN_Tree_Del`; an element outside every tree is only logged. -/
def del (h : Heap) (el : ℕ) : Heap :=
  match h.treePtr el with
  | none => h
  | some l => h.delLinks l el

/-- The relinking with the parent in `GWEN_Tree_Replace`: the parent goes on pointing to the
element to replace, and it is this element's counter that changes. -/
def replaceInParent (h : Heap) (elToReplace elReplacement : ℕ) : Heap :=
  match h.parent elToReplace with
  | none => h
  | some p =>
      let h :=
        { h with
          parent := update h.parent elReplacement (some p)
          firstChild := replaceAt h.firstChild (some p) elToReplace (some elToReplace)
          lastChild := replaceAt h.lastChild (some p) elToReplace (some elToReplace) }
      let h :=
        { h with
          count := update h.count elToReplace
            (h.count elToReplace - (h.count elToReplace + 1)) }
      { h with
        count := update h.count elToReplace
          (h.count elToReplace + (h.count elReplacement + 1)) }

/-- The assignments of `GWEN_Tree_Replace`: the replacement gets no neighbours. -/
def replaceLinks (h : Heap) (l elToReplace elReplacement : ℕ) : Heap :=
  let h :=
    { h with
      nextElement := update h.nextElement elReplacement none
      prevElement := update h.prevElement elReplacement none
      parent := update h.parent elReplacement none
      treePtr := update h.treePtr elReplacement (h.treePtr elToReplace) }
  let h :=
    { h with
      nextElement := setAt h.nextElement (h.prevElement elToReplace) (some elReplacement) }
  let h :=
    { h with
      prevElement := setAt h.prevElement (h.nextElement elToReplace) (some elReplacement) }
  let h :=
    { h with
      firstElement := replaceAt h.firstElement (some l) elToReplace (some elReplacement)
      lastElement := replaceAt h.lastElement (some l) elToReplace (some elReplacement)
      treeCount := update h.treeCount l
        (h.treeCount l - (h.count elToReplace + 1) + (h.count elReplacement + 1)) }
  let h := h.replaceInParent elToReplace elReplacement
  { h with
    nextElement := update h.nextElement elToReplace none
    prevElement := update h.prevElement elToReplace none
    parent := update h.parent elToReplace none
    treePtr := update h.treePtr elToReplace none }

/-- `GWEN_Tree_Replace`. -/
def replace (h : Heap) (elToReplace elReplacement : ℕ) : Option Heap :=
  match h.treePtr elToReplace with
  | none => none
  | some l =>
      if h.treePtr elReplacement = none then some (h.replaceLinks l elToReplace elReplacement)
      else none

/-- The assignments of `GWEN_Tree_AddChild` in the tree `l`. -/
def addChildLinks (h : Heap) (l place el : ℕ) : Heap :=
  let h :=
    if h.firstChild place = none then
      { h with firstChild := update h.firstChild place (some el) }
    else h
  let h := { h with prevElement := update h.prevElement el (h.lastChild place) }
  let h := { h with nextElement := setAt h.nextElement (h.lastChild place) (some el) }
  { h with
    lastChild := update h.lastChild place (some el)
    parent := update h.parent el (some place)
    treePtr := update h.treePtr el (some l)
    treeCount := update h.treeCount l (h.treeCount l + 1)
    count := update h.count place (h.count place + 1) }

/-- `GWEN_Tree_AddChild`; the tree of `place` is followed unchecked. -/
def addChild (h : Heap) (place el : ℕ) : Option Heap :=
  if h.treePtr el = none then
    match h.treePtr place with
    | none => none
    | some l => some (h.addChildLinks l place el)
  else none

/-- The assignments of `GWEN_Tree_InsertChild` in the tree `l`: the `prevElement` of the first
child so far is not set. -/
def insertChildLinks (h : Heap) (l place el : ℕ) : Heap :=
  let h := { h with nextElement := update h.nextElement el (h.firstChild place) }
  let h := { h with firstChild := update h.firstChild place (some el) }
  let h :=
    if h.lastChild place = none then
      { h with lastChild := update h.lastChild place (some el) }
    else h
  { h with
    parent := update h.parent el (some place)
    treePtr := update h.treePtr el (some l)
    treeCount := update h.treeCount l (h.treeCount l + 1)
    count := update h.count place (h.count place + 1) }

/-- `GWEN_Tree_InsertChild`; the tree of `place` is followed unchecked. -/
def insertChild (h : Heap) (place el : ℕ) : Option Heap :=
  if h.treePtr el = none then
    match h.treePtr place with
    | none => none
    | some l => some (h.insertChildLinks l place el)
  else none

end Heap

/-! ### Forests -/

/-- Where an element can be: at the top of a tree, or under an element. -/
inductive Place
  | top (l : ℕ)
  | under (a : ℕ)
  deriving DecidableEq

namespace Heap

def placeOf (h : Heap) (x : ℕ) : Option Place :=
  match h.parent x with
  | some a => some (.under a)
  | none => (h.treePtr x).map .top

def first (h : Heap) : Place → Option ℕ
  | .top l => h.firstElement l
  | .under a => h.firstChild a

def last (h : Heap) : Place → Option ℕ
  | .top l => h.lastElement l
  | .under a => h.lastChild a

end Heap

/-- The pointers and counters are those of the forest with these lists. -/
structure Represents (h : Heap) (lists : Place → List ℕ) : Prop where
  links : Linked h.nextElement h.prevElement h.first h.last h.placeOf lists
  parent : ∀ a x, x ∈ lists (.under a) ↔ h.parent x = some a
  count : ∀ a, (h.count a).toNat = (lists (.under a)).length
  outside : ∀ x, h.treePtr x = none → h.parent x = none

theorem represents_new : Represents Heap.new fun _ => [] where
  links := by
    have hfirst : Heap.new.first = fun _ => none := by funext j; cases j <;> rfl
    have hlast : Heap.new.last = fun _ => none := by funext j; cases j <;> rfl
    rw [hfirst, hlast]
    exact Linked.empty
  parent a x := by simp [Heap.new]
  count _ := rfl
  outside _ _ := rfl

namespace Heap

variable {h : Heap} {x a l : ℕ}

theorem placeOf_eq_under : h.placeOf x = some (.under a) ↔ h.parent x = some a := by
  unfold placeOf
  split <;> simp_all

theorem placeOf_eq_top :
    h.placeOf x = some (.top l) ↔ h.parent x = none ∧ h.treePtr x = some l := by
  unfold placeOf
  split <;> simp_all

theorem addLinks_eq (h : Heap) (l el : ℕ) : h.addLinks l el = { h with
      firstElement := update h.firstElement l ((h.firstElement l).or (some el))
      lastElement := update h.lastElement l (some el)
      treeCount := update h.treeCount l (h.treeCount l + 1)
      nextElement := setAt h.nextElement (h.lastElement l) (some el)
      prevElement := update h.prevElement el (h.lastElement l)
      treePtr := update h.treePtr el (some l)
      parent := update h.parent el none } := by
  unfold addLinks
  split
  case isTrue hf => rw [hf, Option.none_or]
  case isFalse hf =>
    obtain ⟨c, hc⟩ := Option.ne_none_iff_exists'.mp hf
    rw [hc, Option.some_or, ← hc, update_eq_self]

theorem addChildLinks_eq (h : Heap) (l place el : ℕ) : h.addChildLinks l place el = { h with
      treeCount := update h.treeCount l (h.treeCount l + 1)
      nextElement := setAt h.nextElement (h.lastChild place) (some el)
      prevElement := update h.prevElement el (h.lastChild place)
      treePtr := update h.treePtr el (some l)
      parent := update h.parent el (some place)
      firstChild := update h.firstChild place ((h.firstChild place).or (some el))
      lastChild := update h.lastChild place (some el)
      count := update h.count place (h.count place + 1) } := by
  unfold addChildLinks
  split
  case isTrue hf => rw [hf, Option.none_or]
  case isFalse hf =>
    obtain ⟨c, hc⟩ := Option.ne_none_iff_exists'.mp hf
    rw [hc, Option.some_or, ← hc, update_eq_self]

theorem placeOf_eq_none : h.placeOf x = none ↔ h.parent x = none ∧ h.treePtr x = none := by
  unfold placeOf
  split <;> simp_all

end Heap

namespace Represents

open Heap

variable {h : Heap} {lists : Place → List ℕ} {l place el o r : ℕ}

theorem placeOf_of_outside (hr : Represents h lists) (hel : h.treePtr el = none) :
    h.placeOf el = none :=
  placeOf_eq_none.mpr ⟨hr.outside el hel, hel⟩

theorem parent_of_links {h : Heap}
    (hl : Linked h.nextElement h.prevElement h.first h.last h.placeOf lists) (a x : ℕ) :
    x ∈ lists (.under a) ↔ h.parent x = some a := by
  rw [hl.mem_iff, placeOf_eq_under]

/-! ### Adding -/

theorem append (hr : Represents h lists) {h' : Heap} {i : Place} (hel : h.treePtr el = none)
    (hn : h'.nextElement = setAt h.nextElement (h.last i) (some el))
    (hp : h'.prevElement = update h.prevElement el (h.last i))
    (hf : h'.first = update h.first i ((h.first i).or (some el)))
    (hl : h'.last = update h.last i (some el))
    (ho : h'.placeOf = update h.placeOf el (some i))
    (hc : ∀ a, (h'.count a).toNat =
      (h.count a).toNat + if i = .under a then 1 else 0)
    (ht : ∀ x, h'.treePtr x = none → x ≠ el ∧ h.treePtr x = none) :
    Represents h' (update lists i (lists i ++ [el])) := by
  have hlinks : Linked h'.nextElement h'.prevElement h'.first h'.last h'.placeOf
      (update lists i (lists i ++ [el])) := by
    refine hr.links.append (hr.placeOf_of_outside hel) (fun x => ?_) (fun x => ?_) (fun j => ?_)
      (fun j => ?_) fun x => ?_
    · rw [hn, setAt_apply]
    · rw [hp, update_apply]
    · rw [hf, update_apply]
    · rw [hl, update_apply]
    · rw [ho, update_apply]
  refine ⟨hlinks, parent_of_links hlinks, fun a => ?_, fun x hx => ?_⟩
  · rw [hc, hr.count, update_apply]
    by_cases ha : i = .under a
    · rw [if_pos ha, if_pos ha.symm, ha, List.length_append, List.length_singleton]
    · rw [if_neg ha, if_neg (Ne.symm ha), Nat.add_zero]
  · obtain ⟨hne, hx'⟩ := ht x hx
    have hplace : h'.placeOf x = none := by
      rw [ho, update_of_ne hne]
      exact hr.placeOf_of_outside hx'
    exact (placeOf_eq_none.mp hplace).1

theorem addLinks (hr : Represents h lists) (hel : h.treePtr el = none) :
    Represents (h.addLinks l el) (update lists (.top l) (lists (.top l) ++ [el])) := by
  rw [addLinks_eq]
  refine hr.append hel rfl rfl ?_ ?_ ?_ (fun a => ?_) fun x hx => ?_
  · funext j
    cases j <;> simp [Heap.first, update_apply]
  · funext j
    cases j <;> simp [Heap.last, update_apply]
  · funext x
    by_cases hx : x = el <;> simp [Heap.placeOf, hx]
  · simp
  · by_cases hxe : x = el <;> simp_all

theorem addChildLinks (hr : Represents h lists) (hel : h.treePtr el = none)
    (hc : (h.count place).toNat + 1 < 2 ^ 32) : Represents (h.addChildLinks l place el)
      (update lists (.under place) (lists (.under place) ++ [el])) := by
  rw [addChildLinks_eq]
  refine hr.append hel rfl rfl ?_ ?_ ?_ (fun a => ?_) fun x hx => ?_
  · funext j
    cases j <;> simp [Heap.first, update_apply]
  · funext j
    cases j <;> simp [Heap.last, update_apply]
  · funext x
    by_cases hx : x = el <;> simp [Heap.placeOf, hx]
  · by_cases ha : a = place
    · subst ha
      simp only [update_self, UInt32.toNat_add, if_true]
      exact Nat.mod_eq_of_lt hc
    · simp [update_of_ne ha, Ne.symm ha]
  · by_cases hxe : x = el <;> simp_all

/-! ### Inserting -/

theorem nextElement_of_outside (hr : Represents h lists) (hel : h.treePtr el = none) :
    update h.nextElement el none = h.nextElement := by
  rw [← (hr.links.unlinked el (hr.placeOf_of_outside hel)).1, update_eq_self]

theorem prevElement_of_outside (hr : Represents h lists) (hel : h.treePtr el = none) :
    update h.prevElement el none = h.prevElement := by
  rw [← (hr.links.unlinked el (hr.placeOf_of_outside hel)).2, update_eq_self]

theorem eq_nil (hr : Represents h lists) {i : Place} (hf : h.first i = none) :
    lists i = [] ∧ h.last i = none := by
  have hnil : lists i = [] := (hr.links.list i).eq_nil.mp hf
  refine ⟨hnil, ?_⟩
  rw [(hr.links.list i).last, hnil]
  rfl

theorem insertLinks (hr : Represents h lists) (hel : h.treePtr el = none)
    (hf : h.firstElement l = none) :
    Represents (h.insertLinks l el) (update lists (.top l) (el :: lists (.top l))) := by
  obtain ⟨hnil, hl⟩ := hr.eq_nil (i := .top l) hf
  have hl' : h.lastElement l = none := hl
  have heq : h.insertLinks l el = h.addLinks l el := by
    simp only [Heap.insertLinks, Heap.addLinks, hf, hl', if_true, setAt,
      hr.nextElement_of_outside hel, hr.prevElement_of_outside hel]
  have hadd := hr.addLinks (l := l) hel
  rw [hnil] at hadd ⊢
  rwa [heq]

theorem insertChildLinks (hr : Represents h lists) (hel : h.treePtr el = none)
    (hf : h.firstChild place = none) : Represents (h.insertChildLinks l place el)
      (update lists (.under place) (el :: lists (.under place))) := by
  obtain ⟨hnil, hl⟩ := hr.eq_nil (i := .under place) hf
  have hl' : h.lastChild place = none := hl
  have heq : h.insertChildLinks l place el = h.addChildLinks l place el := by
    simp only [Heap.insertChildLinks, Heap.addChildLinks, hf, hl', if_true, setAt,
      hr.nextElement_of_outside hel, hr.prevElement_of_outside hel]
  have hc : (h.count place).toNat + 1 < 2 ^ 32 := by
    rw [hr.count, hnil]
    decide
  have hadd := hr.addChildLinks (l := l) hel hc
  rw [hnil] at hadd ⊢
  rwa [heq]

theorem not_insert (hr : Represents h lists) {h' : Heap} {i : Place} (hf : h.first i ≠ none)
    (hp : h'.prevElement = h.prevElement) :
    ¬ Represents h' (update lists i (el :: lists i)) := by
  intro hr'
  have hlist := hr'.links.list i
  rw [update_self] at hlist
  exact (hr.links.list i).not_insert (mt (hr.links.list i).eq_nil.mpr hf)
    (fun x _ => congrFun hp x) hlist

theorem insertLinks_prevElement : (h.insertLinks l el).prevElement = h.prevElement := by
  simp only [Heap.insertLinks]
  split <;> rfl

theorem insertChildLinks_prevElement :
    (h.insertChildLinks l place el).prevElement = h.prevElement := by
  simp only [Heap.insertChildLinks]
  split <;> rfl

/-! ### Taking out -/

theorem delFromParent_count (a : ℕ) : (h.delFromParent el).count a =
    if h.parent el = some a then h.count a - 1 else h.count a := by
  unfold Heap.delFromParent
  split
  case h_1 hp => simp [hp]
  case h_2 p hp =>
    by_cases ha : a = p
    · subst ha
      simp [hp]
    · simp [hp, ha, Ne.symm ha]

theorem delFromParent_eq : h.delFromParent el = { h with
      firstChild := replaceAt h.firstChild (h.parent el) el (h.nextElement el)
      lastChild := replaceAt h.lastChild (h.parent el) el (h.prevElement el)
      count := (h.delFromParent el).count } := by
  unfold Heap.delFromParent
  split
  case h_1 hp => rw [hp]; rfl
  case h_2 p hp => rw [hp]

theorem delLinks_eq : h.delLinks l el = { h with
      firstElement := replaceAt h.firstElement (some l) el (h.nextElement el)
      lastElement := replaceAt h.lastElement (some l) el (h.prevElement el)
      treeCount := update h.treeCount l (h.treeCount l - 1)
      nextElement :=
        update (setAt h.nextElement (h.prevElement el) (h.nextElement el)) el none
      prevElement :=
        update (setAt h.prevElement (h.nextElement el) (h.prevElement el)) el none
      treePtr := update h.treePtr el none
      parent := update h.parent el none
      firstChild := replaceAt h.firstChild (h.parent el) el (h.nextElement el)
      lastChild := replaceAt h.lastChild (h.parent el) el (h.prevElement el)
      count := (h.delFromParent el).count } := by
  have hcount : ∀ h' : Heap, h'.count = h.count → h'.parent = h.parent →
      (h'.delFromParent el).count = (h.delFromParent el).count := by
    intro h' hc hp
    funext a
    rw [delFromParent_count, delFromParent_count, hc, hp]
  dsimp only [Heap.delLinks]
  rw [delFromParent_eq]
  simp only [setAt_apply_self]
  congr 1
  exact hcount _ rfl rfl

theorem delLinks (hr : Represents h lists) (hel : h.treePtr el = some l) :
    Represents (h.delLinks l el) (fun i => (lists i).erase el) := by
  have htop : ∀ {ends : Option ℕ} {l' : ℕ}, (ends = some el → el ∈ lists (.top l')) →
      ((some l = some l' ∧ ends = some el) ↔
        (h.placeOf el = some (.top l') ∧ ends = some el)) := by
    intro ends l' hmem
    refine and_congr_left fun he => ?_
    have hp := (hr.links.mem_iff _ _).mp (hmem he)
    rw [hp, ← hel, (placeOf_eq_top.mp hp).2]
    simp
  have hlinks : Linked (h.delLinks l el).nextElement (h.delLinks l el).prevElement
      (h.delLinks l el).first (h.delLinks l el).last (h.delLinks l el).placeOf
      (fun i => (lists i).erase el) := by
    rw [delLinks_eq]
    refine hr.links.remove (fun x => ?_) (fun x => ?_) (fun j => ?_) (fun j => ?_) fun x => ?_
    · simp only [update_apply, setAt_apply]
    · simp only [update_apply, setAt_apply]
    · cases j with
      | top l' =>
          exact (replaceAt_apply ..).trans
            (if_congr (htop fun he => hr.links.first_mem he) rfl rfl)
      | under a => simp only [Heap.first, replaceAt_apply, placeOf_eq_under]
    · cases j with
      | top l' =>
          exact (replaceAt_apply ..).trans
            (if_congr (htop fun he => hr.links.last_mem he) rfl rfl)
      | under a => simp only [Heap.last, replaceAt_apply, placeOf_eq_under]
    · by_cases hx : x = el <;> simp [Heap.placeOf, hx]
  refine ⟨hlinks, parent_of_links hlinks, fun a => ?_, fun x hx => ?_⟩
  · have hc : (h.delLinks l el).count a =
        if h.parent el = some a then h.count a - 1 else h.count a := by
      rw [delLinks_eq]
      exact delFromParent_count a
    rw [hc]
    by_cases ha : h.parent el = some a
    · have hmem := (hr.parent a el).mpr ha
      have hlen := List.length_pos_of_mem hmem
      have hone : (1 : UInt32) ≤ h.count a := by
        rw [UInt32.le_iff_toNat_le, hr.count]
        exact hlen
      rw [if_pos ha, UInt32.toNat_sub_of_le _ _ hone, hr.count, List.length_erase_of_mem hmem]
      rfl
    · rw [if_neg ha, hr.count, List.erase_of_not_mem fun hmem => ha ((hr.parent a el).mp hmem)]
  · rw [delLinks_eq] at hx ⊢
    by_cases hxe : x = el
    · simp [hxe]
    · simp only [update_of_ne hxe] at hx ⊢
      exact hr.outside x hx

theorem del (hr : Represents h lists) (el : ℕ) :
    Represents (h.del el) (fun i => (lists i).erase el) := by
  unfold Heap.del
  split
  case h_1 hel =>
    have hsame : (fun i => (lists i).erase el) = lists := by
      funext i
      refine List.erase_of_not_mem fun hmem => ?_
      rw [hr.links.mem_iff, hr.placeOf_of_outside hel] at hmem
      cases hmem
    rwa [hsame]
  case h_2 l hel => exact hr.delLinks hel

/-! ### Replacing -/

theorem replaceInParent_fields : (h.replaceInParent o r).nextElement = h.nextElement ∧
    (h.replaceInParent o r).prevElement = h.prevElement ∧
    (h.replaceInParent o r).firstChild = h.firstChild := by
  unfold Heap.replaceInParent
  split
  case h_1 => exact ⟨rfl, rfl, rfl⟩
  case h_2 p hp =>
    refine ⟨rfl, rfl, ?_⟩
    funext a
    dsimp only
    rw [replaceAt_apply, ite_eq_right_iff]
    exact fun ha => ha.2.symm

theorem replaceLinks_firstChild : (h.replaceLinks l o r).firstChild = h.firstChild := by
  dsimp only [Heap.replaceLinks]
  exact replaceInParent_fields.2.2

theorem replaceLinks_neighbours (hr : Represents h lists) (hel : h.treePtr r = none) (hor : o ≠ r) :
    (h.replaceLinks l o r).nextElement r = none ∧ (h.replaceLinks l o r).prevElement r = none := by
  have hout := hr.placeOf_of_outside hel
  have hpo : h.prevElement o ≠ some o := hr.links.prev_ne_self
  have hpr : h.prevElement o ≠ some r := hr.links.prev_ne hout
  have hnr : h.nextElement o ≠ some r := hr.links.next_ne hout
  dsimp only [Heap.replaceLinks]
  rw [replaceInParent_fields.1, replaceInParent_fields.2.1]
  simp [setAt_apply, update_of_ne hor, update_of_ne hor.symm, hpo, hpr, hnr]

theorem replaceLinks (hr : Represents h lists) (ho : h.treePtr o = some l)
    (hel : h.treePtr r = none) (hp : h.parent o = none) (hn : h.nextElement o = none)
    (hv : h.prevElement o = none) : Represents (h.replaceLinks l o r)
      (fun i => (lists i).map fun x => if x = o then r else x) := by
  have hor : o ≠ r := by
    rintro rfl
    rw [ho] at hel
    cases hel
  have heq : h.replaceLinks l o r =
      { h with
        firstElement := replaceAt h.firstElement (some l) o (some r)
        lastElement := replaceAt h.lastElement (some l) o (some r)
        treeCount := (h.replaceLinks l o r).treeCount
        nextElement := update (update h.nextElement r none) o none
        prevElement := update (update h.prevElement r none) o none
        treePtr := update (update h.treePtr r (some l)) o none
        parent := update (update h.parent r none) o none } := by
    simp [Heap.replaceLinks, Heap.replaceInParent, update_of_ne hor, hp, hn, hv, ho, setAt]
  have hlinks : Linked (h.replaceLinks l o r).nextElement (h.replaceLinks l o r).prevElement
      (h.replaceLinks l o r).first (h.replaceLinks l o r).last (h.replaceLinks l o r).placeOf
      (fun i => (lists i).map fun x => if x = o then r else x) := by
    rw [heq]
    refine hr.links.substitute (hr.placeOf_of_outside hel) hor (fun x => ?_) (fun x => ?_)
      (fun j => ?_) (fun j => ?_) fun x => ?_
    · simp [update_apply, hn, hv]
    · simp [update_apply, hn, hv]
    · cases j with
      | top l' =>
          refine (replaceAt_apply h.firstElement (some l) o (some r) l').trans
            (if_congr (and_congr_left fun _ => ?_) rfl rfl)
          rw [placeOf_eq_top, ho, hp]
          simp
      | under a => simp [Heap.first, placeOf_eq_under, hp]
    · cases j with
      | top l' =>
          refine (replaceAt_apply h.lastElement (some l) o (some r) l').trans
            (if_congr (and_congr_left fun _ => ?_) rfl rfl)
          rw [placeOf_eq_top, ho, hp]
          simp
      | under a => simp [Heap.last, placeOf_eq_under, hp]
    · by_cases hxo : x = o
      · simp [Heap.placeOf, hxo]
      · by_cases hxr : x = r
        · simp [Heap.placeOf, hxr, hor.symm, ho, hp]
        · simp [Heap.placeOf, hxo, hxr]
  refine ⟨hlinks, parent_of_links hlinks, fun a => ?_, fun x hx => ?_⟩
  · rw [heq, List.length_map]
    exact hr.count a
  · rw [heq] at hx ⊢
    by_cases hxo : x = o
    · simp [hxo]
    · by_cases hxr : x = r
      · simp [hxr, hor.symm] at hx
      · simp only [update_of_ne hxo, update_of_ne hxr] at hx ⊢
        exact hr.outside x hx

theorem alone_of_replaceLinks (hr : Represents h lists) (ho : h.treePtr o = some l)
    (hel : h.treePtr r = none)
    (hr' : Represents (h.replaceLinks l o r)
      (fun i => (lists i).map fun x => if x = o then r else x)) :
    h.parent o = none ∧ h.nextElement o = none ∧ h.prevElement o = none := by
  have hor : o ≠ r := by
    rintro rfl
    rw [ho] at hel
    cases hel
  have hout := hr.placeOf_of_outside hel
  obtain ⟨j, hj⟩ : ∃ j, h.placeOf o = some j := by
    refine Option.ne_none_iff_exists'.mp fun hno => ?_
    rw [(placeOf_eq_none.mp hno).2] at ho
    cases ho
  obtain ⟨l1, l2, hsplit, hx1, hx2, hprev, hnext⟩ := hr.links.exists_split hj
  have hlist := hr'.links.list j
  simp only [hsplit, List.map_append, List.map_cons, if_true, Linked.map_eq_self hx1,
    Linked.map_eq_self hx2] at hlist
  obtain ⟨hprev', hnext'⟩ := hlist.neighbours
  obtain ⟨hnr, hpr⟩ := hr.replaceLinks_neighbours (l := l) hel hor
  have hn : h.nextElement o = none := hnext.trans (hnext'.symm.trans hnr)
  have hv : h.prevElement o = none := hprev.trans (hprev'.symm.trans hpr)
  refine ⟨?_, hn, hv⟩
  cases hp : h.parent o with
  | none => rfl
  | some p =>
      obtain rfl : j = .under p := by
        rw [placeOf_eq_under.mpr hp, Option.some.injEq] at hj
        exact hj.symm
      have hl1 : l1 = [] := List.getLast?_eq_none_iff.mp (hprev.symm.trans hv)
      have hfirst := (hr.links.list (.under p)).first
      have hfirst' := hlist.first
      rw [hsplit, hl1] at hfirst
      rw [hl1] at hfirst'
      have hsame : (h.replaceLinks l o r).first (.under p) = h.first (.under p) :=
        congrFun replaceLinks_firstChild p
      rw [hsame, hfirst] at hfirst'
      exact absurd (Option.some.inj hfirst') hor

end Represents

/-! ### Runs -/

/-- The operations that change links. -/
inductive Op
  | add (l el : ℕ)
  | insert (l el : ℕ)
  | addChild (place el : ℕ)
  | insertChild (place el : ℕ)
  | replace (elToReplace elReplacement : ℕ)
  | del (el : ℕ)

def Heap.step (h : Heap) : Op → Option Heap
  | .add l el => h.add l el
  | .insert l el => some (h.insert l el)
  | .addChild place el => h.addChild place el
  | .insertChild place el => h.insertChild place el
  | .replace elToReplace elReplacement => h.replace elToReplace elReplacement
  | .del el => some (h.del el)

def Op.meaning (lists : Place → List ℕ) : Op → Place → List ℕ
  | .add l el => update lists (.top l) (lists (.top l) ++ [el])
  | .insert l el => update lists (.top l) (el :: lists (.top l))
  | .addChild place el =>
      update lists (.under place) (lists (.under place) ++ [el])
  | .insertChild place el =>
      update lists (.under place) (el :: lists (.under place))
  | .replace elToReplace elReplacement =>
      fun i => (lists i).map fun x => if x = elToReplace then elReplacement else x
  | .del el => fun i => (lists i).erase el

def listsAfter (ops : List Op) : Place → List ℕ := ops.foldl Op.meaning fun _ => []

/-- An element that comes into a tree is in no tree. -/
def Legal (h : Heap) : Op → Prop
  | .add _ el | .insert _ el | .addChild _ el | .insertChild _ el | .replace _ el =>
      h.treePtr el = none
  | .del _ => True

instance (h : Heap) (o : Op) : Decidable (Legal h o) := by
  cases o <;> dsimp only [Legal] <;> infer_instance

/-- The condition of a step: an insertion is into an empty list, an element that is replaced is
the only one at the top of its tree, and the counter of a parent does not overflow. -/
def Fits (h : Heap) : Op → Prop
  | .add _ _ | .del _ => True
  | .insert l _ => h.firstElement l = none
  | .addChild place _ => (h.count place).toNat + 1 < 2 ^ 32
  | .insertChild place _ => h.firstChild place = none
  | .replace elToReplace _ =>
      h.parent elToReplace = none ∧ h.nextElement elToReplace = none ∧
        h.prevElement elToReplace = none

instance (h : Heap) (o : Op) : Decidable (Fits h o) := by
  cases o <;> dsimp only [Fits] <;> infer_instance

variable {h h' : Heap} {lists : Place → List ℕ}

theorem represents_step (hr : Represents h lists) {o : Op} (hl : Legal h o)
    (hs : h.step o = some h') : Represents h' (o.meaning lists) ↔ Fits h o := by
  cases o with
  | add l el =>
      have hel : h.treePtr el = none := hl
      rw [Heap.step, Heap.add, if_pos hel, Option.some.injEq] at hs
      subst hs
      exact iff_of_true (hr.addLinks hl) trivial
  | insert l el =>
      have hel : h.treePtr el = none := hl
      rw [Heap.step, Heap.insert, if_pos hel, Option.some.injEq] at hs
      subst hs
      refine ⟨fun hr' => ?_, hr.insertLinks hl⟩
      by_contra hf
      exact hr.not_insert (i := .top l) hf Represents.insertLinks_prevElement hr'
  | addChild place el =>
      have hel : h.treePtr el = none := hl
      rw [Heap.step, Heap.addChild, if_pos hel] at hs
      split at hs
      case h_1 => cases hs
      case h_2 l hplace =>
        rw [Option.some.injEq] at hs
        subst hs
        refine ⟨fun hr' => ?_, hr.addChildLinks hl⟩
        have hc := hr'.count place
        have hlt := (h.count place).toNat_lt
        rw [Heap.addChildLinks_eq] at hc
        simp only [Op.meaning, update_self, List.length_append, ← hr.count,
          UInt32.toNat_add, List.length_singleton] at hc
        have hone : (1 : UInt32).toNat = 1 := rfl
        rw [hone] at hc
        rw [Fits]
        omega
  | insertChild place el =>
      have hel : h.treePtr el = none := hl
      rw [Heap.step, Heap.insertChild, if_pos hel] at hs
      split at hs
      case h_1 => cases hs
      case h_2 l hplace =>
        rw [Option.some.injEq] at hs
        subst hs
        refine ⟨fun hr' => ?_, hr.insertChildLinks hl⟩
        by_contra hf
        exact hr.not_insert (i := .under place) hf Represents.insertChildLinks_prevElement hr'
  | replace e f =>
      have hf : h.treePtr f = none := hl
      rw [Heap.step, Heap.replace] at hs
      split at hs
      case h_1 => cases hs
      case h_2 l he =>
        rw [if_pos hf, Option.some.injEq] at hs
        subst hs
        exact ⟨hr.alone_of_replaceLinks he hf, fun ha => hr.replaceLinks he hf ha.1 ha.2.1 ha.2.2⟩
  | del el =>
      rw [Heap.step, Option.some.injEq] at hs
      subst hs
      exact iff_of_true (hr.del el) trivial

theorem listsAfter_snoc (ops : List Op) (o : Op) :
    listsAfter (ops ++ [o]) = o.meaning (listsAfter ops) :=
  List.foldl_concat ..

/-- In a run that puts only elements of no tree into trees, every forest that is reached has
consistent links and counters and is the one the operations mean, exactly when every step of the
run fits. -/
theorem links_consistent (ops : List Op)
    (hl : ∀ pre o, pre ++ [o] <+: ops → ∀ h, exec Heap.step Heap.new pre = some h → Legal h o) :
    (∀ pre, pre <+: ops → ∀ h, exec Heap.step Heap.new pre = some h →
        Represents h (listsAfter pre)) ↔
      ∀ pre o, pre ++ [o] <+: ops → ∀ h h', exec Heap.step Heap.new pre = some h →
        h.step o = some h' → Fits h o := by
  constructor
  · intro hrep pre o hpre h h' hexec hs
    have hr := hrep pre ((List.prefix_append pre [o]).trans hpre) h hexec
    have hr' := hrep _ hpre h' (exec_snoc_eq_some.mpr ⟨h, hexec, hs⟩)
    rw [listsAfter_snoc] at hr'
    exact (represents_step hr (hl pre o hpre h hexec) hs).mp hr'
  · intro hf pre
    induction pre using List.reverseRecOn with
    | nil =>
        intro _ h hexec
        rw [exec_nil, Option.some.injEq] at hexec
        exact hexec ▸ represents_new
    | append_singleton pre o ih =>
        intro hpre h' hexec'
        obtain ⟨h, hexec, hs⟩ := exec_snoc_eq_some.mp hexec'
        have hr := ih ((List.prefix_append pre [o]).trans hpre) h hexec
        rw [listsAfter_snoc]
        exact (represents_step hr (hl pre o hpre h hexec) hs).mpr (hf pre o hpre h h' hexec hs)

/-- Two trees with elements at the top and below, from which some are taken and one is
replaced. -/
theorem links_consistent_seven : ∃ h,
    exec Heap.step Heap.new [.insert 0 1, .add 0 2, .addChild 1 3, .insertChild 3 4, .del 2,
      .replace 1 5, .insert 1 2] = some h ∧
    Represents h (listsAfter [.insert 0 1, .add 0 2, .addChild 1 3, .insertChild 3 4, .del 2,
      .replace 1 5, .insert 1 2]) :=
  have hlegal : Along Heap.step Legal Heap.new [.insert 0 1, .add 0 2, .addChild 1 3,
      .insertChild 3 4, .del 2, .replace 1 5, .insert 1 2] := by decide
  have hfits : Along Heap.step Fits Heap.new [.insert 0 1, .add 0 2, .addChild 1 3,
      .insertChild 3 4, .del 2, .replace 1 5, .insert 1 2] := by decide
  ⟨_, rfl, (links_consistent _ hlegal.of_exec).mpr
    (fun pre o hpre h _ hexec _ => hfits.of_exec pre o hpre h hexec) _ (List.prefix_refl _) _ rfl⟩

/-- Two elements are inserted at the top of a tree: the first one does not lead back to the
second. -/
theorem links_consistent_fails : Along Heap.step Legal Heap.new [.insert 0 1, .insert 0 2] ∧
    ∃ h, exec Heap.step Heap.new [.insert 0 1, .insert 0 2] = some h ∧
      listsAfter [.insert 0 1, .insert 0 2] (.top 0) = [2, 1] ∧
      h.nextElement 2 = some 1 ∧ h.prevElement 1 = none ∧
      ¬ Represents h (listsAfter [.insert 0 1, .insert 0 2]) := by
  refine ⟨by decide, _, rfl, by decide, by decide, by decide, fun hr => ?_⟩
  obtain ⟨-, -, hprev, -⟩ := (hr.links.list (.top 0)).seg
  revert hprev
  decide
end Gwenhywfar.Tree
