import Gwenhywfar.Parser.DbUpdate

/-! # Values of a variable as a set

* `addCharValue`, `removeCharValue`: the functions look for the value below the group that they get,
  not below the variable, so that they never find one.
* `addsOnce_iff`, `removesOne_iff`: therefore they behave like those of a set exactly when the
  variable does not have the value. -/

namespace Gwenhywfar.Db

open Gwenhywfar.Path Text
open CString (ofBytes)

/-- `GWEN_DB_GetFirstValue`. -/
def getFirstValue (h : DbHeap) (n : ℕ) : Option ℕ :=
  if (h.node n).typ = .var then (h.node n).children.find? fun nn => (valueOf h nn).isSome
  else none

def matchingValue (h : DbHeap) (n : ℕ) (val : CString) (senseCase : Bool) : Option ℕ :=
  (getFirstValue h n).filter fun nv =>
    match valueOf h nv with
    | some (.char s) => if senseCase then strcaseEq s val else s == val
    | _ => false

/-- `GWEN_DB_AddCharValue`. -/
def addCharValue (h : DbHeap) (n : ℕ) (path val : CString) (senseCase check : Bool) : ℤ × DbHeap :=
  match getNode h n path (flagsDefault ||| flagsVariable) with
  | (none, h) => (-1, h)
  | (some nn, h) =>
      if check ∧ (matchingValue h n val senseCase).isSome then (1, h)
      else (0, nodeAppend (newNode h (.value (.char val)) (ofBytes [])) nn h.size)

/-- `GWEN_DB_RemoveCharValue`; a value that is removed has a parent. -/
def removeCharValue (h : DbHeap) (n : ℕ) (path val : CString) (senseCase : Bool) :
    Option (ℤ × DbHeap) :=
  match getNode h n path (flagsDefault ||| flagsVariable) with
  | (none, h) => some (-1, h)
  | (some _, h) =>
      match matchingValue h n val senseCase with
      | some nv => (nodeUnlink h nv).map fun h => (0, h)
      | none => some (1, h)

/-! ### The functions of a set -/

def EqualText (senseCase : Bool) (s val : CString) : Prop :=
  if senseCase then s = val else strcaseEq s val = true

section
variable (h : DbHeap) (n : ℕ) (path val : CString) (senseCase : Bool)

def HoldsValue : Prop :=
  ∃ a, resolve h n path = some a ∧ (h.node a).typ = .var ∧
    ∃ s, .char s ∈ values h a ∧ EqualText senseCase s val

/-- A value is added once: if the variable has it, 1 is returned and nothing changes, otherwise it
is appended, and other variables are found with their values as before. -/
def AddsOnce : Prop :=
  (HoldsValue h n path val senseCase → addCharValue h n path val senseCase true = (1, h)) ∧
  (¬ HoldsValue h n path val senseCase → ∃ h', addCharValue h n path val senseCase true = (0, h') ∧
    ∃ a, resolve h' n path = some a ∧ (h'.node a).typ = .var ∧
      values h' a = ((resolve h n path).map (values h)).getD [] ++ [.char val] ∧
      ∀ start < h.size, ∀ (q : CString) (b : ℕ), resolve h start q = some b →
        (h.node b).typ = .var → b ≠ a →
        resolve h' start q = some b ∧ values h' b = values h b)

/-- One occurrence of a value is removed if the variable has it, otherwise 1 is returned and nothing
changes. -/
def RemovesOne : Prop :=
  (HoldsValue h n path val senseCase → ∃ h', removeCharValue h n path val senseCase = some (0, h') ∧
    ∃ a l1 s l2, resolve h n path = some a ∧ values h a = l1 ++ .char s :: l2 ∧
      EqualText senseCase s val ∧ resolve h' n path = some a ∧ values h' a = l1 ++ l2) ∧
  (¬ HoldsValue h n path val senseCase → removeCharValue h n path val senseCase = some (1, h))

/-- The path names a variable that exists or can be created. -/
def Available : Prop :=
  elementsOf path ≠ [] ∧ ¬ Unreachable (flagsDefault ||| flagsVariable) h (elementsOf path).length
    (elementsOf path) (startsAtRoot (flagsDefault ||| flagsVariable) path) n

end

/-! ### The walk to the variable -/

section
variable {h h' : DbHeap} {n a : ℕ} {path val : CString} {senseCase : Bool}

theorem plainFlags_flagsDefault : PlainFlags flagsDefault :=
  ⟨by decide, by decide, by decide, by decide⟩

theorem readsPlainly_default (hne : elementsOf path ≠ []) : ReadsPlainly flagsDefault path :=
  ⟨fun h => absurd h (by decide), fun h => absurd h (by decide), hne⟩

theorem startsAtRoot_default : startsAtRoot (flagsDefault ||| flagsVariable) path = false := by
  rw [startsAtRoot, show has (flagsDefault ||| flagsVariable) flagsCheckRoot = false by decide,
    Bool.false_and]

theorem getNode_empty {flags : UInt32} (he : elementsOf path = []) :
    getNode h n path flags = (some n, h) := by
  rw [getNode_eq, he]
  rfl

theorem resolve_empty (he : elementsOf path = []) : resolve h n path = some n := by
  rw [resolve_eq, he]
  rfl

theorem group_getNode (ht : InTree h n)
    (hnode : getNode h n path (flagsDefault ||| flagsVariable) = (some a, h')) :
    (h'.node n).typ = .group := by
  by_cases he : elementsOf path = []
  · rw [getNode_empty he] at hnode
    rw [← (Prod.mk.inj hnode).2]
    exact ht.group
  · have hreach := getNode_spec plainFlags_flagsDefault (readsPlainly_default he) ht.wf ht.lt
      ht.group hnode
    exact (hreach.grows.same n ht.lt).1.trans ht.group

theorem matchingValue_group (hgroup : (h.node n).typ = .group) :
    matchingValue h n val senseCase = none := by
  unfold matchingValue getFirstValue
  rw [if_neg (by rw [hgroup]; decide)]
  rfl

theorem addCharValue_eq (ht : InTree h n) : addCharValue h n path val senseCase true =
    match getNode h n path (flagsDefault ||| flagsVariable) with
    | (none, h) => (-1, h)
    | (some nn, h) => (0, addValue flagsDefault h nn (.char val)) := by
  unfold addCharValue
  cases hnode : getNode h n path (flagsDefault ||| flagsVariable) with
  | mk r h' =>
      cases r with
      | none => rfl
      | some a =>
          dsimp only
          rw [matchingValue_group (group_getNode ht hnode), if_neg fun hc => by cases hc.2]
          unfold addValue nodeAdd
          rw [if_neg (by decide), if_neg (by decide)]

theorem removeCharValue_eq (ht : InTree h n) : removeCharValue h n path val senseCase =
    match getNode h n path (flagsDefault ||| flagsVariable) with
    | (none, h) => some (-1, h)
    | (some _, h) => some (1, h) := by
  unfold removeCharValue
  cases hnode : getNode h n path (flagsDefault ||| flagsVariable) with
  | mk r h' =>
      cases r with
      | none => rfl
      | some a =>
          dsimp only
          rw [matchingValue_group (group_getNode ht hnode)]

theorem getNode_default_none (ht : InTree h n) (hne : elementsOf path ≠ []) :
    (getNode h n path (flagsDefault ||| flagsVariable)).1 ≠ none ↔ Available h n path := by
  unfold Available
  rw [and_iff_right hne, ← handleLoop_none_iff ht.wf _ _ _ ht.lt]
  exact Iff.rfl

/-! ### Adding -/

/-- A value is added once exactly when the variable does not have it yet, and the path is one of a
variable that exists or can be created. -/
theorem addsOnce_iff (ht : InTree h n) : AddsOnce h n path val senseCase ↔
    ¬ HoldsValue h n path val senseCase ∧ Available h n path := by
  unfold AddsOnce
  rw [addCharValue_eq ht]
  constructor
  · rintro ⟨hhas, hadd⟩
    cases hnode : getNode h n path (flagsDefault ||| flagsVariable) with
    | mk r h₁ =>
        rw [hnode] at hhas hadd
        have hnot : ¬ HoldsValue h n path val senseCase := by
          intro hv
          have hrv := congrArg Prod.fst (hhas hv)
          cases r with
          | none => exact absurd (show (-1 : ℤ) = 1 from hrv) (by decide)
          | some a => exact absurd (show (0 : ℤ) = 1 from hrv) (by decide)
        obtain ⟨h', hrun, a, ha, htyp, -⟩ := hadd hnot
        have hne : elementsOf path ≠ [] := by
          intro he
          rw [getNode_empty he] at hnode
          obtain ⟨rfl, rfl⟩ := Prod.mk.inj hnode
          rw [resolve_empty he] at ha
          obtain rfl := Option.some.inj ha
          have hgroup := (@addValue_old h n n flagsDefault (.char val) ht.lt ht.lt).1
          rw [(Prod.mk.inj hrun).2, htyp, ht.group] at hgroup
          cases hgroup
        refine ⟨hnot, (getNode_default_none ht hne).mp ?_⟩
        rw [hnode]
        rintro rfl
        cases hrun
  · rintro ⟨hnot, havailable⟩
    refine ⟨fun hv => absurd hv hnot, fun _ => ?_⟩
    have hne := (getNode_default_none ht havailable.1).mpr havailable
    cases hnode : getNode h n path (flagsDefault ||| flagsVariable) with
    | mk r h₁ =>
        cases r with
        | none =>
            rw [hnode] at hne
            exact absurd rfl hne
        | some a =>
            have hset : setValue h n flagsDefault path (.char val) =
                (0, addValue flagsDefault h₁ a (.char val)) := by
              rw [setValue_eq, hnode]
            obtain ⟨b, hb, htyp, hvalues, hframe⟩ := set_get plainFlags_flagsDefault
              (readsPlainly_default havailable.1) ht.wf ht.lt ht.group hset
            rw [if_neg (by decide), if_neg (by decide)] at hvalues
            exact ⟨_, rfl, b, hb, htyp, hvalues, hframe⟩

/-! ### Removing -/

/-- Looking up a variable that exists does not create anything. -/
theorem handleLoop_default {m : ℕ} : ∀ (k : ℕ) (path : List UInt8) (n : ℕ),
    lookup h k path n = some m →
      handleLoop handlePath (flagsDefault ||| flagsVariable) k path false n h = (some m, h)
  | _, [], n, hl => by
      rw [lookup] at hl
      rw [handleLoop, hl]
  | 0, _ :: _, n, hl => by
      rw [lookup] at hl
      cases hl
  | k + 1, c :: path, n, hl => by
      have hplain := plainFlags_flagsDefault.or_variable
      rw [lookup, Option.bind_eq_some_iff] at hl
      obtain ⟨e, he, hl⟩ := hl
      rw [Option.bind_eq_some_iff] at hl
      obtain ⟨nn, hnn, hl⟩ := hl
      have hflag (mask : UInt32) (h1 : ~~~(flagsInternal ||| flagsVariable) &&& mask = mask)
          (h2 : has flagsRoot mask = false) (h3 : has flagsLast mask = false)
          (h4 : has flagsVariable mask = false) :=
        @has_elementFlags (flagsDefault ||| flagsVariable) false (e.2.2 == []) (e.2.2 == [])
          mask h1 h2 h3 h4
      rw [handleLoop_cons handlePath hplain (by decide) k c (fun hn => absurd hn (by decide)), he,
        Option.elim_some, handlePath, if_neg (by rw [hplain.not_create]; exact Bool.false_ne_true),
        has_elementFlags_variable, ← find, hnn]
      dsimp only
      rw [hflag flagsNameMustNotExist (by decide) (by decide) (by decide) (by decide),
        hflag flagsPathMustNotExist (by decide) (by decide) (by decide) (by decide),
        show has (flagsDefault ||| flagsVariable) flagsNameMustNotExist = false by decide,
        show has (flagsDefault ||| flagsVariable) flagsPathMustNotExist = false by decide,
        Bool.and_false, Bool.and_false, Bool.or_false, if_neg Bool.false_ne_true, Option.elim_some]
      exact handleLoop_default k e.2.2 nn hl

theorem getNode_of_resolve (hres : resolve h n path = some a) :
    getNode h n path (flagsDefault ||| flagsVariable) = (some a, h) := by
  rw [resolve_eq] at hres
  rw [getNode_eq, startsAtRoot_default]
  exact handleLoop_default _ _ n hres

theorem resolve_of_getNode (ht : InTree h n)
    (hnode : getNode h n path (flagsDefault ||| flagsVariable) = (some a, h)) :
    resolve h n path = some a := by
  by_cases he : elementsOf path = []
  · rw [getNode_empty he] at hnode
    rw [resolve_empty he]
    exact (Prod.mk.inj hnode).1
  · have hreach := getNode_spec plainFlags_flagsDefault (readsPlainly_default he) ht.wf ht.lt
      ht.group hnode
    rw [resolve_eq]
    exact hreach.found

/-- One occurrence of a value is removed exactly when there is none and the path exists. -/
theorem removesOne_iff (ht : InTree h n) : RemovesOne h n path val senseCase ↔
    ¬ HoldsValue h n path val senseCase ∧ resolve h n path ≠ none := by
  unfold RemovesOne
  rw [removeCharValue_eq ht]
  constructor
  · rintro ⟨hhas, hmiss⟩
    cases hnode : getNode h n path (flagsDefault ||| flagsVariable) with
    | mk r h₁ =>
        rw [hnode] at hhas hmiss
        have hnot : ¬ HoldsValue h n path val senseCase := by
          intro hv
          obtain ⟨h', hrun, -⟩ := hhas hv
          cases r with
          | none => exact absurd (Prod.mk.inj (Option.some.inj hrun)).1 (by decide)
          | some a => exact absurd (Prod.mk.inj (Option.some.inj hrun)).1 (by decide)
        refine ⟨hnot, ?_⟩
        have hrun := hmiss hnot
        cases r with
        | none => exact absurd (Prod.mk.inj (Option.some.inj hrun)).1 (by decide)
        | some a =>
            obtain rfl := (Prod.mk.inj (Option.some.inj hrun)).2
            rw [resolve_of_getNode ht hnode]
            exact Option.some_ne_none a
  · rintro ⟨hnot, hne⟩
    refine ⟨fun hv => absurd hv hnot, fun _ => ?_⟩
    obtain ⟨a, hres⟩ := Option.ne_none_iff_exists'.mp hne
    rw [getNode_of_resolve hres]

/-- The functions are those of a set exactly when the variable does not have the value, where for
adding the variable must exist or be one that can be created, and for removing it must exist. -/
theorem setSemantics_iff (ht : InTree h n) : (AddsOnce h n path val senseCase ↔
      ¬ HoldsValue h n path val senseCase ∧ Available h n path) ∧
    (RemovesOne h n path val senseCase ↔
      ¬ HoldsValue h n path val senseCase ∧ resolve h n path ≠ none) :=
  ⟨addsOnce_iff ht, removesOne_iff ht⟩

/-- A variable that does not exist is created for a value, but none is removed from it. -/
theorem setSemantics_iff_new :
    AddsOnce (emptyGroup (ofBytes [])) 0 (ofBytes (ascii ['a']))
      (ofBytes (ascii ['x'])) true ∧
    ¬ RemovesOne (emptyGroup (ofBytes [])) 0 (ofBytes (ascii ['a']))
      (ofBytes (ascii ['x'])) true := by
  have hiff := @setSemantics_iff (emptyGroup (ofBytes [])) 0 (ofBytes (ascii ['a']))
    (ofBytes (ascii ['x'])) true (inTree_emptyGroup _)
  have hresolve : resolve (emptyGroup (ofBytes [])) 0 (ofBytes (ascii ['a'])) =
      none := by decide
  have hnot : ¬ HoldsValue (emptyGroup (ofBytes [])) 0 (ofBytes (ascii ['a']))
      (ofBytes (ascii ['x'])) true := by
    rintro ⟨a, ha, -⟩
    rw [hresolve] at ha
    cases ha
  refine ⟨hiff.1.mpr ⟨hnot, by decide, fun hrest => ?_⟩, fun h => (hiff.2.mp h).2 hresolve⟩
  have hnone : _ → False := hrest
  exact hnone (by decide)

def groupWithX : DbHeap :=
  (setCharValue (emptyGroup (ofBytes [])) 0 flagsDefault (ofBytes (ascii ['a']))
    (ofBytes (ascii ['x']))).2

/-- The value is added a second time, and it is not removed. -/
theorem not_setSemantics_twice :
    ¬ AddsOnce groupWithX 0 (ofBytes (ascii ['a'])) (ofBytes (ascii ['x'])) true ∧
    ¬ RemovesOne groupWithX 0 (ofBytes (ascii ['a'])) (ofBytes (ascii ['x']))
      true := by
  have hholds : HoldsValue groupWithX 0 (ofBytes (ascii ['a']))
      (ofBytes (ascii ['x'])) true :=
    ⟨1, by decide, by decide, ofBytes (ascii ['x']), by decide, rfl⟩
  have hadd : (addCharValue groupWithX 0 (ofBytes (ascii ['a']))
      (ofBytes (ascii ['x'])) true true).1 = 0 := by decide
  have hremove : (removeCharValue groupWithX 0 (ofBytes (ascii ['a']))
      (ofBytes (ascii ['x'])) true).map Prod.fst = some 1 := by decide
  constructor
  · rintro ⟨hhas, -⟩
    rw [hhas hholds] at hadd
    exact absurd hadd (by decide)
  · rintro ⟨hhas, -⟩
    obtain ⟨h', hrun, -⟩ := hhas hholds
    rw [hrun] at hremove
    exact absurd (show (0 : ℤ) = 1 from Option.some.inj hremove) (by decide)

end
end Gwenhywfar.Db
