import Gwenhywfar.Parser.DbWalk

/-! # Updates that fail

* `DbUpdate`: the calls that create what is missing at a path.
* `keepsOnFailure_iff`: a call that fails leaves the tree as it was exactly when no element of the
  path is rejected behind one for which a node has been created. -/

namespace Gwenhywfar.Db

open Gwenhywfar.Path Text
open CString (ofBytes)

/-- A call that creates what is missing at a path. -/
inductive DbUpdate where
  | setCharValue (flags : UInt32) (path val : CString)
  | setIntValue (flags : UInt32) (path : CString) (val : Int32)
  | setBinValue (flags : UInt32) (path : CString) (val : List UInt8)
  | getGroup (flags : UInt32) (path : CString)

namespace DbUpdate

/-- Whether the call fails, and the nodes after it. -/
def run (h : DbHeap) (n : ℕ) : DbUpdate → Bool × DbHeap
  | setCharValue flags path val =>
      let (rv, h) := Db.setCharValue h n flags path val
      (rv != 0, h)
  | setIntValue flags path val =>
      let (rv, h) := Db.setIntValue h n flags path val
      (rv != 0, h)
  | setBinValue flags path val =>
      let (rv, h) := Db.setBinValue h n flags path val
      (rv != 0, h)
  | getGroup flags path =>
      let (nn, h) := Db.getGroup h n flags path
      (nn.isNone, h)

def path : DbUpdate → CString
  | setCharValue _ path _ | setIntValue _ path _ | setBinValue _ path _ | getGroup _ path => path

def walkFlags : DbUpdate → UInt32
  | setCharValue flags _ _ | setIntValue flags _ _ | setBinValue flags _ _ =>
      flags ||| flagsVariable
  | getGroup flags _ => flags &&& ~~~flagsVariable

end DbUpdate

def SameTree (h h' : DbHeap) : Prop := ∀ x < h.size, h'.node x = h.node x

def KeepsOnFailure (h : DbHeap) (n : ℕ) (u : DbUpdate) : Prop :=
  (u.run h n).1 = true → SameTree h (u.run h n).2

/-- A group of a tree. -/
structure InTree (h : DbHeap) (n : ℕ) : Prop where
  wf : Wf h
  lt : n < h.size
  group : (h.node n).typ = .group

def startsAtRoot (flags : UInt32) (path : CString) : Bool :=
  has flags flagsCheckRoot && ((path.bytes.dropWhile isSpace).head?.map isSlash).getD false

def RejectedLateAt (h : DbHeap) (n : ℕ) (flags : UInt32) (path : CString) : Prop :=
  RejectedLate flags h (elementsOf path).length (elementsOf path) (startsAtRoot flags path) n

section
variable {h : DbHeap} {n : ℕ} {flags : UInt32} {path : CString}

theorem getNode_eq (h : DbHeap) (n : ℕ) (path : CString) (flags : UInt32) :
    getNode h n path flags = handleLoop handlePath flags (elementsOf path).length (elementsOf path)
      (startsAtRoot flags path) n h := rfl

theorem getNode_unchanged (ht : InTree h n) (hfail : (getNode h n path flags).1 = none)
    (hlate : ¬ RejectedLateAt h n flags path) : (getNode h n path flags).2 = h :=
  handleLoop_unchanged _ _ _ ht.lt ht.wf hfail hlate

theorem getNode_changed (ht : InTree h n) (hlate : RejectedLateAt h n flags path) :
    (getNode h n path flags).1 = none ∧ ¬ SameTree h (getNode h n path flags).2 := by
  obtain ⟨hfail, x, hx, hne⟩ := handleLoop_changed _ _ _ ht.lt ht.wf hlate
  exact ⟨hfail, fun hsame => hne (hsame x hx)⟩

theorem setValue_eq (h : DbHeap) (n : ℕ) (flags : UInt32) (path : CString) (val : DbValue) :
    setValue h n flags path val =
      match getNode h n path (flags ||| flagsVariable) with
      | (none, h) => (1, h)
      | (some nn, h) => (0, addValue flags h nn val) := rfl

/-- A call fails where its walk does, and then there is nothing else that it changes. -/
theorem run_spec (h : DbHeap) (n : ℕ) (u : DbUpdate) :
    ((u.run h n).1 = true ↔ (getNode h n u.path u.walkFlags).1 = none) ∧
      ((u.run h n).1 = true → (u.run h n).2 = (getNode h n u.path u.walkFlags).2) := by
  have hset (flags : UInt32) (path : CString) (val : DbValue) :
      (((setValue h n flags path val).1 != 0) = true ↔
        (getNode h n path (flags ||| flagsVariable)).1 = none) ∧
      (((setValue h n flags path val).1 != 0) = true → (setValue h n flags path val).2 =
        (getNode h n path (flags ||| flagsVariable)).2) := by
    rw [setValue_eq]
    cases getNode h n path (flags ||| flagsVariable) with
    | mk r h' =>
        cases r with
        | none => exact ⟨⟨fun _ => rfl, fun _ => rfl⟩, fun _ => rfl⟩
        | some nn => exact ⟨⟨nofun, nofun⟩, nofun⟩
  cases u with
  | setCharValue flags path val => exact hset flags path (.char val)
  | setIntValue flags path val => exact hset flags path (.int val)
  | setBinValue flags path val => exact hset flags path (.bin val)
  | getGroup flags path =>
      unfold DbUpdate.run getGroup DbUpdate.path DbUpdate.walkFlags
      dsimp only
      cases getNode h n path (flags &&& ~~~flagsVariable) with
      | mk r h' =>
          cases r with
          | none => exact ⟨⟨fun _ => rfl, fun _ => rfl⟩, fun _ => rfl⟩
          | some nn => exact ⟨⟨nofun, nofun⟩, nofun⟩

/-- A call that fails leaves the tree as it was exactly when no element of the path is rejected
behind one for which a node has been created. -/
theorem keepsOnFailure_iff (ht : InTree h n) (u : DbUpdate) :
    KeepsOnFailure h n u ↔ ¬ RejectedLateAt h n u.walkFlags u.path := by
  obtain ⟨hfails, hsame⟩ := run_spec h n u
  constructor
  · intro hkeeps hlate
    obtain ⟨hfail, hchanged⟩ := getNode_changed ht hlate
    have hrun := hfails.mpr hfail
    exact hchanged (hsame hrun ▸ hkeeps hrun)
  · intro hlate hrun x _
    rw [hsame hrun, getNode_unchanged ht (hfails.mp hrun) hlate]

theorem inTree_emptyGroup (name : CString) : InTree (emptyGroup name) 0 where
  wf := by
    intro x _ c hc
    rw [emptyGroup, newNode] at hc
    dsimp only at hc
    rw [Function.update_apply] at hc
    split at hc <;> cases hc
  lt := Nat.one_pos
  group := rfl

/-- A missing index is found before any group is created. -/
theorem keepsOnFailure_iff_index :
    ((DbUpdate.setIntValue flagsDefault (ofBytes (ascii ['a', '[', '1', ']'])) 1).run
      (emptyGroup (ofBytes [])) 0).1 = true ∧
    KeepsOnFailure (emptyGroup (ofBytes [])) 0
      (.setIntValue flagsDefault (ofBytes (ascii ['a', '[', '1', ']'])) 1) :=
  ⟨by decide, (keepsOnFailure_iff (inTree_emptyGroup _) _).mpr fun hlate => hlate.2⟩

/-- The group is created before the index of the variable is rejected. -/
theorem not_keepsOnFailure_index : ((DbUpdate.setIntValue flagsDefault
        (ofBytes (ascii ['g', '/', 'a', '[', '1', ']'])) 1).run
      (emptyGroup (ofBytes [])) 0).1 = true ∧
    ¬ KeepsOnFailure (emptyGroup (ofBytes [])) 0
      (.setIntValue flagsDefault (ofBytes (ascii ['g', '/', 'a', '[', '1', ']'])) 1) := by
  refine ⟨by decide, fun hkeeps => ?_⟩
  have hnode := hkeeps (by decide) 0 Nat.one_pos
  revert hnode
  decide

end
end Gwenhywfar.Db
