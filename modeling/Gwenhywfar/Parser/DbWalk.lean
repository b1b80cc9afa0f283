import Gwenhywfar.Parser.DbPathLaw

/-! # Walks along a path that fail

* `element`: an element of a path as `GWEN_DB_HandlePath` gets it, for all flags.
* `Rejected`: where none of its elements exists, a path is not walked to its end.
* `Unreachable`: a path is not walked to its end from a node.
* `RejectedLate`: a node is created for an element, and an element behind it is rejected. -/

namespace Gwenhywfar.Db

open Gwenhywfar.Path Text
open CString (ofBytes)

/-- An element of a path with its flags, and what follows. -/
structure PathElement where
  entry : List UInt8
  idx : Int32
  flags : UInt32
  rest : List UInt8

def element (origflags : UInt32) (startAtRoot : Bool) (path : List UInt8) : Option PathElement :=
  let whole := (if startAtRoot then [code '/'] else []) ++ path.takeWhile fun c => !isSlash c
  let behind := path.dropWhile fun c => !isSlash c
  let rest := behind.dropWhile isSlash
  let flags := elementFlags origflags startAtRoot (rest == [])
    (rest == [] && has origflags flagsVariable)
  if behind ≠ [] ∧ rest = [] ∧ has origflags flagsVariable then none
  else (if has origflags flagsNoIdx then some (whole, 0) else splitIndex whole).map fun e =>
    ⟨convert flags startAtRoot e.1, e.2, flags, rest⟩

namespace PathElement

/-- A node is created without looking for one. -/
def forced (e : PathElement) : Bool :=
  has e.flags flagsLast && (has e.flags flagsVariable && has e.flags flagsCreateVar ||
      !has e.flags flagsVariable && has e.flags flagsCreateGroup) ||
    !has e.flags flagsLast && has e.flags flagsPathCreate

def mustExist (e : PathElement) : Bool :=
  !has e.flags flagsLast && has e.flags flagsPathMustExist || has e.flags flagsNameMustExist

def mustNotExist (e : PathElement) : Bool :=
  has e.flags flagsLast && has e.flags flagsNameMustNotExist ||
    !has e.flags flagsLast && has e.flags flagsPathMustNotExist

def Creatable (e : PathElement) : Prop := e.idx = 0 ∧ (e.forced = true ∨ e.mustExist = false)

instance (e : PathElement) : Decidable e.Creatable := inferInstanceAs (Decidable (_ ∧ _))

/-- The node below another one that is used for the element. -/
def found (e : PathElement) (h : DbHeap) (n : ℕ) : Option ℕ :=
  if e.forced then none
  else find h n (has e.flags flagsVariable) (ofBytes e.entry) e.idx

end PathElement

/-- A path is not walked to its end where none of its elements exists. -/
def Rejected (origflags : UInt32) : ℕ → List UInt8 → (startAtRoot : Bool) → Prop
  | _, [], _ => False
  | 0, _ :: _, _ => True
  | k + 1, c :: path, startAtRoot =>
      match element origflags startAtRoot (c :: path) with
      | none => True
      | some e => e.Creatable → Rejected origflags k e.rest false

/-- A path is not walked to its end from a node. -/
def Unreachable (origflags : UInt32) (h : DbHeap) :
    ℕ → List UInt8 → (startAtRoot : Bool) → ℕ → Prop
  | _, [], _, _ => False
  | 0, _ :: _, _, _ => True
  | k + 1, c :: path, startAtRoot, n =>
      match element origflags startAtRoot (c :: path) with
      | none => True
      | some e =>
          match e.found h n with
          | none => e.Creatable → Rejected origflags k e.rest false
          | some nn => e.mustNotExist = false → Unreachable origflags h k e.rest false nn

def RejectedLate (origflags : UInt32) (h : DbHeap) :
    ℕ → List UInt8 → (startAtRoot : Bool) → ℕ → Prop
  | _, [], _, _ => False
  | 0, _ :: _, _, _ => False
  | k + 1, c :: path, startAtRoot, n =>
      match element origflags startAtRoot (c :: path) with
      | none => False
      | some e =>
          match e.found h n with
          | none => e.Creatable ∧ Rejected origflags k e.rest false
          | some nn => e.mustNotExist = false ∧ RejectedLate origflags h k e.rest false nn

/-! ### One element -/

section
variable {h : DbHeap} {n x : ℕ} {origflags : UInt32} {startAtRoot : Bool} {path : List UInt8}

theorem handleLoop_element {δ σ : Type} (f : List UInt8 → δ → Int32 → UInt32 → σ → Option δ × σ)
    (origflags : UInt32) (k : ℕ) (c : UInt8) (path : List UInt8) (startAtRoot : Bool) (data : δ)
    (s : σ) : handleLoop f origflags (k + 1) (c :: path) startAtRoot data s =
      (element origflags startAtRoot (c :: path)).elim (none, s) fun e =>
        let r := f e.entry data e.idx e.flags s
        r.1.elim (none, r.2) fun data => handleLoop f origflags k e.rest false data r.2 := by
  rw [handleLoop, element]
  dsimp only
  cases (if has origflags flagsNoIdx = true then
      some ((if startAtRoot = true then [code '/'] else []) ++
        (c :: path).takeWhile fun c => !isSlash c, (0 : Int32))
    else splitIndex ((if startAtRoot = true then [code '/'] else []) ++
      (c :: path).takeWhile fun c => !isSlash c)) with
  | none =>
      dsimp only
      split <;> rfl
  | some e =>
      dsimp only
      split
      · rfl
      · rw [Option.map_some, Option.elim_some]
        dsimp only
        cases f _ data e.2 _ s with
        | mk r s' => cases r <;> rfl

/-- What `GWEN_DB_HandlePath` does with an element, given what is found for it. -/
theorem handle_element {α : Type} (e : PathElement) (found : Option ℕ) (fail create : α)
    (use : ℕ → α) :
    (if has e.flags flagsLast && (has e.flags flagsVariable && has e.flags flagsCreateVar ||
          !has e.flags flagsVariable && has e.flags flagsCreateGroup) ||
        !has e.flags flagsLast && has e.flags flagsPathCreate then
      if e.idx ≠ 0 then fail else create
    else
      match found with
      | none =>
          if !has e.flags flagsLast && has e.flags flagsPathMustExist ||
              has e.flags flagsNameMustExist then fail
          else if e.idx ≠ 0 then fail
          else create
      | some nn =>
          if has e.flags flagsLast && has e.flags flagsNameMustNotExist ||
              !has e.flags flagsLast && has e.flags flagsPathMustNotExist then fail
          else use nn) =
      match if e.forced then none else found with
      | some nn => if e.mustNotExist then fail else use nn
      | none => if e.Creatable then create else fail := by
  by_cases hforced : e.forced = true
  · rw [if_pos hforced]
    unfold PathElement.forced at hforced
    rw [if_pos hforced]
    by_cases hidx : e.idx = 0
    · rw [if_neg (not_not.mpr hidx), if_pos ⟨hidx, .inl hforced⟩]
    · rw [if_pos hidx, if_neg fun hc => hidx hc.1]
  · have hforced' := hforced
    unfold PathElement.forced at hforced'
    rw [if_neg hforced, if_neg hforced']
    cases found with
    | some nn => rfl
    | none =>
        dsimp only
        by_cases hmust : e.mustExist = true
        · have hnot : ¬ e.Creatable := by
            rintro ⟨-, hc | hc⟩
            · exact hforced hc
            · exact Bool.false_ne_true (hc.symm.trans hmust)
          rw [if_neg hnot]
          exact if_pos hmust
        · have hfalse := Bool.eq_false_iff.mpr hmust
          refine (if_neg hmust).trans ?_
          by_cases hidx : e.idx = 0
          · rw [if_neg (not_not.mpr hidx), if_pos ⟨hidx, .inr hfalse⟩]
          · rw [if_pos hidx, if_neg fun hc => hidx hc.1]

theorem handlePath_element (e : PathElement) (h : DbHeap) (n : ℕ) :
    handlePath e.entry n e.idx e.flags h =
      match e.found h n with
      | some nn => if e.mustNotExist then (none, h) else (some nn, h)
      | none =>
          if e.Creatable then
            (some h.size, createNode e.flags h n (ofBytes e.entry))
          else (none, h) :=
  handle_element e (find h n (has e.flags flagsVariable) (ofBytes e.entry) e.idx) (none, h)
    (some h.size, createNode e.flags h n (ofBytes e.entry)) fun nn => (some nn, h)

theorem found_childless (e : PathElement) (hnone : (h.node n).children = []) :
    e.found h n = none := by
  rw [PathElement.found, find_eq, hnone]
  split
  · rfl
  · split <;> rfl

theorem found_lt {e : PathElement} {nn : ℕ} (hwf : Wf h) (hn : n < h.size)
    (hfound : e.found h n = some nn) : nn < h.size := by
  rw [PathElement.found] at hfound
  split at hfound
  · cases hfound
  · exact hwf n hn nn (find_spec hfound).1

theorem createNode_other {flags : UInt32} {name : CString} (hx : x < h.size) (hne : x ≠ n) :
    (createNode flags h n name).node x = h.node x := by
  have hother (h' : DbHeap) (children : List ℕ) (hnode : h'.node x = h.node x) :
      (setParent (setChildren h' n children) h.size n).node x = h.node x := by
    simp only [setParent, setChildren]
    rw [Function.update_of_ne (Nat.ne_of_lt hx), Function.update_of_ne hne, hnode]
  unfold createNode nodeAdd nodeInsert nodeAppend
  split
  · exact hother _ _ (node_newNode hx)
  · exact hother _ _ (node_newNode hx)

theorem createNode_ne {flags : UInt32} {name : CString} (hn : n < h.size) :
    (createNode flags h n name).node n ≠ h.node n := by
  intro heq
  have hlength := congrArg (fun node : DbNode => node.children.length) heq
  rw [(createNode_old hn hn).2.2, if_pos rfl] at hlength
  split at hlength
  · rw [List.length_cons] at hlength
    omega
  · rw [List.length_append, List.length_singleton] at hlength
    omega

/-! ### The walk -/

/-- Below a node that has just been created nothing is found, and the other nodes stay the same. -/
theorem handleLoop_fresh : ∀ (k : ℕ) (path : List UInt8) (startAtRoot : Bool) {h : DbHeap} {m : ℕ},
    m < h.size → (h.node m).children = [] →
    ((handleLoop handlePath origflags k path startAtRoot m h).1 = none ↔
      Rejected origflags k path startAtRoot) ∧
    ∀ x < h.size, x ≠ m →
      (handleLoop handlePath origflags k path startAtRoot m h).2.node x = h.node x
  | _, [], _, _, m, _, _ => by
      rw [handleLoop, Rejected]
      exact ⟨⟨Option.some_ne_none m, False.elim⟩, fun _ _ _ => rfl⟩
  | 0, _ :: _, _, _, _, _, _ => by
      rw [handleLoop, Rejected]
      exact ⟨⟨fun _ => trivial, fun _ => rfl⟩, fun _ _ _ => rfl⟩
  | k + 1, c :: path, startAtRoot, h, m, hm, hnone => by
      rw [handleLoop_element, Rejected]
      cases element origflags startAtRoot (c :: path) with
      | none => exact ⟨⟨fun _ => trivial, fun _ => rfl⟩, fun _ _ _ => rfl⟩
      | some e =>
          dsimp only
          rw [Option.elim_some, handlePath_element, found_childless e hnone]
          dsimp only
          by_cases hc : e.Creatable
          · obtain ⟨-, -, hchildren⟩ := @createNode_new h m (ofBytes e.entry) e.flags hm
            have hsize := @size_createNode h m (ofBytes e.entry) e.flags
            obtain ⟨hiff, hsame⟩ := handleLoop_fresh k e.rest false
              (hsize ▸ Nat.lt_succ_self _ :
                h.size < (createNode e.flags h m (ofBytes e.entry)).size) hchildren
            rw [if_pos hc]
            refine ⟨hiff.trans ⟨fun hr _ => hr, fun hr => hr hc⟩, fun x hx hne => ?_⟩
            exact (hsame x (hsize ▸ Nat.lt_succ_of_lt hx) (Nat.ne_of_lt hx)).trans
              (createNode_other hx hne)
          · rw [if_neg hc]
            exact ⟨⟨fun _ hc' => absurd hc' hc, fun _ => rfl⟩, fun _ _ _ => rfl⟩

theorem handleLoop_created (k : ℕ) (path : List UInt8) {flags : UInt32} {name : CString}
    (hn : n < h.size) :
    ((handleLoop handlePath origflags k path false h.size (createNode flags h n name)).1 = none ↔
      Rejected origflags k path false) ∧ ∀ x < h.size,
      (handleLoop handlePath origflags k path false h.size (createNode flags h n name)).2.node x =
        (createNode flags h n name).node x := by
  obtain ⟨-, -, hchildren⟩ := @createNode_new h n name flags hn
  have hsize := @size_createNode h n name flags
  obtain ⟨hiff, hsame⟩ := @handleLoop_fresh origflags k path false _ _
    (hsize ▸ Nat.lt_succ_self _ : h.size < (createNode flags h n name).size) hchildren
  exact ⟨hiff, fun x hx => hsame x (hsize ▸ Nat.lt_succ_of_lt hx) (Nat.ne_of_lt hx)⟩

theorem handleLoop_none_iff (hwf : Wf h) : ∀ (k : ℕ) (path : List UInt8) (startAtRoot : Bool)
    {n : ℕ}, n < h.size → ((handleLoop handlePath origflags k path startAtRoot n h).1 = none ↔
      Unreachable origflags h k path startAtRoot n)
  | _, [], _, _, _ => by
      rw [handleLoop, Unreachable]
      exact ⟨Option.some_ne_none _, False.elim⟩
  | 0, _ :: _, _, _, _ => by
      rw [handleLoop, Unreachable]
      exact ⟨fun _ => trivial, fun _ => rfl⟩
  | k + 1, c :: path, startAtRoot, n, hn => by
      rw [handleLoop_element, Unreachable]
      cases element origflags startAtRoot (c :: path) with
      | none => exact ⟨fun _ => trivial, fun _ => rfl⟩
      | some e =>
          dsimp only
          rw [Option.elim_some, handlePath_element]
          cases hfound : e.found h n with
          | none =>
              dsimp only
              by_cases hc : e.Creatable
              · obtain ⟨hiff, -⟩ := @handleLoop_created h n origflags k e.rest e.flags
                  (ofBytes e.entry) hn
                rw [if_pos hc]
                exact hiff.trans ⟨fun hr _ => hr, fun hr => hr hc⟩
              · rw [if_neg hc]
                exact ⟨fun _ hc' => absurd hc' hc, fun _ => rfl⟩
          | some nn =>
              dsimp only
              cases e.mustNotExist with
              | true => exact ⟨fun _ hc => absurd hc (by decide), fun _ => rfl⟩
              | false =>
                  refine (handleLoop_none_iff hwf k e.rest false
                    (found_lt hwf hn hfound)).trans ⟨fun hr _ => hr, fun hr => hr rfl⟩

/-- A walk that does not reach its end changes nothing, unless an element is rejected late. -/
theorem handleLoop_unchanged : ∀ (k : ℕ) (path : List UInt8) (startAtRoot : Bool) {n : ℕ},
    n < h.size → Wf h → (handleLoop handlePath origflags k path startAtRoot n h).1 = none →
    ¬ RejectedLate origflags h k path startAtRoot n →
      (handleLoop handlePath origflags k path startAtRoot n h).2 = h
  | _, [], _, _, _, _, _, _ => by rw [handleLoop]
  | 0, _ :: _, _, _, _, _, _, _ => by rw [handleLoop]
  | k + 1, c :: path, startAtRoot, n, hn, hwf, hfail, hlate => by
      rw [handleLoop_element] at hfail ⊢
      rw [RejectedLate] at hlate
      cases he : element origflags startAtRoot (c :: path) with
      | none => rfl
      | some e =>
          rw [he] at hfail hlate
          dsimp only at hlate
          rw [Option.elim_some, handlePath_element] at hfail ⊢
          cases hfound : e.found h n with
          | none =>
              rw [hfound] at hfail hlate
              dsimp only at hfail hlate ⊢
              by_cases hc : e.Creatable
              · obtain ⟨hiff, -⟩ := @handleLoop_created h n origflags k e.rest e.flags
                  (ofBytes e.entry) hn
                rw [if_pos hc] at hfail
                exact absurd ⟨hc, hiff.mp hfail⟩ hlate
              · rw [if_neg hc]
                rfl
          | some nn =>
              rw [hfound] at hfail hlate
              dsimp only at hfail hlate ⊢
              cases hmust : e.mustNotExist with
              | true => rfl
              | false =>
                  rw [hmust] at hfail hlate
                  exact handleLoop_unchanged k e.rest false (found_lt hwf hn hfound) hwf hfail
                    fun hl => hlate ⟨rfl, hl⟩

/-- When an element is rejected late the walk fails, and a node has got another child. -/
theorem handleLoop_changed : ∀ (k : ℕ) (path : List UInt8) (startAtRoot : Bool) {n : ℕ},
    n < h.size → Wf h → RejectedLate origflags h k path startAtRoot n →
      (handleLoop handlePath origflags k path startAtRoot n h).1 = none ∧
      ∃ x < h.size, (handleLoop handlePath origflags k path startAtRoot n h).2.node x ≠ h.node x
  | _, [], _, _, _, _, hlate => by
      rw [RejectedLate] at hlate
      exact hlate.elim
  | 0, _ :: _, _, _, _, _, hlate => by
      rw [RejectedLate] at hlate
      exact hlate.elim
  | k + 1, c :: path, startAtRoot, n, hn, hwf, hlate => by
      rw [RejectedLate] at hlate
      rw [handleLoop_element]
      cases he : element origflags startAtRoot (c :: path) with
      | none =>
          rw [he] at hlate
          exact hlate.elim
      | some e =>
          rw [he] at hlate
          dsimp only at hlate
          rw [Option.elim_some, handlePath_element]
          cases hfound : e.found h n with
          | none =>
              rw [hfound] at hlate
              obtain ⟨hc, hrejected⟩ := hlate
              obtain ⟨hiff, hsame⟩ := @handleLoop_created h n origflags k e.rest e.flags
                (ofBytes e.entry) hn
              dsimp only
              rw [if_pos hc]
              refine ⟨hiff.mpr hrejected, n, hn, fun heq => ?_⟩
              refine @createNode_ne h n e.flags (ofBytes e.entry) hn ?_
              exact (hsame n hn).symm.trans heq
          | some nn =>
              rw [hfound] at hlate
              dsimp only at hlate ⊢
              rw [hlate.1, if_neg Bool.false_ne_true]
              exact handleLoop_changed k e.rest false (found_lt hwf hn hfound) hwf hlate.2

end
end Gwenhywfar.Db
