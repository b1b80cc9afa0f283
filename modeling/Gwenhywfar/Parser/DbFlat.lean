import Gwenhywfar.Parser.DbVars

/-! # Groups of variables

* `IsFlat`: all children of a group are variables.
* `resolve_blanks`: a name without slashes and brackets finds a variable, blanks at its begin are
  left out.
* `isFlat_setValue`, `deleteVar_spec`: setting and deleting a variable. -/

namespace Gwenhywfar.Db

open Gwenhywfar.Path Text

/-- The children of a group are variables. -/
structure IsFlat (h : DbHeap) (n : ℕ) : Prop extends IsGroup h n where
  var : ∀ v ∈ (h.node n).children, (h.node v).typ = .var
  parent : ∀ v ∈ (h.node n).children, (h.node v).parent = some n

theorem isFlat_emptyGroup (name : CString) : IsFlat (emptyGroup name) 0 where
  toIsGroup := isGroup_emptyGroup name
  var := fun _ hv => absurd hv List.not_mem_nil
  parent := fun _ hv => absurd hv List.not_mem_nil

section
variable {h : DbHeap} {n m a x : ℕ} {name : CString} {flags : UInt32} {val : DbValue}

/-! ### Setting values -/

theorem parent_nodeAdd (hn : n ≠ m) : ((nodeAdd flags h n m).node x).parent =
    if x = m then some n else (h.node x).parent := by
  rw [nodeAdd]
  by_cases hxm : x = m
  · rw [if_pos hxm]
    subst hxm
    split <;> simp [nodeInsert, nodeAppend, setParent]
  · rw [if_neg hxm]
    by_cases hxn : x = n
    · subst hxn
      split <;> simp [nodeInsert, nodeAppend, setParent, setChildren, hxm]
    · split <;> simp [nodeInsert, nodeAppend, setParent, setChildren, hxm, hxn]

theorem parent_createNode (hn : n < h.size) (hx : x < h.size) :
    ((createNode flags h n name).node x).parent = (h.node x).parent := by
  rw [createNode, parent_nodeAdd (Nat.ne_of_lt hn), if_neg (Nat.ne_of_lt hx), node_newNode hx]

theorem parent_createNode_new (hn : n < h.size) :
    ((createNode flags h n name).node h.size).parent = some n := by
  rw [createNode, parent_nodeAdd (Nat.ne_of_lt hn), if_pos rfl]

theorem parent_addValue (ha : a < h.size) (hx : x < h.size) :
    ((addValue flags h a val).node x).parent = (h.node x).parent := by
  rw [addValue, parent_nodeAdd (Nat.ne_of_lt ha), if_neg (Nat.ne_of_lt hx)]
  split
  · rw [clearNode, setChildren]
    dsimp only
    by_cases hxa : x = a
    · subst hxa
      rw [Function.update_self, node_newNode hx]
    · rw [Function.update_of_ne hxa, node_newNode hx]
  · rw [node_newNode hx]

theorem IsFlat.addValue (hf : IsFlat h n) (hinsert : has flags flagsInsert = false)
    (ha : a < h.size) (hvar : (h.node a).typ = .var) (val : DbValue) :
    IsFlat (Db.addValue flags h a val) n := by
  have hna : n ≠ a := by
    rintro rfl
    exact absurd (hf.typ.symm.trans hvar) (by decide)
  have hchildren := (@addValue_old h a n flags val ha hf.lt).2.2
  rw [if_neg hna] at hchildren
  refine ⟨(addValue_group hinsert hf.toIsGroup ha hvar val).1, fun v hv => ?_, fun v hv => ?_⟩
  · rw [hchildren] at hv
    rw [(addValue_old ha (hf.wf n hf.lt v hv)).1, hf.var v hv]
  · rw [hchildren] at hv
    rw [parent_addValue ha (hf.wf n hf.lt v hv), hf.parent v hv]

theorem IsFlat.createNode (hf : IsFlat h n) {el : UInt32} (hvar : has el flagsVariable = true)
    (hinsert : has el flagsInsert = false) (hnone : findVar h n name 0 = none) :
    IsFlat (Db.createNode el h n name) n := by
  have hchildren := (@createNode_old h n n name el hf.lt hf.lt).2.2
  rw [if_pos rfl, hinsert, if_neg Bool.false_ne_true] at hchildren
  have hnew := (@createNode_new h n name el hf.lt).1
  rw [hvar] at hnew
  refine ⟨(createNode_group hf.toIsGroup hvar hinsert hnone id).1, fun v hv => ?_, fun v hv => ?_⟩
  · rw [hchildren, List.mem_append, List.mem_singleton] at hv
    rcases hv with hv | rfl
    · rw [(createNode_old hf.lt (hf.wf n hf.lt v hv)).1, hf.var v hv]
    · exact hnew
  · rw [hchildren, List.mem_append, List.mem_singleton] at hv
    rcases hv with hv | rfl
    · rw [parent_createNode hf.lt (hf.wf n hf.lt v hv), hf.parent v hv]
    · exact parent_createNode_new hf.lt

theorem isFlat_setValue (hplain : ∀ c ∈ name.bytes, isPlainChar c = true) (hne : name.bytes ≠ [])
    (hflags : SetsValues flags) (hf : IsFlat h n) (val : DbValue) :
    IsFlat (setValue h n flags name val).2 n := by
  have hins : has flags flagsInsert = false := by rcases hflags with rfl | rfl <;> decide
  obtain ⟨el, hvar, hinsert, hnode⟩ := getNode_plain hplain hne hflags h n
  rw [setValue, hnode]
  cases hfind : findVar h n name 0 with
  | some a =>
      rw [findVar, if_pos hf.typ] at hfind
      obtain ⟨hmem, htyp⟩ := findNode_mem hfind
      exact hf.addValue hins (hf.wf n hf.lt a hmem) htyp val
  | none =>
      have hf' := hf.createNode hvar hinsert hfind
      obtain ⟨-, -, hlt, htyp, -⟩ := createNode_group hf.toIsGroup hvar hinsert hfind id
      exact hf'.addValue hins hlt htyp val

/-! ### Looking up -/

variable (hsingle : ∀ c ∈ name.bytes, isSlash c = false ∧ c ≠ code '[')

include hsingle in
/-- A name without slashes and brackets finds a variable, if there is more than blanks. -/
theorem resolve_blanks (h : DbHeap) (n : ℕ) : resolve h n name =
    if (withoutBlanks name).bytes = [] then some n else findVar h n (withoutBlanks name) 0 := by
  rw [resolve_eq, elementsOf_single hsingle]
  split
  · next hnil => rw [hnil, List.length_nil, lookup]
  · next hne =>
      obtain ⟨c, s, hs⟩ := List.exists_cons_of_ne_nil hne
      rw [hs, List.length_cons, lookup, ← hs, nextElement_single (single_withoutBlanks hsingle), Option.bind_some]
      dsimp only
      rw [beq_self_eq_true, find, if_pos rfl, CString.ofBytes_eq]
      cases findVar h n (withoutBlanks name) 0 with
      | none => rfl
      | some a => rw [Option.bind_some, lookup]

theorem IsFlat.values_eq_nil (hf : IsFlat h n) : values h n = [] := by
  rw [values, List.filterMap_eq_nil_iff]
  intro v hv
  rw [valueOf, hf.var v hv]

include hsingle in
theorem getCharValue_of_blanks (hf : IsFlat h n) (hblanks : (withoutBlanks name).bytes = []) :
    getCharValue h n name = none := by
  rw [getCharValue, resolve_blanks hsingle, if_pos hblanks, Option.bind_some, hf.values_eq_nil,
    List.head?_nil]

include hsingle in
theorem getCharValue_of_findVals (hf : IsFlat h n) (hblanks : (withoutBlanks name).bytes ≠ [])
    {s : Option CString}
    (hs : findVals (withoutBlanks name) (varsOf h n) = s.map fun s => [.char s]) :
    getCharValue h n name = s := by
  rw [varsOf_eq, findVals_varsAmong] at hs
  have hbind : ∀ r : Option ℕ, r.map (values h) = s.map (fun s => [DbValue.char s]) →
      r.bind (fun nn => (values h nn).head?) = s.map .char := by
    intro r hr
    cases r with
    | none =>
        cases s with
        | none => rfl
        | some s => cases hr
    | some r =>
        cases s with
        | none => cases hr
        | some s =>
            rw [Option.bind_some, Option.some.inj hr]
            rfl
  rw [getCharValue, resolve_blanks hsingle, if_neg hblanks, findVar, if_pos hf.typ, hbind _ hs]
  cases s <;> rfl

/-! ### Deleting a variable -/

/-- Deletes the first variable of the name. -/
def eraseVar (name : CString) : List (CString × List DbValue) → List (CString × List DbValue)
  | [] => []
  | (m, vs) :: vars => if strcaseEq m name then vars else (m, vs) :: eraseVar name vars

theorem eraseVar_nil_of_none (vals : ℕ → List DbValue) : ∀ {nodes : List ℕ},
    findNode h .var name nodes 0 = none →
    eraseVar name (varsAmong h vals nodes) = varsAmong h vals nodes
  | [], _ => rfl
  | v :: nodes, hf => by
      by_cases hm : (h.node v).typ = .var ∧ strcaseEq (h.node v).dataName name = true
      · rw [findNode, if_pos hm, if_pos rfl] at hf
        cases hf
      · rw [findNode, if_neg hm] at hf
        by_cases hv : (h.node v).typ = .var
        · rw [varsAmong_cons_var hv, eraseVar, if_neg fun hname => hm ⟨hv, hname⟩,
            eraseVar_nil_of_none vals hf]
        · rw [varsAmong_cons_other hv, eraseVar_nil_of_none vals hf]

theorem varsAmong_erase (vals : ℕ → List DbValue) : ∀ {nodes : List ℕ},
    findNode h .var name nodes 0 = some a →
    varsAmong h vals (nodes.erase a) = eraseVar name (varsAmong h vals nodes)
  | [], hf => by cases hf
  | v :: nodes, hf => by
      by_cases hm : (h.node v).typ = .var ∧ strcaseEq (h.node v).dataName name = true
      · rw [findNode, if_pos hm, if_pos rfl] at hf
        obtain rfl := Option.some.inj hf
        rw [varsAmong_cons_var hm.1, eraseVar, if_pos hm.2, List.erase_cons_head]
      · rw [findNode, if_neg hm] at hf
        have hne : v ≠ a := by
          rintro rfl
          exact hm ⟨(findNode_mem hf).2, findNode_name hf⟩
        rw [List.erase_cons_tail (by simpa using hne)]
        by_cases hv : (h.node v).typ = .var
        · rw [varsAmong_cons_var hv, varsAmong_cons_var hv, eraseVar,
            if_neg fun hname => hm ⟨hv, hname⟩, varsAmong_erase vals hf]
        · rw [varsAmong_cons_other hv, varsAmong_cons_other hv, varsAmong_erase vals hf]

/-- What is left of a group when one of its variables is released. -/
theorem IsFlat.unlink (hf : IsFlat h n) (a : ℕ) :
    IsFlat (setChildren h n ((h.node n).children.erase a)) n ∧
      varsOf (setChildren h n ((h.node n).children.erase a)) n =
        varsAmong h (values h) ((h.node n).children.erase a) := by
  have hnode (x : ℕ) : ((setChildren h n ((h.node n).children.erase a)).node x).typ =
        (h.node x).typ ∧
      ((setChildren h n ((h.node n).children.erase a)).node x).dataName = (h.node x).dataName ∧
      ((setChildren h n ((h.node n).children.erase a)).node x).parent = (h.node x).parent ∧
      ((setChildren h n ((h.node n).children.erase a)).node x).children =
        if x = n then (h.node n).children.erase a else (h.node x).children := by
    rw [setChildren]
    by_cases hx : x = n
    · subst hx
      simp
    · simp [hx]
  have hchildren := (hnode n).2.2.2
  rw [if_pos rfl] at hchildren
  have hsub := (h.node n).children.erase_sublist (a := a)
  refine ⟨⟨⟨?_, hf.lt, (hnode n).1.trans hf.typ, ?_⟩, ?_, ?_⟩, ?_⟩
  · intro x hx c hc
    rw [(hnode x).2.2.2] at hc
    split at hc
    · exact hf.wf n hf.lt c (hsub.subset hc)
    · exact hf.wf x hx c hc
  · rw [hchildren]
    exact hf.nodup.sublist hsub
  · intro v hv
    rw [hchildren] at hv
    rw [(hnode v).1, hf.var v (hsub.subset hv)]
  · intro v hv
    rw [hchildren] at hv
    rw [(hnode v).2.2.1, hf.parent v (hsub.subset hv)]
  · rw [varsOf_eq, hchildren, varsAmong, varsAmong,
      List.filter_congr fun v _ => by rw [(hnode v).1]]
    refine List.map_congr_left fun v hv => ?_
    have hmem := hsub.subset (List.mem_of_mem_filter hv)
    have hvn : v ≠ n := by
      rintro rfl
      exact absurd (hf.typ.symm.trans (hf.var v hmem)) (by decide)
    rw [(hnode v).2.1, values, values, (hnode v).2.2.2, if_neg hvn]
    refine congrArg _ (List.filterMap_congr fun c _ => ?_)
    rw [valueOf, valueOf, (hnode c).1]

include hsingle in
theorem deleteVar_spec (hf : IsFlat h n) (hblanks : (withoutBlanks name).bytes ≠ []) :
    ∃ h', (deleteVar h n name).map Prod.snd = some h' ∧ IsFlat h' n ∧
      varsOf h' n = eraseVar (withoutBlanks name) (varsOf h n) := by
  rw [deleteVar, resolve_blanks hsingle, if_neg hblanks, findVar, if_pos hf.typ]
  cases hfind : findNode h .var (withoutBlanks name) (h.node n).children 0 with
  | none =>
      exact ⟨h, rfl, hf, by rw [varsOf_eq, eraseVar_nil_of_none (values h) hfind]⟩
  | some a =>
      obtain ⟨hflat, hvars⟩ := hf.unlink a
      have hunlink : nodeUnlink h a = some (setChildren h n ((h.node n).children.erase a)) := by
        rw [nodeUnlink, hf.parent a (findNode_mem hfind).1]
        rfl
      refine ⟨_, ?_, hflat, hvars.trans (varsAmong_erase (values h) hfind)⟩
      dsimp only
      rw [hunlink]
      rfl

/-! ### The tree of a group of variables -/

/-- The variables as they are written. -/
def ofVars (vars : List (CString × List DbValue)) : DbNodes :=
  vars.foldr (fun p next => .var 0 p.1 p.2 next) .nil

theorem nodesOf_flat (hf : IsFlat h n) (k : ℕ) :
    nodesOf h (k + 1) (h.node n).children = ofVars (varsOf h n) := by
  have hall : ∀ {nodes : List ℕ}, (∀ v ∈ nodes, (h.node v).typ = .var) →
      nodesOf h (k + 1) nodes = ofVars (varsAmong h (values h) nodes) := by
    intro nodes
    induction nodes with
    | nil => exact fun _ => rfl
    | cons v nodes ih =>
        intro hnodes
        rw [List.forall_mem_cons] at hnodes
        rw [varsAmong_cons_var hnodes.1, ofVars, List.foldr_cons, ← ofVars, ← ih hnodes.2, nodesOf,
          List.foldr_cons, hnodes.1]
        rfl
  exact hall hf.var

end
end Gwenhywfar.Db
