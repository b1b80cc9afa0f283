import Gwenhywfar.Parser.DbPathLaw

/-! # The variables of a group

* `addVar`: what setting a value does to the variables of a group with their values.
* `varsOf_setValue`: `GWEN_DB_SetCharValue` and the like do this, for a name that is no path.
* `resolve_plain`: which of the variables a name finds. -/

namespace Gwenhywfar.Db

open Gwenhywfar.Path

/-- Adds a value to the first variable of the name, or adds a variable. -/
def addVar (name : CString) (val : DbValue) :
    List (CString × List DbValue) → List (CString × List DbValue)
  | [] => [(name, [val])]
  | (m, vs) :: vars =>
      if strcaseEq m name then (m, vs ++ [val]) :: vars else (m, vs) :: addVar name val vars

/-- Changes the values of the first variable of the name, or adds a variable. -/
def updateVar (name : CString) (f : List DbValue → List DbValue) :
    List (CString × List DbValue) → List (CString × List DbValue)
  | [] => [(name, f [])]
  | (m, vs) :: vars =>
      if strcaseEq m name then (m, f vs) :: vars else (m, vs) :: updateVar name f vars

theorem addVar_eq (name : CString) (val : DbValue) : ∀ vars : List (CString × List DbValue),
    addVar name val vars = updateVar name (· ++ [val]) vars
  | [] => rfl
  | (m, vs) :: vars => by rw [addVar, updateVar, addVar_eq name val vars]

/-- The values of a variable after another one has been set. -/
def newValues (flags : UInt32) (val : DbValue) (vs : List DbValue) : List DbValue :=
  if has flags flagsOverwriteVars then [val] else vs ++ [val]

/-- The values of the first variable of the name. -/
def findVals (name : CString) : List (CString × List DbValue) → Option (List DbValue)
  | [] => none
  | (m, vs) :: vars => if strcaseEq m name then some vs else findVals name vars

/-- A node is a group, the children of which are different nodes. -/
structure IsGroup (h : DbHeap) (n : ℕ) : Prop where
  wf : Wf h
  lt : n < h.size
  typ : (h.node n).typ = .group
  nodup : (h.node n).children.Nodup

theorem isGroup_emptyGroup (name : CString) : IsGroup (emptyGroup name) 0 where
  wf := by
    intro x _ c hc
    rw [emptyGroup, newNode] at hc
    dsimp only at hc
    rw [Function.update_apply] at hc
    split at hc <;> cases hc
  lt := Nat.one_pos
  typ := rfl
  nodup := List.nodup_nil

section
variable {h : DbHeap} {n a : ℕ} {name : CString}

def varsAmong (h : DbHeap) (vals : ℕ → List DbValue) (nodes : List ℕ) :
    List (CString × List DbValue) :=
  (nodes.filter fun v => (h.node v).typ = .var).map fun v => ((h.node v).dataName, vals v)

theorem varsAmong_cons_var {vals : ℕ → List DbValue} {v : ℕ} {nodes : List ℕ}
    (hv : (h.node v).typ = .var) :
    varsAmong h vals (v :: nodes) = ((h.node v).dataName, vals v) :: varsAmong h vals nodes := by
  rw [varsAmong, List.filter_cons_of_pos (by rw [hv]; rfl)]
  rfl

theorem varsAmong_cons_other {vals : ℕ → List DbValue} {v : ℕ} {nodes : List ℕ}
    (hv : (h.node v).typ ≠ .var) : varsAmong h vals (v :: nodes) = varsAmong h vals nodes := by
  rw [varsAmong, List.filter_cons_of_neg (by simpa using hv)]
  rfl

/-- Changing the values of the variable that is found. -/
theorem varsAmong_found (vals : ℕ → List DbValue) (f : List DbValue → List DbValue) :
    ∀ {nodes : List ℕ}, nodes.Nodup → findNode h .var name nodes 0 = some a →
    varsAmong h (fun v => if v = a then f (vals v) else vals v) nodes =
      updateVar name f (varsAmong h vals nodes)
  | [], _, hf => by cases hf
  | v :: nodes, hnodup, hf => by
      rw [List.nodup_cons] at hnodup
      by_cases hv : (h.node v).typ = .var
      · rw [varsAmong_cons_var hv, varsAmong_cons_var hv, updateVar]
        by_cases hname : strcaseEq (h.node v).dataName name = true
        · rw [findNode, if_pos ⟨hv, hname⟩, if_pos rfl] at hf
          obtain rfl := Option.some.inj hf
          have hrest : varsAmong h (fun w => if w = v then f (vals w) else vals w) nodes =
              varsAmong h vals nodes := by
            refine List.map_congr_left fun w hw => ?_
            have hne : w ≠ v := fun heq => hnodup.1 (heq ▸ List.mem_of_mem_filter hw)
            dsimp only
            rw [if_neg hne]
          rw [if_pos rfl, if_pos hname, hrest]
        · rw [findNode, if_neg fun hm => hname hm.2] at hf
          have hne : v ≠ a := fun heq => hnodup.1 (heq ▸ (findNode_mem hf).1)
          rw [if_neg hne, if_neg hname, varsAmong_found vals f hnodup.2 hf]
      · rw [findNode, if_neg fun hm => hv hm.1] at hf
        rw [varsAmong_cons_other hv, varsAmong_cons_other hv, varsAmong_found vals f hnodup.2 hf]

theorem updateVar_none (vals : ℕ → List DbValue) (f : List DbValue → List DbValue) :
    ∀ {nodes : List ℕ}, findNode h .var name nodes 0 = none →
    updateVar name f (varsAmong h vals nodes) = varsAmong h vals nodes ++ [(name, f [])]
  | [], _ => rfl
  | v :: nodes, hf => by
      have hno := findNode_zero_none hf
      have hrest : findNode h .var name nodes 0 = none :=
        findNode_none fun w hw => hno w (List.mem_cons_of_mem _ hw)
      by_cases hv : (h.node v).typ = .var
      · have hname : ¬ strcaseEq (h.node v).dataName name = true :=
          fun hm => hno v List.mem_cons_self ⟨hv, hm⟩
        rw [varsAmong_cons_var hv, updateVar, if_neg hname, updateVar_none vals f hrest,
          List.cons_append]
      · rw [varsAmong_cons_other hv, updateVar_none vals f hrest]

theorem findVals_varsAmong (vals : ℕ → List DbValue) : ∀ {nodes : List ℕ},
    findVals name (varsAmong h vals nodes) = (findNode h .var name nodes 0).map vals
  | [] => rfl
  | v :: nodes => by
      by_cases hv : (h.node v).typ = .var
      · rw [varsAmong_cons_var hv, findVals, findNode]
        by_cases hname : strcaseEq (h.node v).dataName name = true
        · rw [if_pos hname, if_pos ⟨hv, hname⟩, if_pos rfl, Option.map_some]
        · rw [if_neg hname, if_neg fun hm => hname hm.2, findVals_varsAmong vals]
      · rw [varsAmong_cons_other hv, findNode, if_neg fun hm => hv hm.1, findVals_varsAmong vals]

theorem varsOf_eq (h : DbHeap) (n : ℕ) :
    varsOf h n = varsAmong h (values h) (h.node n).children := rfl

/-! ### A name that is no path -/

def withoutBlanks (path : CString) : CString := CString.ofBytes (path.bytes.dropWhile isSpace)

theorem withoutBlanks_bytes (path : CString) :
    (withoutBlanks path).bytes = path.bytes.dropWhile isSpace :=
  CString.ofBytes_bytes fun h0 => path.nul_free ((List.dropWhile_sublist _).subset h0)

theorem single_withoutBlanks (hsingle : ∀ c ∈ name.bytes, isSlash c = false ∧ c ≠ code '[') :
    ∀ c ∈ (withoutBlanks name).bytes, isSlash c = false ∧ c ≠ code '[' := by
  intro c hc
  rw [withoutBlanks_bytes] at hc
  exact hsingle c ((List.dropWhile_sublist _).subset hc)

theorem elementsOf_single (hsingle : ∀ c ∈ name.bytes, isSlash c = false ∧ c ≠ code '[') :
    elementsOf name = (withoutBlanks name).bytes := by
  rw [elementsOf, ← withoutBlanks_bytes]
  cases hs : (withoutBlanks name).bytes with
  | nil => rfl
  | cons c s =>
      have hc := (single_withoutBlanks hsingle c (hs ▸ List.mem_cons_self)).1
      rw [List.dropWhile_cons_of_neg (by rw [hc]; decide)]

variable (hplain : ∀ c ∈ name.bytes, isPlainChar c = true) (hne : name.bytes ≠ [])

include hplain hne in
theorem resolve_plain (h : DbHeap) (n : ℕ) : resolve h n name = findVar h n name 0 := by
  obtain ⟨hbytes, hnext⟩ := elementsOf_plain hplain hne
  obtain ⟨c, s, hs⟩ := List.exists_cons_of_ne_nil hne
  rw [resolve_eq, hbytes, hs, List.length_cons, lookup, ← hs, hnext, Option.bind_some]
  dsimp only
  rw [beq_self_eq_true, find, if_pos rfl, CString.ofBytes_eq]
  cases findVar h n name 0 with
  | none => rfl
  | some a => rw [Option.bind_some, lookup]

include hplain hne in
theorem values_resolve (hg : (h.node n).typ = .group) :
    (resolve h n name).map (values h) = findVals name (varsOf h n) := by
  rw [resolve_plain hplain hne, findVar, if_pos hg, varsOf_eq, findVals_varsAmong]

def SetsValues (flags : UInt32) : Prop := flags = flagsDefault ∨ flags = flagsOverwriteVars

theorem getNode_single (hsingle : ∀ c ∈ name.bytes, isSlash c = false ∧ c ≠ code '[')
    (hblanks : (withoutBlanks name).bytes ≠ []) {flags : UInt32} (hflags : SetsValues flags)
    (h : DbHeap) (n : ℕ) : ∃ el, has el flagsVariable = true ∧ has el flagsInsert = false ∧
      getNode h n name (flags ||| flagsVariable) = (findVar h n (withoutBlanks name) 0).elim
        (some h.size, createNode el h n (withoutBlanks name)) fun a => (some a, h) := by
  have hf : PlainFlags flags := by
    rcases hflags with rfl | rfl <;> exact ⟨by decide, by decide, by decide, by decide⟩
  have hnext := nextElement_single (single_withoutBlanks hsingle)
  obtain ⟨c, s, hs⟩ := List.exists_cons_of_ne_nil hblanks
  generalize hel : elementFlags (flags ||| flagsVariable) false true true = el
  have hvar : has el flagsVariable = true := by rw [← hel, has_elementFlags_variable]
  have hnot : has el flagsInsert = false ∧
      (!has el flagsLast && has el flagsPathMustExist || has el flagsNameMustExist) = false ∧
      (has el flagsLast && has el flagsNameMustNotExist ||
        !has el flagsLast && has el flagsPathMustNotExist) = false := by
    rw [← hel]
    rcases hflags with rfl | rfl <;> decide
  refine ⟨el, hvar, hnot.1, ?_⟩
  have hhandle : handlePath (withoutBlanks name).bytes n 0 el h =
      (findVar h n (withoutBlanks name) 0).elim
        (some h.size, createNode el h n (withoutBlanks name)) fun a => (some a, h) := by
    rw [handlePath, if_neg (by rw [← hel, hf.or_variable.not_create]; exact Bool.false_ne_true),
      hvar, if_pos rfl, CString.ofBytes_eq]
    cases findVar h n (withoutBlanks name) 0 with
    | none =>
        dsimp only
        rw [hnot.2.1, if_neg Bool.false_ne_true, if_neg (not_not_intro rfl), Option.elim_none]
    | some a =>
        dsimp only
        rw [hnot.2.2, if_neg Bool.false_ne_true, Option.elim_some]
  have hroot : has (flags ||| flagsVariable) flagsCheckRoot = false ∧
      has (flags ||| flagsVariable) flagsNoIdx = false := by
    rcases hflags with rfl | rfl <;> decide
  rw [getNode, handleWithIdx, hroot.1, Bool.false_and, ← elementsOf, elementsOf_single hsingle, hs,
    List.length_cons, handleLoop_cons handlePath hf.or_variable (has_or_variable _) s.length c
      (fun hn => absurd (hroot.2.symm.trans hn) Bool.false_ne_true), ← hs, hnext, Option.elim_some]
  dsimp only
  rw [beq_self_eq_true, hel, hhandle]
  cases findVar h n (withoutBlanks name) 0 with
  | none => rw [Option.elim_none, Option.elim_some, handleLoop]
  | some a => rw [Option.elim_some, Option.elim_some, handleLoop]

include hplain hne in
theorem getNode_plain {flags : UInt32} (hflags : SetsValues flags) (h : DbHeap) (n : ℕ) :
    ∃ el, has el flagsVariable = true ∧ has el flagsInsert = false ∧
      getNode h n name (flags ||| flagsVariable) =
        (findVar h n name 0).elim (some h.size, createNode el h n name) fun a => (some a, h) := by
  have hsingle : ∀ c ∈ name.bytes, isSlash c = false ∧ c ≠ code '[' := fun c hc =>
    (isPlainChar_spec (hplain c hc)).2
  have hname : withoutBlanks name = name :=
    CString.ext ((elementsOf_single hsingle).symm.trans (elementsOf_plain hplain hne).1)
  have hnode := getNode_single hsingle (by rwa [hname]) hflags h n
  rwa [hname] at hnode

theorem addValue_group {flags : UInt32} (hinsert : has flags flagsInsert = false)
    (hg : IsGroup h n) (ha : a < h.size) (hvar : (h.node a).typ = .var) (val : DbValue) :
    IsGroup (addValue flags h a val) n ∧
      ((addValue flags h a val).node n).dataName = (h.node n).dataName ∧
      varsOf (addValue flags h a val) n =
        varsAmong h (fun v => if v = a then newValues flags val (values h v) else values h v)
          (h.node n).children := by
  obtain ⟨hwf, hgrows, hvalues⟩ := @addValue_grows h a flags val hg.wf ha hvar
  rw [hinsert, if_neg Bool.false_ne_true] at hvalues
  have hna : n ≠ a := by
    rintro rfl
    exact absurd (hg.typ.symm.trans hvar) (by decide)
  obtain ⟨htyp, hname, hchildren⟩ := @addValue_old h a n flags val ha hg.lt
  rw [if_neg hna] at hchildren
  refine ⟨⟨hwf, hg.lt.trans_le hgrows.size, htyp.trans hg.typ, hchildren ▸ hg.nodup⟩, hname, ?_⟩
  have hfilter : ((h.node n).children.filter fun v =>
      ((addValue flags h a val).node v).typ = .var) =
        (h.node n).children.filter fun v => (h.node v).typ = .var :=
    List.filter_congr fun v hv => by rw [(hgrows.same v (hg.wf n hg.lt v hv)).1]
  rw [varsOf, hchildren, hfilter, varsAmong]
  refine List.map_congr_left fun v hv => ?_
  obtain ⟨hmem, htyp⟩ := List.mem_filter.mp hv
  have hlt := hg.wf n hg.lt v hmem
  rw [(hgrows.same v hlt).2]
  by_cases hva : v = a
  · rw [if_pos hva, hva, hvalues, newValues]
  · rw [if_neg hva, hgrows.values hg.wf hlt (by rw [of_decide_eq_true htyp]; decide) hva]

theorem createNode_group (hg : IsGroup h n) {el : UInt32} (hvar : has el flagsVariable = true)
    (hinsert : has el flagsInsert = false) (hnone : findVar h n name 0 = none)
    (f : List DbValue → List DbValue) :
    IsGroup (createNode el h n name) n ∧
      ((createNode el h n name).node n).dataName = (h.node n).dataName ∧
      h.size < (createNode el h n name).size ∧
      ((createNode el h n name).node h.size).typ = .var ∧
      varsAmong (createNode el h n name)
          (fun v => if v = h.size then f (values (createNode el h n name) v)
            else values (createNode el h n name) v)
          ((createNode el h n name).node n).children =
        varsOf h n ++ [(name, f [])] := by
  obtain ⟨hwf, hgrows, -⟩ := @createNode_grows h n h.size name el hg.wf hg.lt hg.typ (by
    rw [hvar]
    exact hnone)
  obtain ⟨htyp, hname, hchildren⟩ := @createNode_old h n n name el hg.lt hg.lt
  obtain ⟨hnewTyp, hnewName, hnewChildren⟩ := @createNode_new h n name el hg.lt
  rw [hvar] at hnewTyp
  rw [if_pos rfl, hinsert, if_neg Bool.false_ne_true] at hchildren
  have hlt := hg.wf n hg.lt
  have hnot : h.size ∉ (h.node n).children := fun hmem => lt_irrefl _ (hlt _ hmem)
  refine ⟨⟨hwf, hg.lt.trans_le hgrows.size, htyp.trans hg.typ, ?_⟩, hname, ?_, hnewTyp, ?_⟩
  · rw [hchildren, List.nodup_append]
    refine ⟨hg.nodup, List.nodup_singleton _, ?_⟩
    rintro x hx y hy rfl
    exact hnot (List.mem_singleton.mp hy ▸ hx)
  · rw [size_createNode]
    exact Nat.lt_succ_self _
  · have hempty : values (createNode el h n name) h.size = [] := by
      rw [values, hnewChildren]
      rfl
    rw [hchildren, varsAmong, List.filter_append, List.map_append,
      List.filter_cons_of_pos (by rw [hnewTyp]; rfl), List.filter_nil, List.map_singleton, hnewName,
      if_pos rfl, hempty, varsOf,
      List.filter_congr fun v hv => by rw [(hgrows.same v (hlt v hv)).1]]
    congr 1
    refine List.map_congr_left fun v hv => ?_
    obtain ⟨hmem, hv'⟩ := List.mem_filter.mp hv
    have hne : v ≠ h.size := Nat.ne_of_lt (hlt v hmem)
    rw [if_neg hne, (hgrows.same v (hlt v hmem)).2,
      hgrows.values hg.wf (hlt v hmem) (by rw [of_decide_eq_true hv']; decide) hne]

theorem varsOf_emptyGroup (group : CString) : varsOf (emptyGroup group) 0 = [] := rfl

include hplain hne in
/-- Setting a value at a plain name changes the variables of a group only by this value. -/
theorem varsOf_setValue_flags {flags : UInt32} (hflags : SetsValues flags) (hg : IsGroup h n)
    (val : DbValue) : IsGroup (setValue h n flags name val).2 n ∧
      ((setValue h n flags name val).2.node n).dataName = (h.node n).dataName ∧
      varsOf (setValue h n flags name val).2 n =
        updateVar name (newValues flags val) (varsOf h n) := by
  have hins : has flags flagsInsert = false := by rcases hflags with rfl | rfl <;> decide
  obtain ⟨el, hvar, hinsert, hnode⟩ := getNode_plain hplain hne hflags h n
  rw [setValue, hnode]
  cases hfind : findVar h n name 0 with
  | some a =>
      rw [findVar, if_pos hg.typ] at hfind
      obtain ⟨hmem, htyp⟩ := findNode_mem hfind
      obtain ⟨hgroup, hname, hvars⟩ := addValue_group hins hg (hg.wf n hg.lt a hmem) htyp val
      rw [varsAmong_found (values h) (newValues flags val) hg.nodup hfind] at hvars
      exact ⟨hgroup, hname, hvars⟩
  | none =>
      obtain ⟨hg', hname', hlt, htyp, hvars'⟩ :=
        createNode_group hg hvar hinsert hfind (newValues flags val)
      obtain ⟨hgroup, hname, hvars⟩ := addValue_group hins hg' hlt htyp val
      rw [findVar, if_pos hg.typ] at hfind
      refine ⟨hgroup, hname.trans hname', hvars.trans ?_⟩
      rw [hvars', varsOf_eq, updateVar_none (values h) (newValues flags val) hfind]

include hplain hne in
theorem varsOf_setValue (hg : IsGroup h n) (val : DbValue) :
    IsGroup (setValue h n flagsDefault name val).2 n ∧
      ((setValue h n flagsDefault name val).2.node n).dataName = (h.node n).dataName ∧
      varsOf (setValue h n flagsDefault name val).2 n = addVar name val (varsOf h n) := by
  rw [addVar_eq]
  exact varsOf_setValue_flags hplain hne (.inl rfl) hg val

end
end Gwenhywfar.Db
