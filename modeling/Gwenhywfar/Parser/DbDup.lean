import Gwenhywfar.Parser.DbText

/-! # Copies of a tree

* `nodeDup`: `GWEN_DB_Node_dup`, which makes new nodes and therefore drops the flags of the nodes.
* `SameLines`: no node that is not written for the original changes the text of the copy.
* `writeToBuffer_groupDup_iff`: exactly then the texts are equal, where the length of the text is
  what tells them apart. -/

namespace Gwenhywfar.Db

open Text

/-- `GWEN_DB_Node_dup` from a child of a group on. -/
def nodeDup : DbNodes → DbNodes
  | .nil => .nil
  | .group _ name children next => .group 0 name (nodeDup children) (nodeDup next)
  | .var _ name values next => .var 0 name values (nodeDup next)

/-- `GWEN_DB_Group_dup`: the copy of a group with these children. -/
def groupDup (children : DbNodes) : DbNodes := nodeDup children

/-- No node that is not written for the original would be written for the copy.  There may be a
variable before the rest of the original and before that of the copy: after one a group begins with
an empty line, so that a volatile variable without values must not change that. -/
def SameLines (dbflags : UInt32) : DbNodes → (lastWasVar copyLastWasVar : Bool) → Prop
  | .nil, _, _ => True
  | .group nodeFlags _ children next, lastWasVar, copyLastWasVar =>
      if has nodeFlags nodeFlagsVolatile = true then
        has dbflags flagsWriteSubgroups = false ∧ SameLines dbflags next lastWasVar copyLastWasVar
      else
        (has dbflags flagsWriteSubgroups = true →
          (has dbflags flagsAddGroupNewlines = true → lastWasVar = copyLastWasVar) ∧
            SameLines dbflags children false false) ∧
        SameLines dbflags next false false
  | .var nodeFlags _ values next, lastWasVar, _ =>
      if has nodeFlags nodeFlagsVolatile = true then
        (∀ v ∈ values, valueText dbflags v = none) ∧ SameLines dbflags next lastWasVar true
      else SameLines dbflags next true true

section
variable {f dbflags : UInt32}

theorem nodeDup_eq_nil {nodes : DbNodes} : (nodeDup nodes != .nil) = (nodes != .nil) := by
  cases nodes <;> rfl

theorem not_volatile_zero : has 0 nodeFlagsVolatile = false := rfl

/-! ### Lines without values -/

theorem valuesText_nil (insert : ℕ) (name : List UInt8) : ∀ {values : List DbValue},
    (∀ v ∈ values, valueText dbflags v = none) →
      valuesText f dbflags insert name false values = []
  | [], _ => rfl
  | v :: values, h => by
      unfold valuesText valueSites
      rw [h v List.mem_cons_self]
      exact valuesText_nil insert name fun w hw => h w (List.mem_cons_of_mem v hw)

theorem length_newline_pos (f : UInt32) : 0 < (FastWriter.newline f).length := by
  unfold FastWriter.newline
  split <;> simp

theorem length_valuesText_written (insert : ℕ) (name : List UInt8) : ∀ values : List DbValue,
    0 < (valuesText f dbflags insert name true values).length
  | [] => by
      simp only [valuesText, valueSites, mark_fst]
      simpa using length_newline_pos f
  | v :: values => by
      have ih := length_valuesText_written insert name values
      unfold valuesText valueSites
      cases valueText dbflags v with
      | none => exact ih
      | some text =>
          unfold valuesText at ih
          simp only [if_pos, mark_fst, List.length_append]
          omega

theorem length_valuesText_pos (insert : ℕ) (name : List UInt8) : ∀ {values : List DbValue},
    ¬ (∀ v ∈ values, valueText dbflags v = none) →
      0 < (valuesText f dbflags insert name false values).length
  | [], h => absurd (fun _ hv => absurd hv List.not_mem_nil) h
  | v :: values, h => by
      unfold valuesText valueSites
      cases hv : valueText dbflags v with
      | none =>
          refine length_valuesText_pos insert name fun hall => h fun w hw => ?_
          rcases List.mem_cons.mp hw with rfl | hw
          · exact hv
          · exact hall w hw
      | some text =>
          have hrest := @length_valuesText_written f dbflags insert name values
          unfold valuesText at hrest
          simp only [Bool.false_eq_true, if_false, varNameSites, mark_fst, List.length_append]
          omega

/-! ### The text of the copy -/

/-- Without groups it does not matter whether there was a variable before. -/
theorem text_subgroups (hsub : has dbflags flagsWriteSubgroups = false) :
    ∀ (nodes : DbNodes) (insert : ℕ) (lastWasVar lastWasVar' : Bool),
      text f dbflags nodes insert lastWasVar = text f dbflags nodes insert lastWasVar'
  | .nil, _, _, _ => rfl
  | .group nodeFlags name children next, insert, lastWasVar, lastWasVar' => by
      cases hvolatile : has nodeFlags nodeFlagsVolatile with
      | true =>
          rw [text_group_volatile _ _ _ _ _ hvolatile, text_group_volatile _ _ _ _ _ hvolatile]
          exact text_subgroups hsub next insert lastWasVar lastWasVar'
      | false =>
          rw [text_group_subgroups _ _ _ _ _ hvolatile hsub,
            text_group_subgroups _ _ _ _ _ hvolatile hsub]
  | .var nodeFlags name values next, insert, lastWasVar, lastWasVar' => by
      cases hvolatile : has nodeFlags nodeFlagsVolatile with
      | true =>
          rw [text_var_volatile _ _ _ _ _ hvolatile, text_var_volatile _ _ _ _ _ hvolatile]
          exact text_subgroups hsub next insert lastWasVar lastWasVar'
      | false => rw [text_var _ _ _ _ _ hvolatile, text_var _ _ _ _ _ hvolatile]

theorem text_same : ∀ (nodes : DbNodes) (insert : ℕ) (lastWasVar copyLastWasVar : Bool),
    SameLines dbflags nodes lastWasVar copyLastWasVar →
      text f dbflags (nodeDup nodes) insert copyLastWasVar = text f dbflags nodes insert lastWasVar
  | .nil, _, _, _, _ => rfl
  | .group nodeFlags name children next, insert, lastWasVar, copyLastWasVar, h => by
      rw [nodeDup]
      unfold SameLines at h
      cases hsub : has dbflags flagsWriteSubgroups with
      | false =>
          rw [text_group_subgroups _ _ _ _ _ not_volatile_zero hsub]
          cases hvolatile : has nodeFlags nodeFlagsVolatile with
          | true =>
              rw [if_pos hvolatile] at h
              rw [text_group_volatile _ _ _ _ _ hvolatile, ← text_same next insert _ _ h.2]
              exact text_subgroups hsub _ _ _ _
          | false =>
              rw [if_neg (by rw [hvolatile]; decide)] at h
              rw [text_group_subgroups _ _ _ _ _ hvolatile hsub]
              exact text_same next insert false false h.2
      | true =>
          cases hvolatile : has nodeFlags nodeFlagsVolatile with
          | true =>
              rw [if_pos hvolatile, hsub] at h
              cases h.1
          | false =>
              rw [if_neg (by rw [hvolatile]; decide)] at h
              obtain ⟨hlines, hchildren⟩ := h.1 hsub
              have hline : (has dbflags flagsAddGroupNewlines && copyLastWasVar) =
                  (has dbflags flagsAddGroupNewlines && lastWasVar) := by
                cases hadd : has dbflags flagsAddGroupNewlines with
                | false => rfl
                | true => rw [hlines hadd]
              rw [text_group _ _ _ _ _ not_volatile_zero hsub, text_group _ _ _ _ _ hvolatile hsub,
                hline, nodeDup_eq_nil, text_same children (insert + 2) false false hchildren,
                text_same next insert false false h.2]
  | .var nodeFlags name values next, insert, lastWasVar, copyLastWasVar, h => by
      rw [nodeDup, text_var _ _ _ _ _ not_volatile_zero]
      unfold SameLines at h
      cases hvolatile : has nodeFlags nodeFlagsVolatile with
      | true =>
          rw [if_pos hvolatile] at h
          rw [text_var_volatile _ _ _ _ _ hvolatile, valuesText_nil insert _ h.1, List.nil_append]
          exact text_same next insert lastWasVar true h.2
      | false =>
          rw [if_neg (by rw [hvolatile]; decide)] at h
          rw [text_var _ _ _ _ _ hvolatile, text_same next insert true true h]

/-! ### The length of the text -/

theorem length_lineIf_le {wanted wanted' : Bool} (h : wanted = true → wanted' = true) :
    (lineIf f wanted).length ≤ (lineIf f wanted').length := by
  cases wanted with
  | false => exact Nat.zero_le _
  | true => rw [h rfl]

theorem length_missing {wanted lastWasVar copyLastWasVar : Bool}
    (h : lastWasVar = true → copyLastWasVar = true) :
    (lineIf f (wanted && (lastWasVar && !copyLastWasVar))).length = 0 := by
  cases lastWasVar with
  | false => rw [Bool.false_and, Bool.and_false]; rfl
  | true => rw [h rfl, Bool.not_true, Bool.and_false, Bool.and_false]; rfl

theorem length_lineIf_lt (insert : ℕ) (name : List UInt8) (wanted : Bool) :
    (lineIf f wanted).length < (groupBegin f dbflags insert name).length := by
  have hle := @length_lineIf_le f wanted true fun _ => rfl
  have hline : (lineIf f true).length = (FastWriter.newline f).length := rfl
  have hbrace : (ascii [' ', '{']).length = 2 := rfl
  simp only [groupBegin, List.length_append]
  omega

/-- The copy has at most an empty line less, where the original has a variable before it. -/
theorem length_text_le : ∀ (nodes : DbNodes) (insert : ℕ) (lastWasVar copyLastWasVar : Bool),
    (text f dbflags nodes insert lastWasVar).length ≤
      (text f dbflags (nodeDup nodes) insert copyLastWasVar).length +
        (lineIf f (has dbflags flagsWriteSubgroups && (lastWasVar && !copyLastWasVar))).length
  | .nil, _, _, _ => Nat.zero_le _
  | .group nodeFlags name children next, insert, lastWasVar, copyLastWasVar => by
      rw [nodeDup]
      cases hsub : has dbflags flagsWriteSubgroups with
      | false =>
          rw [text_group_subgroups _ _ _ _ _ not_volatile_zero hsub]
          have ih := length_text_le next insert false false
          rw [hsub] at ih
          cases hvolatile : has nodeFlags nodeFlagsVolatile with
          | true => rwa [text_group_volatile _ _ _ _ _ hvolatile,
              text_subgroups hsub next insert lastWasVar false]
          | false => rwa [text_group_subgroups _ _ _ _ _ hvolatile hsub]
      | true =>
          rw [text_group _ _ _ _ _ not_volatile_zero hsub, nodeDup_eq_nil]
          simp only [List.length_append]
          cases hvolatile : has nodeFlags nodeFlagsVolatile with
          | true =>
              have ih := length_text_le next insert lastWasVar false
              have hline := @length_lineIf_lt f dbflags insert name.bytes
                (has dbflags flagsWriteSubgroups && (lastWasVar && !false))
              rw [text_group_volatile _ _ _ _ _ hvolatile]
              omega
          | false =>
              have ihc := length_text_le children (insert + 2) false false
              have ihn := length_text_le next insert false false
              have hnone := @length_missing f (has dbflags flagsWriteSubgroups) false false id
              have hline : (lineIf f (has dbflags flagsAddGroupNewlines && lastWasVar)).length ≤
                  (lineIf f (has dbflags flagsAddGroupNewlines && copyLastWasVar)).length +
                    (lineIf f (true && (lastWasVar && !copyLastWasVar))).length := by
                cases lastWasVar <;> cases copyLastWasVar <;> simp [lineIf]
                split <;> simp
              rw [text_group _ _ _ _ _ hvolatile hsub]
              simp only [List.length_append]
              omega
  | .var nodeFlags name values next, insert, lastWasVar, copyLastWasVar => by
      rw [nodeDup, text_var _ _ _ _ _ not_volatile_zero, List.length_append]
      cases hvolatile : has nodeFlags nodeFlagsVolatile with
      | true =>
          have ih := length_text_le next insert lastWasVar true
          have hnone := @length_missing f (has dbflags flagsWriteSubgroups) lastWasVar true
            fun _ => rfl
          rw [text_var_volatile _ _ _ _ _ hvolatile]
          omega
      | false =>
          have ih := length_text_le next insert true true
          have hnone := @length_missing f (has dbflags flagsWriteSubgroups) true true id
          rw [text_var _ _ _ _ _ hvolatile, List.length_append]
          omega

/-- Where lines differ the text of the copy is longer. -/
theorem length_text_lt : ∀ (nodes : DbNodes) (insert : ℕ) (lastWasVar copyLastWasVar : Bool),
    (has dbflags flagsWriteSubgroups = true → lastWasVar = true → copyLastWasVar = true) →
    ¬ SameLines dbflags nodes lastWasVar copyLastWasVar →
      (text f dbflags nodes insert lastWasVar).length <
        (text f dbflags (nodeDup nodes) insert copyLastWasVar).length
  | .nil, _, _, _, _, h => absurd trivial h
  | .group nodeFlags name children next, insert, lastWasVar, copyLastWasVar, hle, h => by
      rw [nodeDup]
      unfold SameLines at h
      cases hsub : has dbflags flagsWriteSubgroups with
      | false =>
          have hnot : ¬ (has dbflags flagsWriteSubgroups = true) := by
            rw [hsub]
            exact Bool.false_ne_true
          rw [text_group_subgroups _ _ _ _ _ not_volatile_zero hsub]
          cases hvolatile : has nodeFlags nodeFlagsVolatile with
          | true =>
              rw [if_pos hvolatile] at h
              rw [text_group_volatile _ _ _ _ _ hvolatile,
                text_subgroups hsub (nodeDup next) insert false copyLastWasVar]
              exact length_text_lt next insert _ _ hle fun hn => h ⟨hsub, hn⟩
          | false =>
              rw [if_neg (by rw [hvolatile]; decide)] at h
              rw [text_group_subgroups _ _ _ _ _ hvolatile hsub]
              exact length_text_lt next insert _ _ (fun hs => absurd hs hnot) fun hn =>
                h ⟨fun hs => absurd hs hnot, hn⟩
      | true =>
          rw [text_group _ _ _ _ _ not_volatile_zero hsub, nodeDup_eq_nil]
          simp only [List.length_append]
          cases hvolatile : has nodeFlags nodeFlagsVolatile with
          | true =>
              have hnext := @length_text_le f dbflags next insert lastWasVar false
              have hline := @length_lineIf_lt f dbflags insert name.bytes
                (has dbflags flagsWriteSubgroups && (lastWasVar && !false))
              rw [text_group_volatile _ _ _ _ _ hvolatile]
              omega
          | false =>
              rw [if_neg (by rw [hvolatile]; decide)] at h
              have hchildren := @length_text_le f dbflags children (insert + 2) false false
              have hnext := @length_text_le f dbflags next insert false false
              have hnone := @length_missing f (has dbflags flagsWriteSubgroups) false false id
              have hline := @length_lineIf_le f (has dbflags flagsAddGroupNewlines && lastWasVar)
                (has dbflags flagsAddGroupNewlines && copyLastWasVar) fun hl => by
                  rw [Bool.and_eq_true] at hl ⊢
                  exact ⟨hl.1, hle hsub hl.2⟩
              rw [text_group _ _ _ _ _ hvolatile hsub]
              simp only [List.length_append]
              by_cases hn : SameLines dbflags next false false
              · by_cases hc : SameLines dbflags children false false
                · have hdiff : ¬ (has dbflags flagsAddGroupNewlines = true →
                      lastWasVar = copyLastWasVar) := fun hl => h ⟨fun _ => ⟨hl, hc⟩, hn⟩
                  obtain ⟨hadd, hne⟩ := Classical.not_imp.mp hdiff
                  have hpos := length_newline_pos f
                  have hbefore : (lineIf f (has dbflags flagsAddGroupNewlines &&
                      lastWasVar)).length + (FastWriter.newline f).length ≤
                      (lineIf f (has dbflags flagsAddGroupNewlines && copyLastWasVar)).length := by
                    have hlast := hle hsub
                    rw [hadd]
                    cases lastWasVar <;> cases copyLastWasVar <;> simp_all [lineIf]
                  omega
                · have := length_text_lt children (insert + 2) false false (fun _ => id) hc
                  omega
              · have := length_text_lt next insert false false (fun _ => id) hn
                omega
  | .var nodeFlags name values next, insert, lastWasVar, copyLastWasVar, hle, h => by
      rw [nodeDup, text_var _ _ _ _ _ not_volatile_zero, List.length_append]
      unfold SameLines at h
      cases hvolatile : has nodeFlags nodeFlagsVolatile with
      | true =>
          rw [if_pos hvolatile] at h
          rw [text_var_volatile _ _ _ _ _ hvolatile]
          by_cases hvalues : ∀ v ∈ values, valueText dbflags v = none
          · have := length_text_lt next insert lastWasVar true (fun _ _ => rfl) fun hn =>
              h ⟨hvalues, hn⟩
            omega
          · have hpos := @length_valuesText_pos f dbflags insert name.bytes values hvalues
            have hnext := @length_text_le f dbflags next insert lastWasVar true
            have hnone := @length_missing f (has dbflags flagsWriteSubgroups) lastWasVar true
              fun _ => rfl
            omega
      | false =>
          rw [if_neg (by rw [hvolatile]; decide)] at h
          have := length_text_lt next insert true true (fun _ => id) h
          rw [text_var _ _ _ _ _ hvolatile, List.length_append]
          omega

/-- The text of a copy is that of the original exactly when all volatile nodes are such that they
would not be written for the copy. -/
theorem writeToBuffer_groupDup_iff (children : DbNodes) (dbflags : UInt32) :
    writeToBuffer (groupDup children) [] dbflags = writeToBuffer children [] dbflags ↔
      SameLines dbflags children false false := by
  unfold groupDup
  rw [writeToBuffer_text, writeToBuffer_text]
  constructor
  · intro h
    by_contra hne
    have hlt :=
      @length_text_lt (bufferFlags dbflags) dbflags children 0 false false (fun _ => id) hne
    rw [(Prod.mk.inj h).2] at hlt
    exact lt_irrefl _ hlt
  · intro h
    rw [text_same children 0 false false h]

/-- A volatile variable with a value is written for the copy only. -/
theorem not_writeToBuffer_groupDup_volatile :
    writeToBuffer (groupDup (.var nodeFlagsVolatile (CString.ofBytes (ascii ['a'])) [.int 1] .nil))
        [] flagsDefault ≠
      writeToBuffer (.var nodeFlagsVolatile (CString.ofBytes (ascii ['a'])) [.int 1] .nil)
        [] flagsDefault := by
  decide

end
end Gwenhywfar.Db
