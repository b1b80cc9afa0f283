import Gwenhywfar.Parser.DbVars

/-! # Numbers in the groups of a `GWEN_DB`

* `getIntValue`: `GWEN_DB_GetIntValue`.
* `Store`: groups and numbers that are found by plain names.  They are still found when another
  number is set (`Store.putInt`) and when a group is looked for (`Store.getGroup`). -/

namespace Gwenhywfar.Db

open Gwenhywfar.Path

/-- The number that a value denotes. -/
def intOf (defVal : Int32) : DbValue → Int32
  | .int v => v
  | .char s => (scanInt s.bytes).getD defVal
  | _ => defVal

/-- `GWEN_DB_GetIntValue`, for the first value. -/
def getIntValue (h : DbHeap) (n : ℕ) (path : CString) (defVal : Int32) : Int32 :=
  ((resolve h n path).bind fun nn => (values h nn).head?).elim defVal (intOf defVal)

/-- `GWEN_DB_SetIntValue`, for a number that takes the place of other values. -/
def putInt (h : DbHeap) (n : ℕ) (path : CString) (val : Int32) : DbHeap :=
  (setIntValue h n flagsOverwriteVars path val).2

section
variable {h h' : DbHeap} {n a b g db : ℕ} {name name' : CString} {v : DbValue}

/-! ### Names -/

theorem strcaseEq_trans {s t u : CString} (h1 : strcaseEq s t = true) (h2 : strcaseEq s u = true) :
    strcaseEq t u = true := by
  rw [strcaseEq_iff] at h1 h2 ⊢
  rw [← h1, h2]

theorem dataName_find {isVariable : Bool} (hf : find h n isVariable name 0 = some a) :
    strcaseEq (h.node a).dataName name = true := by
  rw [find_eq] at hf
  split at hf
  · exact findNode_name hf
  · cases hf

/-! ### A group or a variable of a plain name -/

/-- A name of plain characters. -/
structure IsPlain (name : CString) : Prop where
  plain : ∀ c ∈ name.bytes, isPlainChar c = true
  ne_nil : name.bytes ≠ []

def FindsGroups (flags : UInt32) : Prop := flags = flagsDefault ∨ flags = flagsNameMustExist

def groupFlags (flags : UInt32) : UInt32 :=
  elementFlags (flags &&& ~~~flagsVariable) false true false

theorem has_groupFlags {flags : UInt32} (hflags : FindsGroups flags) :
    has (groupFlags flags) flagsVariable = false := by
  rcases hflags with rfl | rfl <;> decide

/-- The group is taken, or it is created where it need not exist. -/
theorem handlePath_group {flags : UInt32} (hflags : FindsGroups flags) (h : DbHeap) (n : ℕ)
    (name : CString) : handlePath name.bytes n 0 (groupFlags flags) h =
      (findGroup h n name 0).elim
        (if flags = flagsDefault then (some h.size, createNode (groupFlags flags) h n name)
          else (none, h))
        fun g => (some g, h) := by
  have hvar := has_groupFlags hflags
  have hcreate : (has (groupFlags flags) flagsLast &&
      (has (groupFlags flags) flagsVariable && has (groupFlags flags) flagsCreateVar ||
        !has (groupFlags flags) flagsVariable && has (groupFlags flags) flagsCreateGroup) ||
      !has (groupFlags flags) flagsLast && has (groupFlags flags) flagsPathCreate) = false := by
    rcases hflags with rfl | rfl <;> decide
  have hmustNot : (has (groupFlags flags) flagsLast &&
        has (groupFlags flags) flagsNameMustNotExist ||
      !has (groupFlags flags) flagsLast && has (groupFlags flags) flagsPathMustNotExist) =
        false := by
    rcases hflags with rfl | rfl <;> decide
  have hmust : (!has (groupFlags flags) flagsLast && has (groupFlags flags) flagsPathMustExist ||
      has (groupFlags flags) flagsNameMustExist) = decide (flags ≠ flagsDefault) := by
    rcases hflags with rfl | rfl <;> decide
  rw [handlePath, hcreate, if_neg Bool.false_ne_true, hvar, if_neg Bool.false_ne_true,
    CString.ofBytes_eq]
  cases findGroup h n name 0 with
  | none =>
      dsimp only
      rw [hmust, Option.elim_none]
      by_cases hd : flags = flagsDefault
      · rw [if_neg (by simpa using hd), if_neg (not_not_intro rfl), if_pos hd]
      · rw [if_pos (by simpa using hd), if_neg hd]
  | some g =>
      dsimp only
      rw [hmustNot, if_neg Bool.false_ne_true, Option.elim_some]

theorem getNode_group {flags : UInt32} (hflags : FindsGroups flags) (hname : IsPlain name)
    (h : DbHeap) (n : ℕ) : getNode h n name (flags &&& ~~~flagsVariable) =
      handlePath name.bytes n 0 (groupFlags flags) h := by
  obtain ⟨hbytes, -⟩ := elementsOf_plain hname.plain hname.ne_nil
  obtain ⟨c, s, hs⟩ := List.exists_cons_of_ne_nil hname.ne_nil
  have hslash : ∀ c ∈ name.bytes, (!isSlash c) = true := by
    intro c hc
    have hplain := hname.plain c hc
    simp only [isPlainChar, Bool.and_eq_true] at hplain
    exact hplain.1.1.2
  have hindex : code '[' ∉ name.bytes := fun hmem =>
    absurd (hname.plain _ hmem) (by decide)
  have hscan := Scan.all (fun c => !isSlash c) name.bytes hslash
  obtain ⟨hroot, hnoIdx, hvar⟩ : has (flags &&& ~~~flagsVariable) flagsCheckRoot = false ∧
      has (flags &&& ~~~flagsVariable) flagsNoIdx = false ∧
      has (flags &&& ~~~flagsVariable) flagsVariable = false := by
    rcases hflags with rfl | rfl <;> decide
  have hescape : has (groupFlags flags) flagsEscape = false := by
    rcases hflags with rfl | rfl <;> decide
  rw [getNode, handleWithIdx, hroot, Bool.false_and, ← elementsOf, hbytes, hs,
    List.length_cons, handleLoop, ← hs]
  dsimp only
  rw [hscan.1, hscan.2, hnoIdx, if_neg Bool.false_ne_true, if_neg Bool.false_ne_true,
    List.nil_append, splitIndex, if_neg hindex]
  dsimp only
  rw [hvar, List.dropWhile_nil, if_neg (fun h => h.1 rfl), beq_self_eq_true,
    Bool.and_false, ← groupFlags, convert, hescape, Bool.and_false, if_neg Bool.false_ne_true]
  cases handlePath name.bytes n 0 (groupFlags flags) h with
  | mk r h' =>
      cases r with
      | none => rfl
      | some g =>
          dsimp only
          rw [handleLoop]

theorem getGroup_plain {flags : UInt32} (hflags : FindsGroups flags) (hname : IsPlain name)
    (h : DbHeap) (n : ℕ) : getGroup h n flags name = (findGroup h n name 0).elim
      (if flags = flagsDefault then (some h.size, createNode (groupFlags flags) h n name)
        else (none, h))
      fun g => (some g, h) := by
  have hover : has flags flagsOverwriteGroups = false := by
    rcases hflags with rfl | rfl <;> decide
  rw [getGroup, getNode_group hflags hname, handlePath_group hflags]
  cases findGroup h n name 0 with
  | none =>
      rw [Option.elim_none]
      by_cases hd : flags = flagsDefault
      · rw [if_pos hd]
        dsimp only
        rw [hover, if_neg Bool.false_ne_true]
      · rw [if_neg hd]
  | some g =>
      rw [Option.elim_some]
      dsimp only
      rw [hover, if_neg Bool.false_ne_true]

/-! ### What is found -/

def HasValue (h : DbHeap) (n : ℕ) (name : CString) (v : DbValue) : Prop :=
  ∃ a, find h n true name 0 = some a ∧ values h a = [v]

/-- Numbers are found in groups, and groups are found in the group `db`. -/
structure Store (h : DbHeap) (db : ℕ) (groups : List (CString × ℕ))
    (facts : List (ℕ × CString × Int32)) : Prop where
  wf : Wf h
  lt : db < h.size
  typ : (h.node db).typ = .group
  groups_found : ∀ p ∈ groups, find h db false p.1 0 = some p.2
  group_lt : ∀ p ∈ facts, p.1 < h.size
  facts_found : ∀ p ∈ facts, HasValue h p.1 p.2.1 (.int p.2.2)

theorem HasValue.grows (hv : HasValue h n name v) (hwf : Wf h) (hn : n < h.size)
    (hg : Grows a h h') (ha : strcaseEq (h'.node a).dataName name' = true)
    (hname : strcaseEq name name' = false) : HasValue h' n name v := by
  obtain ⟨b, hb, hvalues⟩ := hv
  obtain ⟨hmem, htyp⟩ := find_spec hb
  have hlt := hwf n hn b hmem
  obtain ⟨-, hsame⟩ := hg.same b hlt
  have hne : b ≠ a := by
    rintro rfl
    rw [hsame] at ha
    have heq := strcaseEq_trans (dataName_find hb) ha
    rw [hname] at heq
    cases heq
  have hvar : (h.node b).typ ≠ .group := by
    rw [htyp]
    decide
  exact ⟨b, hg.found n hn hb, (hg.values hwf hlt hvar hne).trans hvalues⟩

/-- A number that is set takes the place of the other values of its variable. -/
theorem putInt_grows (hname : IsPlain name) (hwf : Wf h) (hn : n < h.size)
    (htyp : (h.node n).typ = .group) (val : Int32) : ∃ a, Wf (putInt h n name val) ∧
      Grows a h (putInt h n name val) ∧
      strcaseEq ((putInt h n name val).node a).dataName name = true ∧
      HasValue (putInt h n name val) n name (.int val) := by
  have hf : PlainFlags flagsOverwriteVars := ⟨by decide, by decide, by decide, by decide⟩
  obtain ⟨hbytes, -⟩ := elementsOf_plain hname.plain hname.ne_nil
  have hread : ReadsPlainly flagsOverwriteVars name :=
    ⟨fun h => absurd h (by decide), fun h => absurd h (by decide), by
      rw [← elementsOf, hbytes]
      exact hname.ne_nil⟩
  obtain ⟨el, -, -, hnode⟩ := getNode_plain hname.plain hname.ne_nil (Or.inr rfl) h n
  obtain ⟨a, h₁, hnode⟩ : ∃ a h₁, getNode h n name (flagsOverwriteVars ||| flagsVariable) =
      (some a, h₁) := by
    rw [hnode]
    cases findVar h n name 0 with
    | none => exact ⟨_, _, rfl⟩
    | some a => exact ⟨_, _, rfl⟩
  have hput : putInt h n name val = addValue flagsOverwriteVars h₁ a (.int val) := by
    rw [putInt, setIntValue, setValue, hnode]
    rfl
  have hreach := getNode_spec hf hread hwf hn htyp hnode
  obtain ⟨hwf', hgrows, hvalues⟩ :=
    @addValue_grows h₁ a flagsOverwriteVars (.int val) hreach.wf hreach.lt hreach.typ
  have hover : has flagsOverwriteVars flagsOverwriteVars = true := by decide
  rw [hover, if_pos rfl] at hvalues
  have hall := hreach.grows.trans hgrows
  have hfound : find (addValue flagsOverwriteVars h₁ a (.int val)) n true name 0 = some a := by
    obtain ⟨hlookup, -⟩ := hgrows.lookup hreach.wf (hn.trans_le hreach.grows.size) hreach.found
    rw [← resolve_eq, resolve_plain hname.plain hname.ne_nil] at hlookup
    exact hlookup
  rw [hput]
  exact ⟨a, hwf', hall, dataName_find hfound, a, hfound, hvalues⟩

variable {groups : List (CString × ℕ)} {facts : List (ℕ × CString × Int32)} {val defVal : Int32}

theorem Store.putInt (st : Store h db groups facts) (hname : IsPlain name)
    (hn : n = db ∨ ∃ p ∈ groups, p.2 = n)
    (hfresh : ∀ p ∈ facts, strcaseEq p.2.1 name = false) (val : Int32) :
    Store (Db.putInt h n name val) db groups ((n, name, val) :: facts) := by
  obtain ⟨hlt, htyp⟩ : n < h.size ∧ (h.node n).typ = .group := by
    rcases hn with rfl | ⟨p, hp, rfl⟩
    · exact ⟨st.lt, st.typ⟩
    · obtain ⟨hmem, htyp⟩ := find_spec (st.groups_found p hp)
      exact ⟨st.wf db st.lt p.2 hmem, htyp⟩
  obtain ⟨a, hwf, hgrows, ha, hvalue⟩ := putInt_grows hname st.wf hlt htyp val
  refine ⟨hwf, st.lt.trans_le hgrows.size, (hgrows.same db st.lt).1.trans st.typ,
    fun p hp => hgrows.found db st.lt (st.groups_found p hp), ?_, ?_⟩
  · rw [List.forall_mem_cons]
    exact ⟨hlt.trans_le hgrows.size, fun p hp => (st.group_lt p hp).trans_le hgrows.size⟩
  · rw [List.forall_mem_cons]
    exact ⟨hvalue, fun p hp =>
      (st.facts_found p hp).grows st.wf (st.group_lt p hp) hgrows ha (hfresh p hp)⟩

theorem Store.grows (st : Store h db groups facts) (hwf : Wf h') (hg : Grows h.size h h') :
    Store h' db groups facts := by
  refine ⟨hwf, st.lt.trans_le hg.size, (hg.same db st.lt).1.trans st.typ,
    fun p hp => hg.found db st.lt (st.groups_found p hp),
    fun p hp => (st.group_lt p hp).trans_le hg.size, fun p hp => ?_⟩
  obtain ⟨b, hb, hvalues⟩ := st.facts_found p hp
  obtain ⟨hmem, htyp⟩ := find_spec hb
  have hlt := st.wf p.1 (st.group_lt p hp) b hmem
  have hvar : (h.node b).typ ≠ .group := by
    rw [htyp]
    decide
  exact ⟨b, hg.found p.1 (st.group_lt p hp) hb,
    (hg.values st.wf hlt hvar (Nat.ne_of_lt hlt)).trans hvalues⟩

theorem Store.getGroup (st : Store h db groups facts) (hname : IsPlain name) :
    ∃ g h', Db.getGroup h db flagsDefault name = (some g, h') ∧
      Store h' db ((name, g) :: groups) facts := by
  have hdefault : FindsGroups flagsDefault := Or.inl rfl
  have hvar := has_groupFlags hdefault
  rw [getGroup_plain hdefault hname]
  cases hfind : findGroup h db name 0 with
  | some g =>
      refine ⟨g, h, rfl, { st with groups_found := ?_ }⟩
      rw [List.forall_mem_cons]
      exact ⟨hfind, st.groups_found⟩
  | none =>
      have hnone : find h db (has (groupFlags flagsDefault) flagsVariable) name 0 = none := by
        rw [hvar]
        exact hfind
      obtain ⟨hwf, hgrows, hfound⟩ :=
        @createNode_grows h db h.size name (groupFlags flagsDefault) st.wf st.lt st.typ hnone
      rw [hvar] at hfound
      have st' := st.grows hwf hgrows
      refine ⟨h.size, createNode (groupFlags flagsDefault) h db name,
        by rw [Option.elim_none, if_pos rfl], { st' with groups_found := ?_ }⟩
      rw [List.forall_mem_cons]
      exact ⟨hfound, st'.groups_found⟩

theorem Store.getInt (st : Store h db groups facts) (hname : IsPlain name)
    (hmem : (n, name, val) ∈ facts) : getIntValue h n name defVal = val := by
  obtain ⟨a, ha, hvalues⟩ := st.facts_found _ hmem
  have hresolve : resolve h n name = some a := by
    rw [resolve_plain hname.plain hname.ne_nil]
    exact ha
  unfold getIntValue
  rw [hresolve, Option.bind_some, hvalues]
  rfl

theorem Store.readGroup (st : Store h db groups facts) (hname : IsPlain name)
    (hmem : (name, g) ∈ groups) : Db.getGroup h db flagsNameMustExist name = (some g, h) := by
  have hfind : findGroup h db name 0 = some g := st.groups_found _ hmem
  rw [getGroup_plain (Or.inr rfl) hname, hfind, Option.elim_some]

end
end Gwenhywfar.Db
