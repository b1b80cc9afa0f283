import Gwenhywfar.Lib.Scan
import Gwenhywfar.Parser.DbHeap

/-! # Reading over writing through paths

* `Grows a h h'`: nodes were added, and of the old ones only the variable `a` has other values.
  What was found before is found afterwards (`Grows.lookup`).
* `handleLoop_spec`: a variable that is found or created at a path is found there afterwards.
* `set_get`: the law for the functions that set a value. -/

namespace Gwenhywfar.Db

open Gwenhywfar.Path Text Function
open CString (ofBytes)

/-! ### Flags -/

/-- No node is created unconditionally, and the elements of a path are not escaped. -/
structure PlainFlags (flags : UInt32) : Prop where
  noPathCreate : has flags flagsPathCreate = false
  noCreateGroup : has flags flagsCreateGroup = false
  noCreateVar : has flags flagsCreateVar = false
  noEscape : has flags flagsEscape = false

section
variable {flags origflags : UInt32} {root last isVariable : Bool}

theorem PlainFlags.or_variable (h : PlainFlags flags) : PlainFlags (flags ||| flagsVariable) := by
  have hor : ∀ mask, has flags mask = false → has flagsVariable mask = false →
      has (flags ||| flagsVariable) mask = false := by
    intro mask h1 h2
    rw [has_or, h1, h2]
    rfl
  exact ⟨hor _ h.noPathCreate (by decide), hor _ h.noCreateGroup (by decide),
    hor _ h.noCreateVar (by decide), hor _ h.noEscape (by decide)⟩

theorem has_or_variable (flags : UInt32) : has (flags ||| flagsVariable) flagsVariable = true := by
  rw [has_or, Bool.or_eq_true]
  exact Or.inr (by decide)

theorem plainFlags_lookupFlags : PlainFlags lookupFlags :=
  ⟨by decide, by decide, by decide, by decide⟩

theorem has_elementFlags (mask : UInt32)
    (hmask : ~~~(flagsInternal ||| flagsVariable) &&& mask = mask)
    (hroot : has flagsRoot mask = false) (hlast : has flagsLast mask = false)
    (hvariable : has flagsVariable mask = false) :
    has (elementFlags origflags root last isVariable) mask = has origflags mask := by
  have hzero : has 0 mask = false := by
    rw [has, UInt32.zero_and]
    rfl
  rw [elementFlags, has_or, has_or, has_or, has_and_of_sub hmask]
  cases root <;> cases last <;> cases isVariable <;>
    simp only [if_true, if_false, Bool.false_eq_true, hroot, hlast, hvariable, hzero, Bool.or_false]

theorem has_elementFlags_last :
    has (elementFlags origflags root last isVariable) flagsLast = last := by
  rw [elementFlags, has_or, has_or, has_or, has_and_of_disjoint (by decide)]
  cases root <;> cases last <;> cases isVariable <;> decide

theorem has_elementFlags_variable :
    has (elementFlags origflags root last isVariable) flagsVariable = isVariable := by
  rw [elementFlags, has_or, has_or, has_or, has_and_of_disjoint (by decide)]
  cases root <;> cases last <;> cases isVariable <;> decide

end

/-! ### Finding nodes -/

section
variable {h h' h'' : DbHeap} {n a b m x : ℕ} {typ : DbNodeType} {name : CString} {idx : Int32}
  {flags : UInt32} {nodes : List ℕ}

theorem findNode_mem : ∀ {nodes : List ℕ} {idx : Int32}, findNode h typ name nodes idx = some m →
    m ∈ nodes ∧ (h.node m).typ = typ
  | [], _, hf => by cases hf
  | nn :: nodes, idx, hf => by
      rw [findNode] at hf
      split at hf
      · next hm =>
          split at hf
          · obtain rfl := Option.some.inj hf
            exact ⟨List.mem_cons_self, hm.1⟩
          · have ih := findNode_mem hf
            exact ⟨List.mem_cons_of_mem _ ih.1, ih.2⟩
      · have ih := findNode_mem hf
        exact ⟨List.mem_cons_of_mem _ ih.1, ih.2⟩

theorem findNode_name : ∀ {nodes : List ℕ} {idx : Int32}, findNode h typ name nodes idx = some m →
    strcaseEq (h.node m).dataName name = true
  | [], _, hf => by cases hf
  | nn :: nodes, idx, hf => by
      rw [findNode] at hf
      split at hf
      · next hm =>
          split at hf
          · exact Option.some.inj hf ▸ hm.2
          · exact findNode_name hf
      · exact findNode_name hf

theorem findNode_zero_none : ∀ {nodes : List ℕ}, findNode h typ name nodes 0 = none →
    ∀ nn ∈ nodes, ¬ ((h.node nn).typ = typ ∧ strcaseEq (h.node nn).dataName name = true)
  | [], _ => nofun
  | nn :: nodes, hf => by
      rw [findNode] at hf
      split at hf
      · rw [if_pos rfl] at hf
        cases hf
      · next hm => exact List.forall_mem_cons.mpr ⟨hm, findNode_zero_none hf⟩

theorem findNode_none : ∀ {nodes : List ℕ} {idx : Int32},
    (∀ nn ∈ nodes, ¬ ((h.node nn).typ = typ ∧ strcaseEq (h.node nn).dataName name = true)) →
    findNode h typ name nodes idx = none
  | [], _, _ => rfl
  | nn :: nodes, idx, hall => by
      rw [findNode, if_neg (hall nn List.mem_cons_self)]
      exact findNode_none fun nn hnn => hall nn (List.mem_cons_of_mem _ hnn)

theorem findNode_congr : ∀ {nodes : List ℕ} {idx : Int32},
    (∀ nn ∈ nodes, (h'.node nn).typ = (h.node nn).typ ∧
      (h'.node nn).dataName = (h.node nn).dataName) →
    findNode h' typ name nodes idx = findNode h typ name nodes idx
  | [], _, _ => rfl
  | nn :: nodes, idx, hall => by
      obtain ⟨htyp, hname⟩ := hall nn List.mem_cons_self
      have ih := fun idx =>
        @findNode_congr nodes idx fun nn hnn => hall nn (List.mem_cons_of_mem _ hnn)
      rw [findNode, findNode, htyp, hname, ih, ih]

theorem findNode_append : ∀ {nodes : List ℕ} {idx : Int32} (nodes' : List ℕ),
    findNode h typ name nodes idx = some m → findNode h typ name (nodes ++ nodes') idx = some m
  | [], _, _, hf => by cases hf
  | nn :: nodes, idx, nodes', hf => by
      rw [findNode] at hf
      rw [List.cons_append, findNode]
      split at hf
      · next hm =>
          rw [if_pos hm]
          split at hf
          · next h0 => rw [if_pos h0, hf]
          · next h0 => rw [if_neg h0, findNode_append nodes' hf]
      · next hm => rw [if_neg hm, findNode_append nodes' hf]

/-- `GWEN_DB_FindVar` or `GWEN_DB_FindGroup`. -/
def find (h : DbHeap) (n : ℕ) (isVariable : Bool) (name : CString) (idx : Int32) : Option ℕ :=
  if isVariable then findVar h n name idx else findGroup h n name idx

def wanted (isVariable : Bool) : DbNodeType := if isVariable then .var else .group

theorem find_eq (isVariable : Bool) : find h n isVariable name idx =
    if (h.node n).typ = .group then findNode h (wanted isVariable) name (h.node n).children idx
    else none := by
  cases isVariable <;> rfl

theorem wanted_inj {v w : Bool} (hw : wanted v = wanted w) : v = w := by
  cases v <;> cases w <;> first | rfl | cases hw

/-! ### Growing -/

def Wf (h : DbHeap) : Prop := ∀ x < h.size, ∀ c ∈ (h.node x).children, c < h.size

/-- Nodes were added, and the old nodes are found as before.  Of the old nodes that are no groups
only `a` has got other children. -/
structure Grows (a : ℕ) (h h' : DbHeap) : Prop where
  size : h.size ≤ h'.size
  same : ∀ x < h.size, (h'.node x).typ = (h.node x).typ ∧ (h'.node x).dataName = (h.node x).dataName
  found : ∀ x < h.size, ∀ {isVariable name idx m}, find h x isVariable name idx = some m →
    find h' x isVariable name idx = some m
  kept : ∀ x < h.size, (h.node x).typ ≠ .group → x ≠ a →
    (h'.node x).children = (h.node x).children

theorem Grows.refl (a : ℕ) (h : DbHeap) : Grows a h h :=
  ⟨le_rfl, fun _ _ => ⟨rfl, rfl⟩, fun _ _ _ _ _ _ hf => hf, fun _ _ _ _ => rfl⟩

theorem Grows.trans (h₁ : Grows a h h') (h₂ : Grows a h' h'') : Grows a h h'' where
  size := h₁.size.trans h₂.size
  same := fun x hx => by
    obtain ⟨ht, hn⟩ := h₁.same x hx
    obtain ⟨ht', hn'⟩ := h₂.same x (hx.trans_le h₁.size)
    exact ⟨ht'.trans ht, hn'.trans hn⟩
  found := fun x hx _ _ _ _ hf => h₂.found x (hx.trans_le h₁.size) (h₁.found x hx hf)
  kept := fun x hx ht hne => by
    rw [h₂.kept x (hx.trans_le h₁.size) (by rw [(h₁.same x hx).1]; exact ht) hne,
      h₁.kept x hx ht hne]

theorem Grows.values (hg : Grows a h h') (hwf : Wf h) (hx : x < h.size)
    (ht : (h.node x).typ ≠ .group) (hne : x ≠ a) : values h' x = values h x := by
  rw [Db.values, Db.values, hg.kept x hx ht hne]
  refine List.filterMap_congr fun c hc => ?_
  rw [valueOf, valueOf, (hg.same c (hwf x hx c hc)).1]

/-! ### Creating a node -/

theorem node_link (h : DbHeap) (hn : n ≠ m) (children : List ℕ) (x : ℕ) :
    ((setParent (setChildren h n children) m n).node x).typ = (h.node x).typ ∧
      ((setParent (setChildren h n children) m n).node x).dataName = (h.node x).dataName ∧
      ((setParent (setChildren h n children) m n).node x).children =
        if x = n then children else (h.node x).children := by
  rw [setParent, setChildren]
  by_cases hxm : x = m
  · subst hxm
    simp [hn.symm]
  · by_cases hxn : x = n
    · subst hxn
      simp [update_of_ne hn]
    · simp [update_of_ne hxm, hxn]

theorem node_nodeAdd (flags : UInt32) (h : DbHeap) (hn : n ≠ m) (x : ℕ) :
    ((nodeAdd flags h n m).node x).typ = (h.node x).typ ∧
      ((nodeAdd flags h n m).node x).dataName = (h.node x).dataName ∧
      ((nodeAdd flags h n m).node x).children =
        if x = n then
          if has flags flagsInsert then m :: (h.node n).children else (h.node n).children ++ [m]
        else (h.node x).children := by
  rw [nodeAdd]
  by_cases hi : has flags flagsInsert = true
  · rw [if_pos hi, if_pos hi]
    exact node_link h hn _ x
  · rw [if_neg hi, if_neg hi]
    exact node_link h hn _ x

theorem size_nodeAdd (flags : UInt32) (h : DbHeap) (n m : ℕ) :
    (nodeAdd flags h n m).size = h.size := by
  rw [nodeAdd]
  split <;> rfl

theorem size_createNode : (createNode flags h n name).size = h.size + 1 := size_nodeAdd ..

theorem node_newNode (hx : x < h.size) : (newNode h typ name).node x = h.node x :=
  update_of_ne (Nat.ne_of_lt hx) ..

theorem node_newNode_size : (newNode h typ name).node h.size = ⟨typ, name, [], none⟩ :=
  update_self ..

theorem createNode_old (hn : n < h.size) (hx : x < h.size) :
    ((createNode flags h n name).node x).typ = (h.node x).typ ∧
      ((createNode flags h n name).node x).dataName = (h.node x).dataName ∧
      ((createNode flags h n name).node x).children =
        if x = n then
          if has flags flagsInsert then h.size :: (h.node n).children
          else (h.node n).children ++ [h.size]
        else (h.node x).children := by
  have hall := node_nodeAdd flags
    (newNode h (if has flags flagsVariable then .var else .group) name) (Nat.ne_of_lt hn) x
  rwa [node_newNode hx, node_newNode hn] at hall

theorem createNode_new (hn : n < h.size) :
    ((createNode flags h n name).node h.size).typ = wanted (has flags flagsVariable) ∧
      ((createNode flags h n name).node h.size).dataName = name ∧
      ((createNode flags h n name).node h.size).children = [] := by
  have hall := node_nodeAdd flags
    (newNode h (if has flags flagsVariable then .var else .group) name) (Nat.ne_of_lt hn) h.size
  rwa [if_neg (Nat.ne_of_gt hn), node_newNode_size] at hall

theorem strcaseEq_self (s : CString) : strcaseEq s s = true := strcaseEq_iff.mpr rfl

theorem createNode_grows (hwf : Wf h) (hn : n < h.size) (hgroup : (h.node n).typ = .group)
    (hnone : find h n (has flags flagsVariable) name 0 = none) :
    Wf (createNode flags h n name) ∧ Grows a h (createNode flags h n name) ∧
      find (createNode flags h n name) n (has flags flagsVariable) name 0 = some h.size := by
  rw [find_eq, if_pos hgroup] at hnone
  have hno := findNode_zero_none hnone
  obtain ⟨htyp, hname, hchildren⟩ := @createNode_new h n name flags hn
  have hold := fun c (hc : c < h.size) => @createNode_old h n c name flags hn hc
  have hcongr : ∀ x < h.size, ∀ typ name' idx,
      findNode (createNode flags h n name) typ name' (h.node x).children idx =
        findNode h typ name' (h.node x).children idx := fun x hx typ name' idx =>
    findNode_congr fun c hc => ⟨(hold c (hwf x hx c hc)).1, (hold c (hwf x hx c hc)).2.1⟩
  have hmatch : ((createNode flags h n name).node h.size).typ = wanted (has flags flagsVariable) ∧
      strcaseEq ((createNode flags h n name).node h.size).dataName name = true := by
    rw [htyp, hname]
    exact ⟨rfl, strcaseEq_self name⟩
  refine ⟨?_, ⟨?_, fun x hx => ⟨(hold x hx).1, (hold x hx).2.1⟩, ?_, ?_⟩, ?_⟩
  · intro x hx c hc
    rw [size_createNode] at hx ⊢
    rcases Nat.lt_succ_iff_lt_or_eq.mp hx with hx | rfl
    · rw [(hold x hx).2.2] at hc
      by_cases hxn : x = n
      · rw [if_pos hxn] at hc
        have hmem : c ∈ (h.node n).children ∨ c = h.size := by
          split at hc
          · exact (List.mem_cons.mp hc).symm
          · simpa using hc
        rcases hmem with hmem | rfl
        · exact Nat.lt_succ_of_lt (hwf n hn c hmem)
        · exact Nat.lt_succ_self _
      · rw [if_neg hxn] at hc
        exact Nat.lt_succ_of_lt (hwf x hx c hc)
    · rw [hchildren] at hc
      cases hc
  · rw [size_createNode]
    exact Nat.le_succ _
  · intro x hx v name' idx m hf
    rw [find_eq] at hf ⊢
    split at hf
    · next ht =>
        rw [if_pos ((hold x hx).1.trans ht), (hold x hx).2.2]
        by_cases hxn : x = n
        · subst hxn
          rw [if_pos rfl]
          split
          · rw [findNode, if_neg, hcongr x hx, hf]
            rintro ⟨hw, hname'⟩
            rw [htyp] at hw
            obtain rfl := wanted_inj hw
            have hnone' := @findNode_none h (wanted (has flags flagsVariable)) name'
              (h.node x).children idx fun c hc hm => hno c hc ⟨hm.1, ?_⟩
            · rw [hnone'] at hf
              cases hf
            · rw [hname, strcaseEq_iff] at hname'
              rw [strcaseEq_iff] at hm ⊢
              exact hm.2.trans hname'.symm
          · exact findNode_append _ ((hcongr x hx ..).trans hf)
        · rw [if_neg hxn, hcongr x hx, hf]
    · cases hf
  · intro x hx ht _
    rw [(hold x hx).2.2, if_neg]
    rintro rfl
    exact ht hgroup
  · rw [find_eq, if_pos ((hold n hn).1.trans hgroup), (hold n hn).2.2, if_pos rfl]
    split
    · rw [findNode, if_pos hmatch, if_pos rfl]
    · have hskip : ∀ nodes : List ℕ,
          (∀ c ∈ nodes, ¬ (((createNode flags h n name).node c).typ =
              wanted (has flags flagsVariable) ∧
            strcaseEq ((createNode flags h n name).node c).dataName name = true)) →
          findNode (createNode flags h n name) (wanted (has flags flagsVariable)) name
            (nodes ++ [h.size]) 0 = some h.size := by
        intro nodes
        induction nodes with
        | nil =>
            intro _
            rw [List.nil_append, findNode, if_pos hmatch, if_pos rfl]
        | cons c nodes ih =>
            intro hall
            rw [List.cons_append, findNode, if_neg (hall c List.mem_cons_self)]
            exact ih fun c hc => hall c (List.mem_cons_of_mem _ hc)
      refine hskip _ fun c hc => ?_
      rw [(hold c (hwf n hn c hc)).1, (hold c (hwf n hn c hc)).2.1]
      exact hno c hc

end

/-! ### Elements of a path -/

def nextElement (path : List UInt8) : Option (List UInt8 × Int32 × List UInt8) :=
  let behind := path.dropWhile fun c => !isSlash c
  let rest := behind.dropWhile isSlash
  if behind ≠ [] ∧ rest = [] then none
  else (splitIndex (path.takeWhile fun c => !isSlash c)).map fun e => (e.1, e.2, rest)

def ReadsIndex (flags : UInt32) (path : List UInt8) : Prop :=
  has flags flagsNoIdx = true → code '[' ∉ path

section
variable {flags : UInt32} {path rest name : List UInt8} {idx : Int32}

theorem nextElement_rest (h : nextElement path = some (name, idx, rest)) : rest.Sublist path := by
  rw [nextElement] at h
  split at h
  · cases h
  · rw [Option.map_eq_some_iff] at h
    obtain ⟨e, -, he⟩ := h
    rw [← (Prod.mk.inj (Prod.mk.inj he).2).2]
    exact (List.dropWhile_sublist _).trans (List.dropWhile_sublist _)

theorem ReadsIndex.next (hr : ReadsIndex flags path)
    (h : nextElement path = some (name, idx, rest)) : ReadsIndex flags rest :=
  fun hf hmem => hr hf ((nextElement_rest h).subset hmem)

theorem handleLoop_cons {δ σ : Type} (f : List UInt8 → δ → Int32 → UInt32 → σ → Option δ × σ)
    (hf : PlainFlags flags) (hvar : has flags flagsVariable = true) (k : ℕ) (c : UInt8)
    (hr : ReadsIndex flags (c :: path)) (data : δ) (s : σ) :
    handleLoop f flags (k + 1) (c :: path) false data s =
      (nextElement (c :: path)).elim (none, s) fun e =>
        let r := f e.1 data e.2.1 (elementFlags flags false (e.2.2 == []) (e.2.2 == [])) s
        r.1.elim (none, r.2) fun data => handleLoop f flags k e.2.2 false data r.2 := by
  have hsplit : (if has flags flagsNoIdx = true then
        some ((c :: path).takeWhile fun c => !isSlash c, (0 : Int32))
      else splitIndex ((c :: path).takeWhile fun c => !isSlash c)) =
      splitIndex ((c :: path).takeWhile fun c => !isSlash c) := by
    by_cases hn : has flags flagsNoIdx = true
    · rw [if_pos hn, splitIndex, if_neg]
      exact fun hmem => hr hn ((List.takeWhile_sublist _).subset hmem)
    · rw [if_neg hn]
  have hconvert : ∀ last element, convert (elementFlags flags false last last) false element =
      element := by
    intro last element
    rw [convert, has_elementFlags flagsEscape (by decide) (by decide) (by decide) (by decide),
      hf.noEscape, Bool.and_false, if_neg Bool.false_ne_true]
  rw [handleLoop, nextElement]
  dsimp only
  rw [if_neg Bool.false_ne_true, List.nil_append, hsplit, hvar]
  simp only [Bool.and_true, and_true]
  cases splitIndex ((c :: path).takeWhile fun c => !isSlash c) with
  | none =>
      dsimp only
      split <;> rfl
  | some e =>
      dsimp only
      rw [hconvert]
      split
      · rfl
      · rw [Option.map_some, Option.elim_some]
        dsimp only
        cases f e.1 data e.2 _ s with
        | mk r s' => cases r <;> rfl

end

/-! ### Looking up -/

section
variable {h h' : DbHeap} {n a b m x : ℕ} {name : CString} {idx : Int32} {flags : UInt32}
  {root last isVariable : Bool}

/-- The loop of `GWEN_Path_HandleWithIdx` for a path that is looked up. -/
def lookup (h : DbHeap) : ℕ → List UInt8 → ℕ → Option ℕ
  | _, [], n => some n
  | 0, _ :: _, _ => none
  | k + 1, c :: path, n =>
      (nextElement (c :: path)).bind fun e =>
        (find h n (e.2.2 == []) (ofBytes e.1) e.2.1).bind (lookup h k e.2.2)

theorem PlainFlags.not_create (hf : PlainFlags flags) (v last : Bool) :
    (has (elementFlags flags root last v) flagsLast &&
        (has (elementFlags flags root last v) flagsVariable &&
            has (elementFlags flags root last v) flagsCreateVar ||
          !has (elementFlags flags root last v) flagsVariable &&
            has (elementFlags flags root last v) flagsCreateGroup) ||
      !has (elementFlags flags root last v) flagsLast &&
        has (elementFlags flags root last v) flagsPathCreate) = false := by
  rw [has_elementFlags flagsCreateVar (by decide) (by decide) (by decide) (by decide),
    has_elementFlags flagsCreateGroup (by decide) (by decide) (by decide) (by decide),
    has_elementFlags flagsPathCreate (by decide) (by decide) (by decide) (by decide),
    hf.noCreateVar, hf.noCreateGroup, hf.noPathCreate]
  simp only [Bool.and_false, Bool.or_false]

theorem handlePath_lookup (entry : List UInt8) (h : DbHeap) :
    handlePath entry n idx (elementFlags lookupFlags root last isVariable) h =
      (find h n isVariable (ofBytes entry) idx, h) := by
  have hflag : ∀ mask, ~~~(flagsInternal ||| flagsVariable) &&& mask = mask →
      has flagsRoot mask = false → has flagsLast mask = false → has flagsVariable mask = false →
      has (elementFlags lookupFlags root last isVariable) mask = has lookupFlags mask :=
    fun mask h1 h2 h3 h4 => has_elementFlags mask h1 h2 h3 h4
  rw [handlePath, if_neg (by rw [plainFlags_lookupFlags.not_create]; exact Bool.false_ne_true),
    has_elementFlags_variable, has_elementFlags_last,
    hflag flagsNameMustExist (by decide) (by decide) (by decide) (by decide),
    hflag flagsNameMustNotExist (by decide) (by decide) (by decide) (by decide),
    hflag flagsPathMustNotExist (by decide) (by decide) (by decide) (by decide), ← find]
  cases find h n isVariable (ofBytes entry) idx with
  | none =>
      dsimp only
      rw [if_pos]
      rw [Bool.or_eq_true]
      exact Or.inr (by decide)
  | some nn =>
      dsimp only
      rw [if_neg]
      have h1 : has lookupFlags flagsNameMustNotExist = false := by decide
      have h2 : has lookupFlags flagsPathMustNotExist = false := by decide
      rw [h1, h2, Bool.and_false, Bool.and_false]
      exact Bool.false_ne_true

theorem handleLoop_lookup : ∀ (k : ℕ) (path : List UInt8) (n : ℕ),
    handleLoop handlePath lookupFlags k path false n h = (lookup h k path n, h)
  | _, [], n => by rw [handleLoop, lookup]
  | 0, _ :: _, n => by rw [handleLoop, lookup]
  | k + 1, c :: path, n => by
      rw [handleLoop_cons handlePath plainFlags_lookupFlags (by decide) k c
        (fun hn => absurd hn (by decide)), lookup]
      cases nextElement (c :: path) with
      | none => rfl
      | some e =>
          rw [Option.elim_some, Option.bind_some, handlePath_lookup]
          dsimp only
          cases find h n (e.2.2 == []) (ofBytes e.1) e.2.1 with
          | none => rfl
          | some m =>
              rw [Option.elim_some, Option.bind_some]
              exact handleLoop_lookup k e.2.2 m

theorem handlePath_spec (hf : PlainFlags flags) {entry : List UInt8}
    (hh : handlePath entry n idx (elementFlags flags root last isVariable) h = (some m, h')) :
    find h n isVariable (ofBytes entry) idx = some m ∧ h' = h ∨
      find h n isVariable (ofBytes entry) idx = none ∧ idx = 0 ∧ m = h.size ∧
        h' = createNode (elementFlags flags root last isVariable) h n (ofBytes entry) := by
  rw [handlePath, if_neg (by rw [hf.not_create]; exact Bool.false_ne_true),
    has_elementFlags_variable, ← find] at hh
  cases hfind : find h n isVariable (ofBytes entry) idx with
  | none =>
      rw [hfind] at hh
      dsimp only at hh
      split at hh
      · cases hh
      · split at hh
        · cases hh
        · next h0 =>
            obtain ⟨h1, h2⟩ := Prod.mk.inj hh
            exact Or.inr ⟨rfl, not_not.mp h0, (Option.some.inj h1).symm, h2.symm⟩
  | some nn =>
      rw [hfind] at hh
      dsimp only at hh
      split at hh
      · cases hh
      · obtain ⟨h1, h2⟩ := Prod.mk.inj hh
        exact Or.inl ⟨h1, h2.symm⟩

theorem find_spec (h0 : find h n isVariable name idx = some m) :
    m ∈ (h.node n).children ∧ (h.node m).typ = wanted isVariable := by
  rw [find_eq] at h0
  split at h0
  · exact findNode_mem h0
  · cases h0

theorem Grows.lookup (hg : Grows a h h') (hwf : Wf h) : ∀ {k : ℕ} {path : List UInt8} {n : ℕ},
    n < h.size → Db.lookup h k path n = some b → Db.lookup h' k path n = some b ∧ b < h.size
  | _, [], n, hn, hl => by
      rw [Db.lookup] at hl ⊢
      obtain rfl := Option.some.inj hl
      exact ⟨rfl, hn⟩
  | 0, _ :: _, _, _, hl => by
      rw [Db.lookup] at hl
      cases hl
  | k + 1, c :: path, n, hn, hl => by
      rw [Db.lookup, Option.bind_eq_some_iff] at hl
      obtain ⟨e, he, hl⟩ := hl
      rw [Option.bind_eq_some_iff] at hl
      obtain ⟨m, hm, hl⟩ := hl
      have hmlt := hwf n hn m (find_spec hm).1
      rw [Db.lookup, he, Option.bind_some, hg.found n hn hm, Option.bind_some]
      exact hg.lookup hwf hmlt hl

theorem lookup_childless {k : ℕ} {path : List UInt8} (hpath : path ≠ [])
    (hnone : (h.node n).children = []) : lookup h k path n = none := by
  cases path with
  | nil => exact absurd rfl hpath
  | cons c path =>
      cases k with
      | zero => rw [lookup]
      | succ k =>
          rw [lookup]
          cases nextElement (c :: path) with
          | none => rfl
          | some e =>
              rw [Option.bind_some, find_eq, hnone]
              split <;> rfl

/-- The variable at a path: it was there, or it is new and has no values. -/
structure Reached (h h' : DbHeap) (n k : ℕ) (path : List UInt8) (a : ℕ) : Prop where
  wf : Wf h'
  grows : Grows a h h'
  lt : a < h'.size
  typ : (h'.node a).typ = .var
  found : lookup h' k path n = some a
  before : lookup h k path n = some a ∧ h' = h ∨
    lookup h k path n = none ∧ (h'.node a).children = []

/-- The step of the loop: one element is found or created. -/
theorem handlePath_reaches (hf : PlainFlags flags) (hwf : Wf h) (hn : n < h.size)
    (hgroup : (h.node n).typ = .group) {entry : List UInt8}
    (hh : handlePath entry n idx (elementFlags flags root last isVariable) h = (some m, h')) :
    Wf h' ∧ (∀ a, Grows a h h') ∧ m < h'.size ∧ (h'.node m).typ = wanted isVariable ∧
      find h' n isVariable (ofBytes entry) idx = some m ∧
      (find h n isVariable (ofBytes entry) idx = some m ∧ h' = h ∨
        find h n isVariable (ofBytes entry) idx = none ∧ (h'.node m).children = []) := by
  rcases handlePath_spec hf hh with ⟨hfound, rfl⟩ | ⟨hnone, rfl, rfl, rfl⟩
  · obtain ⟨hmem, htyp⟩ := find_spec hfound
    exact ⟨hwf, fun a => Grows.refl a _, hwf n hn m hmem, htyp, hfound, Or.inl ⟨hfound, rfl⟩⟩
  · have hvar := @has_elementFlags_variable flags root last isVariable
    have hnone' : find h n (has (elementFlags flags root last isVariable) flagsVariable)
        (ofBytes entry) 0 = none := by rw [hvar, hnone]
    obtain ⟨htyp, -, hchildren⟩ := @createNode_new h n (ofBytes entry)
      (elementFlags flags root last isVariable) hn
    have hgrows := fun a => @createNode_grows h n a (ofBytes entry)
      (elementFlags flags root last isVariable) hwf hn hgroup hnone'
    rw [hvar] at htyp hgrows
    refine ⟨(hgrows 0).1, fun a => (hgrows a).2.1, ?_, htyp, (hgrows 0).2.2,
      Or.inr ⟨hnone, hchildren⟩⟩
    rw [size_createNode]
    exact Nat.lt_succ_self _

/-- The run of the loop, by induction on its rounds. -/
theorem handleLoop_spec (hf : PlainFlags flags) (hvar : has flags flagsVariable = true) :
    ∀ {k : ℕ} {path : List UInt8} {n : ℕ} {h : DbHeap}, path ≠ [] → ReadsIndex flags path → Wf h →
      n < h.size → (h.node n).typ = .group →
      handleLoop handlePath flags k path false n h = (some a, h') → Reached h h' n k path a
  | _, [], _, _, hpath, _, _, _, _, _ => absurd rfl hpath
  | 0, _ :: _, _, _, _, _, _, _, _, hh => by
      rw [handleLoop] at hh
      cases hh
  | k + 1, c :: path, n, h, _, hr, hwf, hn, hgroup, hh => by
      rw [handleLoop_cons handlePath hf hvar k c hr] at hh
      cases he : nextElement (c :: path) with
      | none =>
          rw [he] at hh
          cases hh
      | some e =>
          obtain ⟨entry, idx, rest⟩ := e
          rw [he, Option.elim_some] at hh
          dsimp only at hh
          have hlookup : ∀ h₀ : DbHeap, lookup h₀ (k + 1) (c :: path) n =
              (find h₀ n (rest == []) (ofBytes entry) idx).bind (lookup h₀ k rest) := by
            intro h₀
            rw [lookup, he, Option.bind_some]
          cases hstep : handlePath entry n idx (elementFlags flags false (rest == []) (rest == []))
              h with
          | mk r h₁ =>
              rw [hstep] at hh
              cases r with
              | none => cases hh
              | some m =>
                  rw [Option.elim_some] at hh
                  obtain ⟨hwf1, hg1, hm, htyp, hfind1, hcases⟩ :=
                    handlePath_reaches hf hwf hn hgroup hstep
                  by_cases hrest : rest = []
                  · subst hrest
                    rw [handleLoop] at hh
                    obtain ⟨ha, rfl⟩ := Prod.mk.inj hh
                    obtain rfl := Option.some.inj ha
                    refine ⟨hwf1, hg1 _, hm, htyp, ?_, ?_⟩
                    · rw [hlookup, hfind1, Option.bind_some, lookup]
                    · rw [hlookup]
                      rcases hcases with ⟨hfound, heq⟩ | ⟨hnone, hchildren⟩
                      · exact Or.inl ⟨by rw [hfound, Option.bind_some, lookup], heq⟩
                      · exact Or.inr ⟨by rw [hnone, Option.bind_none], hchildren⟩
                  · have hne : (rest == []) = false := beq_eq_false_iff_ne.mpr hrest
                    rw [hne] at htyp
                    have ih := handleLoop_spec hf hvar hrest (hr.next he) hwf1 hm htyp hh
                    have hfind' := ih.grows.found n (hn.trans_le (hg1 a).size) hfind1
                    refine ⟨ih.wf, (hg1 a).trans ih.grows, ih.lt, ih.typ, ?_, ?_⟩
                    · rw [hlookup, hfind', Option.bind_some, ih.found]
                    · rw [hlookup]
                      rcases hcases with ⟨hfound, rfl⟩ | ⟨hnone, hchildren⟩
                      · rw [hfound, Option.bind_some]
                        exact ih.before
                      · rw [hnone, Option.bind_none]
                        rcases ih.before with ⟨hl, -⟩ | ⟨-, hvalues⟩
                        · rw [lookup_childless hrest hchildren] at hl
                          cases hl
                        · exact Or.inr ⟨rfl, hvalues⟩

end

/-! ### Setting a value -/

section
variable {h h' : DbHeap} {n a b x : ℕ} {flags : UInt32} {path : CString} {val : DbValue}

/-- A path has elements, and the flags do not change how they are read. -/
structure ReadsPlainly (flags : UInt32) (path : CString) : Prop where
  index : ReadsIndex flags path.bytes
  root : has flags flagsCheckRoot = true →
    ((path.bytes.dropWhile isSpace).head?.map isSlash).getD false = false
  element : (path.bytes.dropWhile isSpace).dropWhile isSlash ≠ []

def elementsOf (path : CString) : List UInt8 := (path.bytes.dropWhile isSpace).dropWhile isSlash

theorem resolve_eq (h : DbHeap) (n : ℕ) (path : CString) :
    resolve h n path = lookup h (elementsOf path).length (elementsOf path) n := by
  have hroot : (has lookupFlags flagsCheckRoot &&
      ((path.bytes.dropWhile isSpace).head?.map isSlash).getD false) = false := by
    rw [show has lookupFlags flagsCheckRoot = false by decide, Bool.false_and]
  rw [resolve, getNode, handleWithIdx, hroot, ← elementsOf, handleLoop_lookup]

/-- The variable that a function finds or creates. -/
theorem getNode_spec (hf : PlainFlags flags) (hr : ReadsPlainly flags path) (hwf : Wf h)
    (hn : n < h.size) (hgroup : (h.node n).typ = .group)
    (hh : getNode h n path (flags ||| flagsVariable) = (some a, h')) :
    Reached h h' n (elementsOf path).length (elementsOf path) a := by
  have hother : ∀ mask, has flagsVariable mask = false →
      has (flags ||| flagsVariable) mask = has flags mask := by
    intro mask hmask
    rw [has_or, hmask, Bool.or_false]
  have hroot : (has (flags ||| flagsVariable) flagsCheckRoot &&
      ((path.bytes.dropWhile isSpace).head?.map isSlash).getD false) = false := by
    rw [hother _ (by decide)]
    cases hc : has flags flagsCheckRoot with
    | false => rfl
    | true => rw [hr.root hc, Bool.and_false]
  have hindex : ReadsIndex (flags ||| flagsVariable) (elementsOf path) := by
    intro hn hmem
    rw [hother _ (by decide)] at hn
    exact hr.index hn (((List.dropWhile_sublist _).trans (List.dropWhile_sublist _)).subset hmem)
  rw [getNode, handleWithIdx, hroot, ← elementsOf] at hh
  exact handleLoop_spec hf.or_variable (has_or_variable flags) hr.element hindex hwf hn hgroup hh

def addValue (flags : UInt32) (h : DbHeap) (a : ℕ) (val : DbValue) : DbHeap :=
  nodeAdd flags
    (if has flags flagsOverwriteVars then
      clearNode (newNode h (.value val) (ofBytes [])) a
    else newNode h (.value val) (ofBytes [])) a h.size

/-- The values that a variable keeps when a value is added. -/
def keptChildren (flags : UInt32) (h : DbHeap) (a : ℕ) : List ℕ :=
  if has flags flagsOverwriteVars then [] else (h.node a).children

theorem addValue_old (ha : a < h.size) (hx : x < h.size) :
    ((addValue flags h a val).node x).typ = (h.node x).typ ∧
      ((addValue flags h a val).node x).dataName = (h.node x).dataName ∧
      ((addValue flags h a val).node x).children =
        if x = a then
          if has flags flagsInsert then h.size :: keptChildren flags h a
          else keptChildren flags h a ++ [h.size]
        else (h.node x).children := by
  have hall := node_nodeAdd flags
    (if has flags flagsOverwriteVars then
      clearNode (newNode h (.value val) (ofBytes [])) a
    else newNode h (.value val) (ofBytes [])) (Nat.ne_of_lt ha) x
  rw [addValue, keptChildren]
  by_cases how : has flags flagsOverwriteVars = true
  · rw [if_pos how] at hall ⊢
    rw [if_pos how]
    by_cases hxa : x = a
    · subst hxa
      have hself : ((clearNode (newNode h (.value val) (ofBytes [])) x).node x) =
          { h.node x with children := [] } := by
        rw [clearNode, setChildren]
        dsimp only
        rw [update_self, node_newNode ha]
      rw [hself, if_pos rfl] at hall
      rw [if_pos rfl]
      exact hall
    · have hother : ((clearNode (newNode h (.value val) (ofBytes [])) a).node x) =
          h.node x := by
        rw [clearNode, setChildren]
        dsimp only
        rw [update_of_ne hxa, node_newNode hx]
      rw [if_neg hxa] at hall ⊢
      rwa [hother] at hall
  · rw [if_neg how] at hall ⊢
    rw [if_neg how]
    rwa [node_newNode hx, node_newNode ha] at hall

theorem addValue_new (ha : a < h.size) : ((addValue flags h a val).node h.size).typ = .value val ∧
      ((addValue flags h a val).node h.size).children = [] := by
  have hall := node_nodeAdd flags
    (if has flags flagsOverwriteVars then
      clearNode (newNode h (.value val) (ofBytes [])) a
    else newNode h (.value val) (ofBytes [])) (Nat.ne_of_lt ha) h.size
  have hnew : ((if has flags flagsOverwriteVars then
      clearNode (newNode h (.value val) (ofBytes [])) a
    else newNode h (.value val) (ofBytes [])).node h.size) =
      ⟨.value val, ofBytes [], [], none⟩ := by
    split
    · rw [clearNode, setChildren]
      dsimp only
      rw [update_of_ne (Nat.ne_of_gt ha), node_newNode_size]
    · exact node_newNode_size
  rw [hnew, if_neg (Nat.ne_of_gt ha)] at hall
  exact ⟨hall.1, hall.2.2⟩

theorem size_addValue : (addValue flags h a val).size = h.size + 1 := by
  rw [addValue, size_nodeAdd]
  split <;> rfl

/-- Adding a value to a variable changes its values only. -/
theorem addValue_grows (hwf : Wf h) (ha : a < h.size) (htyp : (h.node a).typ = .var) :
    Wf (addValue flags h a val) ∧ Grows a h (addValue flags h a val) ∧
      values (addValue flags h a val) a =
        if has flags flagsOverwriteVars then [val]
        else if has flags flagsInsert then val :: values h a else values h a ++ [val] := by
  have hold := fun x (hx : x < h.size) => @addValue_old h a x flags val ha hx
  obtain ⟨hnew, hnewChildren⟩ := @addValue_new h a flags val ha
  have hkept : ∀ c ∈ keptChildren flags h a, c < h.size := by
    intro c hc
    rw [keptChildren] at hc
    split at hc
    · cases hc
    · exact hwf a ha c hc
  refine ⟨?_, ⟨?_, fun x hx => ⟨(hold x hx).1, (hold x hx).2.1⟩, ?_, ?_⟩, ?_⟩
  · intro x hx c hc
    rw [size_addValue] at hx ⊢
    rcases Nat.lt_succ_iff_lt_or_eq.mp hx with hx | rfl
    · rw [(hold x hx).2.2] at hc
      split at hc
      · have hmem : c ∈ keptChildren flags h a ∨ c = h.size := by
          split at hc
          · exact (List.mem_cons.mp hc).symm
          · simpa using hc
        rcases hmem with hmem | rfl
        · exact Nat.lt_succ_of_lt (hkept c hmem)
        · exact Nat.lt_succ_self _
      · exact Nat.lt_succ_of_lt (hwf x hx c hc)
    · rw [hnewChildren] at hc
      cases hc
  · rw [size_addValue]
    exact Nat.le_succ _
  · intro x hx v name idx m hf
    rw [find_eq] at hf ⊢
    split at hf
    · next ht =>
        have hxa : x ≠ a := by
          rintro rfl
          rw [htyp] at ht
          cases ht
        rw [if_pos ((hold x hx).1.trans ht), (hold x hx).2.2, if_neg hxa]
        rw [findNode_congr fun c hc => ⟨(hold c (hwf x hx c hc)).1, (hold c (hwf x hx c hc)).2.1⟩]
        exact hf
    · cases hf
  · intro x hx _ hne
    rw [(hold x hx).2.2, if_neg hne]
  · have hvalue : valueOf (addValue flags h a val) h.size = some val := by
      rw [valueOf, hnew]
    have hkeptValues : (keptChildren flags h a).filterMap (valueOf (addValue flags h a val)) =
        if has flags flagsOverwriteVars then [] else values h a := by
      rw [List.filterMap_congr fun c hc => show valueOf (addValue flags h a val) c = valueOf h c by
        rw [valueOf, valueOf, (hold c (hkept c hc)).1], keptChildren, values]
      split <;> rfl
    rw [values, (hold a ha).2.2, if_pos rfl]
    split
    · rw [List.filterMap_cons_some hvalue, hkeptValues]
      split <;> rfl
    · rw [List.filterMap_append, hkeptValues, List.filterMap_cons_some hvalue]
      split <;> rfl

/-- The law of reading over writing.  The variable at the path has the new value, with the old ones
unless they are overwritten, and other variables are found as before with the values they had. -/
theorem set_get (hf : PlainFlags flags) (hr : ReadsPlainly flags path) (hwf : Wf h)
    (hn : n < h.size) (hgroup : (h.node n).typ = .group)
    (hset : setValue h n flags path val = (0, h')) :
    ∃ a, resolve h' n path = some a ∧ (h'.node a).typ = .var ∧
      values h' a = (if has flags flagsOverwriteVars then [val]
        else if has flags flagsInsert then val :: ((resolve h n path).map (values h)).getD []
        else ((resolve h n path).map (values h)).getD [] ++ [val]) ∧
      ∀ start < h.size, ∀ (q : CString) (b : ℕ), resolve h start q = some b →
        (h.node b).typ = .var → b ≠ a →
        resolve h' start q = some b ∧ values h' b = values h b := by
  rw [setValue] at hset
  cases hnode : getNode h n path (flags ||| flagsVariable) with
  | mk r h₁ =>
      rw [hnode] at hset
      cases r with
      | none => cases hset
      | some a =>
          have hset' : (0, addValue flags h₁ a val) = ((0 : ℤ), h') := hset
          obtain rfl := (Prod.mk.inj hset').2
          have hreach := getNode_spec hf hr hwf hn hgroup hnode
          obtain ⟨hwf', hgrows, hvalues⟩ :=
            @addValue_grows h₁ a flags val hreach.wf hreach.lt hreach.typ
          have hall := hreach.grows.trans hgrows
          have hold : values h₁ a = ((resolve h n path).map (values h)).getD [] := by
            rw [resolve_eq]
            rcases hreach.before with ⟨hl, rfl⟩ | ⟨hl, hchildren⟩
            · rw [hl]
              rfl
            · rw [hl, values, hchildren]
              rfl
          refine ⟨a, ?_, ?_, ?_, fun start hstart q b hq hb hne => ?_⟩
          · rw [resolve_eq]
            exact (hgrows.lookup hreach.wf (hn.trans_le hreach.grows.size) hreach.found).1
          · rw [(hgrows.same a hreach.lt).1, hreach.typ]
          · rw [hvalues, hold]
          · rw [resolve_eq] at hq ⊢
            obtain ⟨hq', hlt⟩ := hall.lookup hwf hstart hq
            exact ⟨hq', hall.values hwf hlt (by rw [hb]; decide) hne⟩

/-- A variable in a group that is created for it. -/
theorem set_get_created : ∃ h', setValue (emptyGroup (ofBytes [])) 0 flagsDefault
        (ofBytes (ascii ['g', '/', 'a'])) (.int 1) = (0, h') ∧
      ∃ a, resolve h' 0 (ofBytes (ascii ['g', '/', 'a'])) = some a ∧
        values h' a = [.int 1] := by
  have hwf : Wf (emptyGroup (ofBytes [])) := by
    intro x _ c hc
    rw [emptyGroup, newNode] at hc
    dsimp only at hc
    rw [update_apply] at hc
    split at hc <;> cases hc
  obtain ⟨a, ha, -, hv, -⟩ := @set_get (emptyGroup (ofBytes [])) _ 0 flagsDefault
    (ofBytes (ascii ['g', '/', 'a'])) (.int 1)
    ⟨by decide, by decide, by decide, by decide⟩
    ⟨fun h => absurd h (by decide), fun h => absurd h (by decide), by decide⟩
    hwf (by decide) rfl rfl
  exact ⟨_, rfl, a, ha, hv⟩

/-- When indices are not read, a variable is created with a name that the path does not name
afterwards; when the root is checked, the name begins with a slash; an empty path names the group
itself, the children of which are then overwritten. -/
theorem not_set_get : (∃ h', setValue (emptyGroup (ofBytes [])) 0 flagsNoIdx
        (ofBytes (ascii ['a', '[', '0', ']'])) (.int 1) = (0, h') ∧
      resolve h' 0 (ofBytes (ascii ['a', '[', '0', ']'])) = none) ∧
    (∃ h', setValue (emptyGroup (ofBytes [])) 0 flagsCheckRoot
        (ofBytes (ascii ['/', 'a'])) (.int 1) = (0, h') ∧
      resolve h' 0 (ofBytes (ascii ['/', 'a'])) = none) ∧
    ∃ h h', setValue (emptyGroup (ofBytes [])) 0 flagsDefault
        (ofBytes (ascii ['a'])) (.int 1) = (0, h) ∧
      setValue h 0 flagsOverwriteVars (ofBytes []) (.int 2) = (0, h') ∧
      resolve h 0 (ofBytes (ascii ['a'])) = some 1 ∧
      resolve h' 0 (ofBytes (ascii ['a'])) = none :=
  ⟨⟨_, rfl, by decide⟩, ⟨_, rfl, by decide⟩, _, _, rfl, rfl, by decide, by decide⟩

/-! ### Names that are no paths -/

/-- A character of a path that has no meaning for the path. -/
def isPlainChar (c : UInt8) : Bool :=
  !isSpace c && !isSlash c && c != code '[' && c != 0

theorem isPlainChar_spec {c : UInt8} (h : isPlainChar c = true) :
    isSpace c = false ∧ isSlash c = false ∧ c ≠ code '[' := by
  rw [isPlainChar, Bool.and_eq_true, Bool.and_eq_true, Bool.and_eq_true] at h
  exact ⟨(Bool.not_eq_true' _).mp h.1.1.1, (Bool.not_eq_true' _).mp h.1.1.2, bne_iff_ne.mp h.1.2⟩

theorem nextElement_single {s : List UInt8} (hs : ∀ c ∈ s, isSlash c = false ∧ c ≠ code '[') :
    nextElement s = some (s, 0, []) := by
  have hscan := Scan.all (fun c => !isSlash c) s fun x hx => by
    rw [(hs x hx).1]
    rfl
  rw [nextElement, hscan.1, hscan.2, splitIndex, if_neg fun hmem => (hs _ hmem).2 rfl]
  rfl

theorem elementsOf_plain {name : CString} (hplain : ∀ c ∈ name.bytes, isPlainChar c = true)
    (hne : name.bytes ≠ []) : elementsOf name = name.bytes ∧
      nextElement name.bytes = some (name.bytes, 0, []) := by
  obtain ⟨c, s, hs⟩ := List.exists_cons_of_ne_nil hne
  have hc := isPlainChar_spec (hplain c (hs ▸ List.mem_cons_self))
  refine ⟨?_, nextElement_single fun c hc => (isPlainChar_spec (hplain c hc)).2⟩
  rw [elementsOf, hs, List.dropWhile_cons_of_neg (by rw [hc.1]; decide),
    List.dropWhile_cons_of_neg (by rw [hc.2.1]; decide)]

end
end Gwenhywfar.Db
