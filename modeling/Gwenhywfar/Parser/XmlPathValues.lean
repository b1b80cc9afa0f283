import Gwenhywfar.Parser.XmlDoc
import Gwenhywfar.Base.Error
import Mathlib.Data.List.Find
import Mathlib.Logic.Relation

/-! # Reading and writing the values of XML nodes by paths

* `setCharValueByPath`, `getCharValueByPath`, `getIntValueByPath`: the code.
* `splitPath`: a path as the list of its elements; `getNodeByXPath_eq` walks along it.
* `ReadsAndWrites`: what reading and writing by a path are for.
* `readsAndWrites_iff`: the code meets it where the path leads to a node, or where the first element
  that is missing has an index; elsewhere reading creates elements. -/

namespace Gwenhywfar.XmlDoc

open Gwenhywfar.Path Db Function Relation
open CString (ofBytes)

/-! ### The code -/

/-- `GWEN_XML_PATH_FLAGS_OVERWRITE_VALUES`. -/
def flagsOverwriteValues : UInt32 := 0x00010000

/-- The number whose digits these are. -/
def valueOfDigits (base : ℕ) (ds : List UInt8) : ℕ :=
  ds.foldl (fun n d => n * base + (hexValue d).toNat) 0

/-- The number that begins with these digits, with a prefix that tells its base. -/
def scanBased (negative : Bool) (s : List UInt8) : Option Int32 :=
  let signed (n : ℕ) : Int32 := toInt32 (if negative then -(n : ℤ) else n)
  if s.head? = some (code '0') then
    if (s[1]?).any (toUpper · = code 'X') then
      let ds := (s.drop 2).takeWhile isXDigit
      if ds = [] then none else some (signed (valueOfDigits 16 ds))
    else some (signed (valueOfDigits 8 (s.takeWhile fun c => isDigit c && c < code '8')))
  else scanDigits negative s

/-- `sscanf(s, "%i", &num)`: the number, if there is one. -/
def scanInteger (s : List UInt8) : Option Int32 :=
  let s := s.dropWhile isSpace
  if s.head? = some (code '-') then scanBased true s.tail
  else if s.head? = some (code '+') then scanBased false s.tail
  else scanBased false s

/-- `GWEN_XMLNode_List_Clear` for the children of a node. -/
def clearChildren (doc : XmlDoc) (n : ℕ) : XmlDoc :=
  { doc with node := update doc.node n { doc.node n with children := [] } }

/-- A new value at the end of the children. -/
def addData (doc : XmlDoc) (n : ℕ) (value : CString) : XmlDoc :=
  let node := update doc.node doc.size ⟨.data, value, [], [], some n⟩
  ⟨update node n { node n with children := (node n).children ++ [doc.size] }, doc.size + 1⟩

/-- `GWEN_XMLNode_SetCharValueByPath`. -/
def setCharValueByPath (doc : XmlDoc) (n : ℕ) (flags : UInt32) (path : List UInt8)
    (value : CString) : ℤ × XmlDoc :=
  match getNodeByXPath path 0 n doc with
  | (none, doc) => (errorInvalid, doc)
  | (some nn, doc) =>
      let doc := if has flags flagsOverwriteValues then doc.clearChildren nn else doc
      (0, doc.addData nn value)

/-- `GWEN_XMLNode_GetCharValueByPath`. -/
def getCharValueByPath (doc : XmlDoc) (n : ℕ) (path : List UInt8) (defValue : Option CString) :
    Option CString × XmlDoc :=
  match getNodeByXPath path 0 n doc with
  | (none, doc) => (defValue, doc)
  | (some nn, doc) => ((doc.firstData nn).or defValue, doc)

/-- `GWEN_XMLNode_GetIntValueByPath`. -/
def getIntValueByPath (doc : XmlDoc) (n : ℕ) (path : List UInt8) (defValue : Int32) :
    Int32 × XmlDoc :=
  let (p, doc) := doc.getCharValueByPath n path none
  ((p.bind fun s => scanInteger s.bytes).getD defValue, doc)

/-! ### Paths as lists of elements -/

/-- The elements of a path as far as they are well formed, and whether all of them are. -/
def splitLoop : ℕ → List UInt8 → List (List UInt8 × Int32) × Bool
  | _, [] => ([], true)
  | 0, _ :: _ => ([], false)
  | k + 1, c :: path =>
      match splitIndex ((c :: path).takeWhile fun c => !isSlash c) with
      | none => ([], false)
      | some e =>
          let rest := splitLoop k
            (((c :: path).dropWhile fun c => !isSlash c).dropWhile isSlash)
          (e :: rest.1, rest.2)

/-- The elements of a path, and whether they are well formed. -/
def splitPath (path : List UInt8) : List (List UInt8 × Int32) × Bool :=
  let path := (path.dropWhile isSpace).dropWhile isSlash
  splitLoop path.length path

/-- The name of an element, which is none of the names for the node itself or the one above. -/
def isName (name : CString) : Bool :=
  !strcaseEq name parentName && !selfNames.any (strcaseEq name)

def OfNames (path : List UInt8) : Prop := ∀ e ∈ (splitPath path).1, isName (ofBytes e.1)

/-- Each element of a path is looked up in the node before. -/
def follow (doc : XmlDoc) : List (List UInt8 × Int32) → ℕ → Option ℕ
  | [], n => some n
  | e :: es, n => (doc.elementAt n (ofBytes e.1) e.2).bind (follow doc es)

/-- The first element that is missing has no index. -/
def lacksTag (doc : XmlDoc) : List (List UInt8 × Int32) → ℕ → Bool
  | [], _ => false
  | e :: es, n =>
      match doc.elementAt n (ofBytes e.1) e.2 with
      | none => e.2 = 0
      | some nn => lacksTag doc es nn

/-- A function is called for each element of a list. -/
def walk {δ σ : Type} (g : List UInt8 → δ → Int32 → σ → Option δ × σ) (ok : Bool) :
    List (List UInt8 × Int32) → δ → σ → Option δ × σ
  | [], d, s => (if ok then some d else none, s)
  | e :: es, d, s =>
      match g e.1 d e.2 s with
      | (none, s) => (none, s)
      | (some d, s) => walk g ok es d s

/-- A function that does the same for the last element as for the others. -/
theorem handleLoop_zero {δ σ : Type} {f : List UInt8 → δ → Int32 → UInt32 → σ → Option δ × σ}
    (hf : ∀ entry d idx last s, f entry d idx (elementFlags 0 false last false) s =
      f entry d idx 0 s) : ∀ (k : ℕ) (path : List UInt8) (d : δ) (s : σ),
    handleLoop f 0 k path false d s =
      walk (fun entry d idx => f entry d idx 0) (splitLoop k path).2 (splitLoop k path).1 d s
  | k, [], d, s => by cases k <;> rfl
  | 0, c :: path, d, s => rfl
  | k + 1, c :: path, d, s => by
      have hvar : has 0 flagsVariable = false := by decide
      have hidx : has 0 flagsNoIdx = false := by decide
      have hconv : ∀ last, has (elementFlags 0 false last false) flagsEscape = false := by decide
      rw [handleLoop, splitLoop]
      simp only [hvar, hidx, Bool.false_eq_true, if_false, and_false, Bool.and_false,
        List.nil_append, convert, hconv]
      cases splitIndex ((c :: path).takeWhile fun c => !isSlash c) with
      | none => rfl
      | some e =>
          simp only
          generalize ((c :: path).dropWhile fun c => !isSlash c).dropWhile isSlash = rest
          rw [hf, walk]
          obtain ⟨⟨o, s'⟩, hr⟩ : ∃ r, f e.1 d e.2 0 s = r := ⟨_, rfl⟩
          rw [hr]
          cases o with
          | none => rfl
          | some d' => exact handleLoop_zero hf k rest d' s'

theorem handleWithIdx_zero {δ σ : Type} {f : List UInt8 → δ → Int32 → UInt32 → σ → Option δ × σ}
    (hf : ∀ entry d idx last s, f entry d idx (elementFlags 0 false last false) s =
      f entry d idx 0 s) (path : List UInt8) (d : δ) (s : σ) : handleWithIdx f 0 path d s =
      walk (fun entry d idx => f entry d idx 0) (splitPath path).2 (splitPath path).1 d s := by
  have hroot : has 0 flagsCheckRoot = false := by decide
  unfold handleWithIdx splitPath
  simp only [hroot, Bool.false_and]
  exact handleLoop_zero hf _ _ d s

variable {doc : XmlDoc} {n : ℕ} {path : List UInt8}

theorem denoted_eq (doc : XmlDoc) (n : ℕ) (path : List UInt8) :
    denoted path n doc = if (splitPath path).2 then doc.follow (splitPath path).1 n else none := by
  have hwalk : ∀ (ok : Bool) (es : List (List UInt8 × Int32)) (n : ℕ),
      (walk (fun entry n idx doc => (elementAt doc n (ofBytes entry) idx, doc)) ok es n
        doc).1 = if ok then doc.follow es n else none := by
    intro ok es
    induction es with
    | nil => exact fun n => rfl
    | cons e es ih =>
        intro n
        rw [walk, follow]
        cases doc.elementAt n (ofBytes e.1) e.2 with
        | none => exact (ite_self none).symm
        | some nn => exact ih nn
  rw [denoted, handleWithIdx_zero fun _ _ _ _ _ => rfl, hwalk]

/-! ### Looking up nodes -/

theorem has_zero (mask : UInt32) : has 0 mask = false := by
  rw [has, UInt32.zero_and]
  rfl

theorem handlePath_zero (entry : List UInt8) (n : ℕ) (idx : Int32) (last : Bool) (doc : XmlDoc) :
    handlePath entry n idx (elementFlags 0 false last false) doc = handlePath entry n idx 0 doc := by
  have hflag : ∀ mask, mask ∈ [flagsVariable, flagsRoot, flagsCreateGroup, flagsPathCreate,
      flagsPathMustExist, flagsNameMustExist, flagsNameMustNotExist, flagsPathMustNotExist] →
      has (elementFlags 0 false last false) mask = has 0 mask := by
    intro mask hmask
    simp only [List.mem_cons, List.not_mem_nil, or_false] at hmask
    cases last <;>
      rcases hmask with rfl | rfl | rfl | rfl | rfl | rfl | rfl | rfl <;> decide
  unfold handlePath
  simp only [hflag flagsVariable (by decide), hflag flagsRoot (by decide),
    hflag flagsCreateGroup (by decide), hflag flagsPathCreate (by decide),
    hflag flagsPathMustExist (by decide), hflag flagsNameMustExist (by decide),
    hflag flagsNameMustNotExist (by decide), hflag flagsPathMustNotExist (by decide), has_zero,
    Bool.and_false, Bool.or_false]

theorem handlePath_name {entry : List UInt8} (hname : isName (ofBytes entry) = true)
    (n : ℕ) (idx : Int32) (doc : XmlDoc) :
    handlePath entry n idx 0 doc =
      match doc.elementAt n (ofBytes entry) idx with
      | some nn => (some nn, doc)
      | none => if idx ≠ 0 then (none, doc)
          else (some doc.size, doc.addTag n (ofBytes entry)) := by
  rw [isName, Bool.and_eq_true, Bool.not_eq_true', Bool.not_eq_true'] at hname
  unfold handlePath elementAt
  simp only [has_zero, hname.1, hname.2, Bool.false_eq_true, if_false, false_and, Bool.and_false,
    Bool.or_false]
  cases nthTag (doc.tags n (ofBytes entry)) idx <;> rfl

theorem getNodeByXPath_eq (path : List UInt8) (n : ℕ) (doc : XmlDoc) : getNodeByXPath path 0 n doc =
      walk (fun entry n idx => handlePath entry n idx 0) (splitPath path).2 (splitPath path).1 n
        doc := by
  rw [getNodeByXPath]
  exact handleWithIdx_zero (fun entry n idx last doc => handlePath_zero entry n idx last doc)
    path n doc

theorem walk_of_lacksTag {ok : Bool} : ∀ {es : List (List UInt8 × Int32)} {n : ℕ},
    (∀ e ∈ es, isName (ofBytes e.1) = true) → doc.lacksTag es n = false →
    walk (fun entry n idx => handlePath entry n idx 0) ok es n doc =
      (if ok then doc.follow es n else none, doc)
  | [], n, _, _ => rfl
  | e :: es, n, hes, hl => by
      rw [walk, follow, handlePath_name (hes e List.mem_cons_self)]
      rw [lacksTag] at hl
      cases hat : doc.elementAt n (ofBytes e.1) e.2 with
      | none =>
          rw [hat] at hl
          rw [if_pos (of_decide_eq_false hl)]
          exact Prod.ext (ite_self none).symm rfl
      | some nn =>
          rw [hat] at hl
          exact walk_of_lacksTag (fun e he => hes e (List.mem_cons_of_mem _ he)) hl

theorem size_le_walk {ok : Bool} : ∀ {es : List (List UInt8 × Int32)} {n : ℕ} (doc : XmlDoc),
    (∀ e ∈ es, isName (ofBytes e.1) = true) →
    doc.size ≤ (walk (fun entry n idx => handlePath entry n idx 0) ok es n doc).2.size
  | [], _, doc, _ => le_rfl
  | e :: es, n, doc, hes => by
      have hrest : ∀ e ∈ es, isName (ofBytes e.1) = true := fun e he =>
        hes e (List.mem_cons_of_mem _ he)
      rw [walk, handlePath_name (hes e List.mem_cons_self)]
      cases doc.elementAt n (ofBytes e.1) e.2 with
      | some nn => exact size_le_walk doc hrest
      | none =>
          by_cases hidx : e.2 ≠ 0
          · rw [if_pos hidx]
          · rw [if_neg hidx]
            exact (size_addTag doc n _).le.trans (size_le_walk _ hrest)

theorem size_lt_walk {ok : Bool} : ∀ {es : List (List UInt8 × Int32)} {n : ℕ},
    (∀ e ∈ es, isName (ofBytes e.1) = true) → doc.lacksTag es n = true →
    doc.size < (walk (fun entry n idx => handlePath entry n idx 0) ok es n doc).2.size
  | e :: es, n, hes, hl => by
      have hrest : ∀ e ∈ es, isName (ofBytes e.1) = true := fun e he =>
        hes e (List.mem_cons_of_mem _ he)
      rw [walk, handlePath_name (hes e List.mem_cons_self)]
      rw [lacksTag] at hl
      cases hat : doc.elementAt n (ofBytes e.1) e.2 with
      | some nn =>
          rw [hat] at hl
          exact size_lt_walk hrest hl
      | none =>
          rw [hat] at hl
          rw [if_neg (not_not.mpr (of_decide_eq_true hl))]
          exact (size_addTag doc n _).trans_le (size_le_walk _ hrest)

theorem getNodeByXPath_of_lacksTag (hp : OfNames path)
    (hl : doc.lacksTag (splitPath path).1 n = false) :
    getNodeByXPath path 0 n doc = (denoted path n doc, doc) := by
  rw [getNodeByXPath_eq, walk_of_lacksTag hp hl, denoted_eq]

/-! ### What reading and writing are for -/

def IsChild (doc : XmlDoc) (n m : ℕ) : Prop := m ∈ (doc.node n).children

/-- The children of the nodes are nodes, and no node is below itself. -/
structure IsTree (doc : XmlDoc) : Prop where
  known : ∀ {n m}, n < doc.size → doc.IsChild n m → m < doc.size
  acyclic : ∀ {n}, n < doc.size → ¬ TransGen doc.IsChild n n

/-- A value that is written is read back, and the values elsewhere are as they were; what fails
changes nothing, and reading changes nothing. -/
structure ReadsAndWrites (doc : XmlDoc) (n : ℕ) (path : List UInt8) : Prop where
  readBack : ∀ v doc', doc.setCharValueByPath n flagsOverwriteValues path v = (0, doc') →
    ∀ d, (doc'.getCharValueByPath n path d).1 = some v
  others : ∀ v doc', doc.setCharValueByPath n flagsOverwriteValues path v = (0, doc') →
    ∀ q m, OfNames q → denoted q n doc = some m →
      (∀ t, denoted path n doc' = some t → ¬ ReflTransGen doc.IsChild t m) →
      ∀ d, (doc'.getCharValueByPath n q d).1 = (doc.getCharValueByPath n q d).1
  failed : ∀ v rv doc', doc.setCharValueByPath n flagsOverwriteValues path v = (rv, doc') →
    rv ≠ 0 → doc' = doc
  readsOnly : ∀ d, (doc.getCharValueByPath n path d).2 = doc
  readsIntOnly : ∀ d, (doc.getIntValueByPath n path d).2 = doc
  missing : denoted path n doc = none → ∀ d, (doc.getCharValueByPath n path d).1 = d
  missingInt : denoted path n doc = none → ∀ d, (doc.getIntValueByPath n path d).1 = d

/-! ### Values -/

theorem mem_of_nthTag : ∀ {nodes : List ℕ} {idx : Int32} {m : ℕ}, nthTag nodes idx = some m →
    m ∈ nodes
  | nn :: rest, idx, m, h => by
      rw [nthTag] at h
      by_cases hidx : idx = 0
      · rw [if_pos hidx] at h
        exact Option.some.inj h ▸ List.mem_cons_self
      · rw [if_neg hidx] at h
        exact List.mem_cons_of_mem nn (mem_of_nthTag h)

theorem elementAt_of_isName {name : CString} (hname : isName name = true) (n : ℕ) (idx : Int32) :
    doc.elementAt n name idx = nthTag (doc.tags n name) idx := by
  rw [isName, Bool.and_eq_true, Bool.not_eq_true', Bool.not_eq_true'] at hname
  unfold elementAt
  simp only [hname.1, hname.2, Bool.false_eq_true, if_false]

theorem isChild_of_elementAt {name : CString} {idx : Int32} {m : ℕ} (hname : isName name = true)
    (h : doc.elementAt n name idx = some m) : doc.IsChild n m := by
  rw [elementAt_of_isName hname] at h
  exact List.mem_of_mem_filter (mem_of_nthTag h)

theorem below_of_follow : ∀ {es : List (List UInt8 × Int32)} {n m : ℕ},
    (∀ e ∈ es, isName (ofBytes e.1) = true) → doc.follow es n = some m →
    ReflTransGen doc.IsChild n m
  | [], n, m, _, h => Option.some.inj h ▸ .refl
  | e :: es, n, m, hes, h => by
      obtain ⟨nn, hat, hrest⟩ := Option.bind_eq_some_iff.mp h
      exact .head (isChild_of_elementAt (hes e List.mem_cons_self) hat)
        (below_of_follow (fun e he => hes e (List.mem_cons_of_mem _ he)) hrest)

theorem IsTree.follow_lt (hdoc : doc.IsTree) : ∀ {es : List (List UInt8 × Int32)} {n m : ℕ},
    n < doc.size → (∀ e ∈ es, isName (ofBytes e.1) = true) → doc.follow es n = some m →
    m < doc.size
  | [], n, m, hn, _, h => Option.some.inj h ▸ hn
  | e :: es, n, m, hn, hes, h => by
      obtain ⟨nn, hat, hrest⟩ := Option.bind_eq_some_iff.mp h
      exact hdoc.follow_lt (hdoc.known hn (isChild_of_elementAt (hes e List.mem_cons_self) hat))
        (fun e he => hes e (List.mem_cons_of_mem _ he)) hrest

theorem lacksTag_of_follow : ∀ {es : List (List UInt8 × Int32)} {n m : ℕ},
    doc.follow es n = some m → doc.lacksTag es n = false
  | [], _, _, _ => rfl
  | e :: es, n, m, h => by
      obtain ⟨nn, hat, hrest⟩ := Option.bind_eq_some_iff.mp h
      rw [lacksTag, hat]
      exact lacksTag_of_follow hrest

/-- A node with a value only. -/
def overwrite (doc : XmlDoc) (t : ℕ) (v : CString) : XmlDoc := (doc.clearChildren t).addData t v

section
variable {t : ℕ} {v : CString}

theorem node_overwrite {x : ℕ} (hxt : x ≠ t) (hx : x < doc.size) :
    (doc.overwrite t v).node x = doc.node x := by
  simp only [overwrite, addData, clearChildren]
  rw [update_of_ne hxt, update_of_ne hx.ne, update_of_ne hxt]

theorem node_overwrite_self (ht : t < doc.size) :
    (doc.overwrite t v).node t = { doc.node t with children := [doc.size] } := by
  simp only [overwrite, addData, clearChildren]
  rw [update_self, update_of_ne ht.ne, update_self]
  rfl

theorem shape_overwrite {x : ℕ} (ht : t < doc.size) (hx : x < doc.size) :
    ((doc.overwrite t v).node x).typ = (doc.node x).typ ∧
      ((doc.overwrite t v).node x).data = (doc.node x).data := by
  by_cases hxt : x = t
  · subst hxt
    rw [node_overwrite_self ht]
    exact ⟨rfl, rfl⟩
  · rw [node_overwrite hxt hx]
    exact ⟨rfl, rfl⟩

theorem firstData_overwrite_self (ht : t < doc.size) :
    (doc.overwrite t v).firstData t = some v := by
  have hnew : (doc.overwrite t v).node doc.size = ⟨.data, v, [], [], some t⟩ := by
    simp only [overwrite, addData, clearChildren]
    rw [update_of_ne ht.ne', update_self]
  have hchildren : ((doc.overwrite t v).node t).children = [doc.size] := by
    rw [node_overwrite_self ht]
  rw [firstData, hchildren, List.find?_cons_of_pos (by rw [hnew]; rfl), Option.map_some, hnew]

theorem IsTree.firstData_overwrite (hdoc : doc.IsTree) (ht : t < doc.size) {m : ℕ}
    (hm : m < doc.size) (hmt : m ≠ t) : (doc.overwrite t v).firstData m = doc.firstData m := by
  unfold firstData
  rw [node_overwrite hmt hm]
  have hsame : ∀ c ∈ (doc.node m).children,
      ((doc.overwrite t v).node c).typ = (doc.node c).typ ∧
        ((doc.overwrite t v).node c).data = (doc.node c).data := fun c hc =>
    shape_overwrite ht (hdoc.known hm hc)
  have hfind : ((doc.node m).children.find? fun nn => ((doc.overwrite t v).node nn).typ = .data) =
      (doc.node m).children.find? fun nn => (doc.node nn).typ = .data :=
    List.find?_congr fun c hc => by rw [(hsame c hc).1]
  rw [hfind]
  cases hc : (doc.node m).children.find? fun nn => (doc.node nn).typ = .data with
  | none => rfl
  | some c => rw [Option.map_some, Option.map_some, (hsame c (List.mem_of_find?_eq_some hc)).2]

theorem IsTree.elementAt_overwrite (hdoc : doc.IsTree) (ht : t < doc.size) {x : ℕ}
    (hx : x < doc.size) (hxt : x ≠ t) {name : CString} (hname : isName name = true)
    (idx : Int32) : (doc.overwrite t v).elementAt x name idx = doc.elementAt x name idx := by
  rw [elementAt_of_isName hname, elementAt_of_isName hname, tags, tags, node_overwrite hxt hx]
  have hfilter : (doc.node x).children.filter ((doc.overwrite t v).isTag name) =
      (doc.node x).children.filter (doc.isTag name) := by
    refine List.filter_congr fun c hc => ?_
    obtain ⟨htyp, hdata⟩ := @shape_overwrite _ _ v _ ht (hdoc.known hx hc)
    rw [isTag, isTag, htyp, hdata]
  rw [hfilter]

theorem IsTree.follow_overwrite (hdoc : doc.IsTree) (ht : t < doc.size) :
    ∀ {es : List (List UInt8 × Int32)} {n m : ℕ}, n < doc.size →
    (∀ e ∈ es, isName (ofBytes e.1) = true) → doc.follow es n = some m →
    ¬ TransGen doc.IsChild t m → (doc.overwrite t v).follow es n = some m
  | [], n, m, _, _, h, _ => h
  | e :: es, n, m, hn, hes, h, hout => by
      obtain ⟨nn, hat, hrest⟩ := Option.bind_eq_some_iff.mp h
      have hchild := isChild_of_elementAt (hes e List.mem_cons_self) hat
      have htail : ∀ e ∈ es, isName (ofBytes e.1) = true := fun e he =>
        hes e (List.mem_cons_of_mem _ he)
      have hnt : n ≠ t := by
        rintro rfl
        exact hout (.head' hchild (below_of_follow htail hrest))
      rw [follow, hdoc.elementAt_overwrite ht hn hnt (hes e List.mem_cons_self), hat,
        Option.bind_some]
      exact hdoc.follow_overwrite ht (hdoc.known hn hchild) htail hrest hout

end

theorem denoted_eq_some {m : ℕ} (h : denoted path n doc = some m) :
    (splitPath path).2 = true ∧ doc.follow (splitPath path).1 n = some m := by
  rw [denoted_eq] at h
  split at h
  · next hok => exact ⟨hok, h⟩
  · cases h

theorem getCharValueByPath_of_denoted {m : ℕ} (hp : OfNames path) (h : denoted path n doc = some m)
    (d : Option CString) : doc.getCharValueByPath n path d = ((doc.firstData m).or d, doc) := by
  rw [getCharValueByPath, getNodeByXPath_of_lacksTag hp (lacksTag_of_follow (denoted_eq_some h).2),
    h]

theorem getCharValueByPath_of_missing (hp : OfNames path)
    (hl : doc.lacksTag (splitPath path).1 n = false) (h : denoted path n doc = none)
    (d : Option CString) : doc.getCharValueByPath n path d = (d, doc) := by
  rw [getCharValueByPath, getNodeByXPath_of_lacksTag hp hl, h]

theorem setCharValueByPath_of_denoted {m : ℕ} (hp : OfNames path) (h : denoted path n doc = some m)
    (v : CString) :
    doc.setCharValueByPath n flagsOverwriteValues path v = (0, doc.overwrite m v) := by
  rw [setCharValueByPath, getNodeByXPath_of_lacksTag hp (lacksTag_of_follow (denoted_eq_some h).2),
    h]
  rfl

theorem setCharValueByPath_of_missing (hp : OfNames path)
    (hl : doc.lacksTag (splitPath path).1 n = false) (h : denoted path n doc = none) (v : CString) :
    doc.setCharValueByPath n flagsOverwriteValues path v = (errorInvalid, doc) := by
  rw [setCharValueByPath, getNodeByXPath_of_lacksTag hp hl, h]

/-- Values of elements are read and written by paths if and only if the path leads to a node, or
its first element that is missing has an index. -/
theorem readsAndWrites_iff (hdoc : doc.IsTree) (hn : n < doc.size) (hp : OfNames path) :
    ReadsAndWrites doc n path ↔ doc.lacksTag (splitPath path).1 n = false := by
  constructor
  · intro h
    by_contra hl
    have hmore : doc.size < (getNodeByXPath path 0 n doc).2.size := by
      rw [getNodeByXPath_eq]
      exact size_lt_walk hp (Bool.eq_true_of_not_eq_false hl)
    have hsame : (doc.getCharValueByPath n path none).2 = (getNodeByXPath path 0 n doc).2 := by
      rw [getCharValueByPath]
      rcases getNodeByXPath path 0 n doc with ⟨_ | nn, doc'⟩ <;> rfl
    rw [← hsame, h.readsOnly none] at hmore
    exact lt_irrefl _ hmore
  · intro hl
    cases ht : denoted path n doc with
    | none =>
        have hget := getCharValueByPath_of_missing hp hl ht
        have hset := setCharValueByPath_of_missing hp hl ht
        have hnot : ∀ v doc', doc.setCharValueByPath n flagsOverwriteValues path v ≠ (0, doc') := by
          intro v doc' heq
          rw [hset] at heq
          exact absurd (congrArg Prod.fst heq) (show errorInvalid ≠ 0 by decide)
        exact {
          readBack := fun v doc' heq => absurd heq (hnot v doc')
          others := fun v doc' heq => absurd heq (hnot v doc')
          failed := by
            intro v rv doc' heq _
            rw [hset] at heq
            exact (congrArg Prod.snd heq).symm
          readsOnly := fun d => by rw [hget]
          readsIntOnly := fun d => by rw [getIntValueByPath, hget]
          missing := fun _ d => by rw [hget]
          missingInt := fun _ d => by
            rw [getIntValueByPath, hget]
            rfl }
    | some t =>
        obtain ⟨hok, hfollow⟩ := denoted_eq_some ht
        have htlt := hdoc.follow_lt hn hp hfollow
        have hget := getCharValueByPath_of_denoted hp ht
        have hset := setCharValueByPath_of_denoted hp ht
        have hstays : ∀ v, denoted path n (doc.overwrite t v) = some t := by
          intro v
          rw [denoted_eq, if_pos hok]
          exact hdoc.follow_overwrite htlt hn hp hfollow (hdoc.acyclic htlt)
        have hdoc' : ∀ {v doc'}, doc.setCharValueByPath n flagsOverwriteValues path v = (0, doc') →
            doc' = doc.overwrite t v := by
          intro v doc' heq
          rw [hset] at heq
          exact (congrArg Prod.snd heq).symm
        refine ⟨?_, ?_, ?_, ?_, ?_, ?_, ?_⟩
        · intro v doc' heq d
          rw [hdoc' heq, getCharValueByPath_of_denoted hp (hstays v), firstData_overwrite_self htlt]
          rfl
        · intro v doc' heq q m hq hm hout d
          rw [hdoc' heq] at hout ⊢
          have hnot := hout t (hstays v)
          obtain ⟨hokq, hfollowq⟩ := denoted_eq_some hm
          have hmlt := hdoc.follow_lt hn hq hfollowq
          have hmt : m ≠ t := by
            rintro rfl
            exact hnot .refl
          have hqstays : denoted q n (doc.overwrite t v) = some m := by
            rw [denoted_eq, if_pos hokq]
            exact hdoc.follow_overwrite htlt hn hq hfollowq fun hbelow => hnot hbelow.to_reflTransGen
          rw [getCharValueByPath_of_denoted hq hqstays, getCharValueByPath_of_denoted hq hm,
            hdoc.firstData_overwrite htlt hmlt hmt]
        · intro v rv doc' heq hrv
          rw [hset] at heq
          exact absurd (congrArg Prod.fst heq).symm hrv
        · intro d
          rw [hget]
        · intro d
          rw [getIntValueByPath, hget]
        · intro hnone
          rw [ht] at hnone
          cases hnone
        · intro hnone
          rw [ht] at hnone
          cases hnone

def rootWithTag : XmlDoc :=
  ⟨fun n => if n = 0 then ⟨.tag, CString.ofChars ['r'], [], [1], none⟩
    else ⟨.tag, CString.ofChars ['a'], [], [], some 0⟩, 2⟩

theorem isTree_rootWithTag : rootWithTag.IsTree where
  known := by
    intro n m hn hm
    have hlt : ∀ n < 2, ∀ m ∈ (rootWithTag.node n).children, m < 2 := by decide
    exact hlt n hn m hm
  acyclic := by
    intro n hn hbelow
    have hlt : ∀ n < 2, ∀ m ∈ (rootWithTag.node n).children, n < m ∧ m < 2 := by decide
    have hmono : ∀ m, TransGen rootWithTag.IsChild n m → n < m ∧ m < 2 := by
      intro m hm
      induction hm with
      | single h => exact hlt n hn _ h
      | tail _ h ih =>
          have := hlt _ ih.2 _ h
          exact ⟨ih.1.trans this.1, this.2⟩
    exact lt_irrefl n (hmono n hbelow).1

/-- The element is there, with a wildcard for its name; what it does not have is asked for with an
index. -/
theorem readsAndWrites_iff_tag : (ReadsAndWrites rootWithTag 0 [code '/', code '?'] ↔
        rootWithTag.lacksTag (splitPath [code '/', code '?']).1 0 = false) ∧
      rootWithTag.lacksTag (splitPath [code '/', code '?']).1 0 = false :=
  ⟨readsAndWrites_iff isTree_rootWithTag (by decide) (by unfold OfNames; decide), by decide⟩

/-- The value of an element is read that is not there: the element is created. -/
theorem not_readsAndWrites_missing :
    ¬ ∀ (doc : XmlDoc) (n : ℕ) (path : List UInt8), doc.IsTree → n < doc.size → OfNames path →
      ReadsAndWrites doc n path := by
  intro h
  have hread := (h rootWithTag 0 [code 'b'] isTree_rootWithTag (by decide)
    (by unfold OfNames; decide)).readsOnly none
  have hsize : 3 = 2 := congrArg XmlDoc.size hread
  cases hsize
end Gwenhywfar.XmlDoc
