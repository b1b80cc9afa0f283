import Gwenhywfar.Parser.Path

/-! # The nodes of an XML document in memory

* `XmlDoc`: the nodes by their addresses, with their properties, children and parents.
* `comparePattern`: `GWEN_Text_ComparePattern` without regard to case; the names of elements are
  looked up with it.
* `getNodeByXPath`: `GWEN_XMLNode_GetNodeByXPath`, which creates elements unless the flags forbid
  it; `denoted` only looks at the document.
* With the flags that importing a document uses a lookup finds what is denoted and leaves the
  document as it is, or it makes the document bigger (`getNodeByXPath_cases`). -/

namespace Gwenhywfar

open Db Gwenhywfar.Path
open CString (ofBytes)

/-- `GWEN_XMLNODE_TYPE`. -/
inductive XmlNodeType where
  | tag
  | data
  | comment
deriving DecidableEq

/-- `GWEN_XMLNODE`; a property may have no value. -/
structure XmlNode where
  typ : XmlNodeType
  data : CString
  properties : List (CString × Option CString)
  children : List ℕ
  parent : Option ℕ
deriving DecidableEq

/-- The nodes at the addresses below `size`. -/
structure XmlDoc where
  node : ℕ → XmlNode
  size : ℕ

def CString.ofChars (cs : List Char) : CString := ofBytes (cs.map code)

/-! ### Patterns -/

/-- `_cmpSegment`, with the rest of the word and of the pattern. -/
def cmpSegment : List UInt8 → List UInt8 → Bool × List UInt8 × List UInt8
  | a :: w, b :: p =>
      if b = code '*' then (true, a :: w, b :: p)
      else if toUpper a ≠ toUpper b ∧ toUpper b ≠ code '?' then (false, a :: w, b :: p)
      else cmpSegment w p
  | [], [] => (true, [], [])
  | [], b :: p => (b = code '*', [], b :: p)
  | a :: w, [] => (false, a :: w, [])

/-- `_findSegment`. -/
def findSegment : List UInt8 → List UInt8 → Option (List UInt8 × List UInt8)
  | [], _ => none
  | a :: w, p =>
      match cmpSegment (a :: w) p with
      | (true, w', p') => some (w', p')
      | (false, _, _) => findSegment w p

/-- The loop of `GWEN_Text_ComparePattern`; each round takes a `*` from the pattern. -/
def patternLoop : ℕ → List UInt8 → List UInt8 → Bool
  | _, _, [] => true
  | 0, _, _ :: _ => false
  | _ + 1, _, [_] => true
  | k + 1, w, _ :: p =>
      match findSegment w p with
      | none => false
      | some (w', p') => patternLoop k w' p'

/-- `GWEN_Text_ComparePattern` finds a match. -/
def comparePattern (w p : CString) : Bool :=
  match cmpSegment w.bytes p.bytes with
  | (false, _, _) => false
  | (true, w', p') => patternLoop p.bytes.length w' p'

namespace XmlDoc

/-! ### Reading nodes -/

/-- `GWEN_XMLNode_GetProperty`, with no default value. -/
def getProperty (properties : List (CString × Option CString)) (name : CString) : Option CString :=
  (properties.find? fun p => strcaseEq p.1 name).bind Prod.snd

/-- An element whose name matches. -/
def isTag (doc : XmlDoc) (name : CString) (nn : ℕ) : Bool :=
  (doc.node nn).typ = .tag && comparePattern (doc.node nn).data name

/-- The elements that `GWEN_XMLNode_FindFirstTag` and `GWEN_XMLNode_FindNextTag` find below a node,
in their order. -/
def tags (doc : XmlDoc) (n : ℕ) (name : CString) : List ℕ :=
  (doc.node n).children.filter (doc.isTag name)

/-- The matching element that is the next one from a position among the children on, with its
position. -/
def findTagFrom (doc : XmlDoc) (n : ℕ) (name : CString) (i : ℕ) : Option (ℕ × ℕ) :=
  (((doc.node n).children.drop i).findIdx? (doc.isTag name)).bind fun k =>
    ((doc.node n).children[i + k]?).map fun nn => (i + k, nn)

/-- The data of `GWEN_XMLNode_GetFirstData`. -/
def firstData (doc : XmlDoc) (n : ℕ) : Option CString :=
  ((doc.node n).children.find? fun nn => (doc.node nn).typ = .data).map fun nn =>
    (doc.node nn).data

/-- The loop of `GWEN_XMLNode_HandlePath` that counts the matching elements. -/
def nthTag : List ℕ → (idx : Int32) → Option ℕ
  | [], _ => none
  | nn :: rest, idx => if idx = 0 then some nn else nthTag rest (idx - 1)

def rootOf (doc : XmlDoc) : ℕ → ℕ → ℕ
  | 0, n => n
  | k + 1, n =>
      match (doc.node n).parent with
      | none => n
      | some p => rootOf doc k p

/-! ### Paths -/

/-- A new element at the end of the children, by `GWEN_XMLNode_new` and
`GWEN_XMLNode_AddChild`. -/
def addTag (doc : XmlDoc) (n : ℕ) (name : CString) : XmlDoc :=
  let node := Function.update doc.node doc.size ⟨.tag, name, [], [], some n⟩
  ⟨Function.update node n { node n with children := (node n).children ++ [doc.size] },
    doc.size + 1⟩

def parentName : CString := CString.ofChars ['.', '.']

def selfNames : List CString :=
  [CString.ofChars ['.'], CString.ofChars ['h', 'e', 'r', 'e', '(', ')']]

/-- `GWEN_XMLNode_HandlePath`. -/
def handlePath (entry : List UInt8) (n : ℕ) (idx : Int32) (flags : UInt32) (doc : XmlDoc) :
    Option ℕ × XmlDoc :=
  if has flags flagsVariable then (none, doc)
  else
    let n := if has flags flagsRoot then doc.rootOf doc.size n else n
    let entry := if has flags flagsRoot ∧ entry.head? = some (code '/') then entry.tail else entry
    let name := ofBytes entry
    if strcaseEq name parentName then ((doc.node n).parent, doc)
    else if selfNames.any (strcaseEq name) then (some n, doc)
    else if has flags flagsLast && has flags flagsCreateGroup ||
        !has flags flagsLast && has flags flagsPathCreate then
      if idx ≠ 0 then (none, doc) else (some doc.size, doc.addTag n name)
    else
      match nthTag (doc.tags n name) idx with
      | none =>
          if !has flags flagsLast && has flags flagsPathMustExist || has flags flagsNameMustExist
          then (none, doc)
          else if idx ≠ 0 then (none, doc)
          else (some doc.size, doc.addTag n name)
      | some nn =>
          if has flags flagsLast && has flags flagsNameMustNotExist ||
              !has flags flagsLast && has flags flagsPathMustNotExist then (none, doc)
          else (some nn, doc)

/-- `GWEN_XMLNode_GetNodeByXPath`. -/
def getNodeByXPath (path : List UInt8) (flags : UInt32) (n : ℕ) (doc : XmlDoc) :
    Option ℕ × XmlDoc :=
  handleWithIdx handlePath flags path n doc

def elementAt (doc : XmlDoc) (n : ℕ) (name : CString) (idx : Int32) : Option ℕ :=
  if strcaseEq name parentName then (doc.node n).parent
  else if selfNames.any (strcaseEq name) then some n
  else nthTag (doc.tags n name) idx

def denoted (path : List UInt8) (n : ℕ) (doc : XmlDoc) : Option ℕ :=
  (handleWithIdx (fun entry n idx _ doc => (elementAt doc n (ofBytes entry) idx, doc)) 0
    path n doc).1

/-! ### Lookups that create nothing -/

/-- The flags of the lookups while a document is imported. -/
def ReadFlags (flags : UInt32) : Prop := flags = 0 ∨ flags = flagsPathMustExist

theorem size_addTag (doc : XmlDoc) (n : ℕ) (name : CString) : doc.size < (doc.addTag n name).size :=
  Nat.lt_succ_self _

/-- An element of a path is found, or it is created. -/
theorem handlePath_cases {origflags : UInt32} (hf : ReadFlags origflags) (entry : List UInt8)
    (n : ℕ) (idx : Int32) (last : Bool) (doc : XmlDoc) :
    handlePath entry n idx (elementFlags origflags false last false) doc =
        (doc.elementAt n (ofBytes entry) idx, doc) ∨
      doc.size < (handlePath entry n idx (elementFlags origflags false last false) doc).2.size := by
  have hflag : ∀ mask, mask ∈ [flagsVariable, flagsRoot, flagsCreateGroup, flagsPathCreate,
      flagsNameMustExist, flagsNameMustNotExist, flagsPathMustNotExist] →
      has (elementFlags origflags false last false) mask = false := by
    intro mask hmask
    simp only [List.mem_cons, List.not_mem_nil, or_false] at hmask
    rcases hf with rfl | rfl <;> cases last <;>
      rcases hmask with rfl | rfl | rfl | rfl | rfl | rfl | rfl <;> decide
  unfold handlePath elementAt
  simp only [hflag flagsVariable (by decide), hflag flagsRoot (by decide),
    hflag flagsCreateGroup (by decide), hflag flagsPathCreate (by decide),
    hflag flagsNameMustExist (by decide), hflag flagsNameMustNotExist (by decide),
    hflag flagsPathMustNotExist (by decide), Bool.false_eq_true, if_false, false_and,
    Bool.and_false, Bool.or_false]
  by_cases hparent : strcaseEq (ofBytes entry) parentName
  · rw [if_pos hparent, if_pos hparent]
    exact .inl rfl
  by_cases hself : selfNames.any (strcaseEq (ofBytes entry))
  · rw [if_neg hparent, if_neg hparent, if_pos hself, if_pos hself]
    exact .inl rfl
  rw [if_neg hparent, if_neg hparent, if_neg hself, if_neg hself]
  cases nthTag (doc.tags n (ofBytes entry)) idx with
  | some nn => exact .inl rfl
  | none =>
      simp only
      by_cases hmust : (!has (elementFlags origflags false last false) flagsLast &&
          has (elementFlags origflags false last false) flagsPathMustExist) = true
      · rw [if_pos hmust]
        exact .inl rfl
      · by_cases hidx : idx ≠ 0
        · rw [if_neg hmust, if_pos hidx]
          exact .inl rfl
        · rw [if_neg hmust, if_neg hidx]
          exact .inr (size_addTag doc n _)

theorem handleLoop_cases {origflags : UInt32} (hf : ReadFlags origflags) :
    ∀ (k : ℕ) (path : List UInt8) (n : ℕ) (doc : XmlDoc),
      handleLoop handlePath origflags k path false n doc =
          handleLoop (fun entry n idx _ doc => (elementAt doc n (ofBytes entry) idx, doc))
            0 k path false n doc ∧
          (handleLoop handlePath origflags k path false n doc).2 = doc ∨
        doc.size < (handleLoop handlePath origflags k path false n doc).2.size
  | k, [], n, doc => .inl (by cases k <;> exact ⟨rfl, rfl⟩)
  | 0, c :: path, n, doc => .inl ⟨rfl, rfl⟩
  | k + 1, c :: path, n, doc => by
      have hvar : has origflags flagsVariable = false := by rcases hf with rfl | rfl <;> decide
      have hidx : has origflags flagsNoIdx = false := by rcases hf with rfl | rfl <;> decide
      have hconv : ∀ last, has (elementFlags origflags false last false) flagsEscape = false := by
        rcases hf with rfl | rfl <;> decide
      have hvar0 : has 0 flagsVariable = false := by decide
      have hidx0 : has 0 flagsNoIdx = false := by decide
      have hconv0 : ∀ last, has (elementFlags 0 false last false) flagsEscape = false := by decide
      rw [handleLoop, handleLoop]
      simp only [hvar, hidx, hvar0, hidx0, Bool.false_eq_true, if_false, and_false,
        Bool.and_false, List.nil_append, convert, hconv, hconv0]
      cases splitIndex ((c :: path).takeWhile fun c => !isSlash c) with
      | none => exact .inl ⟨rfl, rfl⟩
      | some ni =>
          obtain ⟨name, idx⟩ := ni
          simp only
          generalize ((c :: path).dropWhile fun c => !isSlash c).dropWhile isSlash = rest
          rcases handlePath_cases hf name n idx (rest == []) doc with he | he
          · rw [he]
            cases elementAt doc n (ofBytes name) idx with
            | none => exact .inl ⟨rfl, rfl⟩
            | some nn => exact handleLoop_cases hf k rest nn doc
          · refine .inr ?_
            obtain ⟨⟨o, doc'⟩, hr⟩ : ∃ r,
                handlePath name n idx (elementFlags origflags false (rest == []) false) doc = r :=
              ⟨_, rfl⟩
            rw [hr] at he ⊢
            cases o with
            | none => exact he
            | some nn =>
                rcases handleLoop_cases hf k rest nn doc' with ⟨-, hsame⟩ | hmore
                · simp only
                  rwa [hsame]
                · exact Nat.lt_trans he hmore

theorem getNodeByXPath_cases {flags : UInt32} (hf : ReadFlags flags) (path : List UInt8) (n : ℕ)
    (doc : XmlDoc) : getNodeByXPath path flags n doc = (denoted path n doc, doc) ∨
      doc.size < (getNodeByXPath path flags n doc).2.size := by
  have hroot : has flags flagsCheckRoot = false := by rcases hf with rfl | rfl <;> decide
  have hroot0 : has 0 flagsCheckRoot = false := by decide
  unfold getNodeByXPath denoted handleWithIdx
  simp only [hroot, hroot0, Bool.false_and]
  rcases handleLoop_cases hf _ _ n doc with ⟨he, hsame⟩ | hmore
  · rw [he] at hsame ⊢
    exact .inl (Prod.ext rfl hsame)
  · exact .inr hmore

end XmlDoc
end Gwenhywfar
