import Gwenhywfar.Parser.XmlPathValues

/-! # XPath texts of XML nodes

* `getXPath`: `GWEN_XMLNode_GetXPath`, the text of the way from a node to another.
* `IsNamedTree`: a document whose elements have plain names.
* `climb_spec`: the way up ends at the lowest node that both are below.
* `textLeadsTo_iff`: the text leads to the other node if and only if that is the node itself or one
  above it: on the way down the first element is left out, and the others are counted from 1, while
  `GWEN_XMLNode_HandlePath` counts from 0. -/

namespace Gwenhywfar

set_option maxRecDepth 4000

namespace XmlDoc

open Gwenhywfar.Path Db Relation
open CString (ofBytes)

/-! ### The code -/

/-- The loop of `GWEN_XMLNode_IsChildOf`. -/
def isChildOfLoop (doc : XmlDoc) (parent : ℕ) : ℕ → Option ℕ → Bool
  | _, none => false
  | 0, some _ => false
  | k + 1, some n => n = parent || isChildOfLoop doc parent k (doc.node n).parent

/-- `GWEN_XMLNode_IsChildOf`. -/
def isChildOf (doc : XmlDoc) (parent child : ℕ) : Bool :=
  child ≠ parent && doc.isChildOfLoop parent doc.size (doc.node child).parent

def upText : List UInt8 := [code '.', code '.', code '/']

/-- The loop of `GWEN_XMLNode_GetXPath` that goes up to a node above the other one. -/
def climb (doc : XmlDoc) (n2 : ℕ) : ℕ → Option ℕ → List UInt8 → Option (ℕ × List UInt8)
  | _, none, _ => none
  | 0, some _, _ => none
  | k + 1, some ln1, text =>
      if ln1 = n2 || doc.isChildOf ln1 n2 then some (ln1, text)
      else climb doc n2 k (doc.node ln1).parent (text ++ upText)

/-- The occurrence of a node among the matching ones in its level, counted from 1. -/
def occurrence (doc : XmlDoc) (n : ℕ) : Int32 :=
  match (doc.node n).parent with
  | none => 1
  | some p => Int32.ofNat (1 + ((doc.tags p (doc.node n).data).takeWhile (· ≠ n)).length)

def element (doc : XmlDoc) (n : ℕ) : List UInt8 :=
  (doc.node n).data.bytes ++ code '[' :: printInt (doc.occurrence n) ++ [code ']']

/-- The loop of `GWEN_XMLNode_GetXPath` that puts the elements in front of the text, up to a child
of `ln1`; without such a child the assertion behind the loop fails. -/
def downPath (doc : XmlDoc) (ln1 : Option ℕ) : ℕ → Option ℕ → List UInt8 → Option (List UInt8)
  | _, none, _ => none
  | 0, some _, _ => none
  | k + 1, some ln2, text =>
      if (doc.node ln2).parent = ln1 then some text
      else downPath doc ln1 k (doc.node ln2).parent (code '/' :: doc.element ln2 ++ text)

/-- `GWEN_XMLNode_GetXPath`. -/
def getXPath (doc : XmlDoc) (n1 n2 : ℕ) : Option (ℤ × List UInt8) :=
  if n2 = n1 then some (0, ['h', 'e', 'r', 'e', '(', ')'].map code)
  else
    match (doc.node n1).parent with
    | none => (doc.downPath none doc.size (some n2) []).map fun text => (0, text)
    | some p =>
        match doc.climb n2 doc.size (some p) upText with
        | none => some (-1, [])
        | some (ln1, up) =>
            if ln1 = n2 then some (0, up)
            else (doc.downPath (some ln1) doc.size (some n2) []).map fun text => (0, up ++ text)

def xpathFlags : UInt32 := flagsPathMustExist ||| flagsNameMustExist ||| flagsCheckRoot

def LeadsTo (doc : XmlDoc) (n1 n2 : ℕ) : Prop :=
  ∀ text, doc.getXPath n1 n2 = some (0, text) →
    getNodeByXPath text xpathFlags n1 doc = (some n2, doc)

/-! ### Trees -/

/-- A name without delimiters, brackets, wildcards and white space, which is none of the names for
the node itself and the one above. -/
structure IsPlainName (name : CString) : Prop where
  ne_nil : name.bytes ≠ []
  plain : ∀ c ∈ name.bytes, isSlash c = false ∧ isSpace c = false ∧
    c ∉ [code '[', code ']', code '*', code '?']
  ne_parent : name ≠ parentName
  ne_self : name ∉ selfNames

/-- The nodes are a tree with plain names of elements, in which only elements have children. -/
structure IsNamedTree (doc : XmlDoc) : Prop where
  known : ∀ {p n}, p < doc.size → doc.IsChild p n → n < doc.size
  parent_iff : ∀ {p n}, n < doc.size → ((doc.node n).parent = some p ↔ p < doc.size ∧ doc.IsChild p n)
  nodup : ∀ {p}, p < doc.size → (doc.node p).children.Nodup
  root : ∃ r < doc.size, ∀ n < doc.size, (doc.node n).parent = none ↔ n = r
  depth : ∃ depth : ℕ → ℕ, ∀ {p n}, n < doc.size → (doc.node n).parent = some p →
    depth n = depth p + 1 ∧ depth n < doc.size
  inner : ∀ {p n}, p < doc.size → doc.IsChild p n → (doc.node p).typ = .tag
  names : ∀ {n}, n < doc.size → (doc.node n).typ = .tag → IsPlainName (doc.node n).data

def up (doc : XmlDoc) : ℕ → ℕ → Option ℕ
  | 0, n => some n
  | i + 1, n => (doc.node n).parent.bind (up doc i)

def upTexts (i : ℕ) : List UInt8 := (List.replicate i upText).flatten

theorem upTexts_succ (i : ℕ) : upTexts (i + 1) = upText ++ upTexts i := by
  rw [upTexts, List.replicate_succ, List.flatten_cons, upTexts]

def downText (doc : XmlDoc) (nodes : List ℕ) : List UInt8 :=
  (nodes.map fun v => code '/' :: doc.element v).flatten

namespace IsNamedTree

variable {doc : XmlDoc} {n m p x y : ℕ}

theorem induct (h : doc.IsNamedTree) {P : ℕ → Prop}
    (hstep : ∀ n < doc.size, (∀ p, (doc.node n).parent = some p → P p) → P n) :
    ∀ n < doc.size, P n := by
  obtain ⟨depth, hd⟩ := h.depth
  have hbound : ∀ k, ∀ n < doc.size, depth n < k → P n := by
    intro k
    induction k with
    | zero => exact fun n _ hlt => absurd hlt (Nat.not_lt_zero _)
    | succ k ih =>
        intro n hn hlt
        refine hstep n hn fun p hp => ih p ((h.parent_iff hn).mp hp).1 ?_
        have := (hd hn hp).1
        omega
  exact fun n hn => hbound (depth n + 1) n hn (Nat.lt_succ_self _)

theorem parent_lt (h : doc.IsNamedTree) (hn : n < doc.size) (hp : (doc.node n).parent = some p) :
    p < doc.size := ((h.parent_iff hn).mp hp).1

theorem isChild (h : doc.IsNamedTree) (hn : n < doc.size) (hp : (doc.node n).parent = some p) :
    doc.IsChild p n := ((h.parent_iff hn).mp hp).2

theorem below_iff (h : doc.IsNamedTree) (hx : x < doc.size) (hn : n < doc.size) :
    ReflTransGen doc.IsChild x n ↔
      n = x ∨ ∃ p, (doc.node n).parent = some p ∧ ReflTransGen doc.IsChild x p := by
  constructor
  · intro hbelow
    rcases hbelow.cases_tail with rfl | ⟨p, hxp, hpn⟩
    · exact .inl rfl
    · have hp : p < doc.size := by
        refine hxp.head_induction_on (motive := fun a _ => a < doc.size → p < doc.size) id ?_ hx
        exact fun hab _ ih ha => ih (h.known ha hab)
      exact .inr ⟨p, (h.parent_iff hn).mpr ⟨hp, hpn⟩, hxp⟩
  · rintro (rfl | ⟨p, hp, hxp⟩)
    · exact .refl
    · exact hxp.tail (h.isChild hn hp)

theorem below_antisymm (h : doc.IsNamedTree) (hx : x < doc.size) (hn : n < doc.size)
    (hxn : ReflTransGen doc.IsChild x n) (hnx : ReflTransGen doc.IsChild n x) : x = n := by
  obtain ⟨depth, hd⟩ := h.depth
  have hle : ∀ {a b}, a < doc.size → ReflTransGen doc.IsChild a b →
      b < doc.size ∧ depth a ≤ depth b ∧ (depth a = depth b → a = b) := by
    intro a b ha hab
    induction hab with
    | refl => exact ⟨ha, le_rfl, fun _ => rfl⟩
    | tail _ hbc ih =>
        have hc := h.known ih.1 hbc
        have := (hd hc ((h.parent_iff hc).mpr ⟨ih.1, hbc⟩)).1
        refine ⟨hc, by omega, fun heq => ?_⟩
        omega
  have h1 := hle hx hxn
  have h2 := hle hn hnx
  exact h1.2.2 (by omega)

theorem isChildOfLoop_iff (h : doc.IsNamedTree) (hx : x < doc.size) {depth : ℕ → ℕ}
    (hd : ∀ {p n}, n < doc.size → (doc.node n).parent = some p →
      depth n = depth p + 1 ∧ depth n < doc.size) :
    ∀ (k n : ℕ), n < doc.size → depth n < k →
    (doc.isChildOfLoop x k (some n) = true ↔ ReflTransGen doc.IsChild x n)
  | 0, n, _, hlt => absurd hlt (Nat.not_lt_zero _)
  | k + 1, n, hn, hlt => by
      rw [isChildOfLoop, Bool.or_eq_true, decide_eq_true_iff, h.below_iff hx hn]
      refine or_congr_right ?_
      cases hp : (doc.node n).parent with
      | none =>
          have hnone : doc.isChildOfLoop x k none = false := by cases k <;> rfl
          simp only [hnone, Bool.false_eq_true, reduceCtorEq, false_and, exists_const]
      | some p =>
          have hdepth := (hd hn hp).1
          rw [h.isChildOfLoop_iff hx hd k p (h.parent_lt hn hp) (by omega)]
          simp only [Option.some.injEq, exists_eq_left']

theorem isChildOf_iff (h : doc.IsNamedTree) (hx : x < doc.size) (hn : n < doc.size) :
    (x = n || doc.isChildOf x n) = true ↔ ReflTransGen doc.IsChild x n := by
  obtain ⟨depth, hd⟩ := h.depth
  rw [Bool.or_eq_true, decide_eq_true_iff, h.below_iff hx hn, eq_comm]
  by_cases hxn : n = x
  · exact iff_of_true (.inl hxn) (.inl hxn)
  · refine or_congr_right ?_
    rw [isChildOf, decide_eq_true hxn, Bool.true_and]
    cases hp : (doc.node n).parent with
    | none =>
        have hnone : doc.isChildOfLoop x doc.size none = false := by cases doc.size <;> rfl
        simp only [hnone, Bool.false_eq_true, reduceCtorEq, false_and, exists_const]
    | some p =>
        have hdepth := hd hn hp
        rw [h.isChildOfLoop_iff hx hd _ p (h.parent_lt hn hp) (by omega)]
        simp only [Option.some.injEq, exists_eq_left']

theorem exists_root (h : doc.IsNamedTree) : ∃ r < doc.size, (doc.node r).parent = none ∧
      ∀ n < doc.size, ReflTransGen doc.IsChild r n := by
  obtain ⟨r, hr, hroot⟩ := h.root
  refine ⟨r, hr, (hroot r hr).mpr rfl, h.induct fun n hn ih => ?_⟩
  rw [h.below_iff hr hn]
  cases hp : (doc.node n).parent with
  | none => exact .inl ((hroot n hn).mp hp)
  | some p => exact .inr ⟨p, rfl, ih p hp⟩

theorem climb_spec (h : doc.IsNamedTree) {n2 : ℕ} (hn2 : n2 < doc.size) {depth : ℕ → ℕ}
    (hd : ∀ {p n}, n < doc.size → (doc.node n).parent = some p →
      depth n = depth p + 1 ∧ depth n < doc.size) :
    ∀ (k p : ℕ) (text : List UInt8), p < doc.size → depth p < k →
    ∃ x i, doc.climb n2 k (some p) text = some (x, text ++ upTexts i) ∧ up doc i p = some x ∧
      x < doc.size ∧ ReflTransGen doc.IsChild x p ∧ ReflTransGen doc.IsChild x n2 ∧
      ∀ y < doc.size, ReflTransGen doc.IsChild y p → ReflTransGen doc.IsChild y n2 →
        ReflTransGen doc.IsChild y x
  | 0, p, _, _, hlt => absurd hlt (Nat.not_lt_zero _)
  | k + 1, p, text, hp, hlt => by
      rw [climb]
      by_cases habove : ReflTransGen doc.IsChild p n2
      · rw [if_pos ((h.isChildOf_iff hp hn2).mpr habove)]
        exact ⟨p, 0, by rw [upTexts, List.replicate_zero, List.flatten_nil, List.append_nil], rfl,
          hp, .refl, habove, fun y _ hyp _ => hyp⟩
      · rw [if_neg (mt (h.isChildOf_iff hp hn2).mp habove)]
        obtain ⟨q, hq⟩ : ∃ q, (doc.node p).parent = some q := by
          obtain ⟨r, hr, -, hall⟩ := h.exists_root
          rcases (h.below_iff hr hp).mp (hall p hp) with rfl | ⟨q, hq, -⟩
          · exact absurd (hall n2 hn2) habove
          · exact ⟨q, hq⟩
        have hdepth := (hd hp hq).1
        obtain ⟨x, i, hclimb, hup, hx, hxq, hxn2, hlow⟩ :=
          h.climb_spec hn2 hd k q (text ++ upText) (h.parent_lt hp hq) (by omega)
        refine ⟨x, i + 1, ?_, ?_, hx, hxq.tail (h.isChild hp hq), hxn2, fun y hy hyp hyn2 => ?_⟩
        · rw [hq, hclimb, upTexts_succ, List.append_assoc]
        · rw [up, hq, Option.bind_some, hup]
        · rcases (h.below_iff hy hp).mp hyp with rfl | ⟨q', hq', hyq⟩
          · exact absurd hyn2 habove
          · rw [hq] at hq'
            exact hlow y hy (Option.some.inj hq' ▸ hyq) hyn2

/-- The way down has no element for the first node of it. -/
theorem downPath_spec (h : doc.IsNamedTree) {ln1 : Option ℕ} {depth : ℕ → ℕ}
    (hd : ∀ {p n}, n < doc.size → (doc.node n).parent = some p →
      depth n = depth p + 1 ∧ depth n < doc.size) :
    ∀ (k m : ℕ) (text : List UInt8), m < doc.size → (doc.node m).typ = .tag → depth m < k →
    (∃ z < doc.size, ReflTransGen doc.IsChild z m ∧ (doc.node z).parent = ln1) →
    ∃ nodes, doc.downPath ln1 k (some m) text = some (downText doc nodes ++ text) ∧
      (∀ v ∈ nodes, IsPlainName (doc.node v).data) ∧
      ((doc.node m).parent = ln1 ∧ nodes = [] ∨ ∃ above, nodes = above ++ [m]) ∧
      ∃ z < doc.size, (doc.node z).parent = ln1 ∧ depth m = depth z + nodes.length
  | 0, m, _, _, _, hlt, _ => absurd hlt (Nat.not_lt_zero _)
  | k + 1, m, text, hm, htyp, hlt, hz => by
      rw [downPath]
      by_cases hend : (doc.node m).parent = ln1
      · rw [if_pos hend]
        exact ⟨[], rfl, fun v hv => absurd hv List.not_mem_nil, .inl ⟨hend, rfl⟩, m, hm, hend, rfl⟩
      · rw [if_neg hend]
        obtain ⟨z, hzlt, hzm, hzp⟩ := hz
        rcases (h.below_iff hzlt hm).mp hzm with rfl | ⟨p, hp, hzp2⟩
        · exact absurd hzp hend
        · have hdepth := (hd hm hp).1
          obtain ⟨nodes, hrun, hplain, -, z', hz', hzp', hlen⟩ := h.downPath_spec hd k p
            (code '/' :: doc.element m ++ text) (h.parent_lt hm hp)
            (h.inner (h.parent_lt hm hp) (h.isChild hm hp)) (by omega) ⟨z, hzlt, hzp2, hzp⟩
          refine ⟨nodes ++ [m], ?_, fun v hv => ?_, .inr ⟨nodes, rfl⟩, z', hz', hzp', ?_⟩
          · rw [hp, hrun, downText, downText, List.map_append, List.flatten_append,
              List.append_assoc, List.map_singleton, List.flatten_singleton]
          · rcases List.mem_append.mp hv with hv | hv
            · exact hplain v hv
            · rw [List.mem_singleton.mp hv]
              exact h.names hm htyp
          · rw [List.length_append, List.length_singleton]
            omega

end IsNamedTree

/-! ### Reading the text -/

variable {doc : XmlDoc} {n m : ℕ}

/-- An element that is looked up; the first one behind slashes is looked up from the root. -/
theorem handlePath_xpathFlags (entry : List UInt8) (n : ℕ) (idx : Int32) (root last : Bool)
    (doc : XmlDoc) (hentry : root = false ∨ entry.head? = some (code '/')) :
    handlePath entry n idx (elementFlags xpathFlags root last false) doc =
      (doc.elementAt (if root then doc.rootOf doc.size n else n)
        (ofBytes (if root then entry.tail else entry)) idx, doc) := by
  have hflag : ∀ mask, mask ∈ [flagsVariable, flagsCreateGroup, flagsPathCreate,
      flagsNameMustNotExist, flagsPathMustNotExist] →
      has (elementFlags xpathFlags root last false) mask = false := by
    intro mask hmask
    simp only [List.mem_cons, List.not_mem_nil, or_false] at hmask
    cases root <;> cases last <;> rcases hmask with rfl | rfl | rfl | rfl | rfl <;> decide
  have hroot : has (elementFlags xpathFlags root last false) flagsRoot = root := by
    cases root <;> cases last <;> decide
  have hmust : has (elementFlags xpathFlags root last false) flagsNameMustExist = true := by
    cases root <;> cases last <;> decide
  have hname : (if root = true ∧ entry.head? = some (code '/') then entry.tail else entry) =
      if root then entry.tail else entry := by
    rcases hentry with rfl | hentry
    · rfl
    · simp only [hentry, and_true]
  unfold handlePath elementAt
  simp only [hflag flagsVariable (by decide), hflag flagsCreateGroup (by decide),
    hflag flagsPathCreate (by decide), hflag flagsNameMustNotExist (by decide),
    hflag flagsPathMustNotExist (by decide), hroot, hmust, hname, Bool.false_eq_true, if_false,
    Bool.and_false, Bool.or_false, Bool.or_true, if_true]
  by_cases hparent : strcaseEq (ofBytes (if root then entry.tail else entry)) parentName
  · rw [if_pos hparent, if_pos hparent]
  by_cases hself :
      selfNames.any (strcaseEq (ofBytes (if root then entry.tail else entry)))
  · rw [if_neg hparent, if_neg hparent, if_pos hself, if_pos hself]
  · rw [if_neg hparent, if_neg hparent, if_neg hself, if_neg hself]
    cases nthTag (doc.tags (if root then doc.rootOf doc.size n else n)
      (ofBytes (if root then entry.tail else entry))) idx <;> rfl

def readLoop (doc : XmlDoc) (k : ℕ) (text : List UInt8) (root : Bool) (n : ℕ) : Option ℕ × XmlDoc :=
  handleLoop handlePath xpathFlags k text root n doc

/-- An element of a text, with what follows it. -/
theorem readLoop_element {seg rest name : List UInt8} {idx : Int32} {root : Bool} (k : ℕ)
    (hne : seg ≠ []) (hseg : ∀ c ∈ seg, isSlash c = false)
    (hrest : ∀ c ∈ rest.head?, isSlash c = true)
    (hsplit : splitIndex ((if root then [code '/'] else []) ++ seg) =
      some ((if root then [code '/'] else []) ++ name, idx)) :
    readLoop doc (k + 1) (seg ++ rest) root n =
      match doc.elementAt (if root then doc.rootOf doc.size n else n) (ofBytes name) idx with
      | none => (none, doc)
      | some m => readLoop doc k (rest.dropWhile isSlash) false m := by
  have hvar : has xpathFlags flagsVariable = false := by decide
  have hnoIdx : has xpathFlags flagsNoIdx = false := by decide
  have hconv : ∀ last, has (elementFlags xpathFlags root last false) flagsEscape = false := by
    cases root <;> decide
  have htake : (seg ++ rest).takeWhile (fun c => !isSlash c) = seg := by
    rw [List.takeWhile_append_of_pos fun c hc => by rw [hseg c hc]; rfl]
    cases rest with
    | nil => rw [List.takeWhile_nil, List.append_nil]
    | cons c rest =>
        rw [List.takeWhile_cons_of_neg (by rw [hrest c rfl]; exact Bool.false_ne_true),
          List.append_nil]
  have hdrop : (seg ++ rest).dropWhile (fun c => !isSlash c) = rest := by
    rw [List.dropWhile_append_of_pos fun c hc => by rw [hseg c hc]; rfl]
    cases rest with
    | nil => rfl
    | cons c rest =>
        rw [List.dropWhile_cons_of_neg (by rw [hrest c rfl]; exact Bool.false_ne_true)]
  obtain ⟨c, seg', rfl⟩ := List.exists_cons_of_ne_nil hne
  have hhead : root = false ∨
      ((if root then [code '/'] else []) ++ name).head? = some (code '/') := by
    cases root
    · exact .inl rfl
    · exact .inr rfl
  have hstrip : (if root then ((if root then [code '/'] else []) ++ name).tail
      else (if root then [code '/'] else []) ++ name) = name := by
    cases root <;> rfl
  rw [readLoop, List.cons_append, handleLoop]
  rw [List.cons_append] at htake hdrop
  simp only [hnoIdx, hvar, htake, hdrop, hsplit, Bool.false_eq_true, if_false, and_false,
    Bool.and_false, convert, hconv, handlePath_xpathFlags _ _ _ _ _ _ hhead, hstrip]
  cases doc.elementAt (if root then doc.rootOf doc.size n else n) (ofBytes name) idx <;> rfl

theorem readLoop_upText (k : ℕ) (rest : List UInt8) (n : ℕ) :
    readLoop doc (k + 1) (upText ++ rest) false n =
      match (doc.node n).parent with
      | none => (none, doc)
      | some p => readLoop doc k (rest.dropWhile isSlash) false p := by
  have hsplit : splitIndex [code '.', code '.'] = some ([code '.', code '.'], 0) :=
    if_neg (by decide)
  have hdots : ∀ c ∈ [code '.', code '.'], isSlash c = false := by
    intro c hc
    rw [List.mem_cons, List.mem_singleton, or_self] at hc
    rw [hc]
    rfl
  have hread := @readLoop_element doc n [code '.', code '.'] (code '/' :: rest)
    [code '.', code '.'] 0 false k (List.cons_ne_nil _ _) hdots
    (fun c hc => Option.some.inj hc ▸ (rfl : isSlash (code '/') = true)) hsplit
  have hat : doc.elementAt n (ofBytes [code '.', code '.']) 0 = (doc.node n).parent := by
    have hup : strcaseEq (ofBytes [code '.', code '.']) parentName = true := by decide
    rw [elementAt, if_pos hup]
  have hslash : isSlash (code '/') = true := rfl
  simp only [Bool.false_eq_true, if_false, hat, List.dropWhile_cons_of_pos hslash] at hread
  exact hread

theorem readLoop_upTexts : ∀ (i : ℕ) {n x k : ℕ} {text : List UInt8}, up doc i n = some x → 1 ≤ i →
    readLoop doc (k + i) (upTexts i ++ text) false n =
      readLoop doc k (text.dropWhile isSlash) false x
  | 0, _, _, _, _, _, hi => absurd hi (by decide)
  | i + 1, n, x, k, text, hup, _ => by
      obtain ⟨p, hp, hrest⟩ := Option.bind_eq_some_iff.mp hup
      rw [upTexts_succ, List.append_assoc, ← Nat.add_assoc, readLoop_upText, hp]
      cases i with
      | zero =>
          obtain rfl := Option.some.inj hrest
          rfl
      | succ i =>
          have hdrop : (upTexts (i + 1) ++ text).dropWhile isSlash = upTexts (i + 1) ++ text := by
            rw [upTexts_succ]
            exact List.dropWhile_cons_of_neg (show ¬ isSlash (code '.') = true by decide)
          simp only [hdrop]
          exact readLoop_upTexts (i + 1) hrest (Nat.succ_pos i)

theorem splitIndex_occurrence {name : List UInt8} (hname : code '[' ∉ name) (idx : Int32) :
    splitIndex (name ++ (code '[' :: printInt idx ++ [code ']'])) = some (name, idx) := by
  have hdigits : code ']' ∉ printInt idx := not_mem_printInt idx (by decide) (by decide)
  have hbefore : ∀ c ∈ name, (c != code '[') = true := fun c hc =>
    bne_iff_ne.mpr fun heq => hname (heq ▸ hc)
  have hnumber : ∀ c ∈ printInt idx, (c != code ']') = true := fun c hc =>
    bne_iff_ne.mpr fun heq => hdigits (heq ▸ hc)
  have hopen : ¬ (fun c => c != code '[') (code '[') = true := by decide
  have hclose : ¬ (fun c => c != code ']') (code ']') = true := by decide
  have htake : (name ++ (code '[' :: printInt idx ++ [code ']'])).takeWhile (· != code '[') =
      name := by
    rw [List.takeWhile_append_of_pos hbefore, List.cons_append,
      List.takeWhile_cons_of_neg (p := fun c => c != code '[') hopen, List.append_nil]
  have hdrop : (name ++ (code '[' :: printInt idx ++ [code ']'])).dropWhile (· != code '[') =
      code '[' :: (printInt idx ++ [code ']']) := by
    rw [List.dropWhile_append_of_pos hbefore, List.cons_append,
      List.dropWhile_cons_of_neg (p := fun c => c != code '[') hopen]
  have hindex : (printInt idx ++ [code ']']).takeWhile (· != code ']') = printInt idx := by
    rw [List.takeWhile_append_of_pos hnumber, List.takeWhile_cons_of_neg (p := fun c => c != code ']') hclose,
      List.append_nil]
  have hin : code '[' ∈ name ++ (code '[' :: printInt idx ++ [code ']']) :=
    List.mem_append_right _ List.mem_cons_self
  have hend : code ']' ∈ printInt idx ++ [code ']'] := List.mem_append_right _ List.mem_cons_self
  unfold splitIndex
  simp only [hdrop, htake, List.tail_cons, hindex, scanInt_printInt, if_pos hin, if_pos hend,
    Option.map_some]

theorem readLoop_downText (hm : IsPlainName (doc.node m).data) (k n : ℕ) (root : Bool)
    (nodes : List ℕ) :
    readLoop doc (k + 1) (doc.element m ++ downText doc nodes) root n =
      match doc.elementAt (if root then doc.rootOf doc.size n else n) (doc.node m).data
        (doc.occurrence m) with
      | none => (none, doc)
      | some m => readLoop doc k ((downText doc nodes).dropWhile isSlash) false m := by
  have hbracket : code '[' ∉ (doc.node m).data.bytes := fun hmem =>
    (hm.plain _ hmem).2.2 List.mem_cons_self
  have hroot : code '[' ∉ (if root then [code '/'] else []) ++ (doc.node m).data.bytes := by
    rw [List.mem_append, not_or]
    exact ⟨by cases root <;> decide, hbracket⟩
  have hslashes : ∀ c ∈ doc.element m, isSlash c = false := by
    have hdigits : ∀ c ∈ printInt (doc.occurrence m), isSlash c = false := by
      intro c hc
      by_contra hslash
      have hcases : c = code '/' ∨ c = code '\\' := by
        rw [Bool.not_eq_false, isSlash, Bool.or_eq_true, beq_iff_eq, beq_iff_eq] at hslash
        exact hslash
      rcases hcases with rfl | rfl <;>
        exact not_mem_printInt _ (by decide) (by decide) hc
    intro c hc
    rw [element, List.mem_append, List.mem_append, List.mem_cons, List.mem_singleton] at hc
    rcases hc with (hc | rfl | hc) | rfl
    · exact (hm.plain c hc).1
    · decide
    · exact hdigits c hc
    · decide
  have hrest : ∀ c ∈ (downText doc nodes).head?, isSlash c = true := by
    intro c hc
    cases nodes with
    | nil => cases hc
    | cons v nodes => exact Option.some.inj hc ▸ rfl
  have hsplit : splitIndex ((if root then [code '/'] else []) ++ doc.element m) =
      some ((if root then [code '/'] else []) ++ (doc.node m).data.bytes, doc.occurrence m) := by
    rw [element, List.append_assoc, ← List.append_assoc, List.cons_append]
    exact splitIndex_occurrence hroot _
  have hread := @readLoop_element doc n (doc.element m) (downText doc nodes)
    (doc.node m).data.bytes (doc.occurrence m) root k
    (by rw [element, List.append_assoc]; exact List.append_ne_nil_of_left_ne_nil hm.ne_nil _)
    hslashes hrest hsplit
  rwa [CString.ofBytes_eq] at hread

/-! ### Occurrences -/

theorem nthTag_eq : ∀ (nodes : List ℕ) (idx : Int32),
    nthTag nodes idx = nodes[idx.toBitVec.toNat]?
  | [], idx => rfl
  | nn :: rest, idx => by
      rw [nthTag]
      by_cases hidx : idx = 0
      · rw [if_pos hidx, hidx]
        rfl
      · have hne : idx.toBitVec.toNat ≠ 0 := fun h =>
          hidx (Int32.toBitVec_inj.mp (BitVec.eq_of_toNat_eq h))
        have hsub : (idx - 1).toBitVec.toNat = idx.toBitVec.toNat - 1 := by
          rw [Int32.toBitVec_sub]
          have hlt := idx.toBitVec.isLt
          have hone : (1 : Int32).toBitVec.toNat = 1 := rfl
          rw [BitVec.toNat_sub, hone]
          omega
        obtain ⟨i, hi⟩ := Nat.exists_eq_succ_of_ne_zero hne
        rw [if_neg hidx, nthTag_eq rest, hsub, hi, List.getElem?_cons_succ]
        rfl

theorem getElem?_takeWhile_ne : ∀ {nodes : List ℕ} {m : ℕ}, m ∈ nodes →
    nodes[(nodes.takeWhile (· ≠ m)).length]? = some m
  | nn :: rest, m, h => by
      by_cases heq : nn = m
      · rw [List.takeWhile_cons_of_neg (p := fun x => decide (x ≠ m)) (by simpa using heq), heq]
        rfl
      · rw [List.takeWhile_cons_of_pos (p := fun x => decide (x ≠ m)) (by simpa using heq)]
        exact getElem?_takeWhile_ne ((List.mem_cons.mp h).resolve_left (Ne.symm heq))

/-- A plain name leads to a child, or it is another spelling of a name for the node itself. -/
theorem IsPlainName.elementAt_cases {name : CString} (hname : IsPlainName name) {y r : ℕ}
    {idx : Int32} (hat : doc.elementAt y name idx = some r) :
    isName name = true ∧ doc.IsChild y r ∨ r = y := by
  have hparent : strcaseEq name parentName = false := by
    by_contra hcase
    rw [Bool.not_eq_false, strcaseEq_iff] at hcase
    refine hname.ne_parent (CString.ext ?_)
    have hdot : ∀ c : UInt8, toLower c = toLower (code '.') → c = code '.' := by decide
    have hbytes : name.bytes.map toLower = [toLower (code '.'), toLower (code '.')] := hcase
    obtain ⟨c, cs, hcs, hc, hrest⟩ := List.map_eq_cons_iff.mp hbytes
    obtain ⟨c', cs', rfl, hc', hnil⟩ := List.map_eq_cons_iff.mp hrest
    rw [hcs, hdot c hc, hdot c' hc', List.map_eq_nil_iff.mp hnil]
    rfl
  cases hself : selfNames.any (strcaseEq name) with
  | true =>
      rw [elementAt, if_neg (by rw [hparent]; exact Bool.false_ne_true), if_pos hself] at hat
      exact .inr (Option.some.inj hat).symm
  | false =>
      have hisName : isName name = true := by rw [isName, hparent, hself]; rfl
      exact .inl ⟨hisName, isChild_of_elementAt hisName hat⟩

theorem IsNamedTree.elementAt_occurrence_ne (h : doc.IsNamedTree) {y : ℕ} (hy : y < doc.size)
    (hm : m < doc.size) (hname : isName (doc.node m).data = true) :
    doc.elementAt y (doc.node m).data (doc.occurrence m) ≠ some m := by
  intro hat
  have hchild := isChild_of_elementAt hname hat
  have hparent : (doc.node m).parent = some y := (h.parent_iff hm).mpr ⟨hy, hchild⟩
  rw [elementAt_of_isName hname, nthTag_eq, occurrence, hparent] at hat
  have hmem : m ∈ doc.tags y (doc.node m).data := List.mem_of_getElem? hat
  have hnodup : (doc.tags y (doc.node m).data).Nodup := (h.nodup hy).filter _
  have hfound := getElem?_takeWhile_ne hmem
  have hlt := (List.getElem?_eq_some_iff.mp hfound).1
  have hsame := (List.getElem?_inj hlt hnodup).mp (hfound.trans hat.symm)
  have hnat : (Int32.ofNat (1 + ((doc.tags y (doc.node m).data).takeWhile
      (· ≠ m)).length)).toBitVec.toNat =
      (1 + ((doc.tags y (doc.node m).data).takeWhile (· ≠ m)).length) % 2 ^ 32 := rfl
  rw [hnat] at hsame
  omega

theorem IsNamedTree.rootOf_lt (h : doc.IsNamedTree) : ∀ (k : ℕ) {n : ℕ}, n < doc.size →
    doc.rootOf k n < doc.size
  | 0, _, hn => hn
  | k + 1, n, hn => by
      rw [rootOf]
      cases hp : (doc.node n).parent with
      | none => exact hn
      | some p => exact h.rootOf_lt k (h.parent_lt hn hp)

theorem dropWhile_downText {v : ℕ} (hv : IsPlainName (doc.node v).data) (nodes : List ℕ) :
    (downText doc (v :: nodes)).dropWhile isSlash = doc.element v ++ downText doc nodes := by
  obtain ⟨c, cs, hcs⟩ := List.exists_cons_of_ne_nil hv.ne_nil
  have hc : ¬ isSlash c = true := by
    rw [(hv.plain c (hcs ▸ List.mem_cons_self)).1]
    exact Bool.false_ne_true
  have hslash : isSlash (code '/') = true := rfl
  rw [downText, List.map_cons, List.flatten_cons, List.cons_append,
    List.dropWhile_cons_of_pos hslash, element, hcs]
  exact List.dropWhile_cons_of_neg hc

/-- No element leads down by more than one step, and the last one to another node. -/
theorem IsNamedTree.readLoop_ne (h : doc.IsNamedTree) (hm : m < doc.size) {depth : ℕ → ℕ}
    (hd : ∀ {p n}, n < doc.size → (doc.node n).parent = some p →
      depth n = depth p + 1 ∧ depth n < doc.size) :
    ∀ (above : List ℕ) (k n : ℕ) (root : Bool), n < doc.size →
    (∀ v ∈ above ++ [m], IsPlainName (doc.node v).data) →
    depth (if root then doc.rootOf doc.size n else n) + above.length < depth m →
    (readLoop doc k ((downText doc (above ++ [m])).dropWhile isSlash) root n).1 ≠ some m := by
  have hstart : ∀ (n : ℕ) (root : Bool), n < doc.size →
      (if root then doc.rootOf doc.size n else n) < doc.size := by
    intro n root hn
    split
    · exact h.rootOf_lt _ hn
    · exact hn
  have hzero : ∀ (v n : ℕ) (nodes : List ℕ) (root : Bool), IsPlainName (doc.node v).data →
      (readLoop doc 0 (doc.element v ++ downText doc nodes) root n).1 ≠ some m := by
    intro v n nodes root hv hread
    obtain ⟨c, cs, hcs⟩ := List.exists_cons_of_ne_nil hv.ne_nil
    rw [element, hcs] at hread
    cases hread
  intro above
  induction above with
  | nil =>
      intro k n root hn hplain hdepth hread
      have hname : IsPlainName (doc.node m).data := hplain m List.mem_cons_self
      rw [List.nil_append, dropWhile_downText hname] at hread
      cases k with
      | zero => exact hzero m n [] root hname hread
      | succ k =>
          rw [readLoop_downText hname] at hread
          cases hat : doc.elementAt (if root then doc.rootOf doc.size n else n)
              (doc.node m).data (doc.occurrence m) with
          | none =>
              rw [hat] at hread
              cases hread
          | some x =>
              rw [hat] at hread
              have hx : x = m := by cases k <;> exact Option.some.inj hread
              subst hx
              rcases hname.elementAt_cases hat with ⟨hisName, -⟩ | hself
              · exact h.elementAt_occurrence_ne (hstart n root hn) hm hisName hat
              · rw [← hself] at hdepth
                exact absurd hdepth (by rw [List.length_nil]; exact lt_irrefl _)
  | cons v above ih =>
      intro k n root hn hplain hdepth hread
      have hname : IsPlainName (doc.node v).data := hplain v List.mem_cons_self
      rw [List.cons_append, dropWhile_downText hname] at hread
      cases k with
      | zero => exact hzero v n _ root hname hread
      | succ k =>
          rw [readLoop_downText hname] at hread
          cases hat : doc.elementAt (if root then doc.rootOf doc.size n else n)
              (doc.node v).data (doc.occurrence v) with
          | none =>
              rw [hat] at hread
              cases hread
          | some x =>
              rw [hat] at hread
              have hx : x < doc.size ∧
                  depth x ≤ depth (if root then doc.rootOf doc.size n else n) + 1 := by
                rcases hname.elementAt_cases hat with ⟨-, hchild⟩ | rfl
                · have hlt := h.known (hstart n root hn) hchild
                  exact ⟨hlt, (hd hlt ((h.parent_iff hlt).mpr ⟨hstart n root hn, hchild⟩)).1.le⟩
                · exact ⟨hstart n root hn, Nat.le_succ _⟩
              rw [List.length_cons] at hdepth
              refine ih k x false hx.1 (fun w hw => hplain w (List.mem_cons_of_mem v hw)) ?_ hread
              simp only [Bool.false_eq_true, if_false]
              omega

/-! ### Which texts lead to their node -/

/-- A text that begins with steps up. -/
theorem getNodeByXPath_upTexts {i x : ℕ} {text : List UInt8} (hup : up doc i n = some x)
    (hi : 1 ≤ i) : ∃ k, getNodeByXPath (upTexts i ++ text) xpathFlags n doc =
      readLoop doc k (text.dropWhile isSlash) false x := by
  obtain ⟨i, rfl⟩ := Nat.exists_eq_add_of_le' hi
  have hlength : i + 1 ≤ (upTexts (i + 1) ++ text).length := by
    have hall : ∀ i, i ≤ (upTexts i).length := by
      intro i
      induction i with
      | zero => exact Nat.zero_le _
      | succ i ih =>
          rw [upTexts_succ, List.length_append]
          have : upText.length = 3 := rfl
          omega
    rw [List.length_append]
    have := hall (i + 1)
    omega
  obtain ⟨k, hk⟩ := Nat.exists_eq_add_of_le' hlength
  have hcons : upTexts (i + 1) ++ text =
      code '.' :: code '.' :: code '/' :: (upTexts i ++ text) := by
    rw [upTexts_succ]
    rfl
  have hspace : (upTexts (i + 1) ++ text).dropWhile isSpace = upTexts (i + 1) ++ text := by
    rw [hcons]
    exact List.dropWhile_cons_of_neg (by decide)
  have hslash : (upTexts (i + 1) ++ text).dropWhile isSlash = upTexts (i + 1) ++ text := by
    rw [hcons]
    exact List.dropWhile_cons_of_neg (by decide)
  have hhead : ((upTexts (i + 1) ++ text).head?.map isSlash).getD false = false := by
    rw [hcons]
    rfl
  refine ⟨k, ?_⟩
  rw [getNodeByXPath, handleWithIdx]
  simp only [hspace, hslash, hhead, Bool.and_false]
  rw [hk]
  exact readLoop_upTexts (i + 1) hup hi

theorem getNodeByXPath_downText {nodes : List ℕ} (hne : nodes ≠ []) :
    ∃ k, getNodeByXPath (downText doc nodes) xpathFlags n doc =
      readLoop doc k ((downText doc nodes).dropWhile isSlash) true n := by
  obtain ⟨v, nodes, rfl⟩ := List.exists_cons_of_ne_nil hne
  have hspace : (downText doc (v :: nodes)).dropWhile isSpace = downText doc (v :: nodes) :=
    List.dropWhile_cons_of_neg (show ¬ isSpace (code '/') = true by decide)
  have hhead : (has xpathFlags flagsCheckRoot &&
      ((downText doc (v :: nodes)).head?.map isSlash).getD false) = true := by
    have hcheck : has xpathFlags flagsCheckRoot = true := by decide
    rw [hcheck, Bool.true_and]
    rfl
  refine ⟨((downText doc (v :: nodes)).dropWhile isSlash).length, ?_⟩
  rw [getNodeByXPath, handleWithIdx]
  simp only [hspace, hhead]
  rfl

theorem getNodeByXPath_here :
    getNodeByXPath (['h', 'e', 'r', 'e', '(', ')'].map code) xpathFlags n doc = (some n, doc) := by
  have hsplit : splitIndex (['h', 'e', 'r', 'e', '(', ')'].map code) =
      some (['h', 'e', 'r', 'e', '(', ')'].map code, 0) := if_neg (by decide)
  have hplain : ∀ c ∈ ['h', 'e', 'r', 'e', '(', ')'].map code, isSlash c = false := by
    decide
  have hread := @readLoop_element doc n (['h', 'e', 'r', 'e', '(', ')'].map code) []
    (['h', 'e', 'r', 'e', '(', ')'].map code) 0 false 5 (List.cons_ne_nil _ _) hplain
    (fun c hc => absurd hc (by simp)) hsplit
  have hat : doc.elementAt n (ofBytes (['h', 'e', 'r', 'e', '(', ')'].map code)) 0 =
      some n := by
    have hup : ¬ strcaseEq (ofBytes (['h', 'e', 'r', 'e', '(', ')'].map code))
      parentName = true := by decide
    have hself : selfNames.any
      (strcaseEq (ofBytes (['h', 'e', 'r', 'e', '(', ')'].map code))) = true := by decide
    rw [elementAt, if_neg hup, if_pos hself]
  simp only [Bool.false_eq_true, if_false, hat] at hread
  exact hread

/-- From the root the way down begins with a slash, and it does not lead to the element. -/
theorem IsNamedTree.not_leadsTo_of_root (h : doc.IsNamedTree) {n1 n2 : ℕ} (hn1 : n1 < doc.size)
    (hn2 : n2 < doc.size) (htyp : (doc.node n2).typ = .tag) (heq : n2 ≠ n1)
    (hp : (doc.node n1).parent = none) : ¬ LeadsTo doc n1 n2 := by
  intro hlead
  obtain ⟨depth, hd⟩ := h.depth
  obtain ⟨r, hr, hrp, hall⟩ := h.exists_root
  have hsame : ∀ n < doc.size, (doc.node n).parent = none → n = n1 := by
    obtain ⟨r', -, hroot'⟩ := h.root
    exact fun n hn hnone => ((hroot' n hn).mp hnone).trans ((hroot' n1 hn1).mp hp).symm
  obtain ⟨q, hq⟩ : ∃ q, (doc.node n2).parent = some q := by
    cases hq : (doc.node n2).parent with
    | none => exact absurd (hsame n2 hn2 hq) heq
    | some q => exact ⟨q, rfl⟩
  obtain ⟨nodes, hrun, hplain, hnodes, z, hz, hzp, hlen⟩ := @IsNamedTree.downPath_spec _ h none
    _ hd doc.size n2 [] hn2 htyp (hd hn2 hq).2 ⟨r, hr, hall n2 hn2, hrp⟩
  rw [hsame z hz hzp] at hlen
  have htop : doc.rootOf doc.size n1 = n1 := by
    cases doc.size with
    | zero => rfl
    | succ k => rw [rootOf, hp]
  rcases hnodes with ⟨hnone, -⟩ | ⟨above, rfl⟩
  · rw [hq] at hnone
    cases hnone
  · rw [List.append_nil] at hrun
    rw [List.length_append, List.length_singleton] at hlen
    have hread := hlead (downText doc (above ++ [n2])) (by
      rw [getXPath, if_neg heq, hp, hrun]
      rfl)
    obtain ⟨k, hk⟩ := @getNodeByXPath_downText doc n1 (above ++ [n2])
      (List.append_ne_nil_of_right_ne_nil _ (List.cons_ne_nil _ _))
    rw [hk] at hread
    exact h.readLoop_ne hn2 hd above k n1 true hn1 hplain
      (by rw [if_pos rfl, htop]; omega) (congrArg Prod.fst hread)

/-- From any other node the way up leads to the elements above, and not on from there. -/
theorem IsNamedTree.leadsTo_iff_of_parent (h : doc.IsNamedTree) {n1 n2 p : ℕ}
    (hn1 : n1 < doc.size) (hn2 : n2 < doc.size) (htyp : (doc.node n2).typ = .tag) (heq : n2 ≠ n1)
    (hp : (doc.node n1).parent = some p) : LeadsTo doc n1 n2 ↔ ReflTransGen doc.IsChild n2 n1 := by
  obtain ⟨depth, hd⟩ := h.depth
  have hplt := h.parent_lt hn1 hp
  have hdepth : depth p < doc.size := by
    have := hd hn1 hp
    omega
  obtain ⟨x, i, hclimb, hup, hx, hxp, hxn2, hlow⟩ := h.climb_spec hn2 hd doc.size p upText hplt hdepth
  have hup1 : up doc (i + 1) n1 = some x := by rw [up, hp, Option.bind_some, hup]
  rw [← upTexts_succ] at hclimb
  by_cases hxeq : x = n2
  · subst hxeq
    refine iff_of_true (fun text htext => ?_) (hxp.tail (h.isChild hn1 hp))
    rw [getXPath, if_neg heq, hp] at htext
    simp only [hclimb, if_true] at htext
    obtain rfl := congrArg Prod.snd (Option.some.inj htext)
    obtain ⟨k, hk⟩ := getNodeByXPath_upTexts hup1 (Nat.succ_pos i)
    rw [List.append_nil] at hk
    dsimp only
    rw [hk]
    cases k <;> rfl
  · have hnot : ¬ ReflTransGen doc.IsChild n2 n1 := by
      rw [h.below_iff hn2 hn1, hp]
      rintro (h1 | ⟨p', h1, h2⟩)
      · exact heq h1.symm
      · obtain rfl := Option.some.inj h1
        exact hxeq (h.below_antisymm hx hn2 hxn2 (hlow n2 hn2 h2 .refl))
    refine iff_of_false (fun hlead => ?_) hnot
    obtain ⟨z, hxz, hzn2⟩ := (hxn2.cases_head).resolve_left hxeq
    have hz : z < doc.size := h.known hx hxz
    obtain ⟨q, hq⟩ : ∃ q, (doc.node n2).parent = some q := by
      rcases (h.below_iff hx hn2).mp hxn2 with h1 | ⟨q, hq, -⟩
      · exact absurd h1.symm hxeq
      · exact ⟨q, hq⟩
    obtain ⟨nodes, hrun, hplain, hnodes, v, hv, hvx, hlen⟩ :=
      @IsNamedTree.downPath_spec _ h (some x) _ hd doc.size n2 [] hn2 htyp (hd hn2 hq).2
        ⟨z, hz, hzn2, (h.parent_iff hz).mpr ⟨hx, hxz⟩⟩
    rw [List.append_nil] at hrun
    have hread := hlead (upTexts (i + 1) ++ downText doc nodes) (by
      rw [getXPath, if_neg heq, hp]
      simp only [hclimb, if_neg hxeq, hrun, Option.map_some])
    obtain ⟨k, hk⟩ := getNodeByXPath_upTexts hup1 (Nat.succ_pos i)
    rw [hk] at hread
    rcases hnodes with ⟨-, rfl⟩ | ⟨above, rfl⟩
    · have hstays : (readLoop doc k [] false x).1 = some x := by cases k <;> rfl
      exact hxeq (Option.some.inj (hstays.symm.trans (congrArg Prod.fst hread)))
    · rw [List.length_append, List.length_singleton, (hd hv hvx).1] at hlen
      exact h.readLoop_ne hn2 hd above k x false hx hplain
        (by rw [if_neg Bool.false_ne_true]; omega) (congrArg Prod.fst hread)

/-- The text leads from a node to another one if and only if that is the node itself or one above
it. -/
theorem textLeadsTo_iff (h : doc.IsNamedTree) {n1 n2 : ℕ} (hn1 : n1 < doc.size) (hn2 : n2 < doc.size)
    (htyp : (doc.node n2).typ = .tag) : LeadsTo doc n1 n2 ↔ ReflTransGen doc.IsChild n2 n1 := by
  by_cases heq : n2 = n1
  · subst heq
    refine iff_of_true (fun text htext => ?_) .refl
    rw [getXPath, if_pos rfl] at htext
    obtain rfl := congrArg Prod.snd (Option.some.inj htext)
    exact getNodeByXPath_here
  · cases hp : (doc.node n1).parent with
    | none =>
        refine iff_of_false (h.not_leadsTo_of_root hn1 hn2 htyp heq hp) ?_
        rw [h.below_iff hn2 hn1, hp]
        rintro (h1 | ⟨p, h1, -⟩)
        · exact heq h1.symm
        · cases h1
    | some p => exact h.leadsTo_iff_of_parent hn1 hn2 htyp heq hp

theorem isNamedTree_rootWithTag : rootWithTag.IsNamedTree where
  known := isTree_rootWithTag.known
  parent_iff := by
    have hchild : ∀ {p n}, rootWithTag.IsChild p n ↔ p = 0 ∧ n = 1 := by
      intro p n
      by_cases hp : p = 0
      · simp [IsChild, rootWithTag, hp]
      · simp [IsChild, rootWithTag, hp]
    intro p n hn
    have hp : (rootWithTag.node n).parent = if n = 0 then none else some 0 := by
      by_cases h0 : n = 0 <;> simp [rootWithTag, h0]
    have hsize : rootWithTag.size = 2 := rfl
    rw [hchild, hp, hsize]
    rw [hsize] at hn
    split <;> simp <;> omega
  nodup := by
    have hall : ∀ p < 2, (rootWithTag.node p).children.Nodup := by decide
    exact fun {p} hp => hall p hp
  root := ⟨0, by decide, by
    have hall : ∀ n < 2, (rootWithTag.node n).parent = none ↔ n = 0 := by decide
    exact hall⟩
  depth := ⟨fun n => n, by
    intro p n hn hp
    have hall : ∀ n < 2, ∀ p, (rootWithTag.node n).parent = some p → n = p + 1 ∧ n < 2 := by
      intro n hn p hp
      by_cases h0 : n = 0
      · simp [rootWithTag, h0] at hp
      · have : 0 = p := by simpa [rootWithTag, h0] using hp
        omega
    exact hall n hn p hp⟩
  inner := by
    have hall : ∀ p < 2, (rootWithTag.node p).typ = .tag := by decide
    exact fun {p _} hp _ => hall p hp
  names := by
    have hall : ∀ n < 2, (rootWithTag.node n).data.bytes ≠ [] ∧
        (∀ c ∈ (rootWithTag.node n).data.bytes, isSlash c = false ∧ isSpace c = false ∧
          c ∉ [code '[', code ']', code '*', code '?']) ∧
        (rootWithTag.node n).data ≠ parentName ∧
        (rootWithTag.node n).data ∉ selfNames := by decide
    exact fun {n} hn _ => ⟨(hall n hn).1, (hall n hn).2.1, (hall n hn).2.2.1, (hall n hn).2.2.2⟩

/-- The way from the element to the root. -/
theorem textLeadsTo_iff_root : (LeadsTo rootWithTag 1 0 ↔ ReflTransGen rootWithTag.IsChild 0 1) ∧
    ReflTransGen rootWithTag.IsChild 0 1 :=
  ⟨textLeadsTo_iff isNamedTree_rootWithTag (by decide) (by decide) rfl,
    .single (show 1 ∈ (rootWithTag.node 0).children by decide)⟩

/-- The way from the root to the element: the text asks for a second one. -/
theorem not_leadsTo_tag :
    ¬ ∀ (doc : XmlDoc) (n1 n2 : ℕ), doc.IsNamedTree → n1 < doc.size → n2 < doc.size →
      (doc.node n1).typ = .tag → (doc.node n2).typ = .tag → LeadsTo doc n1 n2 := by
  intro h
  have hlead := h rootWithTag 0 1 isNamedTree_rootWithTag (by decide) (by decide) rfl rfl
    (['/', 'a', '[', '1', ']'].map code) (by decide)
  have hnone : (getNodeByXPath (['/', 'a', '[', '1', ']'].map code) xpathFlags 0 rootWithTag).1 =
      none := by decide
  rw [hlead] at hnone
  cases hnone

end XmlDoc
end Gwenhywfar
