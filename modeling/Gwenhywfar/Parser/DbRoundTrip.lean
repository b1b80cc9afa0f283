import Gwenhywfar.Parser.DbForest
import Gwenhywfar.Parser.DbInts
import Gwenhywfar.Parser.DbLines

/-! # A tree that was written is read back

* `treeLines`: the lines of the text of a tree (`text_eq_unlines`).
* `Writable`: the trees that the text can hold.
* `readAll_treeLines`: reading the lines adds the tree to the current group and changes nothing
  else, by induction on the tree; so a text that was written is read back
  (`readFromString_writeToBuffer`). -/

namespace Gwenhywfar

set_option maxRecDepth 4000

namespace Db

open Gwenhywfar.Path Text
open CString (ofBytes)

/-! ### The lines of a tree -/

def varLine (insert : ℕ) (name : List UInt8) : List DbValue → List UInt8
  | [] => []
  | v :: values =>
      indendText flagsDefault insert ++ (((valueText flagsDefault v).getD ([], [])).1 ++
        (name ++ code '=' :: (quoted v ++ moreText values)))

def groupLine (insert : ℕ) (name : List UInt8) : List UInt8 :=
  indendText flagsDefault insert ++ (escapeToBufferTolerant name ++ ascii [' ', '{'])

def groupEndLine (insert : ℕ) (name : List UInt8) : List UInt8 :=
  indendText flagsDefault insert ++ (ascii ['}', ' ', '#'] ++ name)

/-- An empty line that is only there when `wanted`. -/
def blankIf (wanted : Bool) : List (List UInt8) := if wanted then [[]] else []

def treeLines : DbNodes → (insert : ℕ) → (lastWasVar : Bool) → List (List UInt8)
  | .nil, _, _ => []
  | .group _ name children next, insert, lastWasVar =>
      blankIf lastWasVar ++ ([groupLine insert name.bytes] ++ (treeLines children (insert + 2) false ++
        ([groupEndLine insert name.bytes] ++ (blankIf (next != .nil) ++
          treeLines next insert false))))
  | .var _ name values next, insert, _ =>
      varLine insert name.bytes values :: treeLines next insert true

/-! ### Trees that can be written -/

/-- The type of a child of a group and its name. -/
abbrev Entry := DbNodeType × CString

/-- Two children are found by the same name. -/
def SameEntry (e e' : Entry) : Prop := e.1 = e'.1 ∧ strcaseEq e.2 e'.2 = true

/-- The children of a group from one on. -/
def entries : DbNodes → List Entry
  | .nil => []
  | .group _ name _ next => (.group, name) :: entries next
  | .var _ name _ next => (.var, name) :: entries next

/-- The name of a group is an element of a path, and a token of a line when it is escaped. -/
structure IsGroupName (name : CString) : Prop where
  plain : ∀ c ∈ name.bytes, isPlainChar c = true ∧ c ≠ code ','
  ne_nil : name.bytes ≠ []

/-- The name of a variable is an element of a path and a token of a line. -/
structure IsVarName (name : CString) : Prop where
  plain : ∀ c ∈ name.bytes, isPlainChar c = true
  token : ∀ c ∈ name.bytes, isTokenChar flagsDefault c = true ∧ c ≠ code ':'
  ne_nil : name.bytes ≠ []

/-- A tree is written completely, and its text says which tree it is. -/
def Writable : DbNodes → Prop
  | .nil => True
  | .group flags name children next =>
      has flags nodeFlagsVolatile = false ∧ IsGroupName name ∧
        (∀ e ∈ entries next, ¬ SameEntry (.group, name) e) ∧ Writable children ∧ Writable next
  | .var flags name values next =>
      has flags nodeFlagsVolatile = false ∧ IsVarName name ∧
        (∃ ty, values ≠ [] ∧ ∀ v ∈ values, typeOf v = some ty) ∧
        (∀ e ∈ entries next, ¬ SameEntry (.var, name) e) ∧ Writable next

/-! ### The text of a tree -/

theorem valuesText_true {ty : ValueType} (insert : ℕ) (name : List UInt8) :
    ∀ {values : List DbValue}, (∀ v ∈ values, typeOf v = some ty) →
    valuesText 0 flagsDefault insert name true values = moreText values ++ [0x0a]
  | [], _ => rfl
  | v :: values, h => by
      rw [List.forall_mem_cons] at h
      have hquote : quoteText (has flagsDefault flagsQuoteValues) = [quotationMark] := by decide
      have hmore : moreText (v :: values) = ascii [',', ' '] ++ quoted v ++ moreText values :=
        List.flatMap_cons
      have ih := valuesText_true insert name h.2
      rw [valuesText] at ih ⊢
      rw [valueSites, valueText_eq h.1]
      dsimp only
      rw [if_pos rfl, if_pos rfl, hquote, mark_fst, mark_fst, mark_fst, mark_fst, ih, hmore, quoted]
      simp only [List.append_assoc, List.cons_append, List.nil_append]

theorem valuesText_false {ty : ValueType} (insert : ℕ) (name : List UInt8) {values : List DbValue}
    (hne : values ≠ []) (h : ∀ v ∈ values, typeOf v = some ty) :
    valuesText 0 flagsDefault insert name false values = varLine insert name values ++ [0x0a] := by
  obtain ⟨v, values, rfl⟩ := List.exists_cons_of_ne_nil hne
  rw [List.forall_mem_cons] at h
  have hflags : has flagsDefault flagsQuoteVarnames = false ∧
      has flagsDefault flagsOmitTypes = false ∧ has flagsDefault flagsUseColon = false ∧
      has flagsDefault flagsQuoteValues = true := by decide
  obtain ⟨hname, htypes, hcolon, hquote⟩ := hflags
  have hrest := valuesText_true insert name h.2
  rw [valuesText] at hrest ⊢
  rw [valueSites, valueText_eq h.1]
  dsimp only
  rw [if_neg Bool.false_ne_true, if_neg Bool.false_ne_true, varNameSites, hname, htypes, hcolon,
    hquote]
  simp only [mark_fst, hrest, quoteText]
  rw [varLine, valueText_eq h.1, Option.getD_some, quoted]
  simp [ascii]

theorem text_eq_unlines : ∀ {t : DbNodes} (insert : ℕ) (lastWasVar : Bool), Writable t →
    text 0 flagsDefault t insert lastWasVar = unlines (treeLines t insert lastWasVar)
  | .nil, _, _, _ => rfl
  | .group flags name children next, insert, lastWasVar, hw => by
      obtain ⟨hvolatile, -, -, hchildren, hnext⟩ := hw
      have hblank (wanted : Bool) : unlines (blankIf wanted) =
          lineIf 0 (has flagsDefault flagsAddGroupNewlines && wanted) := by
        cases wanted <;> rfl
      have hbegin : unlines [groupLine insert name.bytes] =
          groupBegin 0 flagsDefault insert name.bytes := by
        rw [unlines, List.flatMap_singleton, groupLine, groupBegin, List.append_assoc,
          List.append_assoc]
        rfl
      have hend : unlines [groupEndLine insert name.bytes] =
          groupEnd 0 flagsDefault insert name.bytes := by
        rw [unlines, List.flatMap_singleton, groupEndLine, groupEnd, groupEndSites,
          if_pos (by decide), mark_fst, mark_fst]
        simp only [List.append_assoc, List.map_nil, List.append_nil]
        rfl
      rw [text_group name children next insert lastWasVar hvolatile (by decide), treeLines,
        unlines_append, unlines_append, unlines_append, unlines_append, unlines_append, hblank,
        hblank, hbegin, hend, text_eq_unlines (insert + 2) false hchildren,
        text_eq_unlines insert false hnext]
  | .var flags name values next, insert, lastWasVar, hw => by
      obtain ⟨hvolatile, -, ⟨ty, hne, hty⟩, -, hnext⟩ := hw
      rw [text_var name values next insert lastWasVar hvolatile, treeLines, unlines_cons,
        valuesText_false insert name.bytes hne hty, text_eq_unlines insert true hnext,
        List.append_assoc]
      rfl

/-! ### Reading a line -/

theorem isSpace_indend (insert : ℕ) : ∀ c ∈ indendText flagsDefault insert, isSpace c = true := by
  intro c hc
  rw [indendText, if_pos (by decide)] at hc
  rw [List.eq_of_mem_replicate hc]
  decide

variable {name : CString}

theorem isTokenChar_escape (hname : IsGroupName name) :
    ∀ c ∈ escapeToBufferTolerant name.bytes, isTokenChar flagsDefault c = true := by
  intro c hc
  have hbytes : ∀ c : UInt8, isToleratedInName c = true ∧ c ≠ code ',' ∨ c = code '&' ∨
      isXDigit c = true → isTokenChar flagsDefault c = true := by decide
  rw [escapeToBufferTolerant, escapeWith, List.mem_flatMap] at hc
  obtain ⟨d, hd, hc⟩ := hc
  split at hc
  · next hplain =>
      obtain rfl := List.mem_singleton.mp hc
      exact hbytes c (.inl ⟨hplain, (hname.plain c hd).2⟩)
  · rcases List.mem_cons.mp hc with rfl | hc
    · exact hbytes _ (.inr (.inl rfl))
    · exact hbytes c (.inr (.inr (hexDigits_isXDigit hc)))

theorem escape_cons (hname : IsGroupName name) :
    ∃ c s, escapeToBufferTolerant name.bytes = c :: s ∧ isSpace c = false ∧ c ≠ code '}' ∧
      c ≠ code '#' := by
  have hbytes : ∀ c : UInt8, isToleratedInName c = true ∨ c = code '&' →
      isSpace c = false ∧ c ≠ code '}' ∧ c ≠ code '#' := by decide
  obtain ⟨d, rest, hd⟩ := List.exists_cons_of_ne_nil hname.ne_nil
  rw [hd, escapeToBufferTolerant, escapeWith_cons]
  by_cases hplain : isToleratedInName d = true
  · rw [if_pos hplain]
    exact ⟨d, _, rfl, hbytes d (.inl hplain)⟩
  · rw [if_neg hplain]
    exact ⟨code '&', _, rfl, hbytes _ (.inr rfl)⟩

theorem unescape_escape (s : List UInt8) :
    unescapeToBufferTolerant (escapeToBufferTolerant s) = s :=
  unescapeWith_escapeWith (by decide) s

section
variable {h h' : DbHeap} {n a : ℕ} (level : ℕ) {name : CString}

theorem readLine_groupLine (hname : IsGroupName name) (insert : ℕ)
    (hgroup : getGroup h n flagsDefault name = (some a, h')) :
    readLine flagsDefault (groupLine insert name.bytes) ⟨n, level, h⟩ =
      some (0, ⟨a, level + 1, h'⟩) := by
  obtain ⟨c, s, hs, hspace, hend, hcomment⟩ := escape_cons hname
  have hscan := Scan.append_cons (isTokenChar flagsDefault) _ (ascii ['{']) (code ' ')
    (isTokenChar_escape hname) (by decide)
  have hnul : (0 : UInt8) ∉ groupLine insert name.bytes := by
    intro h0
    have hindend : (0 : UInt8) ∉ indendText flagsDefault insert := fun h0 =>
      absurd (isSpace_indend insert 0 h0) (by decide)
    have hescape : (0 : UInt8) ∉ escapeToBufferTolerant name.bytes := fun h0 => by
      rcases mem_escapeWith h0 with h | h | h <;> exact absurd h (by decide)
    rw [groupLine, List.mem_append, List.mem_append] at h0
    rcases h0 with h0 | h0 | h0
    · exact hindend h0
    · exact hescape h0
    · exact absurd h0 (by decide)
  rw [readLine, CString.ofBytes_bytes hnul, groupLine,
    List.dropWhile_append_of_pos (isSpace_indend insert), hs, List.cons_append,
    List.dropWhile_cons_of_neg (by rw [hspace]; decide)]
  dsimp only
  rw [if_neg hend, if_neg hcomment, ← List.cons_append, ← hs]
  have hbrace : ascii [' ', '{'] = code ' ' :: ascii ['{'] := rfl
  rw [hbrace, hscan.1, hscan.2]
  dsimp only
  rw [List.dropWhile_cons_of_pos (by decide), unescape_escape, CString.ofBytes_eq]
  have hdrop : (ascii ['{']).dropWhile isSpace = [code '{'] := by decide
  rw [hdrop]
  dsimp only
  rw [if_pos rfl, hgroup]

theorem readLine_groupEndLine (insert : ℕ) (name : List UInt8)
    (hparent : (h.node a).parent = some n) (htyp : (h.node n).typ = .group) :
    readLine flagsDefault (groupEndLine insert name) ⟨a, level + 1, h⟩ =
      some (0, ⟨n, level, h⟩) := by
  have hnul : ∀ c ∈ indendText flagsDefault insert, (c != 0) = true := by
    have hbytes : ∀ c : UInt8, isSpace c = true → (c != 0) = true := by decide
    exact fun c hc => hbytes c (isSpace_indend insert c hc)
  have hbytes : (ofBytes (groupEndLine insert name)).bytes =
      indendText flagsDefault insert ++ code '}' ::
        (code ' ' :: code '#' :: name).takeWhile (· != 0) := by
    rw [ofBytes, groupEndLine]
    dsimp only
    rw [List.takeWhile_append_of_pos hnul]
    rfl
  rw [readLine, hbytes, List.dropWhile_append_of_pos (isSpace_indend insert),
    List.dropWhile_cons_of_neg (by decide)]
  dsimp only
  rw [if_pos rfl, if_neg (by omega), ReadState.leave, hparent,
    Option.filter_some, if_pos (decide_eq_true htyp)]
  rfl

theorem readValues_values (hname : IsVarName name) {ty : ValueType} {v : DbValue}
    {values : List DbValue} (hty : ∀ w ∈ v :: values, typeOf w = some ty)
    (hnode : getNode h n name (flagsDefault ||| flagsVariable) = (some a, h')) :
    readTypedVar flagsDefault (typeName ty)
        (name.bytes ++ code '=' :: (quoted v ++ moreText values)) ⟨n, level, h⟩ =
      (0, ⟨n, level, addValues h' a (v :: values)⟩) := by
  have hscan := Scan.append_cons (isTokenChar flagsDefault) name.bytes
    (quoted v ++ moreText values) (code '=') (fun c hc => (hname.token c hc).1) (by decide)
  have hlen : ∀ values : List DbValue, values.length ≤ (moreText values).length := by
    intro values
    induction values with
    | nil => exact Nat.zero_le _
    | cons w values ih =>
        have hcons : moreText (w :: values) = (ascii [',', ' '] ++ quoted w) ++ moreText values :=
          List.flatMap_cons
        rw [hcons, List.length_cons, List.length_append, List.length_append]
        have hascii : (ascii [',', ' ']).length = 2 := rfl
        omega
  have hloop := readValuesLoop_values a [] h' hty
    (k := (quoted v ++ moreText values).length + 1)
    (by
      rw [List.length_append]
      have hvalues := hlen values
      omega)
    (fun _ hc => absurd hc List.not_mem_nil)
  rw [List.nil_append] at hloop
  rw [readTypedVar, hscan.1, hscan.2]
  dsimp only
  rw [if_neg (by decide)]
  dsimp only
  rw [if_neg (by decide), ReadState.readValues, CString.ofBytes_eq, readValues, valueType_typeName]
  dsimp only
  rw [hnode]
  dsimp only
  rw [hloop]

theorem moreText_nul_free : ∀ values : List DbValue, (0 : UInt8) ∉ moreText values
  | [] => List.not_mem_nil
  | v :: values => by
      have hcons : moreText (v :: values) = (ascii [',', ' '] ++ quoted v) ++ moreText values :=
        List.flatMap_cons
      have hmarks : (0 : UInt8) ∉ ascii [',', ' '] ∧ (0 : UInt8) ≠ quotationMark := by decide
      rw [hcons, quoted]
      simp only [List.mem_append, List.mem_cons, List.not_mem_nil, or_false, not_or]
      exact ⟨⟨hmarks.1, hmarks.2, fun h0 => (valueBytes_plain v 0 h0).1 rfl, hmarks.2⟩,
        moreText_nul_free values⟩

theorem quoted_nul_free (v : DbValue) : (0 : UInt8) ∉ quoted v := by
  have hmore := moreText_nul_free [v]
  have hcons : moreText [v] = (ascii [',', ' '] ++ quoted v) ++ moreText [] := List.flatMap_cons
  rw [hcons, List.mem_append, List.mem_append, not_or, not_or] at hmore
  exact hmore.1.2

theorem readLine_varLine (hname : IsVarName name) {ty : ValueType} {v : DbValue}
    {values : List DbValue} (hty : ∀ w ∈ v :: values, typeOf w = some ty) (insert : ℕ)
    (hnode : getNode h n name (flagsDefault ||| flagsVariable) = (some a, h')) :
    readLine flagsDefault (varLine insert name.bytes (v :: values)) ⟨n, level, h⟩ =
      some (0, ⟨n, level, addValues h' a (v :: values)⟩) := by
  generalize hrest : name.bytes ++ code '=' :: (quoted v ++ moreText values) = rest
  have hline : varLine insert name.bytes (v :: values) =
      indendText flagsDefault insert ++ (typeName ty ++ (typeBlanks ty ++ rest)) := by
    rw [varLine, valueText_eq (hty v List.mem_cons_self), Option.getD_some, hrest,
      List.append_assoc]
  have hnul : (0 : UInt8) ∉ varLine insert name.bytes (v :: values) := by
    have hindend : (0 : UInt8) ∉ indendText flagsDefault insert := fun h0 =>
      absurd (isSpace_indend insert 0 h0) (by decide)
    have htype : (0 : UInt8) ∉ typeName ty ∧ (0 : UInt8) ∉ typeBlanks ty := by
      cases ty <;> decide
    rw [hline, ← hrest]
    simp only [List.mem_append, List.mem_cons, not_or]
    exact ⟨hindend, htype.1, htype.2, name.nul_free, by decide, quoted_nul_free v,
      moreText_nul_free values⟩
  have htype : ∃ c s b bs, typeName ty = c :: s ∧ typeBlanks ty = b :: bs ∧ isSpace c = false ∧
      c ≠ code '}' ∧ c ≠ code '#' ∧ (∀ c ∈ typeName ty, isTokenChar flagsDefault c = true) ∧
      isTokenChar flagsDefault b = false ∧ ∀ c ∈ typeBlanks ty, isSpace c = true := by
    cases ty <;> exact ⟨_, _, _, _, rfl, rfl, by decide⟩
  obtain ⟨c, s, b, bs, hc, hb, hspace, hend, hcomment, htoken, hstop, hblanks⟩ := htype
  have hscan := Scan.append_cons (isTokenChar flagsDefault) (typeName ty) (bs ++ rest) b htoken
    hstop
  obtain ⟨d, t, hd⟩ := List.exists_cons_of_ne_nil hname.ne_nil
  have hchar : ∀ c : UInt8, isTokenChar flagsDefault c = true → isSpace c = false ∧
      c ≠ code '{' ∧ c ≠ code '=' ∧ c ≠ code ',' ∧ c ≠ code ';' := by decide
  have htok := hname.token d (hd ▸ List.mem_cons_self)
  obtain ⟨hdspace, hbrace, heq, hcomma, hsemicolon⟩ := hchar d htok.1
  have hrest' : rest = d :: (t ++ code '=' :: (quoted v ++ moreText values)) := by
    rw [← hrest, hd, List.cons_append]
  have hdrop : (typeBlanks ty ++ rest).dropWhile isSpace = rest := by
    rw [List.dropWhile_append_of_pos hblanks, hrest',
      List.dropWhile_cons_of_neg (by rw [hdspace]; decide)]
  have htyped := readValues_values level hname hty hnode
  rw [hrest] at htyped
  rw [readLine, CString.ofBytes_bytes hnul, hline,
    List.dropWhile_append_of_pos (isSpace_indend insert), hc, List.cons_append,
    List.dropWhile_cons_of_neg (by rw [hspace]; decide)]
  dsimp only
  rw [if_neg hend, if_neg hcomment, ← List.cons_append, ← hc, hb, List.cons_append, hscan.1,
    hscan.2]
  dsimp only
  rw [← List.cons_append, ← hb, hdrop, hrest']
  dsimp only
  rw [if_neg hbrace, if_neg (not_or.2 ⟨heq, htok.2⟩), if_neg (not_or.2 ⟨hcomma, hsemicolon⟩),
    ← hrest', htyped]

/-! ### Groups and variables that are not there yet -/

def Missing (h : DbHeap) (n : ℕ) (e : Entry) : Prop :=
  ∀ c ∈ (h.node n).children, ¬ SameEntry ((h.node c).typ, (h.node c).dataName) e

/-- A group that a tree is added to. -/
structure Takes (h : DbHeap) (n : ℕ) (t : DbNodes) : Prop where
  lt : n < h.size
  typ : (h.node n).typ = .group
  children : ∀ c ∈ (h.node n).children, c < h.size
  missing : ∀ e ∈ entries t, Missing h n e

theorem getGroup_missing (hname : IsGroupName name) (htyp : (h.node n).typ = .group)
    (hmissing : Missing h n (.group, name)) :
    getGroup h n flagsDefault name = (some h.size, addChild h n .group name) := by
  have hnone : findGroup h n name 0 = none := by
    rw [findGroup, if_pos htyp]
    exact findNode_none hmissing
  have hinsert : has (groupFlags flagsDefault) flagsInsert = false := by decide
  rw [getGroup_plain (.inl rfl) ⟨fun c hc => (hname.plain c hc).1, hname.ne_nil⟩, hnone,
    Option.elim_none, if_pos rfl, createNode_eq hinsert, has_groupFlags (.inl rfl),
    if_neg Bool.false_ne_true]

theorem getNode_missing (hname : IsVarName name) (htyp : (h.node n).typ = .group)
    (hmissing : Missing h n (.var, name)) : getNode h n name (flagsDefault ||| flagsVariable) =
      (some h.size, addChild h n .var name) := by
  have hnone : findVar h n name 0 = none := by
    rw [findVar, if_pos htyp]
    exact findNode_none hmissing
  obtain ⟨el, hvar, hinsert, hnode⟩ := getNode_plain hname.plain hname.ne_nil (.inl rfl) h n
  rw [hnode, hnone, Option.elim_none, createNode_eq hinsert, hvar, if_pos rfl]

end

/-! ### Reading a tree -/

theorem grown_addValues : ∀ (values : List DbValue) {h : DbHeap} {a : ℕ}, a < h.size →
    ∃ ids, Grown h (addValues h a values) a ids ∧
      ShowsValues h.size (addValues h a values) a ids values
  | [], h, a, _ => ⟨[], Grown.refl h a, fun _ hx => absurd hx List.not_mem_nil,
      fun _ hx => absurd hx List.not_mem_nil, rfl⟩
  | v :: values, h, a, ha => by
      have hadd := appendValue_eq (h := h) (n := a) v
      have hg := grown_addChild ha (.value v) (ofBytes [])
      rw [← hadd] at hg
      obtain ⟨ids, hgrown, hshows⟩ := grown_addValues values (ha.trans_le hg.size)
      have hsize : (appendValue h a v).size = h.size + 1 := rfl
      have hnew : (addValues (appendValue h a v) a values).node h.size =
          ⟨.value v, ofBytes [], [], some a⟩ := by
        rw [hgrown.other h.size (hsize ▸ Nat.lt_succ_self _) (Nat.ne_of_gt ha), hadd,
          node_addChild ha, if_pos rfl]
      refine ⟨[h.size] ++ ids, hg.trans hgrown, ?_, ?_, ?_⟩
      · exact (hg.trans hgrown).new_ge
      · exact (hg.trans hgrown).new_lt
      · rw [List.singleton_append, List.map_cons, List.map_cons]
        exact congrArg₂ List.cons hnew hshows.nodes

section
variable {h h' : DbHeap} {n : ℕ} {t next : DbNodes} {typ : DbNodeType} {name : CString}

theorem Takes.behind (ht : Takes h n t) (hg : Grown h h' n [h.size])
    (hnew : (h'.node h.size).typ = typ ∧ (h'.node h.size).dataName = name)
    (hentries : entries t = (typ, name) :: entries next)
    (hother : ∀ e ∈ entries next, ¬ SameEntry (typ, name) e) : Takes h' n next where
  lt := ht.lt.trans_le hg.size
  typ := (hg.same ht.lt).1.trans ht.typ
  children := fun c hc => by
    rw [hg.at_node, List.mem_append] at hc
    exact hc.elim (fun hc => (ht.children c hc).trans_le hg.size) (hg.new_lt c)
  missing := fun e he c hc => by
    rw [hg.at_node, List.mem_append] at hc
    rcases hc with hc | hc
    · obtain ⟨htyp, hname, -⟩ := hg.same (ht.children c hc)
      rw [htyp, hname]
      exact ht.missing e (hentries ▸ List.mem_cons_of_mem _ he) c hc
    · rw [List.mem_singleton.mp hc, hnew.1, hnew.2]
      exact hother e he

theorem takes_addChild (hn : n < h.size) (name : CString) (t : DbNodes) :
    Takes (addChild h n .group name) h.size t := by
  have hnode : (addChild h n .group name).node h.size = ⟨.group, name, [], some n⟩ := by
    rw [node_addChild hn, if_pos rfl]
  refine ⟨Nat.lt_succ_self _, ?_, fun c hc => ?_, fun e _ c hc => ?_⟩
  · rw [hnode]
  · rw [hnode] at hc
    cases hc
  · rw [hnode] at hc
    cases hc

theorem readAll_blankIf (wanted : Bool) (st : ReadState) :
    readAll flagsDefault (blankIf wanted) st = some (0, st) := by
  cases wanted <;> rfl

/-- The lines of a tree add it to the current group. -/
theorem readAll_treeLines : ∀ {t : DbNodes} (insert : ℕ) (lastWasVar : Bool) (level : ℕ)
    {h : DbHeap} {n : ℕ}, Writable t → Takes h n t →
    ∃ h' ids, readAll flagsDefault (treeLines t insert lastWasVar) ⟨n, level, h⟩ =
        some (0, ⟨n, level, h'⟩) ∧ Grown h h' n ids ∧ Shows h.size h' n ids t
  | .nil, _, _, _, h, n, _, _ => ⟨h, [], rfl, Grown.refl h n, .nil⟩
  | .group flags name children next, insert, lastWasVar, level, h, n, hw, ht => by
      obtain ⟨-, hname, hother, hchildren, hnext⟩ := hw
      have hgroup := getGroup_missing hname ht.typ (ht.missing _ List.mem_cons_self)
      obtain ⟨h1, cs, hread1, hg1, hs1⟩ := readAll_treeLines (insert + 2) false
        (level + 1) hchildren (takes_addChild ht.lt name children)
      have hnode := hg1.below_node ht.lt
      have hg := hg1.below ht.lt
      obtain ⟨h2, ids, hread2, hg2, hs2⟩ := readAll_treeLines insert false level hnext
        (ht.behind hg (by rw [hnode]; exact ⟨rfl, rfl⟩) rfl hother)
      have hbegin := readAll_single (by simp [groupLine, ascii]) (readLine_groupLine level hname
        insert hgroup)
      have hend := readAll_single (by simp [groupEndLine, ascii]) (readLine_groupEndLine level
        insert name.bytes (h := h1) (a := h.size) (n := n) (by rw [hnode])
        ((hg.same ht.lt).1.trans ht.typ))
      refine ⟨h2, [h.size] ++ ids, ?_, hg.trans hg2, ?_⟩
      · rw [treeLines]
        exact readAll_append (readAll_blankIf _ _) (readAll_append hbegin
          (readAll_append hread1 (readAll_append hend
            (readAll_append (readAll_blankIf _ _) hread2))))
      · have hsize : h.size < h1.size := hg.new_lt _ (List.mem_singleton_self _)
        have hkept : h2.node h.size = ⟨.group, name, cs, some n⟩ := by
          rw [hg2.other h.size hsize (Nat.ne_of_gt ht.lt), hnode]
        have hbelow : Shows h.size h2 h.size cs children :=
          (hs1.mono (Nat.le_succ _)).grown ht.lt hg2
        exact .group le_rfl (hsize.trans_le hg2.size) hkept hbelow (hs2.mono hsize.le)
  | .var flags name values next, insert, lastWasVar, level, h, n, hw, ht => by
      obtain ⟨-, hname, ⟨ty, hne, hty⟩, hother, hnext⟩ := hw
      have hvar := getNode_missing hname ht.typ (ht.missing _ List.mem_cons_self)
      obtain ⟨v, vs, rfl⟩ := List.exists_cons_of_ne_nil hne
      have hread1 := readLine_varLine level hname hty insert hvar
      have hlt : h.size < (addChild h n .var name).size := Nat.lt_succ_self _
      obtain ⟨vals, hg1, hs1⟩ := grown_addValues (v :: vs) hlt
      have hnode := hg1.below_node ht.lt
      have hg := hg1.below ht.lt
      obtain ⟨h2, ids, hread2, hg2, hs2⟩ := readAll_treeLines insert true level hnext
        (ht.behind hg (by rw [hnode]; exact ⟨rfl, rfl⟩) rfl hother)
      have hline : varLine insert name.bytes (v :: vs) ≠ [] := by simp [varLine]
      refine ⟨h2, [h.size] ++ ids, ?_, hg.trans hg2, ?_⟩
      · rw [treeLines]
        exact readAll_append (readAll_single hline hread1) hread2
      · have hsize : h.size < (addValues (addChild h n .var name) h.size (v :: vs)).size :=
          hg.new_lt _ (List.mem_singleton_self _)
        have hkept : h2.node h.size = ⟨.var, name, vals, some n⟩ := by
          rw [hg2.other h.size hsize (Nat.ne_of_gt ht.lt), hnode]
        have hsame : SameFrom h.size (addValues (addChild h n .var name) h.size (v :: vs)) h2 :=
          ⟨hg2.size, fun x hlo hx => hg2.other x hx (Nat.ne_of_gt (ht.lt.trans_le hlo))⟩
        exact .var le_rfl (hsize.trans_le hg2.size) hkept
          ((hs1.mono (Nat.le_succ _)).congr hsame) (hs2.mono hsize.le)

end

/-! ### The whole text -/

theorem isLine_indend (insert : ℕ) : IsLine (indendText flagsDefault insert) := by
  intro c hc
  rw [indendText, if_pos (by decide)] at hc
  rw [List.eq_of_mem_replicate hc]
  decide

theorem isLine_plain (h : ∀ c ∈ name.bytes, isPlainChar c = true) :
    IsLine name.bytes := by
  have hbytes : ∀ c : UInt8, isPlainChar c = true → c ≠ 0x0a ∧ c ≠ 0x0d := by decide
  exact fun c hc => hbytes c (h c hc)

theorem isLine_groupLine (insert : ℕ) (name : List UInt8) : IsLine (groupLine insert name) := by
  have hbytes : ∀ c : UInt8, isToleratedInName c = true ∨ c = code '&' ∨ isXDigit c = true →
      c ≠ 0x0a ∧ c ≠ 0x0d := by decide
  have hbrace : IsLine (ascii [' ', '{']) := by decide
  have hescape : IsLine (escapeToBufferTolerant name) := fun c hc => hbytes c (mem_escapeWith hc)
  exact (isLine_indend insert).append (hescape.append hbrace)

theorem isLine_groupEndLine (insert : ℕ)
    (h : ∀ c ∈ name.bytes, isPlainChar c = true) : IsLine (groupEndLine insert name.bytes) := by
  have hend : IsLine (ascii ['}', ' ', '#']) := by decide
  exact (isLine_indend insert).append (hend.append (isLine_plain h))

theorem isLine_quoted (v : DbValue) : IsLine (quoted v) := by
  have hmark : IsLine [quotationMark] := by decide
  have hvalue : IsLine (valueBytes v) := fun c hc => (valueBytes_plain v c hc).2
  exact hmark.append (hvalue.append hmark)

theorem isLine_moreText : ∀ values : List DbValue, IsLine (moreText values)
  | [] => fun _ hc => absurd hc List.not_mem_nil
  | v :: values => by
      have hcomma : IsLine (ascii [',', ' ']) := by decide
      have hcons : moreText (v :: values) = (ascii [',', ' '] ++ quoted v) ++ moreText values :=
        List.flatMap_cons
      rw [hcons]
      exact (hcomma.append (isLine_quoted v)).append (isLine_moreText values)

theorem isLine_varLine (insert : ℕ) {ty : ValueType} {v : DbValue}
    (h : ∀ c ∈ name.bytes, isPlainChar c = true) (hty : typeOf v = some ty)
    (values : List DbValue) : IsLine (varLine insert name.bytes (v :: values)) := by
  have htype : IsLine (typeName ty) ∧ IsLine (typeBlanks ty) := by
    cases ty <;> constructor <;> decide
  have hmark : IsLine [code '='] := by decide
  rw [varLine, valueText_eq hty, Option.getD_some]
  exact (isLine_indend insert).append ((htype.1.append htype.2).append ((isLine_plain h).append
    (hmark.append ((isLine_quoted v).append (isLine_moreText values)))))

theorem isLine_treeLines : ∀ {t : DbNodes} (insert : ℕ) (lastWasVar : Bool), Writable t →
    ∀ line ∈ treeLines t insert lastWasVar, IsLine line
  | .nil, _, _, _ => fun _ hmem => absurd hmem List.not_mem_nil
  | .group flags name children next, insert, lastWasVar, hw => by
      obtain ⟨-, hname, -, hchildren, hnext⟩ := hw
      have hblank : ∀ {wanted : Bool}, ∀ line ∈ blankIf wanted, IsLine line := by
        intro wanted line hmem c hc
        cases wanted
        · cases hmem
        · rw [List.mem_singleton.mp hmem] at hc
          cases hc
      intro line hmem
      rw [treeLines, List.mem_append, List.mem_append, List.mem_append, List.mem_append,
        List.mem_append, List.mem_singleton, List.mem_singleton] at hmem
      rcases hmem with hmem | rfl | hmem | rfl | hmem | hmem
      · exact hblank line hmem
      · exact isLine_groupLine insert name.bytes
      · exact isLine_treeLines (insert + 2) false hchildren line hmem
      · exact isLine_groupEndLine insert fun c hc => (hname.plain c hc).1
      · exact hblank line hmem
      · exact isLine_treeLines insert false hnext line hmem
  | .var flags name values next, insert, lastWasVar, hw => by
      obtain ⟨-, hname, ⟨ty, hne, hty⟩, -, hnext⟩ := hw
      obtain ⟨v, vs, rfl⟩ := List.exists_cons_of_ne_nil hne
      rw [treeLines, List.forall_mem_cons]
      exact ⟨isLine_varLine insert hname.plain (hty v List.mem_cons_self) vs,
        isLine_treeLines insert true hnext⟩

theorem exists_treeLines {t : DbNodes} (hne : t ≠ .nil) (insert : ℕ) (lastWasVar : Bool)
    (hw : Writable t) : ∃ line ∈ treeLines t insert lastWasVar, line ≠ [] := by
  cases t with
  | nil => exact absurd rfl hne
  | group flags name children next =>
      refine ⟨groupLine insert name.bytes, ?_, by simp [groupLine, ascii]⟩
      rw [treeLines]
      simp
  | var flags name values next =>
      obtain ⟨-, -, ⟨ty, hvalues, -⟩, -, -⟩ := hw
      obtain ⟨v, vs, rfl⟩ := List.exists_cons_of_ne_nil hvalues
      exact ⟨_, List.mem_cons_self, by simp [varLine]⟩

theorem readFromString_text {t : DbNodes} (hw : Writable t) (hne : t ≠ .nil) {h : DbHeap} {n : ℕ}
    (ht : Takes h n t) :
    ∃ h' ids, readFromString h n (writeToBuffer t [] flagsDefault).2 flagsDefault = some (0, h') ∧
      Grown h h' n ids ∧ Shows h.size h' n ids t := by
  obtain ⟨h', ids, hread, hgrown, hshows⟩ := readAll_treeLines 0 false 0 hw ht
  have hbuffer : bufferFlags flagsDefault = 0 := by decide
  refine ⟨h', ids, ?_, hgrown, hshows⟩
  rw [writeToBuffer_text, hbuffer, text_eq_unlines 0 false hw]
  exact readFromString_lines (by decide) (isLine_treeLines 0 false hw)
    (exists_treeLines hne 0 false hw) hread

/-- A tree that was written is read back into a new group. -/
theorem readFromString_writeToBuffer {t : DbNodes} (hw : Writable t) (hne : t ≠ .nil)
    (group : CString) : ∃ h text, writeToBuffer t [] flagsDefault = (0, text) ∧
      readFromString (emptyGroup group) 0 text flagsDefault = some (0, h) ∧
      (h.node 0).dataName = group ∧
      ∀ k, depth t < k → nodesOf h k (h.node 0).children = withoutFlags t := by
  have htakes : Takes (emptyGroup group) 0 t :=
    ⟨Nat.one_pos, rfl, fun _ hc => absurd hc List.not_mem_nil,
      fun _ _ _ hc => absurd hc List.not_mem_nil⟩
  obtain ⟨h, ids, hread, hgrown, hshows⟩ := readFromString_text hw hne htakes
  have hwritten := writeToBuffer_text t flagsDefault
  rw [hwritten] at hread
  refine ⟨h, _, hwritten, hread, ?_, fun k hk => ?_⟩
  · rw [(hgrown.same Nat.one_pos).2.1]
    rfl
  · rw [hgrown.at_node]
    exact hshows.nodesOf hk

/-- A group in a group, with values of all types, and names that occur twice. -/
def sampleTree : DbNodes :=
  .group 0 (ofBytes (ascii ['a']))
    (.var 0 (ofBytes (ascii ['x'])) [.int 5, .int (-1)]
      (.group 0 (ofBytes (ascii ['A']))
        (.var 0 (ofBytes (ascii ['x'])) [.char (ofBytes [0x22, 0x0a])] .nil) .nil))
    (.var 0 (ofBytes (ascii ['a'])) [.bin [], .bin [0xff]] .nil)

theorem writable_sampleTree : Writable sampleTree := by
  have hgroup : IsGroupName (ofBytes (ascii ['a'])) ∧
      IsGroupName (ofBytes (ascii ['A'])) := by
    constructor <;> exact ⟨by decide, by decide⟩
  have hvar : IsVarName (ofBytes (ascii ['a'])) ∧
      IsVarName (ofBytes (ascii ['x'])) := by
    constructor <;> exact ⟨by decide, by decide, by decide⟩
  have hx : Writable (.var 0 (ofBytes (ascii ['x']))
      [.char (ofBytes [0x22, 0x0a])] .nil) :=
    ⟨rfl, hvar.2, ⟨.char, by decide, by decide⟩, fun _ he => absurd he List.not_mem_nil, trivial⟩
  have hne (name : CString) (values : List DbValue) (e : Entry)
      (he : e ∈ entries (.var 0 name values .nil)) (name' : CString) :
      ¬ SameEntry (.group, name') e := by
    rintro ⟨htyp, -⟩
    rw [List.mem_singleton.mp he] at htyp
    cases htyp
  refine ⟨rfl, hgroup.1, fun e he => hne _ _ e he _, ⟨rfl, hvar.2, ⟨.int, by decide, by decide⟩,
    ?_, rfl, hgroup.2, fun _ he => absurd he List.not_mem_nil, hx, trivial⟩, rfl, hvar.1,
    ⟨.bin, by decide, by decide⟩, fun _ he => absurd he List.not_mem_nil, trivial⟩
  rintro e he ⟨htyp, -⟩
  rw [List.mem_singleton.mp he] at htyp
  cases htyp

theorem readFromString_writeToBuffer_sample : ∃ h text,
    writeToBuffer sampleTree [] flagsDefault = (0, text) ∧
      readFromString (emptyGroup (ofBytes [])) 0 text flagsDefault = some (0, h) ∧
      (h.node 0).dataName = ofBytes [] ∧
      ∀ k, depth sampleTree < k → nodesOf h k (h.node 0).children = withoutFlags sampleTree :=
  readFromString_writeToBuffer writable_sampleTree (by decide) (ofBytes [])

end Db
end Gwenhywfar
