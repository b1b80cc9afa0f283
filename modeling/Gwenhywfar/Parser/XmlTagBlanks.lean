import Gwenhywfar.Parser.XmlPieces

/-! # White space inside tags

* `tagCalls`: the functions of the context that `GWEN_XML__ReadTag` calls for a start tag, with
  their arguments, as long as the context accepts them.
* `readTag_makes`: `readTag` makes these calls.
* `sameCalls_iff`: white space changes no call exactly when it begins with a blank behind the name
  of the tag, as only a blank, a `>` or a `/` ends the name. -/

namespace Gwenhywfar

set_option maxRecDepth 4000

namespace Xml

open Text

/-- What is called for a tag, the `<` of which has been read. -/
def tagCalls (s : List UInt8) : Option (List Call × List UInt8) :=
  match lexTag ⟨[], s⟩ with
  | .ok _ st => some (st.calls, st.rest)
  | .error _ _ => none

/-! ### Tags -/

def isLetter (c : UInt8) : Bool := isAlnum c && !isDigit c

def isWhite (c : UInt8) : Bool := c == code ' ' || c == 9 || c == 10

/-- An attribute, behind white space. -/
structure TagAttr where
  blanks : List UInt8
  name : List UInt8
  value : List UInt8
deriving DecidableEq

/-- A start tag, with white space in front of its end. -/
structure StartTag where
  name : List UInt8
  attrs : List TagAttr
  blanks : List UInt8
  closed : Bool
deriving DecidableEq

def isAttrValueChar (c : UInt8) : Bool := c != 0x22 && c != code '<' && c != code '&'

/-- White space is there between attributes, names are of letters, and values have neither quotes nor
markup. -/
structure StartTag.Plain (tag : StartTag) : Prop where
  name : tag.name ≠ [] ∧ ∀ c ∈ tag.name, isLetter c = true
  attrs : ∀ a ∈ tag.attrs, (a.blanks ≠ [] ∧ ∀ c ∈ a.blanks, isWhite c = true) ∧
    (a.name ≠ [] ∧ ∀ c ∈ a.name, isLetter c = true) ∧ ∀ c ∈ a.value, isAttrValueChar c = true
  blanks : ∀ c ∈ tag.blanks, isWhite c = true

def TagAttr.text (a : TagAttr) : List UInt8 :=
  a.blanks ++ (a.name ++ code '=' :: 0x22 :: (a.value ++ [0x22]))

def endText (closed : Bool) : List UInt8 := if closed then [code '/', code '>'] else [code '>']

def StartTag.restText (tag : StartTag) : List UInt8 :=
  tag.attrs.flatMap TagAttr.text ++ (tag.blanks ++ endText tag.closed)

/-- The text of a tag behind its `<`. -/
def StartTag.text (tag : StartTag) : List UInt8 := tag.name ++ tag.restText

def TagAttr.call (a : TagAttr) : Call := .addAttr a.name (if a.value = [] then none else some a.value)

def StartTag.calls (tag : StartTag) : List Call :=
  .startTag tag.name :: (tag.attrs.map TagAttr.call ++ [.endTag tag.closed])

def StartTag.SameCalls (tag : StartTag) : Prop :=
  ∀ rest, tagCalls (tag.text ++ rest) = some (tag.calls, rest)

/-- The white space behind the name. -/
def StartTag.firstBlanks (tag : StartTag) : List UInt8 :=
  match tag.attrs with
  | [] => tag.blanks
  | a :: _ => a.blanks

theorem tagCalls_eq {s s' : List UInt8} {cs : List Call} (h : lexTag ⟨[], s⟩ = .ok () ⟨cs, s'⟩) :
    tagCalls s = some (cs, s') := by
  unfold tagCalls
  rw [h]

/-- A tag is read with these calls. -/
theorem readTag_makes {iconv : Iconv} {s s' : List UInt8} {cs : List Call}
    (h : tagCalls s = some (cs, s')) : Makes iconv (readTag iconv) s () cs s' := by
  have hlexes := @readTag_lexes iconv ⟨[], s⟩
  unfold tagCalls at h
  cases hl : lexTag ⟨[], s⟩ with
  | error stop st => simp [hl] at h
  | ok a st =>
      rw [hl] at h hlexes
      simp only [Option.some.injEq, Prod.mk.injEq] at h
      obtain ⟨cs', hcalls, hmakes⟩ := hlexes
      rw [List.nil_append] at hcalls
      rwa [← hcalls, h.1, h.2] at hmakes

/-! ### Plain tags -/

section
variable {s rest dbuf name blanks value : List UInt8} {uc c : UInt8}

theorem letter (h : isLetter c = true) : 32 < c ∧ isClosing c = false ∧ c ≠ code ' ' ∧
    c ≠ code '>' ∧ c ≠ code '/' ∧ c ≠ code '=' ∧ c ≠ code '!' ∧ c ≠ code '?' := by
  have hall : ∀ c : UInt8, isLetter c = true → 32 < c ∧ isClosing c = false ∧ c ≠ code ' ' ∧
      c ≠ code '>' ∧ c ≠ code '/' ∧ c ≠ code '=' ∧ c ≠ code '!' ∧ c ≠ code '?' := by
    decide
  exact hall c h

theorem white (h : isWhite c = true) : c ≤ 32 ∧ isClosing c = false ∧ c ≠ code '>' ∧
    c ≠ code '/' := by
  have hall : ∀ c : UInt8, isWhite c = true → c ≤ 32 ∧ isClosing c = false ∧ c ≠ code '>' ∧
      c ≠ code '/' := by decide
  exact hall c h

theorem lexBlanks_append (cs : List Call) (hblanks : ∀ c ∈ blanks, isWhite c = true)
    (huc : 32 < uc) : lexBlanks ⟨cs, blanks ++ uc :: rest⟩ = .ok uc ⟨cs, rest⟩ := by
  refine lexScan_eq ?_
  unfold nextChar
  rw [List.dropWhile_append_of_pos fun c hc => decide_eq_true (white (hblanks c hc)).1,
    List.dropWhile_cons_of_neg (by simpa using UInt8.not_le.mpr huc)]

theorem isNameEnd_letter (h : isLetter uc = true) : isNameEnd dbuf uc = false := by
  obtain ⟨-, -, -, -, -, -, hbang, hquestion⟩ := letter h
  simp [isNameEnd, hbang, hquestion]

theorem scanName_letters : ∀ {name dbuf : List UInt8} {uc : UInt8},
    (∀ c ∈ uc :: name, isLetter c = true) →
      scanName dbuf uc (name ++ c :: rest) = scanName (dbuf ++ uc :: name) c rest
  | [], dbuf, uc, h => by
      have huc := h uc List.mem_cons_self
      obtain ⟨-, -, hblank, hgt, hslash, -⟩ := letter huc
      rw [List.nil_append, scanName, if_neg (by simp [hblank, hgt, hslash]),
        isNameEnd_letter huc, if_neg Bool.false_ne_true]
  | d :: name, dbuf, uc, h => by
      have huc := h uc List.mem_cons_self
      obtain ⟨-, -, hblank, hgt, hslash, -⟩ := letter huc
      rw [List.cons_append, scanName, if_neg (by simp [hblank, hgt, hslash]),
        isNameEnd_letter huc, if_neg Bool.false_ne_true,
        scanName_letters fun c hc => h c (List.mem_cons_of_mem _ hc), List.append_assoc,
        List.singleton_append]

theorem scanName_stop (h : uc = code ' ' ∨ uc = code '>' ∨ uc = code '/') :
    scanName dbuf uc s = some ((dbuf, uc), s) := by
  cases s <;> rw [scanName, if_pos h]

theorem scanName_initial : ∀ {s dbuf rest name : List UInt8} {uc c : UInt8},
    scanName dbuf uc s = some ((name, c), rest) → dbuf <+: name
  | [], dbuf, rest, name, uc, c, h => by
      unfold scanName at h
      split at h
      · simp only [Option.some.injEq, Prod.mk.injEq] at h
        exact h.1.1 ▸ List.prefix_refl _
      · cases h
  | d :: s, dbuf, rest, name, uc, c, h => by
      unfold scanName at h
      split at h
      · simp only [Option.some.injEq, Prod.mk.injEq] at h
        exact h.1.1 ▸ List.prefix_refl _
      split at h
      · split at h
        · simp only [Option.some.injEq, Prod.mk.injEq] at h
          exact h.1.1 ▸ List.prefix_refl _
        · exact (List.prefix_append dbuf [d]).trans (scanName_initial h)
      · exact (List.prefix_append dbuf [uc]).trans (scanName_initial h)

theorem scanAttrName_stop {nbuf : List UInt8}
    (h : isClosing uc = true ∨ uc = code '=' ∨ uc = code '>') :
    scanAttrName nbuf uc s = some ((nbuf, uc), s) := by
  cases s <;> rw [scanAttrName, if_pos h]

theorem scanAttrName_letters : ∀ {name nbuf : List UInt8} {uc : UInt8},
    (∀ c ∈ uc :: name, isLetter c = true) →
      scanAttrName nbuf uc (name ++ code '=' :: rest) =
        some ((nbuf ++ uc :: name, code '='), rest)
  | [], nbuf, uc, h => by
      obtain ⟨-, hclosing, -, hgt, -, heq, -⟩ := letter (h uc List.mem_cons_self)
      rw [List.nil_append, scanAttrName, if_neg (by simp [hclosing, hgt, heq]),
        scanAttrName_stop (Or.inr (Or.inl rfl))]
  | d :: name, nbuf, uc, h => by
      obtain ⟨-, hclosing, -, hgt, -, heq, -⟩ := letter (h uc List.mem_cons_self)
      rw [List.cons_append, scanAttrName, if_neg (by simp [hclosing, hgt, heq]),
        scanAttrName_letters fun c hc => h c (List.mem_cons_of_mem _ hc), List.append_assoc,
        List.singleton_append]

theorem scanAttrValue_quoted : ∀ {value vbuf : List UInt8},
    (∀ c ∈ value, isAttrValueChar c = true) →
      scanAttrValue true vbuf (value ++ 0x22 :: rest) = some (some (vbuf ++ value, 0x22), rest)
  | [], vbuf, _ => by
      rw [List.nil_append, scanAttrValue.eq_def]
      dsimp only
      rw [if_pos rfl, if_pos rfl, List.append_nil]
  | d :: value, vbuf, h => by
      have hd : d ≠ 0x22 := by
        have hchar := h d List.mem_cons_self
        unfold isAttrValueChar at hchar
        simp only [Bool.and_eq_true, bne_iff_ne] at hchar
        exact hchar.1.1
      rw [List.cons_append, scanAttrValue.eq_def]
      dsimp only
      rw [if_neg hd, if_pos rfl, scanAttrValue_quoted fun c hc => h c (List.mem_cons_of_mem _ hc),
        List.append_assoc, List.singleton_append]

theorem lexAttr_text {a : TagAttr} (cs : List Call) (hblanks : ∀ c ∈ a.blanks, isWhite c = true)
    (hname : a.name ≠ [] ∧ ∀ c ∈ a.name, isLetter c = true)
    (hvalue : ∀ c ∈ a.value, isAttrValueChar c = true) :
    lexAttr ⟨cs, a.text ++ rest⟩ = .ok 0x22 ⟨cs ++ [a.call], rest⟩ := by
  obtain ⟨hne, hletters⟩ := hname
  obtain ⟨d, name, hcons⟩ := List.exists_cons_of_ne_nil hne
  have htext : a.text ++ rest =
      a.blanks ++ d :: (name ++ code '=' :: (0x22 :: (a.value ++ 0x22 :: rest))) := by
    unfold TagAttr.text
    simp only [hcons, List.append_assoc, List.cons_append, List.nil_append]
  have hquoted : scanAttrValue false [] (0x22 :: (a.value ++ 0x22 :: rest)) =
      some (some (a.value, 0x22), rest) := by
    rw [scanAttrValue.eq_def]
    dsimp only
    rw [if_pos rfl, if_neg Bool.false_ne_true, scanAttrValue_quoted hvalue, List.nil_append]
  unfold lexAttr
  rw [htext,
    Triple.bind_eq_ok (lexBlanks_append cs hblanks (letter (hletters d (hcons ▸ List.mem_cons_self))).1),
    Triple.bind_eq_ok (lexScan_eq (scanAttrName_letters (hcons ▸ hletters)))]
  dsimp only
  rw [List.nil_append, ← hcons, if_neg hne, lexAttrValue, if_pos rfl,
    Triple.bind_eq_ok (lexScan_eq hquoted)]
  rfl

theorem lexAttr_end (cs : List Call) (hblanks : ∀ c ∈ blanks, isWhite c = true) (closed : Bool) :
    ∃ uc s, lexAttr ⟨cs, blanks ++ (endText closed ++ rest)⟩ = .ok uc ⟨cs, s⟩ ∧
      (isClosing uc = true ∨ uc = code '>') ∧
      if closed then isClosing uc = true ∧ s = code '>' :: rest
      else isClosing uc = false ∧ s = rest := by
  have hscan : ∀ c t, 32 < c → (isClosing c = true ∨ c = code '=' ∨ c = code '>') →
      lexAttr ⟨cs, blanks ++ c :: t⟩ = .ok c ⟨cs, t⟩ := by
    intro c t hc hstop
    unfold lexAttr
    rw [Triple.bind_eq_ok (lexBlanks_append cs hblanks hc),
      Triple.bind_eq_ok (lexScan_eq (scanAttrName_stop hstop))]
    rfl
  cases closed with
  | true =>
      exact ⟨code '/', code '>' :: rest, hscan _ _ (by decide) (Or.inl rfl), Or.inl rfl, rfl, rfl⟩
  | false =>
      exact ⟨code '>', rest, hscan _ _ (by decide) (Or.inr (Or.inr rfl)), Or.inr rfl, rfl, rfl⟩

theorem lexAttrs_text (hblanks : ∀ c ∈ blanks, isWhite c = true) (closed : Bool) :
    ∀ {attrs : List TagAttr} {k : ℕ} {cs : List Call}, attrs.length < k →
      (∀ a ∈ attrs, (∀ c ∈ a.blanks, isWhite c = true) ∧
        (a.name ≠ [] ∧ ∀ c ∈ a.name, isLetter c = true) ∧
          ∀ c ∈ a.value, isAttrValueChar c = true) →
      ∃ uc s, lexAttrs k ⟨cs, attrs.flatMap TagAttr.text ++ (blanks ++ (endText closed ++ rest))⟩ =
          .ok uc ⟨cs ++ attrs.map TagAttr.call, s⟩ ∧
        if closed then isClosing uc = true ∧ s = code '>' :: rest
        else isClosing uc = false ∧ s = rest
  | [], k + 1, cs, _, _ => by
      obtain ⟨uc, s, hattr, hend, hrest⟩ := @lexAttr_end rest blanks cs hblanks closed
      refine ⟨uc, s, ?_, hrest⟩
      rw [List.flatMap_nil, List.nil_append, lexAttrs, Triple.bind_eq_ok hattr, if_pos hend,
        List.map_nil, List.append_nil]
      rfl
  | a :: attrs, k + 1, cs, hk, h => by
      obtain ⟨hb, hname, hvalue⟩ := h a List.mem_cons_self
      obtain ⟨uc, s, hcalls, hrest⟩ := @lexAttrs_text hblanks closed attrs k (cs ++ [a.call])
        (Nat.lt_of_succ_lt_succ hk) fun b hb => h b (List.mem_cons_of_mem _ hb)
      refine ⟨uc, s, ?_, hrest⟩
      rw [List.flatMap_cons, List.append_assoc, lexAttrs,
        Triple.bind_eq_ok (lexAttr_text cs hb hname hvalue), if_neg (by decide), hcalls,
        List.append_assoc]
      rfl

theorem length_flatMap_text (attrs : List TagAttr) :
    attrs.length ≤ (attrs.flatMap TagAttr.text).length := by
  induction attrs with
  | nil => exact Nat.zero_le _
  | cons a attrs ih =>
      have ha : 0 < a.text.length := by
        unfold TagAttr.text
        simp
      rw [List.flatMap_cons, List.length_append, List.length_cons]
      omega

theorem lexTagRest_text {attrs : List TagAttr} (cs : List Call)
    (hblanks : ∀ c ∈ blanks, isWhite c = true) (closed : Bool)
    (h : ∀ a ∈ attrs, (∀ c ∈ a.blanks, isWhite c = true) ∧
      (a.name ≠ [] ∧ ∀ c ∈ a.name, isLetter c = true) ∧ ∀ c ∈ a.value, isAttrValueChar c = true) :
    lexTagRest ⟨cs, attrs.flatMap TagAttr.text ++ (blanks ++ (endText closed ++ rest))⟩ =
      .ok () ⟨cs ++ (attrs.map TagAttr.call ++ [.endTag closed]), rest⟩ := by
  have hle := length_flatMap_text attrs
  obtain ⟨uc, s, hcalls, hend⟩ := @lexAttrs_text rest blanks hblanks closed attrs
    ((attrs.flatMap TagAttr.text ++ (blanks ++ (endText closed ++ rest))).length + 1) cs
    (by rw [List.length_append]; omega) h
  refine (Triple.bind_eq_ok hcalls).trans ?_
  rw [← List.append_assoc]
  cases closed with
  | true =>
      obtain ⟨hclosing, rfl⟩ := hend
      rw [if_pos hclosing]
      rfl
  | false =>
      obtain ⟨hclosing, rfl⟩ := hend
      rw [if_neg (by simp [hclosing])]
      rfl

theorem lexTag_name (hname : name ≠ [] ∧ ∀ c ∈ name, isLetter c = true) :
    lexTag ⟨[], name ++ c :: rest⟩ = lexStartTag name c ⟨[], rest⟩ := by
  obtain ⟨hne, hletters⟩ := hname
  obtain ⟨d, name, rfl⟩ := List.exists_cons_of_ne_nil hne
  obtain ⟨hlt, -, -, -, hslash, -, hbang, -⟩ := letter (hletters d List.mem_cons_self)
  have hnext : lexBlanks ⟨[], d :: (name ++ c :: rest)⟩ = .ok d ⟨[], name ++ c :: rest⟩ :=
    @lexBlanks_append (name ++ c :: rest) [] d [] (by simp) hlt
  have hscan : lexScan .insideTag (scanName [] d) ⟨[], name ++ c :: rest⟩ =
      lexScan .insideTag (scanName (d :: name) c) ⟨[], rest⟩ := by
    unfold lexScan
    dsimp only
    rw [scanName_letters hletters, List.nil_append]
  rw [List.cons_append]
  refine (Triple.bind_eq_ok hnext).trans ?_
  rw [if_neg hslash, if_neg hbang]
  unfold lexStartTag
  change EStateM.bind _ _ _ = EStateM.bind _ _ _
  unfold EStateM.bind
  rw [hscan]

theorem lexStartTag_eq (hscan : scanName name c s = some ((dbuf, uc), rest)) (hne : dbuf ≠ []) :
    lexStartTag name c ⟨[], s⟩ = lexTagEnd uc ⟨[.startTag dbuf], rest⟩ := by
  unfold lexStartTag
  rw [Triple.bind_eq_ok (lexScan_eq hscan)]
  dsimp only
  rw [if_neg hne]
  rfl

theorem name_of_tagCalls {cs : List Call} (hname : name ≠ [] ∧ ∀ c ∈ name, isLetter c = true)
    (h : tagCalls (name ++ c :: s) = some (.startTag dbuf :: cs, rest)) :
    ∃ uc s', scanName name c s = some ((dbuf, uc), s') := by
  unfold tagCalls at h
  rw [lexTag_name hname] at h
  cases hscan : scanName name c s with
  | none =>
      have hlex : lexScan .insideTag (scanName name c) ⟨[], s⟩ = .error .insideTag ⟨[], []⟩ := by
        unfold lexScan
        dsimp only
        rw [hscan]
      rw [lexStartTag, Triple.bind_eq_error hlex] at h
      cases h
  | some p =>
      obtain ⟨⟨dbuf', uc⟩, s'⟩ := p
      have hne : dbuf' ≠ [] := by
        rintro rfl
        exact hname.1 (List.prefix_nil.mp (scanName_initial hscan))
      have hlexes := @tagEnd_lexes (fun _ _ => none) uc ⟨[.startTag dbuf'], s'⟩
      rw [lexStartTag_eq hscan hne] at h
      cases hl : lexTagEnd uc ⟨[.startTag dbuf'], s'⟩ with
      | error stop st => simp [hl] at h
      | ok a st =>
          rw [hl] at h hlexes
          obtain ⟨cs', hcalls, -⟩ := hlexes
          simp only [hcalls, List.singleton_append, Option.some.injEq, Prod.mk.injEq,
            List.cons.injEq, Call.startTag.injEq] at h
          exact ⟨uc, s', by rw [h.1.1]⟩

theorem restText_cons {tag : StartTag} (h : tag.Plain) {b : UInt8} {bs : List UInt8}
    (hfirst : tag.firstBlanks = b :: bs) : isWhite b = true ∧
      ∃ rest', tag.restText = b :: rest' ∧ rest' ≠ [] ∧
        ∀ rest, lexTagRest ⟨[.startTag tag.name], rest' ++ rest⟩ = .ok () ⟨tag.calls, rest⟩ := by
  obtain ⟨name, attrs, blanks, closed⟩ := tag
  have hattrs : ∀ a ∈ attrs, (∀ c ∈ a.blanks, isWhite c = true) ∧
      (a.name ≠ [] ∧ ∀ c ∈ a.name, isLetter c = true) ∧
        ∀ c ∈ a.value, isAttrValueChar c = true :=
    fun a ha => ⟨(h.attrs a ha).1.2, (h.attrs a ha).2⟩
  cases attrs with
  | nil =>
      change blanks = b :: bs at hfirst
      subst hfirst
      have hblanks := List.forall_mem_cons.mp h.blanks
      refine ⟨hblanks.1, bs ++ endText closed, rfl, ?_, fun rest => ?_⟩
      · cases closed <;> simp [endText]
      · rw [List.append_assoc]
        exact @lexTagRest_text rest bs [] _ hblanks.2 closed (by simp)
  | cons a attrs =>
      change a.blanks = b :: bs at hfirst
      obtain ⟨ha, hrest⟩ := List.forall_mem_cons.mp hattrs
      have hwhite := List.forall_mem_cons.mp (hfirst ▸ ha.1)
      refine ⟨hwhite.1, ({ a with blanks := bs } :: attrs).flatMap TagAttr.text ++
        (blanks ++ endText closed), ?_, ?_, fun rest => ?_⟩
      · unfold StartTag.restText
        simp only [List.flatMap_cons, TagAttr.text, hfirst, List.cons_append, List.append_assoc]
      · cases closed <;> simp [endText]
      · rw [List.append_assoc, List.append_assoc]
        exact @lexTagRest_text rest blanks _ _ h.blanks closed
          (List.forall_mem_cons.mpr ⟨⟨hwhite.2, ha.2⟩, hrest⟩)

end

/-- White space changes nothing exactly when the white space behind the name of the tag begins with
a blank. -/
theorem sameCalls_iff (tag : StartTag) (h : tag.Plain) :
    tag.SameCalls ↔ tag.firstBlanks = [] ∨ tag.firstBlanks.head? = some (code ' ') := by
  unfold StartTag.SameCalls StartTag.text
  cases hfirst : tag.firstBlanks with
  | nil =>
      refine iff_of_true (fun rest => tagCalls_eq ?_) (Or.inl rfl)
      obtain ⟨name, attrs, blanks, closed⟩ := tag
      cases attrs with
      | cons a attrs => exact absurd hfirst (h.attrs a List.mem_cons_self).1.1
      | nil =>
          change blanks = [] at hfirst
          subst hfirst
          cases closed with
          | true =>
              change lexTag ⟨[], name ++ [code '/', code '>'] ++ rest⟩ = _
              rw [List.append_assoc, List.cons_append, lexTag_name h.name]
              refine (lexStartTag_eq (scanName_stop (Or.inr (Or.inr rfl))) h.name.1).trans ?_
              rw [lexTagEnd, if_pos (by decide)]
              rfl
          | false =>
              change lexTag ⟨[], name ++ [code '>'] ++ rest⟩ = _
              rw [List.append_assoc, List.cons_append, lexTag_name h.name]
              refine (lexStartTag_eq (scanName_stop (Or.inr (Or.inl rfl))) h.name.1).trans ?_
              rw [lexTagEnd, if_neg (by decide), if_pos rfl]
              rfl
  | cons b bs =>
      obtain ⟨hwhite, rest', htext, hne, hcalls⟩ := restText_cons h hfirst
      rw [htext]
      obtain ⟨-, hclosing, hgt, hslash⟩ := white hwhite
      by_cases hb : b = code ' '
      · refine iff_of_true (fun rest => tagCalls_eq ?_) (Or.inr (congrArg some hb))
        rw [List.append_assoc, List.cons_append, lexTag_name h.name]
        refine (lexStartTag_eq (scanName_stop (Or.inl hb)) h.name.1).trans ?_
        rw [lexTagEnd, if_neg (by simp [hclosing]), if_neg hgt]
        exact hcalls rest
      · refine iff_of_false (fun hsame => ?_) (by simpa using hb)
        obtain ⟨d, t, rfl⟩ := List.exists_cons_of_ne_nil hne
        have hend : isNameEnd tag.name b = false := by
          unfold isClosing at hclosing
          simp only [Bool.or_eq_false_iff] at hclosing
          simp [isNameEnd, hclosing]
        have hread := hsame []
        rw [List.append_assoc, List.cons_append, List.append_nil] at hread
        obtain ⟨uc, s, hscan⟩ := name_of_tagCalls h.name hread
        rw [scanName, if_neg (by simp [hb, hgt, hslash]), hend, if_neg Bool.false_ne_true] at hscan
        have hprefix := (scanName_initial hscan).length_le
        rw [List.length_append, List.length_singleton] at hprefix
        omega

/-- The tag `<a b="c" />`. -/
theorem sameCalls_blank : StartTag.SameCalls
    ⟨ascii ['a'], [⟨ascii [' '], ascii ['b'], ascii ['c']⟩], ascii [' '], true⟩ :=
  (sameCalls_iff _ ⟨by decide, by decide, by decide⟩).mpr (Or.inr rfl)

/-- A tabulator belongs to the name of the tag. -/
theorem not_sameCalls_tab : ¬∀ tag : StartTag, tag.Plain → tag.SameCalls := by
  intro h
  have hread := h ⟨ascii ['a'], [], [9], true⟩
    ⟨by decide, by decide, by decide⟩ []
  revert hread
  decide

end Xml
end Gwenhywfar
