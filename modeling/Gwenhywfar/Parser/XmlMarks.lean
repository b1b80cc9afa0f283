import Gwenhywfar.Parser.XmlPieces

/-! # What the tags of a text open and close

* `Mark`: an element is opened or closed.  `marks` are those of the calls that belong to a text.
* `Balanced`: each element that is opened is closed again by an end tag with its name.
* `runCalls_cases`: a context that tolerates no other end tags accepts calls as long as their marks
  lead from one open node to the next and every text can be converted. -/

namespace Gwenhywfar.Xml

open Text
open CString (ofBytes)

/-! ### Marks -/

/-- An element is opened, or closed; what closes itself has no end tag. -/
inductive Mark
  | opens (name : CString)
  | closes (endName : Option CString)

/-- Tags that are no elements. -/
def isHeader (flags : UInt32) (name : CString) : Bool :=
  (name.bytes.head? == some (code '?') && has flags flagsHandleHeaders) ||
    strcaseEq name (str ['!', 'D', 'O', 'C', 'T', 'Y', 'P', 'E'])

def tagMark (name : CString) : Mark :=
  if name.bytes.head? = some (code '/') then .closes (some (ofBytes name.bytes.tail))
  else .opens name

def Call.marks (flags : UInt32) (header : Bool) : Call → List Mark
  | .startTag name =>
      if isHeader flags (ofBytes name) then [] else [tagMark (ofBytes name)]
  | .endTag closing => if closing && !header then [.closes none] else []
  | _ => []

/-- A header goes on behind the call. -/
def Call.inHeader (flags : UInt32) (header : Bool) : Call → Bool
  | .startTag name => header || isHeader flags (ofBytes name)
  | .endTag _ => false
  | _ => header

def marks (flags : UInt32) : (header : Bool) → List Call → List Mark
  | _, [] => []
  | header, c :: cs => c.marks flags header ++ marks flags (c.inHeader flags header) cs

/-- Each element is closed by an end tag with its name, or closes itself. -/
inductive Balanced : List Mark → Prop
  | nil : Balanced []
  | empty (name : CString) {rest : List Mark} (h : Balanced rest) :
      Balanced (.opens name :: .closes none :: rest)
  | element {name endName : CString} {inner rest : List Mark}
      (hname : strcaseEq name endName = true) (hinner : Balanced inner) (h : Balanced rest) :
      Balanced (.opens name :: (inner ++ .closes (some endName) :: rest))

/-- An element is open behind the marks. -/
def OpenAtEnd (ms : List Mark) : Prop :=
  ∃ before name inner, ms = before ++ .opens name :: inner ∧ Balanced inner

/-- The open nodes, from the inside out.  The outermost one stays open. -/
def Mark.nodes (nodes : List (Option CString)) : Mark → Option (List (Option CString))
  | .opens name => if nodes = [] then none else some (some name :: nodes)
  | .closes endName =>
      match nodes with
      | node :: parent :: nodes =>
          if endName.all (hasName · node) then some (parent :: nodes) else none
      | _ => none

def Mark.depth (depth : ℕ) : Mark → ℕ
  | .opens _ => depth + 1
  | .closes _ => depth - 1

def Mark.isEnd : Mark → Bool
  | .opens _ => false
  | .closes _ => true

/-! ### Character sets -/

/-- The header that is read, and the character set of the text. -/
structure Declared where
  header : Option CString
  encoding : Option CString

def Declared.addAttr (d : Declared) (name : CString) (value : Option CString) : Declared :=
  if d.header = some (str ['?', 'x', 'm', 'l']) ∧
      name = str ['e', 'n', 'c', 'o', 'd', 'i', 'n', 'g'] then
    { d with
      encoding :=
        if (value.map (strcaseEq · (str ['U', 'T', 'F', '-', '8']))).getD false then none
        else value }
  else d

/-- What is declared behind a call, unless a text of it cannot be converted. -/
def Call.declare (iconv : Iconv) (flags : UInt32) (d : Declared) : Call → Option Declared
  | .startTag name =>
      some (if isHeader flags (ofBytes name) then
        { d with header := some (ofBytes name) } else d)
  | .endTag _ => some { d with header := none }
  | .addAttr name none => some (d.addAttr (ofBytes name) none)
  | .addAttr name (some value) =>
      (convertCharset iconv d.encoding value).toOption.map fun value =>
        d.addAttr (ofBytes name) (some (ofBytes value))
  | .addData text => (convertCharset iconv d.encoding text).toOption.map fun _ => d
  | .comment text => (convertCharset iconv d.encoding text).toOption.map fun _ => d

/-! ### Balanced marks -/

section
variable {ms ms' : List Mark} {nodes nodes' : List (Option CString)}

theorem nodes_ne_nil (h : ms.foldlM Mark.nodes nodes = some nodes') (hn : nodes ≠ []) :
    nodes' ≠ [] := by
  induction ms generalizing nodes with
  | nil =>
      obtain rfl := Option.some.inj h
      exact hn
  | cons m ms ih =>
      rw [List.foldlM_cons] at h
      obtain ⟨nodes1, hm, h⟩ := Option.bind_eq_some_iff.mp h
      refine ih h ?_
      unfold Mark.nodes at hm
      split at hm
      · exact Option.some.inj (Option.ite_none_left_eq_some.mp hm).2 ▸ List.cons_ne_nil _ _
      · split at hm
        · exact Option.some.inj (Option.ite_none_right_eq_some.mp hm).2 ▸ List.cons_ne_nil _ _
        · cases hm

theorem nodes_nil (h : ms.foldlM Mark.nodes [] = some nodes') : ms = [] := by
  cases ms with
  | nil => rfl
  | cons m ms =>
      rw [List.foldlM_cons] at h
      obtain ⟨nodes1, hm, -⟩ := Option.bind_eq_some_iff.mp h
      cases m <;> simp [Mark.nodes] at hm

theorem Balanced.nodes_eq (h : Balanced ms) : ∀ nodes, nodes ≠ [] →
    ms.foldlM Mark.nodes nodes = some nodes := by
  induction h with
  | nil => exact fun _ _ => rfl
  | empty name _ ih =>
      intro nodes hn
      obtain ⟨node, nodes, rfl⟩ := List.exists_cons_of_ne_nil hn
      exact ih _ hn
  | element hname _ _ ihinner ih =>
      intro nodes hn
      obtain ⟨node, nodes, rfl⟩ := List.exists_cons_of_ne_nil hn
      rw [List.foldlM_cons, Mark.nodes, if_neg hn]
      simp only [Option.bind_eq_bind, Option.bind_some]
      rw [List.foldlM_append, ihinner _ (List.cons_ne_nil _ _)]
      simp only [Option.bind_eq_bind, Option.bind_some, List.foldlM_cons, Mark.nodes, hasName,
        Option.all_some, Option.any_some, hname, if_true]
      exact ih _ hn

theorem Balanced.nodes_same (h : Balanced ms) (hnodes : ms.foldlM Mark.nodes nodes = some nodes') :
    nodes' = nodes := by
  by_cases hn : nodes = []
  · subst hn
    rw [nodes_nil hnodes] at hnodes
    exact (Option.some.inj hnodes).symm
  · rw [h.nodes_eq nodes hn] at hnodes
    exact (Option.some.inj hnodes).symm

theorem Balanced.depth_eq (h : Balanced ms) : ∀ depth, ms.foldl Mark.depth depth = depth := by
  induction h with
  | nil => exact fun _ => rfl
  | empty name _ ih => exact fun depth => ih depth
  | element _ _ _ ihinner ih =>
      intro depth
      rw [List.foldl_cons, List.foldl_append, ihinner]
      exact ih depth

theorem Balanced.not_openAtEnd (h : Balanced ms) : ¬OpenAtEnd ms := by
  rintro ⟨before, name, inner, rfl, hinner⟩
  have hnodes := h.nodes_eq [none] (by simp)
  rw [List.foldlM_append] at hnodes
  obtain ⟨nodes, hbefore, hnodes⟩ := Option.bind_eq_some_iff.mp hnodes
  have hn := nodes_ne_nil hbefore (by simp)
  rw [List.foldlM_cons, Mark.nodes, if_neg hn] at hnodes
  simp only [Option.bind_eq_bind, Option.bind_some] at hnodes
  rw [hinner.nodes_eq _ (List.cons_ne_nil _ _)] at hnodes
  simp only [Option.some.injEq, List.cons.injEq] at hnodes
  exact hn hnodes.2

/-- Marks of which none ends an element open one each. -/
theorem eq_nil_of_depth (hend : ms.countP Mark.isEnd = 0) (hdepth : ms.foldl Mark.depth 0 = 0) :
    ms = [] := by
  have hle : ∀ (ms : List Mark) (d : ℕ), ms.countP Mark.isEnd = 0 →
      ms.foldl Mark.depth d = d + ms.length := by
    intro ms
    induction ms with
    | nil => exact fun _ _ => rfl
    | cons m ms ih =>
        intro d hend
        cases m with
        | opens name =>
            rw [List.countP_cons_of_neg (by simp [Mark.isEnd])] at hend
            rw [List.foldl_cons, ih _ hend, Mark.depth, List.length_cons]
            omega
        | closes name => simp [Mark.isEnd] at hend
  rw [hle ms 0 hend] at hdepth
  exact List.eq_nil_of_length_eq_zero (by omega)

end

/-! ### What a context makes of the calls -/

def declared (ctx : XmlCtx) : Declared := ⟨ctx.currentHeader, ctx.encoding⟩

/-- The marks of calls that are made to a context. -/
def marksFrom (ctx : XmlCtx) (cs : List Call) : List Mark :=
  marks ctx.flags ctx.currentHeader.isSome cs

section
variable {iconv : Iconv} {ctx ctx' ctx'' : XmlCtx} {cs cs' : List Call} {c : Call}

/-- The calls lead from one context to another one. -/
structure Follows (iconv : Iconv) (ctx : XmlCtx) (cs : List Call) (ctx' : XmlCtx) : Prop where
  flags : ctx'.flags = ctx.flags
  header : cs.foldl (Call.inHeader ctx.flags) ctx.currentHeader.isSome = ctx'.currentHeader.isSome
  declared : cs.foldlM (Call.declare iconv ctx.flags) (declared ctx) = some (Xml.declared ctx')
  nodes : (marksFrom ctx cs).foldlM Mark.nodes ctx.nodes = some ctx'.nodes
  depth : (marksFrom ctx cs).foldl Mark.depth ctx.depth = ctx'.depth

/-- A context without a node accepts no element.  Otherwise a text is not converted, or a mark does
not fit. -/
def Refused (iconv : Iconv) (ctx : XmlCtx) (cs : List Call) : Prop :=
  ctx.nodes = [] ∨ cs.foldlM (Call.declare iconv ctx.flags) (declared ctx) = none ∨
    (marksFrom ctx cs).foldlM Mark.nodes ctx.nodes = none

theorem marks_append (flags : UInt32) : ∀ (header : Bool) (cs cs' : List Call),
    marks flags header (cs ++ cs') =
      marks flags header cs ++ marks flags (cs.foldl (Call.inHeader flags) header) cs'
  | header, [], cs' => rfl
  | header, c :: cs, cs' => by
      rw [List.cons_append, marks, marks, marks_append, List.foldl_cons, List.append_assoc]

theorem Follows.marks_append (h : Follows iconv ctx cs ctx') (cs' : List Call) :
    marksFrom ctx (cs ++ cs') = marksFrom ctx cs ++ marksFrom ctx' cs' := by
  unfold marksFrom
  rw [Xml.marks_append, h.header, h.flags]

theorem Follows.trans (h : Follows iconv ctx cs ctx') (h' : Follows iconv ctx' cs' ctx'') :
    Follows iconv ctx (cs ++ cs') ctx'' where
  flags := h'.flags.trans h.flags
  header := by rw [List.foldl_append, h.header, ← h.flags, h'.header]
  declared := by
    rw [List.foldlM_append, h.declared]
    exact h.flags ▸ h'.declared
  nodes := by
    rw [h.marks_append, List.foldlM_append, h.nodes]
    exact h'.nodes
  depth := by rw [h.marks_append, List.foldl_append, h.depth, h'.depth]

theorem Refused.append (h : Refused iconv ctx cs) (cs' : List Call) :
    Refused iconv ctx (cs ++ cs') := by
  obtain h | h | h := h
  · exact Or.inl h
  · refine Or.inr (Or.inl ?_)
    rw [List.foldlM_append, h]
    rfl
  · refine Or.inr (Or.inr ?_)
    unfold marksFrom at h ⊢
    rw [marks_append, List.foldlM_append, h]
    rfl

theorem Follows.refused (h : Follows iconv ctx cs ctx') (h' : Refused iconv ctx' cs') :
    Refused iconv ctx (cs ++ cs') := by
  by_cases hn : ctx.nodes = []
  · exact Or.inl hn
  obtain h' | h' | h' := h'
  · exact absurd h' (nodes_ne_nil h.nodes hn)
  · refine Or.inr (Or.inl ?_)
    rw [List.foldlM_append, h.declared]
    exact h.flags ▸ h'
  · refine Or.inr (Or.inr ?_)
    rw [h.marks_append, List.foldlM_append, h.nodes]
    exact h'

/-- What a context answers to calls. -/
def Answers (iconv : Iconv) (ctx : XmlCtx) (cs : List Call) : Except ℤ XmlCtx → Prop
  | .ok ctx' => Follows iconv ctx cs ctx' ∧
      ctx'.finishedElements = ctx.finishedElements + (marksFrom ctx cs).countP Mark.isEnd
  | .error rv => (rv < 0 ∧ rv ≠ errorEof) ∧ Refused iconv ctx cs

theorem marksFrom_single (ctx : XmlCtx) (c : Call) :
    marksFrom ctx [c] = c.marks ctx.flags ctx.currentHeader.isSome := List.append_nil _

theorem answers_same (hflags : ctx'.flags = ctx.flags)
    (hmarks : c.marks ctx.flags ctx.currentHeader.isSome = [])
    (hheader : c.inHeader ctx.flags ctx.currentHeader.isSome = ctx'.currentHeader.isSome)
    (hdeclared : c.declare iconv ctx.flags (declared ctx) = some (declared ctx'))
    (hsame : ctx'.nodes = ctx.nodes ∧ ctx'.depth = ctx.depth ∧
      ctx'.finishedElements = ctx.finishedElements) : Answers iconv ctx [c] (.ok ctx') := by
  have hmarks := (marksFrom_single ctx c).trans hmarks
  refine ⟨⟨hflags, hheader, ?_, ?_, ?_⟩, ?_⟩
  · rw [List.foldlM_cons, hdeclared]
    rfl
  · rw [hmarks, hsame.1]
    rfl
  · rw [hmarks, hsame.2.1]
    rfl
  · rw [hmarks, hsame.2.2]
    rfl

theorem answers_mark {m : Mark} (hflags : ctx'.flags = ctx.flags)
    (hmarks : c.marks ctx.flags ctx.currentHeader.isSome = [m])
    (hheader : c.inHeader ctx.flags ctx.currentHeader.isSome = ctx'.currentHeader.isSome)
    (hdeclared : c.declare iconv ctx.flags (declared ctx) = some (declared ctx'))
    (hnodes : m.nodes ctx.nodes = some ctx'.nodes) (hdepth : m.depth ctx.depth = ctx'.depth)
    (hfinished : ctx'.finishedElements = ctx.finishedElements + if m.isEnd then 1 else 0) :
    Answers iconv ctx [c] (.ok ctx') := by
  have hmarks := (marksFrom_single ctx c).trans hmarks
  refine ⟨⟨hflags, hheader, ?_, ?_, ?_⟩, ?_⟩
  · rw [List.foldlM_cons, hdeclared]
    rfl
  · rw [hmarks, List.foldlM_cons, hnodes]
    rfl
  · rw [hmarks]
    exact hdepth
  · rw [hmarks, List.countP_singleton, hfinished]

theorem refused_mark {m : Mark} (hmarks : c.marks ctx.flags ctx.currentHeader.isSome = [m])
    (hnodes : m.nodes ctx.nodes = none) : Refused iconv ctx [c] := by
  refine Or.inr (Or.inr ?_)
  rw [marksFrom_single, hmarks, List.foldlM_cons, hnodes]
  rfl

theorem startTag_answers (hf : has ctx.flags flagsTolerantEndtags = false) (name : List UInt8) :
    Answers iconv ctx [.startTag name] (storeStartTag ctx (ofBytes name)) := by
  have hBad : errorBadData < 0 ∧ errorBadData ≠ errorEof := by decide
  have hheader (h : isHeader ctx.flags (ofBytes name) = true) : Answers iconv ctx
      [.startTag name] (.ok { ctx with currentHeader := some (ofBytes name) }) :=
    answers_same rfl (if_pos h) (by simp [Call.inHeader, h]) (congrArg some (if_pos h))
      ⟨rfl, rfl, rfl⟩
  unfold storeStartTag
  dsimp only
  split
  · next hn => exact ⟨by decide, Or.inl hn⟩
  next node parents hn =>
  split
  · next h => exact hheader (by simp [isHeader, h])
  next hquestion =>
  split
  · next h => exact hheader (by simp [isHeader, h])
  next hdoctype =>
  have helement : isHeader ctx.flags (ofBytes name) = false := by
    refine Bool.eq_false_iff.mpr fun h => ?_
    rw [isHeader, Bool.or_eq_true, Bool.and_eq_true, beq_iff_eq] at h
    exact h.elim hquestion hdoctype
  have hin : (Call.startTag name).inHeader ctx.flags ctx.currentHeader.isSome =
      ctx.currentHeader.isSome := by simp [Call.inHeader, helement]
  have hdeclare : (Call.startTag name).declare iconv ctx.flags (declared ctx) =
      some (declared ctx) := by simp [Call.declare, helement]
  have hmarks : (Call.startTag name).marks ctx.flags ctx.currentHeader.isSome =
      [tagMark (ofBytes name)] := if_neg (by simp [helement])
  split
  · next hslash =>
      rw [tagMark, if_pos hslash] at hmarks
      have hclose (h : parents = [] ∨ hasName (ofBytes (ofBytes name).bytes.tail)
          node = false) : Refused iconv ctx [.startTag name] := by
        refine refused_mark hmarks ?_
        rw [hn]
        cases parents with
        | nil => rfl
        | cons parent parents =>
            rw [Mark.nodes, Option.all_some, if_neg]
            rw [h.resolve_left (List.cons_ne_nil _ _)]
            exact Bool.false_ne_true
      split
      · next hnone => exact ⟨hBad, hclose (Or.inr (by rw [hnone]; rfl))⟩
      split
      · next hname =>
          split
          · next hnil => exact ⟨hBad, hclose (Or.inl hnil)⟩
          next hne =>
            obtain ⟨parent, parents, rfl⟩ := List.exists_cons_of_ne_nil hne
            refine answers_mark rfl hmarks hin hdeclare ?_ rfl rfl
            rw [hn, Mark.nodes, Option.all_some, if_pos hname]
      · next hname =>
          rw [if_neg (by simp [hf])]
          exact ⟨hBad, hclose (Or.inr (by simpa using hname))⟩
  · next hslash =>
      rw [tagMark, if_neg hslash] at hmarks
      refine answers_mark rfl hmarks hin hdeclare ?_ rfl rfl
      rw [Mark.nodes, if_neg (by simp [hn])]

theorem endTag_answers (closing : Bool) :
    Answers iconv ctx [.endTag closing] (storeEndTag ctx closing) := by
  unfold storeEndTag
  split
  · next hheader =>
      obtain ⟨name, hname⟩ := Option.ne_none_iff_exists'.mp hheader
      exact answers_same rfl (by simp [Call.marks, hname]) rfl rfl ⟨rfl, rfl, rfl⟩
  next hheader =>
  have hheader : ctx.currentHeader = none := not_not.mp hheader
  have hdeclare : (Call.endTag closing).declare iconv ctx.flags (declared ctx) =
      some (declared ctx) := by simp [Call.declare, declared, hheader]
  have hin : (Call.endTag closing).inHeader ctx.flags ctx.currentHeader.isSome =
      ctx.currentHeader.isSome := by simp [Call.inHeader, hheader]
  split
  · next hn => exact ⟨by decide, Or.inl hn⟩
  next node parents hn =>
  split
  · next hclosing =>
      have hmarks : (Call.endTag closing).marks ctx.flags ctx.currentHeader.isSome =
          [.closes none] := by simp [Call.marks, hheader, hclosing]
      split
      · next hnil =>
          refine ⟨by decide, refused_mark hmarks ?_⟩
          rw [hn, hnil]
          rfl
      · next hne =>
          obtain ⟨parent, parents, rfl⟩ := List.exists_cons_of_ne_nil hne
          refine answers_mark rfl hmarks hin hdeclare ?_ rfl rfl
          rw [hn]
          rfl
  · next hclosing =>
      exact answers_same rfl (by simp [Call.marks, hclosing]) hin hdeclare ⟨rfl, rfl, rfl⟩

theorem addAttr_answers (hmarks : c.marks ctx.flags ctx.currentHeader.isSome = [])
    (hheader : c.inHeader ctx.flags ctx.currentHeader.isSome = ctx.currentHeader.isSome)
    {name : CString} {value : Option CString}
    (hdeclared : c.declare iconv ctx.flags (declared ctx) =
      some ((declared ctx).addAttr name value)) :
    Answers iconv ctx [c] (storeAddAttr ctx name value) := by
  obtain ⟨flags, encoding, nodes, depth, finished, header⟩ := ctx
  unfold storeAddAttr
  cases header with
  | none =>
      dsimp only
      split
      · next hn => exact ⟨by decide, Or.inl hn⟩
      · refine answers_same rfl hmarks hheader (hdeclared.trans ?_) ⟨rfl, rfl, rfl⟩
        exact congrArg some (if_neg (by simp [declared]))
  | some header =>
      dsimp only
      split
      · next h =>
          refine answers_same rfl hmarks hheader (hdeclared.trans ?_) ⟨rfl, rfl, rfl⟩
          exact congrArg some (if_pos ⟨congrArg some h.1, h.2⟩)
      · next h =>
          refine answers_same rfl hmarks hheader (hdeclared.trans ?_) ⟨rfl, rfl, rfl⟩
          exact congrArg some (if_neg fun h' => h ⟨Option.some.inj h'.1, h'.2⟩)

theorem convertCharset_error {charset : Option CString} {text : List UInt8} {rv : ℤ}
    (h : convertCharset iconv charset text = .error rv) : rv = errorGeneric := by
  unfold convertCharset at h
  split at h
  · cases h
  split at h
  · cases h
  split at h
  · cases h
  · exact (Except.error.inj h).symm
  · cases h

theorem convert_answers {text : List UInt8} {f : List UInt8 → Except ℤ XmlCtx}
    {g : List UInt8 → Declared} (hdeclare : c.declare iconv ctx.flags (declared ctx) =
      (convertCharset iconv (declared ctx).encoding text).toOption.map g)
    (hf : ∀ t, c.declare iconv ctx.flags (declared ctx) = some (g t) →
      Answers iconv ctx [c] (f t)) :
    Answers iconv ctx [c] ((convertCharset iconv ctx.encoding text).bind f) := by
  change c.declare iconv ctx.flags _ = (convertCharset iconv ctx.encoding text).toOption.map g
    at hdeclare
  cases hc : convertCharset iconv ctx.encoding text with
  | ok t => exact hf t (by rw [hdeclare, hc]; rfl)
  | error rv =>
      refine ⟨convertCharset_error hc ▸ by decide, Or.inr (Or.inl ?_)⟩
      rw [List.foldlM_cons, hdeclare, hc]
      rfl

theorem run_answers (hf : has ctx.flags flagsTolerantEndtags = false) (c : Call) :
    Answers iconv ctx [c] (c.run iconv ctx) := by
  cases c with
  | startTag name => exact startTag_answers hf name
  | endTag closing => exact endTag_answers closing
  | addAttr name value =>
      cases value with
      | none => exact addAttr_answers rfl rfl rfl
      | some value => exact convert_answers rfl fun t ht => addAttr_answers rfl rfl ht
  | addData text =>
      refine convert_answers rfl fun t ht => ?_
      split
      · unfold storeAddData
        split
        · next hn => exact ⟨by decide, Or.inl hn⟩
        · exact answers_same rfl rfl rfl ht ⟨rfl, rfl, rfl⟩
      · exact answers_same rfl rfl rfl ht ⟨rfl, rfl, rfl⟩
  | comment text => exact convert_answers rfl fun t ht => answers_same rfl rfl rfl ht ⟨rfl, rfl, rfl⟩

theorem Answers.append {rv : ℤ} (h : Answers iconv ctx cs (.error rv)) (cs' : List Call) :
    Answers iconv ctx (cs ++ cs') (.error rv) := ⟨h.1, h.2.append cs'⟩

theorem Answers.trans {r : Except ℤ XmlCtx} (h : Answers iconv ctx cs (.ok ctx'))
    (h' : Answers iconv ctx' cs' r) : Answers iconv ctx (cs ++ cs') r := by
  cases r with
  | error rv => exact ⟨h'.1, h.1.refused h'.2⟩
  | ok ctx'' =>
      refine ⟨h.1.trans h'.1, ?_⟩
      rw [h'.2, h.2, h.1.marks_append, List.countP_append, Nat.add_assoc]

/-- A context that tolerates no other end tags accepts the calls that lead on. -/
theorem runCalls_answers (hf : has ctx.flags flagsTolerantEndtags = false) :
    Answers iconv ctx cs (runCalls iconv ctx cs) := by
  induction cs generalizing ctx with
  | nil => exact ⟨⟨rfl, rfl, rfl, rfl, rfl⟩, rfl⟩
  | cons c cs ih =>
      have hc := @run_answers iconv ctx hf c
      rw [runCalls]
      cases hrun : c.run iconv ctx with
      | error rv =>
          rw [hrun] at hc
          exact hc.append cs
      | ok ctx1 =>
          rw [hrun] at hc
          exact hc.trans (ih (hc.1.flags ▸ hf))

end

end Gwenhywfar.Xml
