import Gwenhywfar.Lib.Triple
import Gwenhywfar.Parser.XmlRead

/-! # Tags as text

* `Call`: a call of a function of the context.
* `lexTag`: the calls that belong to a tag.  They depend on the text alone, whether or not a context
  accepts them.
* `readTag_lexes`: `GWEN_XML__ReadTag` makes these calls, as long as the context accepts them. -/

namespace Gwenhywfar.Xml

open Text
open CString (ofBytes)

/-! ### Calls -/

/-- A call of a function of the context, or a comment; no text is converted yet. -/
inductive Call where
  | startTag (name : List UInt8)
  | addAttr (name : List UInt8) (value : Option (List UInt8))
  | endTag (closing : Bool)
  | addData (text : List UInt8)
  | comment (text : List UInt8)
deriving DecidableEq

/-- `GWEN_XmlCtx_StartTag` and the like. -/
def Call.run (iconv : Iconv) (ctx : XmlCtx) : Call → Except ℤ XmlCtx
  | .startTag name => storeStartTag ctx (ofBytes name)
  | .addAttr name none => storeAddAttr ctx (ofBytes name) none
  | .addAttr name (some value) =>
      (convertCharset iconv ctx.encoding value).bind fun value =>
        storeAddAttr ctx (ofBytes name) (some (ofBytes value))
  | .endTag closing => storeEndTag ctx closing
  | .addData text =>
      (convertCharset iconv ctx.encoding text).bind fun text =>
        if text.headD 0 ≠ 0 then storeAddData ctx else .ok ctx
  | .comment text => (convertCharset iconv ctx.encoding text).bind fun _ => .ok ctx

def runCalls (iconv : Iconv) (ctx : XmlCtx) : List Call → Except ℤ XmlCtx
  | [] => .ok ctx
  | c :: cs => (c.run iconv ctx).bind fun ctx => runCalls iconv ctx cs

/-! ### The text of a tag -/

/-- Why the text of a tag is not complete: it ends there, it is no tag, or there are no more
rounds. -/
inductive Stop where
  | insideTag
  | insideComment
  | malformed
  | exhausted
deriving DecidableEq

/-- The calls so far, and the text behind. -/
structure LexState where
  calls : List Call
  rest : List UInt8

abbrev LexM := EStateM Stop LexState

def lexScan {α : Type} (stop : Stop) (f : List UInt8 → Option (α × List UInt8)) : LexM α := fun st =>
  match f st.rest with
  | none => .error stop { st with rest := [] }
  | some (a, rest) => .ok a { st with rest := rest }

theorem lexScan_eq {α : Type} {stop : Stop} {f : List UInt8 → Option (α × List UInt8)} {a : α}
    {s s' : List UInt8} {cs : List Call} (h : f s = some (a, s')) :
    lexScan stop f ⟨cs, s⟩ = .ok a ⟨cs, s'⟩ := by
  unfold lexScan
  dsimp only
  rw [h]

def lexCall (c : Call) : LexM Unit := fun st => .ok () { st with calls := st.calls ++ [c] }

def nextChar (s : List UInt8) : Option (UInt8 × List UInt8) :=
  match s.dropWhile (· ≤ 32) with
  | [] => none
  | c :: rest => some (c, rest)

def lexBlanks : LexM UInt8 := lexScan .insideTag nextChar

def lexPeek : LexM UInt8 := lexScan .insideTag fun s => s.head?.map fun c => (c, s)

def lexSkip : LexM Unit := fun st => .ok () { st with rest := st.rest.tail }

def lexData : LexM Unit := do
  let dbuf ← lexScan .insideTag fun s =>
    some (s.takeWhile (· != code '<'), s.dropWhile (· != code '<'))
  if dbuf ≠ [] then lexCall (.addData dbuf)

def lexComment : LexM Unit := do
  let cbuf ← lexScan .insideComment (scanComment [])
  lexCall (.comment cbuf)

def lexEndTag : LexM Unit := do
  let (name, uc) ← lexScan .insideTag scanEndName
  lexCall (.startTag (code '/' :: name))
  let uc ← if uc = code '>' then pure uc else lexBlanks
  if uc ≠ code '>' then throw .malformed
  else lexCall (.endTag false)

def lexAttrValue (nbuf : List UInt8) (uc : UInt8) : LexM UInt8 :=
  if uc = code '=' then do
    let value ← lexScan .insideTag (scanAttrValue false [])
    match value with
    | none => throw .malformed
    | some (vbuf, uc) =>
        lexCall (.addAttr nbuf (if vbuf = [] then none else some vbuf))
        pure uc
  else do
    lexCall (.addAttr nbuf none)
    pure uc

def lexAttr : LexM UInt8 := do
  let uc ← lexBlanks
  let (nbuf, uc) ← lexScan .insideTag (scanAttrName [] uc)
  if nbuf = [] then pure uc
  else lexAttrValue nbuf uc

/-- The attributes up to the character that ends the tag, in at most `k` rounds. -/
def lexAttrs : ℕ → LexM UInt8
  | 0 => throw .exhausted
  | k + 1 => do
      let uc ← lexAttr
      if isClosing uc ∨ uc = code '>' then pure uc else lexAttrs k

/-- The end of a tag that closes itself, or something else. -/
def lexClosing (m : LexM Unit) : LexM Unit := do
  let c ← lexPeek
  if c = code '>' then
    lexSkip
    lexCall (.endTag true)
  else m

def lexTagRest : LexM Unit := do
  let st ← get
  let uc ← lexAttrs (st.rest.length + 1)
  if isClosing uc then lexClosing (throw .malformed)
  else lexCall (.endTag false)

/-- What is behind the name of a tag and the character that ends it. -/
def lexTagEnd (uc : UInt8) : LexM Unit :=
  if isClosing uc then lexClosing lexTagRest
  else if uc = code '>' then lexCall (.endTag false)
  else lexTagRest

def lexStartTag (dbuf : List UInt8) (uc : UInt8) : LexM Unit := do
  let (dbuf, uc) ← lexScan .insideTag (scanName dbuf uc)
  if dbuf = [] then throw .malformed
  else
    lexCall (.startTag dbuf)
    lexTagEnd uc

/-- A tag or a comment, the `<` of which has been read. -/
def lexTag : LexM Unit := do
  let uc ← lexBlanks
  if uc = code '/' then lexEndTag
  else if uc = code '!' then
    let c ← lexPeek
    if c = code '-' then
      lexSkip
      let c ← lexPeek
      if c = code '-' then
        lexSkip
        lexComment
      else lexStartTag (ascii ['!', '-']) c
    else lexStartTag [] uc
  else lexStartTag [] uc

/-! ### The reader makes the calls -/

section
variable {iconv : Iconv} {α β : Type} {s s' s'' : List UInt8} {cs cs' : List Call} {stop : Stop}

/-- A reader makes calls, and how it ends if the context accepts them; else it returns the error of
the context. -/
def After (iconv : Iconv) (m : XmlM α) (s : List UInt8) (cs : List Call)
    (P : XmlCtx → EStateM.Result ℤ XmlState α → Prop) : Prop :=
  ∀ ctx, match runCalls iconv ctx cs with
    | .ok ctx' => P ctx' (m ⟨ctx, s⟩)
    | .error rv => ∃ st, m ⟨ctx, s⟩ = .error rv st

/-- A reader makes calls and goes on behind the bytes that it has read. -/
def Makes (iconv : Iconv) (m : XmlM α) (s : List UInt8) (a : α) (cs : List Call)
    (s' : List UInt8) : Prop := After iconv m s cs fun ctx r => r = .ok a ⟨ctx, s'⟩

/-- What a reader returns where a text ends, with a context, or is no tag. -/
def Stop.Returned (ctx : XmlCtx) (rv : ℤ) (st : XmlState) : Stop → Prop
  | insideTag => rv = errorEof
  | insideComment => rv = errorEof ∧ st.ctx = ctx
  | malformed => rv < 0 ∧ rv ≠ errorEof
  | exhausted => True

/-- A reader makes calls and then returns an error. -/
def Stops (iconv : Iconv) (m : XmlM α) (s : List UInt8) (cs : List Call) (stop : Stop) : Prop :=
  After iconv m s cs fun ctx r => ∃ rv st, r = .error rv st ∧ stop.Returned ctx rv st

/-- A reader makes the calls that belong to the text. -/
def Lexes (iconv : Iconv) (m : XmlM α) (l : LexM α) : Prop :=
  ∀ st, match l st with
    | .ok a st' => ∃ cs, st'.calls = st.calls ++ cs ∧ Makes iconv m st.rest a cs st'.rest
    | .error stop st' => ∃ cs, st'.calls = st.calls ++ cs ∧ Stops iconv m st.rest cs stop

theorem runCalls_append (iconv : Iconv) : ∀ (ctx : XmlCtx) (cs cs' : List Call),
    runCalls iconv ctx (cs ++ cs') =
      (runCalls iconv ctx cs).bind fun ctx => runCalls iconv ctx cs'
  | ctx, [], cs' => rfl
  | ctx, c :: cs, cs' => by
      rw [List.cons_append, runCalls, runCalls]
      cases c.run iconv ctx with
      | error rv => rfl
      | ok ctx => exact runCalls_append iconv ctx cs cs'

theorem Makes.bind {m : XmlM α} {f : α → XmlM β} {a : α}
    {P : XmlCtx → EStateM.Result ℤ XmlState β → Prop} (hm : Makes iconv m s a cs s')
    (hf : After iconv (f a) s' cs' P) : After iconv (m >>= f) s (cs ++ cs') P := by
  intro ctx
  have h1 := hm ctx
  rw [runCalls_append]
  cases hrun : runCalls iconv ctx cs with
  | error rv =>
      rw [hrun] at h1
      obtain ⟨st, h1⟩ := h1
      exact ⟨st, Triple.bind_eq_error h1⟩
  | ok ctx' =>
      rw [hrun] at h1
      have h2 := hf ctx'
      change match runCalls iconv ctx' cs' with
        | .ok ctx'' => P ctx'' ((m >>= f) ⟨ctx, s⟩)
        | .error rv => ∃ st, (m >>= f) ⟨ctx, s⟩ = .error rv st
      rw [Triple.bind_eq_ok h1]
      exact h2

theorem Stops.bind {m : XmlM α} {f : α → XmlM β} (hm : Stops iconv m s cs stop) :
    Stops iconv (m >>= f) s cs stop := by
  intro ctx
  have h1 := hm ctx
  cases hrun : runCalls iconv ctx cs with
  | error rv =>
      rw [hrun] at h1
      obtain ⟨st, h1⟩ := h1
      exact ⟨st, Triple.bind_eq_error h1⟩
  | ok ctx' =>
      rw [hrun] at h1
      obtain ⟨rv, st, h1, hreturned⟩ := h1
      exact ⟨rv, st, Triple.bind_eq_error h1, hreturned⟩

theorem Lexes.bind {m : XmlM α} {f : α → XmlM β} {l : LexM α} {g : α → LexM β}
    (hm : Lexes iconv m l) (hf : ∀ a, Lexes iconv (f a) (g a)) :
    Lexes iconv (m >>= f) (l >>= g) := by
  intro st
  have h1 := hm st
  cases hl : l st with
  | error stop st' =>
      rw [hl] at h1
      obtain ⟨cs, hcalls, hstops⟩ := h1
      rw [Triple.bind_eq_error hl]
      exact ⟨cs, hcalls, hstops.bind⟩
  | ok a st' =>
      rw [hl] at h1
      obtain ⟨cs, hcalls, hmakes⟩ := h1
      have h2 := hf a st'
      rw [Triple.bind_eq_ok hl]
      cases hg : g a st' with
      | error stop st'' =>
          rw [hg] at h2
          obtain ⟨cs', hcalls', hstops⟩ := h2
          exact ⟨cs ++ cs', by rw [hcalls', hcalls, List.append_assoc], hmakes.bind hstops⟩
      | ok b st'' =>
          rw [hg] at h2
          obtain ⟨cs', hcalls', hmakes'⟩ := h2
          exact ⟨cs ++ cs', by rw [hcalls', hcalls, List.append_assoc], hmakes.bind hmakes'⟩

theorem Lexes.ite {c : Prop} [Decidable c] {m m' : XmlM α} {l l' : LexM α}
    (h : c → Lexes iconv m l) (h' : ¬c → Lexes iconv m' l') :
    Lexes iconv (if c then m else m') (if c then l else l') := by
  by_cases hc : c
  · rw [if_pos hc, if_pos hc]
    exact h hc
  · rw [if_neg hc, if_neg hc]
    exact h' hc

theorem Makes.pure (a : α) : Makes iconv (Pure.pure a) s a [] s := fun _ => rfl

theorem Lexes.pure (a : α) : Lexes iconv (Pure.pure a) (Pure.pure a) :=
  fun _ => ⟨[], (List.append_nil _).symm, Makes.pure a⟩

theorem stops_throw {rv : ℤ} (h : rv < 0 ∧ rv ≠ errorEof) :
    Stops iconv (MonadExcept.throw rv : XmlM α) s [] .malformed := fun _ => ⟨rv, _, rfl, h⟩

theorem Lexes.throw {rv : ℤ} (h : rv < 0 ∧ rv ≠ errorEof) :
    Lexes iconv (MonadExcept.throw rv : XmlM α) (MonadExcept.throw Stop.malformed) :=
  fun _ => ⟨[], (List.append_nil _).symm, stops_throw h⟩

theorem makes_scan {f : List UInt8 → Option (α × List UInt8)} {a : α} (h : f s = some (a, s')) :
    Makes iconv (scan f) s a [] s' := by
  intro ctx
  unfold scan runCalls
  dsimp only
  rw [h]

theorem makes_onCtx {f : XmlCtx → Except ℤ XmlCtx} {c : Call}
    (h : ∀ ctx, c.run iconv ctx = f ctx) : Makes iconv (onCtx f) s () [c] s := by
  intro ctx
  unfold onCtx runCalls
  rw [h]
  cases f ctx with
  | error rv => exact ⟨_, rfl⟩
  | ok ctx' => rfl

theorem stops_scan {f : List UInt8 → Option (α × List UInt8)} (h : f s = none)
    (hstop : stop ≠ .malformed) : Stops iconv (scan f) s [] stop := by
  intro ctx
  refine ⟨errorEof, ⟨ctx, []⟩, ?_, ?_⟩
  · unfold scan
    dsimp only
    rw [h]
  · cases stop with
    | insideTag => rfl
    | insideComment => exact ⟨rfl, rfl⟩
    | malformed => exact absurd rfl hstop
    | exhausted => trivial

theorem Lexes.scan (f : List UInt8 → Option (α × List UInt8)) (hstop : stop ≠ .malformed) :
    Lexes iconv (Xml.scan f) (lexScan stop f) := by
  intro st
  unfold lexScan
  cases hf : f st.rest with
  | some p => exact ⟨[], (List.append_nil _).symm, makes_scan hf⟩
  | none => exact ⟨[], (List.append_nil _).symm, stops_scan hf hstop⟩

theorem Lexes.call {f : XmlCtx → Except ℤ XmlCtx} {c : Call}
    (h : ∀ ctx, c.run iconv ctx = f ctx) : Lexes iconv (onCtx f) (lexCall c) :=
  fun _ => ⟨[c], rfl, makes_onCtx h⟩

theorem skipBlanks_lexes : Lexes iconv skipBlanks lexBlanks :=
  Lexes.scan nextChar (by decide)

theorem peekByte_lexes : Lexes iconv peekByte lexPeek := by
  intro st
  unfold lexPeek lexScan
  cases hrest : st.rest with
  | nil => exact ⟨[], (List.append_nil _).symm, fun ctx => ⟨errorEof, _, rfl, rfl⟩⟩
  | cons c rest =>
      refine ⟨[], (List.append_nil _).symm, ?_⟩
      exact fun ctx => rfl

theorem skipByte_lexes : Lexes iconv skipByte lexSkip :=
  fun _ => ⟨[], (List.append_nil _).symm, fun _ => rfl⟩

/-- A text is converted and then given to the context. -/
theorem makes_convert {c : Call} {text : List UInt8} {a : α}
    {f : List UInt8 → XmlCtx → Except ℤ XmlCtx} {m : List UInt8 → XmlM α}
    (hm : ∀ text, m text = onCtx (f text) >>= fun _ => Pure.pure a)
    (hrun : ∀ ctx, c.run iconv ctx = (convertCharset iconv ctx.encoding text).bind (f · ctx)) :
    Makes iconv (convert iconv text >>= m) s a [c] s := by
  intro ctx
  unfold runCalls
  rw [hrun]
  cases hc : convertCharset iconv ctx.encoding text with
  | error rv =>
      have hconvert : convert iconv text ⟨ctx, s⟩ = .error rv ⟨ctx, s⟩ := by
        unfold convert
        dsimp only
        rw [hc]
      exact ⟨_, Triple.bind_eq_error hconvert⟩
  | ok converted =>
      have hconvert : convert iconv text ⟨ctx, s⟩ = .ok converted ⟨ctx, s⟩ := by
        unfold convert
        dsimp only
        rw [hc]
      rw [Except.bind, Triple.bind_eq_ok hconvert, hm]
      cases hf : f converted ctx with
      | error rv =>
          have hstored : onCtx (f converted) ⟨ctx, s⟩ = .error rv ⟨ctx, s⟩ := by
            unfold onCtx
            dsimp only
            rw [hf]
          exact ⟨_, Triple.bind_eq_error hstored⟩
      | ok ctx' =>
          have hstored : onCtx (f converted) ⟨ctx, s⟩ = .ok () ⟨ctx', s⟩ := by
            unfold onCtx
            dsimp only
            rw [hf]
          exact Triple.bind_eq_ok hstored

theorem makes_addAttr {nbuf vbuf : List UInt8} {uc : UInt8}
    (h : scanAttrValue false [] s = some (some (vbuf, uc), s')) :
    Makes iconv (do
        let (value, uc) ← readAttrValue iconv (code '=')
        onCtx (storeAddAttr · (ofBytes nbuf) value)
        pure uc) s uc [.addAttr nbuf (if vbuf = [] then none else some vbuf)] s' := by
  unfold readAttrValue
  rw [if_pos rfl, bind_assoc]
  refine (makes_scan h).bind ?_
  dsimp only
  by_cases hv : vbuf = []
  · rw [if_pos hv, if_pos hv]
    have hcall : Makes iconv (onCtx (storeAddAttr · (ofBytes nbuf) none)) s' ()
      [.addAttr nbuf none] s' := makes_onCtx fun _ => rfl
    refine hcall.bind ?_
    exact Makes.pure uc
  · rw [if_neg hv, if_neg hv, bind_assoc]
    exact makes_convert (fun _ => rfl) fun _ => rfl

theorem readAttrValue_lexes (nbuf : List UInt8) (uc : UInt8) : Lexes iconv (do
      let (value, uc) ← readAttrValue iconv uc
      onCtx (storeAddAttr · (ofBytes nbuf) value)
      pure uc) (lexAttrValue nbuf uc) := by
  by_cases heq : uc = code '='
  · subst heq
    intro st
    unfold lexAttrValue
    rw [if_pos rfl]
    cases hscan : scanAttrValue false [] st.rest with
    | none =>
        have hlex : lexScan .insideTag (scanAttrValue false []) st =
            .error .insideTag { st with rest := [] } := by
          unfold lexScan
          rw [hscan]
        rw [Triple.bind_eq_error hlex]
        refine ⟨[], (List.append_nil _).symm, Stops.bind ?_⟩
        unfold readAttrValue
        rw [if_pos rfl]
        exact (stops_scan hscan (by decide)).bind
    | some p =>
        obtain ⟨value, rest⟩ := p
        have hlex : lexScan .insideTag (scanAttrValue false []) st =
            .ok value { st with rest := rest } := by
          unfold lexScan
          rw [hscan]
        rw [Triple.bind_eq_ok hlex]
        cases value with
        | none =>
            refine ⟨[], (List.append_nil _).symm, Stops.bind ?_⟩
            unfold readAttrValue
            rw [if_pos rfl]
            exact (makes_scan hscan).bind (stops_throw (by decide))
        | some v =>
            obtain ⟨vbuf, uc⟩ := v
            exact ⟨_, rfl, makes_addAttr hscan⟩
  · unfold lexAttrValue readAttrValue
    rw [if_neg heq, if_neg heq]
    have hcall : Lexes iconv (onCtx (storeAddAttr · (ofBytes nbuf) none))
        (lexCall (.addAttr nbuf none)) := Lexes.call fun _ => rfl
    exact fun st => (hcall.bind fun _ => Lexes.pure uc) st

theorem readAttr_lexes : Lexes iconv (readAttr iconv) lexAttr := by
  refine skipBlanks_lexes.bind fun uc => (Lexes.scan _ (by decide)).bind fun p => ?_
  obtain ⟨nbuf, uc⟩ := p
  exact Lexes.ite (fun _ => Lexes.pure uc) fun _ => readAttrValue_lexes nbuf uc

theorem readAttrs_lexes : ∀ k, Lexes iconv (readAttrs iconv k) (lexAttrs k)
  | 0 => fun _ => ⟨[], (List.append_nil _).symm, fun _ => ⟨1, _, rfl, trivial⟩⟩
  | k + 1 =>
      readAttr_lexes.bind fun uc => Lexes.ite (fun _ => Lexes.pure uc) fun _ => readAttrs_lexes k

theorem closing_lexes {m : XmlM Unit} {l : LexM Unit} (h : Lexes iconv m l) : Lexes iconv (do
      let c ← peekByte
      if c = code '>' then
        skipByte
        onCtx (storeEndTag · true)
      else m) (lexClosing l) := by
  refine peekByte_lexes.bind fun c => Lexes.ite (fun _ => ?_) fun _ => h
  exact skipByte_lexes.bind fun _ => Lexes.call fun _ => rfl

theorem readTagRest_lexes : Lexes iconv (readTagRest iconv) lexTagRest := by
  intro st
  have hrest : Lexes iconv (do
      let uc ← readAttrs iconv (st.rest.length + 1)
      if isClosing uc then
        let c ← peekByte
        if c = code '>' then
          skipByte
          onCtx (storeEndTag · true)
        else throw errorInternal
      else onCtx (storeEndTag · false)) (do
      let uc ← lexAttrs (st.rest.length + 1)
      if isClosing uc then lexClosing (throw .malformed)
      else lexCall (.endTag false)) := by
    refine (readAttrs_lexes _).bind fun uc => Lexes.ite (fun _ => ?_) fun _ => ?_
    · exact closing_lexes (Lexes.throw (by decide))
    · exact Lexes.call fun _ => rfl
  exact hrest st

theorem tagEnd_lexes (uc : UInt8) : Lexes iconv (if isClosing uc then do
      let c ← peekByte
      if c = code '>' then
        skipByte
        onCtx (storeEndTag · true)
      else readTagRest iconv
    else if uc = code '>' then onCtx (storeEndTag · false)
    else readTagRest iconv) (lexTagEnd uc) := by
  refine Lexes.ite (fun _ => closing_lexes readTagRest_lexes) fun _ => ?_
  exact Lexes.ite (fun _ => Lexes.call fun _ => rfl) fun _ => readTagRest_lexes

theorem readStartTag_lexes (dbuf : List UInt8) (uc : UInt8) :
    Lexes iconv (readStartTag iconv dbuf uc) (lexStartTag dbuf uc) := by
  refine (Lexes.scan _ (by decide)).bind fun p => ?_
  obtain ⟨dbuf, uc⟩ := p
  refine Lexes.ite (fun _ => Lexes.throw (by decide)) fun _ => ?_
  exact (Lexes.call fun _ => rfl).bind fun _ => tagEnd_lexes uc

theorem readEndTag_lexes : Lexes iconv readEndTag lexEndTag := by
  refine (Lexes.scan _ (by decide)).bind fun p => ?_
  obtain ⟨name, uc⟩ := p
  have hend (uc : UInt8) : Lexes iconv
      (if uc ≠ code '>' then throw errorBadData else onCtx (storeEndTag · false))
      (if uc ≠ code '>' then throw .malformed else lexCall (.endTag false)) :=
    Lexes.ite (fun _ => Lexes.throw (by decide)) fun _ => Lexes.call fun _ => rfl
  refine (Lexes.call fun _ => rfl).bind fun _ => Lexes.ite (fun _ => ?_) fun _ => ?_
  · exact (Lexes.pure uc).bind hend
  · exact skipBlanks_lexes.bind hend

theorem readComment_lexes : Lexes iconv (readComment iconv) lexComment := by
  refine (Lexes.scan _ (by decide)).bind fun cbuf st => ⟨[.comment cbuf], rfl, ?_⟩
  exact makes_convert (fun _ => rfl) fun ctx => rfl

theorem readData_lexes : Lexes iconv (readData iconv) lexData := by
  refine (Lexes.scan _ (by decide)).bind fun dbuf => Lexes.ite (fun _ st => ?_) fun _ => ?_
  · refine ⟨[.addData dbuf], rfl, makes_convert (fun text => ?_) fun ctx => rfl⟩
    split
    · exact (bind_pure_unit (x := onCtx storeAddData)).symm
    · rfl
  · exact Lexes.pure ()

/-- A tag is read with the calls that belong to its text. -/
theorem readTag_lexes : Lexes iconv (readTag iconv) lexTag := by
  refine skipBlanks_lexes.bind fun uc => Lexes.ite (fun _ => readEndTag_lexes) fun _ => ?_
  refine Lexes.ite (fun _ => ?_) fun _ => readStartTag_lexes [] uc
  refine peekByte_lexes.bind fun c => Lexes.ite (fun _ => ?_) fun _ => readStartTag_lexes [] uc
  refine skipByte_lexes.bind fun _ => peekByte_lexes.bind fun c => ?_
  refine Lexes.ite (fun _ => ?_) fun _ => readStartTag_lexes _ c
  exact skipByte_lexes.bind fun _ => readComment_lexes

end
end Gwenhywfar.Xml
