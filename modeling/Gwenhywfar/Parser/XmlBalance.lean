import Gwenhywfar.Parser.XmlMarks
import Gwenhywfar.Parser.XmlTags

/-! # Balanced texts

* `pieces`: the tags of a text and where it ends, without a context.
* `ends_readLoop`: the reader follows the marks of the text as long as they fit.  Once an element
  was completed it takes the end of the text for the regular one, wherever it comes.
* `acceptsOnlyBalanced_iff`: hence a text that begins with a completed element is accepted although
  it is not balanced. -/

namespace Gwenhywfar.Xml

open Text

/-! ### The pieces of a text -/

/-- The calls for each tag with the data in front of it, those behind the last complete tag, and why
the text ends there unless it ends behind data. -/
structure Pieces where
  tags : List (List Call)
  last : List Call
  stop : Option Stop

/-- Data and a tag, or a comment. -/
def lexRound : LexM Unit := do
  lexData
  lexSkip
  lexTag

/-- The data up to the next tag. -/
def dataCalls (s : List UInt8) : List Call :=
  if s.takeWhile (· != code '<') = [] then [] else [.addData (s.takeWhile (· != code '<'))]

def pieces : ℕ → List UInt8 → Pieces
  | 0, _ => ⟨[], [], some .exhausted⟩
  | k + 1, s =>
      if s.dropWhile (· != code '<') = [] then ⟨[], dataCalls s, none⟩
      else
        match lexRound ⟨[], s⟩ with
        | .error stop st => ⟨[], st.calls, some stop⟩
        | .ok _ st =>
            let p := pieces k st.rest
            { p with tags := st.calls :: p.tags }

def Pieces.calls (p : Pieces) : List Call := p.tags.flatten ++ p.last

theorem Pieces.calls_cons (p : Pieces) (tag : List Call) :
    ({ p with tags := tag :: p.tags } : Pieces).calls = tag ++ p.calls := by
  rw [Pieces.calls, List.flatten_cons, List.append_assoc]
  rfl

/-- What a text holds that is read from a string. -/
def piecesOf (text : CString) : Pieces := pieces (text.bytes.length + 2) (text.bytes ++ [0])

def marksOf (flags : UInt32) (text : CString) : List Mark := marks flags false (piecesOf text).calls

/-- The text ends inside a tag or inside an element. -/
def CutOff (flags : UInt32) (text : CString) : Prop :=
  (piecesOf text).stop = some .insideTag ∨ OpenAtEnd (marksOf flags text)

/-- A text that is read is balanced and leaves the context at the node it started with, and a text
that is cut off is an error. -/
def AcceptsOnlyBalanced (iconv : Iconv) (nodes : List (Option CString)) (flags : UInt32)
    (text : CString) : Prop :=
  ((readFromString iconv (newCtx nodes flags) text).1 = 0 → Balanced (marksOf flags text) ∧
    (readFromString iconv (newCtx nodes flags) text).2.ctx.nodes = nodes ∧
      (readFromString iconv (newCtx nodes flags) text).2.ctx.depth = 0) ∧
  (CutOff flags text → (readFromString iconv (newCtx nodes flags) text).1 < 0)

/-- The tags are well formed, texts can be converted, and end tags fit the open nodes. -/
def Fits (iconv : Iconv) (nodes : List (Option CString)) (flags : UInt32) (text : CString) : Prop :=
  (piecesOf text).stop ≠ some .malformed ∧
    ((piecesOf text).calls.foldlM (Call.declare iconv flags) ⟨none, none⟩).isSome ∧
    ((marksOf flags text).foldlM Mark.nodes nodes).isSome

/-- Marks complete an element at the start of the text, or close the start node. -/
def Completing (finished depth : ℕ) (ms : List Mark) : Prop :=
  finished + ms.countP Mark.isEnd ≠ 0 ∧ ms.foldl Mark.depth depth = 0

/-- An element is completed behind a tag of the text. -/
def Completes (flags : UInt32) (text : CString) : Prop :=
  ∃ tags, tags <+: (piecesOf text).tags ∧ Completing 0 0 (marks flags false tags.flatten)

/-! ### The rounds of the loop -/

section
variable {iconv : Iconv} {k n j : ℕ} {oks completed : Bool} {st st' : XmlState} {rv : ℤ}
  {ctx ctx' : XmlCtx} {p : Pieces} {r : ℤ × XmlState} {tag : List Call} {tags : List (List Call)}

/-- `GWEN_XmlCtx_GetFinishedElement` and the depth at which the reader began. -/
def Completed (ctx : XmlCtx) : Prop := ctx.finishedElements ≠ 0 ∧ ctx.depth = 0

instance (ctx : XmlCtx) : Decidable (Completed ctx) := inferInstanceAs (Decidable (_ ∧ _))

theorem readLoop_dataError (h : st.rest ≠ []) (hd : readData iconv st = .error rv st') :
    readLoop iconv 0 (k + 1) oks st = .error rv st' := by
  change (if st.rest = [] then _ else _ : XmlM Unit) st = _
  rw [if_neg h]
  exact Triple.bind_eq_error hd

theorem readLoop_dataEnd (h : st.rest ≠ []) (hd : readData iconv st = .ok () st')
    (hr : st'.rest = []) : readLoop iconv 0 (k + 1) oks st =
      if st'.ctx.depth ≠ 0 then .error errorEof st' else .ok () st' := by
  change (if st.rest = [] then _ else _ : XmlM Unit) st = _
  rw [if_neg h, Triple.bind_eq_ok hd]
  change (if st'.rest = [] then _ else _ : XmlM Unit) st' = _
  rw [if_pos hr]
  split <;> rfl

def readRound (iconv : Iconv) : XmlM Unit := do
  readData iconv
  skipByte
  readTag iconv

theorem readRound_lexes : Lexes iconv (readRound iconv) lexRound :=
  readData_lexes.bind fun _ => skipByte_lexes.bind fun _ => readTag_lexes

theorem readLoop_round (h : st.rest ≠ []) (hd : ∀ st', readData iconv st = .ok () st' →
    st'.rest ≠ []) : readLoop iconv 0 (k + 1) oks st =
      (readRound iconv >>= fun _ => get >>= fun st : XmlState =>
        if Completed st.ctx then pure () else readLoop iconv 0 k true) st := by
  unfold readRound
  rw [bind_assoc]
  cases hread : readData iconv st with
  | error rv st' => rw [readLoop_dataError h hread, Triple.bind_eq_error hread]
  | ok _ st' =>
      rw [Triple.bind_eq_ok hread]
      change (if st.rest = [] then _ else _ : XmlM Unit) st = _
      rw [if_neg h, Triple.bind_eq_ok hread]
      change (if st'.rest = [] then _ else _ : XmlM Unit) st' = _
      rw [if_neg (hd st' hread)]
      rfl

/-- What `readAll` returns after a round. -/
def afterRound (iconv : Iconv) (j : ℕ) (completed : Bool) :
    EStateM.Result ℤ XmlState Unit → ℤ × XmlState
  | .error rv st => if rv = errorEof ∧ completed = true then (0, st) else (rv, st)
  | .ok _ st => readAll iconv j true st

theorem readAll_succ : readAll iconv (j + 1) completed st =
      afterRound iconv j completed (readFromFastBuffer iconv st) := by
  rw [readAll]
  cases readFromFastBuffer iconv st <;> rfl

theorem readAll_eof (h : st.rest = []) : readAll iconv (j + 1) true st = (0, resetFinished st) := by
  have hread : readFromFastBuffer iconv st = .error errorEof (resetFinished st) := by
    change (if st.rest = [] then _ else _ : XmlM Unit) (resetFinished st) = _
    rw [if_pos h]
    rfl
  rw [readAll_succ, hread]
  rfl

theorem afterRound_negative (h : rv < 0) (hne : rv ≠ errorEof) :
    (afterRound iconv j completed (.error rv st)).1 < 0 := by
  rw [afterRound, if_neg fun hc => hne hc.1]
  exact h

theorem afterRound_eof : (afterRound iconv j false (.error errorEof st)).1 ≠ 0 := by
  rw [afterRound, if_neg fun h => Bool.false_ne_true h.2]
  exact (by decide : errorEof ≠ 0)

theorem getLast?_of_suffix {r s : List UInt8} (h : r <:+ s) (hr : r ≠ []) :
    r.getLast? = s.getLast? := by
  obtain ⟨t, rfl⟩ := h
  rw [List.getLast?_append, List.getLast?_eq_some_getLast hr, Option.some_or]

/-- One of the next tags completes an element. -/
def CompletesFrom (ctx : XmlCtx) (tags : List (List Call)) : Prop :=
  ∃ before, before <+: tags ∧
    Completing ctx.finishedElements ctx.depth (marksFrom ctx before.flatten)

theorem CompletesFrom.of_completed (h : Completed ctx) : CompletesFrom ctx tags :=
  ⟨[], List.nil_prefix, h⟩

theorem completesFrom_nil : CompletesFrom ctx [] ↔ Completed ctx := by
  refine ⟨fun ⟨before, hbefore, h⟩ => ?_, CompletesFrom.of_completed⟩
  rw [List.prefix_nil.mp hbefore] at h
  exact h

theorem completesFrom_cons (h : Answers iconv ctx tag (.ok ctx')) :
    CompletesFrom ctx (tag :: tags) ↔ Completed ctx ∨ CompletesFrom ctx' tags := by
  have hcons (before : List (List Call)) :
      Completing ctx.finishedElements ctx.depth (marksFrom ctx (tag :: before).flatten) ↔
        Completing ctx'.finishedElements ctx'.depth (marksFrom ctx' before.flatten) := by
    unfold Completing
    rw [List.flatten_cons, h.1.marks_append, List.countP_append, List.foldl_append, h.2, h.1.depth,
      Nat.add_assoc]
  constructor
  · rintro ⟨before, hbefore, h⟩
    obtain rfl | ⟨after, rfl, hafter⟩ := List.prefix_cons_iff.mp hbefore
    · exact Or.inl h
    · exact Or.inr ⟨after, hafter, (hcons after).mp h⟩
  · rintro (h | ⟨before, hbefore, h⟩)
    · exact .of_completed h
    · exact ⟨tag :: before, List.cons_prefix_cons.mpr ⟨rfl, hbefore⟩, (hcons before).mpr h⟩

/-- How the reader ends for the rest of a text: it returns an error, or it returns 0 where an element
was completed, or at depth 0 behind data. -/
def EndsAs (iconv : Iconv) (completed : Bool) (ctx : XmlCtx) (p : Pieces) (r : ℤ × XmlState) : Prop :=
  r.1 < 0 ∧ (p.stop = some .malformed ∨ Refused iconv ctx p.calls) ∨
  ∃ ctx', Follows iconv ctx p.calls ctx' ∧ p.stop ≠ some .malformed ∧
    (r.1 = 0 ∨ r.1 = errorEof) ∧
    (r.1 = 0 ↔ (completed = true ∨ CompletesFrom ctx p.tags) ∨ p.stop = none ∧ ctx'.depth = 0) ∧
    (p.stop ≠ some .insideTag → r.2.ctx.nodes = ctx'.nodes ∧ r.2.ctx.depth = ctx'.depth)

theorem EndsAs.cons {completed' : Bool} (h : EndsAs iconv completed' ctx' p r)
    (hfollows : Follows iconv ctx tag ctx')
    (hcompleted : (completed' = true ∨ CompletesFrom ctx' p.tags) ↔
      (completed = true ∨ CompletesFrom ctx (tag :: p.tags))) :
    EndsAs iconv completed ctx { p with tags := tag :: p.tags } r := by
  have hcalls := p.calls_cons tag
  obtain ⟨hneg, h⟩ | ⟨ctx'', hend, hstop, hrv, hzero, hnodes⟩ := h
  · refine Or.inl ⟨hneg, h.imp_right fun h => ?_⟩
    rw [hcalls]
    exact hfollows.refused h
  · refine Or.inr ⟨ctx'', ?_, hstop, hrv, ?_, hnodes⟩
    · rw [hcalls]
      exact hfollows.trans hend
    · rw [hzero, hcompleted]

theorem EndsAs.tag_completed (hanswers : Answers iconv ctx tag (.ok ctx')) (hcomp : Completed ctx')
    (h : EndsAs iconv true { ctx' with finishedElements := 0 } p r) :
    EndsAs iconv completed ctx { p with tags := tag :: p.tags } r := by
  obtain ⟨hflags, hheader, hdeclared, hnodes, hdepth⟩ := hanswers.1
  refine h.cons ⟨hflags, hheader, hdeclared, hnodes, hdepth⟩ (iff_of_true (Or.inl rfl) ?_)
  exact Or.inr ((completesFrom_cons hanswers).mpr (Or.inr (.of_completed hcomp)))

theorem EndsAs.tag_open (hanswers : Answers iconv ctx tag (.ok ctx'))
    (hc : completed = true ∨ ¬Completed ctx) (h : EndsAs iconv completed ctx' p r) :
    EndsAs iconv completed ctx { p with tags := tag :: p.tags } r := by
  refine h.cons hanswers.1 ⟨Or.imp_right fun h => (completesFrom_cons hanswers).mpr (Or.inr h), ?_⟩
  rintro (h | h)
  · exact Or.inl h
  · obtain h | h := (completesFrom_cons hanswers).mp h
    · exact Or.inl (hc.resolve_right (not_not.mpr h))
    · exact Or.inr h

theorem lexData_eq (s : List UInt8) :
    lexData ⟨[], s⟩ = .ok () ⟨dataCalls s, s.dropWhile (· != code '<')⟩ := by
  refine (Triple.bind_eq_ok (lexScan_eq rfl)).trans ?_
  unfold dataCalls
  by_cases h : s.takeWhile (· != code '<') = []
  · rw [if_neg (not_not.mpr h), if_pos h]
    rfl
  · rw [if_pos h, if_neg h]
    rfl

theorem readData_makes (s : List UInt8) :
    Makes iconv (readData iconv) s () (dataCalls s) (s.dropWhile (· != code '<')) := by
  have hlexes := @readData_lexes iconv ⟨[], s⟩
  rw [lexData_eq] at hlexes
  obtain ⟨cs, hcs, hmakes⟩ := hlexes
  obtain rfl : dataCalls s = cs := hcs
  exact hmakes

theorem readData_rest {s : List UInt8} (hread : readData iconv ⟨ctx, s⟩ = .ok () st) :
    st.rest = s.dropWhile (· != code '<') := by
  have hmakes := @readData_makes iconv s ctx
  cases hrun : runCalls iconv ctx (dataCalls s) with
  | error rv =>
      rw [hrun, hread] at hmakes
      obtain ⟨st', h⟩ := hmakes
      cases h
  | ok ctx' =>
      rw [hrun, hread] at hmakes
      cases hmakes
      rfl

theorem lexRound_spec {s : List UInt8} (hs : s.getLast? = some 0)
    (hne : s.dropWhile (· != code '<') ≠ []) :
    match lexRound ⟨[], s⟩ with
    | .error stop _ => stop ≠ .exhausted
    | .ok _ st => st.rest.getLast? = some 0 ∧ st.rest.length < s.length := by
  have hlex := lexData_eq s
  have hsuf := List.dropWhile_suffix (fun c => c != code '<') (l := s)
  obtain ⟨c, r, hr⟩ := List.exists_cons_of_ne_nil hne
  have hc : c = code '<' := by
    have := List.head?_dropWhile_not (fun c => c != code '<') s
    simpa [hr] using this
  rw [hr] at hsuf hlex
  have hlast : r.getLast? = some 0 :=
    (getLast?_of_suffix ((List.suffix_cons _ _).trans hsuf)
      (ne_nil_of_suffix hs (hc ▸ by decide) hsuf)).trans hs
  have hlen : r.length < s.length := hsuf.length_le
  have hround : lexRound ⟨[], s⟩ = lexTag ⟨dataCalls s, r⟩ := Triple.bind_eq_ok hlex
  have htag := @lexTag_spec _ hlast ⟨dataCalls s, r⟩ List.suffix_rfl
  rw [hround]
  cases hl : lexTag ⟨dataCalls s, r⟩ with
  | error stop st =>
      rw [hl] at htag
      exact htag
  | ok _ st =>
      rw [hl] at htag
      exact ⟨(getLast?_of_suffix htag.1 htag.2).trans hlast, htag.1.length_le.trans_lt hlen⟩

theorem ends_error {cs : List Call} (hanswer : Answers iconv ctx cs (.error rv))
    (hcalls : ∃ cs', p.calls = cs ++ cs') :
    EndsAs iconv completed ctx p (afterRound iconv j completed (.error rv st)) := by
  obtain ⟨cs', hcalls⟩ := hcalls
  refine Or.inl ⟨afterRound_negative hanswer.1.1 hanswer.1.2, Or.inr ?_⟩
  rw [hcalls]
  exact hanswer.2.append cs'

theorem ends_data {cs : List Call} (hfollows : Follows iconv ctx cs st.ctx) (hrest : st.rest = [])
    (hc : completed = true ∨ ¬Completed ctx) :
    EndsAs iconv completed ctx ⟨[], cs, none⟩ (afterRound iconv (j + 1) completed
      (if st.ctx.depth ≠ 0 then .error errorEof st else .ok () st)) := by
  refine Or.inr ⟨st.ctx, hfollows, by simp, ?_⟩
  by_cases hdepth : st.ctx.depth = 0
  · rw [if_neg (not_not.mpr hdepth), afterRound, readAll_eof hrest]
    exact ⟨Or.inl rfl, iff_of_true rfl (Or.inr ⟨rfl, hdepth⟩), fun _ => ⟨rfl, rfl⟩⟩
  · rw [if_pos hdepth]
    cases completed with
    | true => exact ⟨Or.inl rfl, iff_of_true rfl (Or.inl (Or.inl rfl)), fun _ => ⟨rfl, rfl⟩⟩
    | false =>
        have hopen := hc.resolve_left Bool.false_ne_true
        refine ⟨Or.inr rfl, iff_of_false afterRound_eof ?_, fun _ => ⟨rfl, rfl⟩⟩
        rintro ((h | h) | h)
        · exact Bool.false_ne_true h
        · exact hopen (completesFrom_nil.mp h)
        · exact hdepth h.2

theorem ends_cut {cs : List Call} {stop : Stop} (hfollows : Follows iconv ctx cs ctx')
    (hstop : stop ≠ .malformed ∧ stop ≠ .exhausted) (hreturned : stop.Returned ctx' rv st)
    (hc : completed = true ∨ ¬Completed ctx) :
    EndsAs iconv completed ctx ⟨[], cs, some stop⟩ (afterRound iconv j completed (.error rv st)) := by
  have hrv : rv = errorEof ∧ (stop ≠ .insideTag → st.ctx = ctx') := by
    cases stop with
    | insideTag => exact ⟨hreturned, fun h => absurd rfl h⟩
    | insideComment => exact ⟨hreturned.1, fun _ => hreturned.2⟩
    | malformed => exact absurd rfl hstop.1
    | exhausted => exact absurd rfl hstop.2
  obtain ⟨rfl, hctx⟩ := hrv
  have hnodes : some stop ≠ some .insideTag →
      st.ctx.nodes = ctx'.nodes ∧ st.ctx.depth = ctx'.depth := by
    intro h
    rw [hctx fun heq => h (congrArg some heq)]
    exact ⟨rfl, rfl⟩
  refine Or.inr ⟨ctx', hfollows, fun h => hstop.1 (Option.some.inj h), ?_⟩
  cases completed with
  | true => exact ⟨Or.inl rfl, iff_of_true rfl (Or.inl (Or.inl rfl)), hnodes⟩
  | false =>
      have hopen := hc.resolve_left Bool.false_ne_true
      refine ⟨Or.inr rfl, iff_of_false afterRound_eof ?_, hnodes⟩
      rintro ((h | h) | h)
      · exact Bool.false_ne_true h
      · exact hopen (completesFrom_nil.mp h)
      · cases h.1

theorem ends_readLoop (hf : has st.ctx.flags flagsTolerantEndtags = false)
    (hs : st.rest.getLast? = some 0) (hn : st.rest.length < n) (hk : st.rest.length < k)
    (hj : st.rest.length ≤ j) (hc : completed = true ∨ ¬Completed st.ctx) :
    EndsAs iconv completed st.ctx (pieces n st.rest)
      (afterRound iconv j completed (readLoop iconv 0 k oks st)) := by
  induction n generalizing st oks completed k j with
  | zero => omega
  | succ n ih =>
      obtain ⟨k, rfl⟩ := Nat.exists_eq_add_of_lt (Nat.zero_lt_of_lt hk)
      have hne : st.rest ≠ [] := by
        rintro h
        simp [h] at hs
      obtain ⟨j, rfl⟩ := Nat.exists_eq_add_of_lt ((List.length_pos_iff.2 hne).trans_le hj)
      simp only [Nat.zero_add] at hk hj ⊢
      obtain ⟨ctx, s⟩ := st
      dsimp only at hf hs hn hk hj hc hne ⊢
      by_cases hrest : s.dropWhile (· != code '<') = []
      · have hmakes := @readData_makes iconv s ctx
        have hanswer := @runCalls_answers iconv ctx (dataCalls s) hf
        rw [pieces, if_pos hrest]
        rw [hrest] at hmakes
        cases hrun : runCalls iconv ctx (dataCalls s) with
        | error rv =>
            rw [hrun] at hmakes hanswer
            obtain ⟨st1, hread⟩ := hmakes
            rw [readLoop_dataError hne hread]
            exact ends_error hanswer ⟨[], (List.append_nil _).symm⟩
        | ok ctx1 =>
            rw [hrun] at hmakes hanswer
            rw [readLoop_dataEnd hne hmakes rfl]
            exact ends_data hanswer.1 rfl hc
      rw [readLoop_round hne fun st' h => readData_rest h ▸ hrest, pieces, if_neg hrest]
      have hspec := lexRound_spec hs hrest
      have hlexes := @readRound_lexes iconv ⟨[], s⟩
      have hanswer (cs : List Call) := @runCalls_answers iconv ctx cs hf
      cases hl : lexRound ⟨[], s⟩ with
      | error stop st1 =>
          rw [hl] at hspec hlexes
          obtain ⟨cs, hcalls, hstops⟩ := hlexes
          obtain rfl : st1.calls = cs := hcalls
          have hstops := hstops ctx
          have hanswer := hanswer st1.calls
          cases hrun : runCalls iconv ctx st1.calls with
          | error rv =>
              rw [hrun] at hstops hanswer
              obtain ⟨st2, hread⟩ := hstops
              rw [Triple.bind_eq_error hread]
              exact ends_error hanswer ⟨[], (List.append_nil _).symm⟩
          | ok ctx1 =>
              rw [hrun] at hstops hanswer
              obtain ⟨rv, st2, hread, hreturned⟩ := hstops
              rw [Triple.bind_eq_error hread]
              by_cases hmal : stop = .malformed
              · subst hmal
                exact Or.inl ⟨afterRound_negative hreturned.1 hreturned.2, Or.inl rfl⟩
              · exact ends_cut hanswer.1 ⟨hmal, hspec⟩ hreturned hc
      | ok _ st1 =>
          rw [hl] at hspec hlexes
          obtain ⟨cs, hcalls, hmakes⟩ := hlexes
          obtain rfl : st1.calls = cs := hcalls
          have hmakes := hmakes ctx
          have hanswer := hanswer st1.calls
          cases hrun : runCalls iconv ctx st1.calls with
          | error rv =>
              rw [hrun] at hmakes hanswer
              obtain ⟨st2, hread⟩ := hmakes
              rw [Triple.bind_eq_error hread]
              exact ends_error hanswer ⟨_, Pieces.calls_cons _ _⟩
          | ok ctx1 =>
              rw [hrun] at hmakes hanswer
              have hf1 : has ctx1.flags flagsTolerantEndtags = false := hanswer.1.flags ▸ hf
              have hn1 : st1.rest.length < n := by omega
              have hk1 : st1.rest.length < k := by omega
              have hj1 : st1.rest.length ≤ j := by omega
              rw [Triple.bind_eq_ok hmakes]
              change EndsAs _ _ _ _ (afterRound iconv (j + 1) completed
                ((if Completed ctx1 then _ else _ : XmlM Unit) ⟨ctx1, st1.rest⟩))
              by_cases hcomp : Completed ctx1
              · rw [if_pos hcomp]
                change EndsAs _ _ _ _ (readAll iconv (j + 1) true ⟨ctx1, st1.rest⟩)
                rw [readAll_succ]
                unfold readFromFastBuffer
                rw [hcomp.2]
                exact EndsAs.tag_completed hanswer hcomp (@ih _ _ _ _
                  (resetFinished ⟨ctx1, st1.rest⟩) hf1 hspec.1 hn1 (Nat.lt_succ_self _) hj1
                  (Or.inl rfl))
              · rw [if_neg hcomp]
                exact EndsAs.tag_open hanswer hc (@ih _ _ _ _ ⟨ctx1, st1.rest⟩ hf1 hspec.1 hn1 hk1
                  (hj1.trans (Nat.le_succ j)) (Or.inr hcomp))

/-! ### Only balanced texts -/

theorem pieces_last : ∀ {n : ℕ} {s : List UInt8}, (pieces n s).stop = none →
    ∀ flags header, marks flags header (pieces n s).last = []
  | 0, _, h => by cases h
  | n + 1, s, h => by
      rw [pieces] at h ⊢
      split
      · intro flags header
        dsimp only [dataCalls]
        split <;> rfl
      next hrest =>
      rw [if_neg hrest] at h
      cases hl : lexRound ⟨[], s⟩ with
      | error stop st => simp [hl] at h
      | ok _ st =>
          rw [hl] at h
          exact pieces_last h

theorem ends_readFromString (nodes : List (Option CString)) (flags : UInt32)
    (hf : has flags flagsTolerantEndtags = false) (text : CString) :
    EndsAs iconv false (newCtx nodes flags) (piecesOf text)
      (readFromString iconv (newCtx nodes flags) text) := by
  have hopen : ¬Completed (newCtx nodes flags) := fun h => h.1 rfl
  unfold piecesOf readFromString
  split
  · next h =>
      have hanswers : Answers iconv (newCtx nodes flags) [.addData [0]] (.ok (newCtx nodes flags)) :=
        @run_answers iconv (newCtx nodes flags) hf (.addData [0])
      rw [h]
      exact Or.inr ⟨newCtx nodes flags, hanswers.1, by decide, Or.inl rfl,
        iff_of_true rfl (Or.inr ⟨rfl, rfl⟩), fun _ => ⟨rfl, rfl⟩⟩
  · have hlen : (text.bytes ++ [0]).length = text.bytes.length + 1 := List.length_append
    rw [readAll_succ]
    exact @ends_readLoop _ _ _ _ _ _ (resetFinished ⟨newCtx nodes flags, text.bytes ++ [0]⟩) hf
      List.getLast?_concat (hlen.trans_lt (Nat.lt_succ_self _)) (Nat.lt_succ_self _) hlen.le
      (Or.inr hopen)

theorem refused_completes {nodes : List (Option CString)} {flags : UInt32} {text : CString}
    (hfits : Fits iconv nodes flags text)
    (h : Refused iconv (newCtx nodes flags) (piecesOf text).calls) : ¬Completes flags text := by
  obtain ⟨-, hdeclared, hnodes⟩ := hfits
  obtain ⟨nodes', hnodes⟩ := Option.isSome_iff_exists.mp hnodes
  obtain h | h | h := h
  · have hnone : marksOf flags text = [] := by
      rw [show nodes = [] from h] at hnodes
      exact nodes_nil hnodes
    rintro ⟨tags, ⟨tags', htags⟩, hend, -⟩
    refine hend ?_
    rw [marksOf, Pieces.calls, ← htags, List.flatten_append, List.append_assoc, marks_append,
      List.append_eq_nil_iff] at hnone
    rw [hnone.1]
    rfl
  · rw [show (piecesOf text).calls.foldlM (Call.declare iconv flags) ⟨none, none⟩ = none from h]
      at hdeclared
    cases hdeclared
  · rw [show (marksOf flags text).foldlM Mark.nodes nodes = none from h] at hnodes
    cases hnodes

theorem marksOf_completes {flags : UInt32} {text : CString} (hstop : (piecesOf text).stop = none)
    (hdepth : (marksOf flags text).foldl Mark.depth 0 = 0) (h : ¬Completes flags text) :
    marksOf flags text = [] := by
  have hlast : ∀ flags header, marks flags header (piecesOf text).last = [] := pieces_last hstop
  have htags : marksOf flags text = marks flags false (piecesOf text).tags.flatten := by
    rw [marksOf, Pieces.calls, marks_append, hlast, List.append_nil]
  rw [htags] at hdepth ⊢
  refine eq_nil_of_depth ?_ hdepth
  by_contra hend
  exact h ⟨_, List.prefix_rfl, by rwa [Nat.zero_add], hdepth⟩

end

end Gwenhywfar.Xml
