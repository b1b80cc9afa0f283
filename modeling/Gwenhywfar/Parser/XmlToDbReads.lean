import Gwenhywfar.Parser.XmlToDb
import Gwenhywfar.Parser.DbHeap

/-! # Importing a document only reads it

* `OnlyReads`: importing a document comes to the same end, with the same log, as executing the
  schema while only looking at the document, and leaves the document as it is.
* `Sim f g`: the command `f`, whose lookups are those of the code, and the command `g`, which only
  looks, do the same as long as no lookup creates an element; once one has done so the document
  stays bigger.  Every command of the schema is such a pair if its body is (`sim_handleElement`).
* A document is only read if and only if every path that is looked up on the way finds what it
  denotes without creating an element (`onlyReads_iff`). -/

namespace Gwenhywfar.XmlToDb

open XmlDoc Gwenhywfar.Path

variable {δ α : Type} {f f' g g' : XmlHandler δ} {k k' : ℤ → XmlHandler δ} {fuel : ℕ}

/-- A lookup does not change the document. -/
def Quiet (doc : XmlDoc) : XmlEvent → Prop
  | .command _ _ => True
  | .lookup path flags n => (getNodeByXPath path flags n doc).2 = doc

/-- No lookup so far would change the document. -/
def AllQuiet (st : XmlToDb δ) : Prop := ∀ e ∈ st.log, Quiet st.doc e

def Keeps (g : XmlHandler δ) : Prop := ∀ st rv st', g st = some (rv, st') →
  st'.doc = st.doc ∧ st.log ⊆ st'.log

/-- A command never makes the document smaller. -/
def Grows (f : XmlHandler δ) : Prop := ∀ st rv st', f st = some (rv, st') →
  st.doc.size ≤ st'.doc.size

/-- The outcome of a command that has made the document bigger, and of its counterpart. -/
def Differ (f g : XmlHandler δ) (st : XmlToDb δ) : Prop :=
  (∀ rv st', f st = some (rv, st') → st.doc.size < st'.doc.size) ∧
    ∀ rv st', g st = some (rv, st') → ¬ AllQuiet st'

/-- A command and its counterpart that only looks at the document. -/
structure Sim (f g : XmlHandler δ) : Prop where
  grows : Grows f
  keeps : Keeps g
  same : ∀ st, AllQuiet st →
    (f st = g st ∧ ∀ rv st', g st = some (rv, st') → AllQuiet st') ∨ Differ f g st

theorem not_allQuiet_of_keeps {st st' : XmlToDb δ} (hd : st'.doc = st.doc) (hl : st.log ⊆ st'.log)
    (h : ¬ AllQuiet st) : ¬ AllQuiet st' := by
  intro hq
  refine h fun e he => ?_
  have hqe := hq e (hl he)
  rwa [hd] at hqe

/-! ### Combining commands -/

/-- A change of the state that is none of the document. -/
structure Mild (m : XmlToDb δ → XmlToDb δ) : Prop where
  doc : ∀ st, (m st).doc = st.doc
  log : ∀ st, st.log ⊆ (m st).log
  stack : ∀ st, st.stack.length ≤ (m st).stack.length
  quiet : ∀ st, AllQuiet st → AllQuiet (m st)

theorem Sim.update {m : XmlToDb δ → XmlToDb δ} (hm : Mild m) (rv : ℤ) :
    Sim (fun st => some (rv, m st)) fun st => some (rv, m st) where
  grows st rv' st' h := by
    obtain ⟨-, rfl⟩ := Prod.mk.inj (Option.some.inj h)
    rw [hm.doc]
  keeps st rv' st' h := by
    obtain ⟨-, rfl⟩ := Prod.mk.inj (Option.some.inj h)
    exact ⟨hm.doc st, hm.log st⟩
  same st hq := by
    refine .inl ⟨rfl, fun rv' st' h => ?_⟩
    obtain ⟨-, rfl⟩ := Prod.mk.inj (Option.some.inj h)
    exact hm.quiet st hq

theorem mild_id : Mild (fun st : XmlToDb δ => st) :=
  ⟨fun _ => rfl, fun _ => List.Subset.refl _, fun _ => le_rfl, fun _ h => h⟩

theorem mild_db (d : XmlToDb δ → δ) : Mild fun st => { st with db := d st } :=
  ⟨fun _ => rfl, fun _ => List.Subset.refl _, fun _ => le_rfl, fun _ h => h⟩

theorem mild_enterDocNode (n : ℕ) : Mild (enterDocNode n : XmlToDb δ → XmlToDb δ) :=
  ⟨fun _ => rfl, fun _ => List.Subset.refl _, fun _ => Nat.le_succ _, fun _ h => h⟩

theorem mild_logged (name : CString) : Mild (logged name : XmlToDb δ → XmlToDb δ) where
  doc _ := rfl
  log _ := List.subset_cons_self _ _
  stack _ := le_rfl
  quiet st h e he := by
    rcases List.mem_cons.mp he with rfl | he
    · trivial
    · exact h e he

theorem Sim.done (rv : ℤ) : Sim (done rv : XmlHandler δ) (XmlToDb.done rv) :=
  Sim.update mild_id rv

theorem Sim.never : Sim (fun _ => none : XmlHandler δ) fun _ => none where
  grows _ _ _ h := by cases h
  keeps _ _ _ h := by cases h
  same _ _ := .inl ⟨rfl, fun _ _ h => by cases h⟩

theorem Sim.comp {m : XmlToDb δ → XmlToDb δ} (h : Sim f g) (hm : Mild m) :
    Sim (fun st => f (m st)) fun st => g (m st) where
  grows st rv st' he := by
    have hle := h.grows _ _ _ he
    rwa [hm.doc] at hle
  keeps st rv st' he := by
    obtain ⟨hd, hl⟩ := h.keeps _ _ _ he
    exact ⟨hd.trans (hm.doc st), List.Subset.trans (hm.log st) hl⟩
  same st hq := by
    rcases h.same (m st) (hm.quiet st hq) with hsame | ⟨hf, hg⟩
    · exact .inl hsame
    · refine .inr ⟨fun rv st' he => ?_, fun rv st' he => hg rv st' he⟩
      have hlt := hf rv st' he
      rwa [hm.doc] at hlt

theorem Sim.choose {x : XmlToDb δ → α} {c c' : α → XmlHandler δ} (h : ∀ a, Sim (c a) (c' a)) :
    Sim (fun st => c (x st) st) fun st => c' (x st) st where
  grows st rv st' he := (h (x st)).grows st rv st' he
  keeps st rv st' he := (h (x st)).keeps st rv st' he
  same st hq := (h (x st)).same st hq

theorem Sim.atEach (h : ∀ st, ∃ c c', Sim c c' ∧ f st = c st ∧ g st = c' st) : Sim f g where
  grows st rv st' he := by
    obtain ⟨c, c', hsim, hf, -⟩ := h st
    exact hsim.grows st rv st' (hf ▸ he)
  keeps st rv st' he := by
    obtain ⟨c, c', hsim, -, hg⟩ := h st
    exact hsim.keeps st rv st' (hg ▸ he)
  same st hq := by
    obtain ⟨c, c', hsim, hf, hg⟩ := h st
    have hsame := hsim.same st hq
    rw [Differ] at hsame ⊢
    rwa [hf, hg]

theorem Sim.bind (h : Sim f g) (hk : ∀ rv, Sim (k rv) (k' rv)) :
    Sim (fun st => (f st).bind fun r => k r.1 r.2) fun st => (g st).bind fun r => k' r.1 r.2 where
  grows st rv st' he := by
    obtain ⟨⟨rv1, st1⟩, h₁, h2⟩ := Option.bind_eq_some_iff.mp he
    exact (h.grows _ _ _ h₁).trans ((hk rv1).grows _ _ _ h2)
  keeps st rv st' he := by
    obtain ⟨⟨rv1, st1⟩, h₁, h2⟩ := Option.bind_eq_some_iff.mp he
    obtain ⟨hd, hl⟩ := h.keeps _ _ _ h₁
    obtain ⟨hd', hl'⟩ := (hk rv1).keeps _ _ _ h2
    exact ⟨hd'.trans hd, List.Subset.trans hl hl'⟩
  same st hq := by
    rcases h.same st hq with ⟨he, hquiet⟩ | ⟨hf, hg⟩
    · cases hgs : g st with
      | none =>
          refine .inl ⟨by simp only [he, hgs, Option.bind_none], fun rv st' h' => ?_⟩
          cases h'
      | some r =>
          obtain ⟨rv1, st1⟩ := r
          have hd := (h.keeps _ _ _ hgs).1
          rcases (hk rv1).same st1 (hquiet rv1 st1 hgs) with hsame | ⟨hf', hg'⟩
          · left
            simpa only [he, hgs, Option.bind_some] using hsame
          · right
            refine ⟨fun rv st' h' => ?_, fun rv st' h' => ?_⟩
            · simp only [he, hgs, Option.bind_some] at h'
              have hlt := hf' rv st' h'
              rwa [hd] at hlt
            · simp only [hgs, Option.bind_some] at h'
              exact hg' rv st' h'
    · refine .inr ⟨fun rv st' h' => ?_, fun rv st' h' => ?_⟩
      · obtain ⟨⟨rv1, st1⟩, h₁, h2⟩ := Option.bind_eq_some_iff.mp h'
        exact Nat.lt_of_lt_of_le (hf rv1 st1 h₁) ((hk rv1).grows _ _ _ h2)
      · obtain ⟨⟨rv1, st1⟩, h₁, h2⟩ := Option.bind_eq_some_iff.mp h'
        obtain ⟨hd, hl⟩ := (hk rv1).keeps _ _ _ h2
        exact not_allQuiet_of_keeps hd hl (hg rv1 st1 h₁)

theorem Sim.andThen (h : Sim f g) (h' : Sim f' g') :
    Sim (XmlToDb.andThen f f') (XmlToDb.andThen g g') := by
  have hk : ∀ rv : ℤ, Sim (fun st => if rv < 0 then some (rv, st) else f' st)
      fun st => if rv < 0 then some (rv, st) else g' st := by
    intro rv
    by_cases hrv : rv < 0
    · simp only [hrv, if_true]
      exact Sim.done rv
    · simpa only [hrv, if_false] using h'
  exact h.bind hk

theorem Sim.handleBody (h : Sim f g) : Sim (XmlToDb.handleBody f) (XmlToDb.handleBody g) :=
  h.andThen (Sim.done 0)

theorem Sim.withNode {path : List UInt8} {flags : UInt32} (hf : ReadFlags flags)
    {c c' : Option ℕ → XmlHandler δ} (h : ∀ o, Sim (c o) (c' o)) :
    Sim (XmlToDb.withNode getNodeByXPath path flags c) (XmlToDb.withNode readOnly path flags c')
    where
  grows st rv st' he := by
    have hle := (h _).grows _ _ _ he
    rcases getNodeByXPath_cases hf path st.current st.doc with hc | hc
    · simpa only [hc] using hle
    · exact hc.le.trans hle
  keeps st rv st' he := by
    obtain ⟨hd, hl⟩ := (h _).keeps _ _ _ he
    exact ⟨hd, List.Subset.trans (List.subset_cons_self _ _) hl⟩
  same st hq := by
    rcases getNodeByXPath_cases hf path st.current st.doc with hc | hc
    · have hquiet :
          AllQuiet { st with log := XmlEvent.lookup path flags st.current :: st.log } := by
        intro e he
        rcases List.mem_cons.mp he with rfl | he
        · exact congrArg Prod.snd hc
        · exact hq e he
      have hw : XmlToDb.withNode getNodeByXPath path flags c st = c (denoted path st.current st.doc)
          { st with log := XmlEvent.lookup path flags st.current :: st.log } := by
        simp only [XmlToDb.withNode, hc]
      rcases (h (denoted path st.current st.doc)).same _ hquiet with hsame | ⟨hf', hg'⟩
      · left
        rw [hw]
        exact hsame
      · right
        refine ⟨fun rv st' he => ?_, hg'⟩
        rw [hw] at he
        exact hf' rv st' he
    · right
      refine ⟨fun rv st' he => Nat.lt_of_lt_of_le hc ((h _).grows _ _ _ he), ?_⟩
      intro rv st' he hq'
      obtain ⟨hd, hl⟩ := (h _).keeps _ _ _ he
      have hloud := hq' _ (hl List.mem_cons_self)
      simp only [hd, Quiet] at hloud
      rw [readOnly] at hloud
      simp only at hloud
      rw [hloud] at hc
      exact hc.false

theorem Sim.leaveDocNode (rv : ℤ) :
    Sim (XmlToDb.leaveDocNode rv : XmlHandler δ) (XmlToDb.leaveDocNode rv) := by
  have hleft : ∀ (st : XmlToDb δ) rv' st', XmlToDb.leaveDocNode rv st = some (rv', st') →
      st'.doc = st.doc ∧ st'.log = st.log := by
    intro st rv' st' he
    unfold XmlToDb.leaveDocNode at he
    cases hs : st.stack with
    | nil => simp [hs] at he
    | cons n stack =>
        simp only [hs, Option.some.injEq, Prod.mk.injEq] at he
        obtain ⟨-, rfl⟩ := he
        exact ⟨rfl, rfl⟩
  constructor
  · intro st rv' st' he
    rw [(hleft st rv' st' he).1]
  · intro st rv' st' he
    exact ⟨(hleft st rv' st' he).1, (hleft st rv' st' he).2 ▸ List.Subset.refl _⟩
  · refine fun st hq => .inl ⟨rfl, fun rv' st' he => ?_⟩
    obtain ⟨hd, hl⟩ := hleft st rv' st' he
    intro e hmem
    rw [hd]
    exact hq e (hl ▸ hmem)

theorem keeps_inDocNode (h : Keeps g) (n : ℕ) (st : XmlToDb δ) (rv : ℤ) (st' : XmlToDb δ)
    (he : XmlToDb.inDocNode n true g st = some (rv, st')) : st'.doc = st.doc := by
  obtain ⟨⟨rv1, st1⟩, h₁, h2⟩ := Option.bind_eq_some_iff.mp he
  have hd := (h _ _ _ h₁).1
  rw [if_neg (by simp)] at h2
  exact ((Sim.leaveDocNode rv1).keeps _ _ _ h2).1.trans hd

theorem Sim.inDocNode (h : Sim f g) (n : ℕ) (always : Bool) :
    Sim (XmlToDb.inDocNode n always f) (XmlToDb.inDocNode n always g) := by
  have hk : ∀ rv : ℤ, Sim
      (fun st : XmlToDb δ =>
        if rv < 0 ∧ always = false then some (rv, st) else XmlToDb.leaveDocNode rv st)
      fun st => if rv < 0 ∧ always = false then some (rv, st) else XmlToDb.leaveDocNode rv st := by
    intro rv
    by_cases hrv : rv < 0 ∧ always = false
    · simp only [hrv, and_self, if_true]
      exact Sim.done rv
    · simp only [hrv, if_false]
      exact Sim.leaveDocNode rv
  exact (h.comp (mild_enterDocNode n)).bind hk

/-! ### The commands of the schema -/

variable {dest : XmlDestination δ} {properties : List (CString × Option CString)}
  {body body' : XmlHandler δ}

theorem sim_getCharValueByPath (path : CString) {c c' : Option CString → XmlHandler δ}
    (h : ∀ v, Sim (c v) (c' v)) :
    Sim (getCharValueByPath getNodeByXPath path c) (getCharValueByPath readOnly path c') := by
  unfold getCharValueByPath
  dsimp only
  split_ifs
  · exact Sim.choose h
  · refine Sim.withNode (.inr rfl) fun o => ?_
    cases o with
    | none => exact h none
    | some n => exact Sim.choose h
  · refine Sim.withNode (.inl rfl) fun o => ?_
    cases o with
    | none => exact h none
    | some n => exact Sim.choose h

theorem sim_handleXmlEnter (h : Sim body body') :
    Sim (handleXmlEnter getNodeByXPath properties body)
      (handleXmlEnter readOnly properties body') := by
  unfold handleXmlEnter
  cases getProperty properties pathProperty with
  | none => exact Sim.done _
  | some path =>
      refine Sim.withNode (.inr rfl) fun o => ?_
      cases o with
      | none => exact Sim.done _
      | some n => exact h.handleBody.inDocNode n false

theorem sim_forEveryLoop (h : Sim body body') (name : CString) (p : ℕ) :
    ∀ k i, Sim (forEveryLoop body name p k i) (forEveryLoop body' name p k i)
  | 0, _ => Sim.never
  | k + 1, i => by
      refine Sim.atEach fun st => ?_
      unfold forEveryLoop
      cases st.doc.findTagFrom p name i with
      | none => exact ⟨_, _, Sim.done 0, rfl, rfl⟩
      | some r =>
          obtain ⟨j, n⟩ := r
          exact ⟨_, _, (h.inDocNode n true).andThen (sim_forEveryLoop h name p k (j + 1)),
            rfl, rfl⟩

theorem sim_handleXmlForEvery (h : Sim body body') :
    Sim (handleXmlForEvery fuel properties body) (handleXmlForEvery fuel properties body') := by
  unfold handleXmlForEvery
  cases getProperty properties nameProperty with
  | none => exact Sim.done _
  | some name => exact Sim.choose fun p => sim_forEveryLoop h name p fuel 0

theorem sim_createAndEnterGroup (h : Sim body body') (temp : Bool) :
    Sim (createAndEnterGroup dest properties body temp)
      (createAndEnterGroup dest properties body' temp) := by
  unfold createAndEnterGroup
  cases nonEmpty properties nameProperty with
  | none => exact Sim.done _
  | some name =>
      have hc : ∀ d : δ, Sim
          (fun st =>
            (XmlToDb.handleBody body { st with db := dest.enterGroup temp name st.db }).bind
              fun r => some (r.1, { r.2 with db := dest.leaveGroup temp d r.2.db }))
          fun st =>
            (XmlToDb.handleBody body' { st with db := dest.enterGroup temp name st.db }).bind
              fun r => some (r.1, { r.2 with db := dest.leaveGroup temp d r.2.db }) := by
        intro d
        exact (h.handleBody.comp (mild_db fun st => dest.enterGroup temp name st.db)).bind
          fun rv => Sim.update (mild_db fun st => dest.leaveGroup temp d st.db) rv
      exact Sim.choose hc

theorem sim_setValue (temp : Bool) (value : Option CString) :
    Sim (setValue dest properties temp value) (setValue dest properties temp value) := by
  unfold setValue
  cases value.filter fun v => v.bytes ≠ [] with
  | none => exact Sim.done 0
  | some v => exact Sim.update (mild_db fun st => dest.setCharValue temp properties v st.db) 0

theorem sim_handleDbSetCharValueInternal (temp : Bool) :
    Sim (handleDbSetCharValueInternal getNodeByXPath dest properties temp)
      (handleDbSetCharValueInternal readOnly dest properties temp) := by
  unfold handleDbSetCharValueInternal
  cases nonEmpty properties nameProperty with
  | none => exact Sim.done _
  | some name =>
      cases getProperty properties valueProperty with
      | none =>
          cases nonEmpty properties pathProperty with
          | none => exact Sim.done _
          | some path => exact sim_getCharValueByPath path fun v => sim_setValue temp v
      | some value =>
          refine Sim.atEach fun st => ?_
          dsimp only
          cases dest.replaceVars value st.db with
          | error rv => exact ⟨_, _, Sim.done rv, rfl, rfl⟩
          | ok v => exact ⟨_, _, sim_setValue temp (some v), rfl, rfl⟩

theorem sim_ifCharData (h : Sim body body') (test : Option CString → Bool) :
    Sim (ifCharData getNodeByXPath properties body test)
      (ifCharData readOnly properties body' test) := by
  unfold ifCharData
  cases nonEmpty properties pathProperty with
  | none => exact Sim.done _
  | some path =>
      refine sim_getCharValueByPath path fun v => ?_
      split_ifs
      · exact h.handleBody
      · exact Sim.done 0

theorem sim_ifCharDataMatches (h : Sim body body') (expected : Bool) :
    Sim (ifCharDataMatches getNodeByXPath properties body expected)
      (ifCharDataMatches readOnly properties body' expected) := by
  unfold ifCharDataMatches
  cases nonEmpty properties pathProperty with
  | none => exact Sim.done _
  | some path =>
      cases nonEmpty properties patternProperty with
      | none => exact Sim.done _
      | some pattern => exact sim_ifCharData h _

theorem sim_ifPathExists (h : Sim body body') (expected : Bool) :
    Sim (ifPathExists getNodeByXPath properties body expected)
      (ifPathExists readOnly properties body' expected) := by
  unfold ifPathExists
  cases nonEmpty properties pathProperty with
  | none => exact Sim.done _
  | some path =>
      refine Sim.withNode (.inr rfl) fun o => ?_
      split_ifs
      · exact h.handleBody
      · exact Sim.done 0

theorem sim_handleElement (h : Sim body body') (command : Option Command) :
    Sim (handleElement getNodeByXPath dest fuel properties body command)
      (handleElement readOnly dest fuel properties body' command) := by
  match command with
  | none => exact Sim.done _
  | some .xmlEnter => exact sim_handleXmlEnter h
  | some .xmlForEvery => exact sim_handleXmlForEvery h
  | some .dbCreateAndEnterGroup => exact sim_createAndEnterGroup h false
  | some .dbCreateAndEnterTempGroup => exact sim_createAndEnterGroup h true
  | some .dbSetCharValue => exact sim_handleDbSetCharValueInternal false
  | some .dbSetTempCharValue => exact sim_handleDbSetCharValueInternal true
  | some .xmlIfCharDataMatches => exact sim_ifCharDataMatches h true
  | some .xmlIfNotCharDataMatches => exact sim_ifCharDataMatches h false
  | some .xmlIfHasCharData => exact sim_ifCharData h _
  | some .xmlIfNotHasCharData => exact sim_ifCharData h _
  | some .xmlIfPathExists => exact sim_ifPathExists h true
  | some .xmlIfNotPathExists => exact sim_ifPathExists h false

theorem sim_handleChildren : ∀ schema : XmlSchema,
    Sim (handleChildren getNodeByXPath dest fuel schema)
      (handleChildren readOnly dest fuel schema)
  | .nil => Sim.done 0
  | .tag name properties children next => by
      have hchildren := sim_handleChildren children
      have hnext := sim_handleChildren next
      rw [handleChildren, handleChildren]
      split_ifs
      · exact hnext
      · exact ((sim_handleElement hchildren (commandOf name)).comp (mild_logged name)).andThen hnext

/-! ### Looking at the document comes to an end -/

/-- The loop of `XmlForEvery` may make as many rounds as a node has children, and one more. -/
def FuelOk (fuel : ℕ) (doc : XmlDoc) : Prop := ∀ n, (doc.node n).children.length < fuel

/-- A command comes to an end, with the same document and what was on the stack below the rest. -/
def Total (fuel : ℕ) (g : XmlHandler δ) : Prop := ∀ st, FuelOk fuel st.doc →
  ∃ rv st', g st = some (rv, st') ∧ st'.doc = st.doc ∧ st.stack.length ≤ st'.stack.length

theorem Total.update {m : XmlToDb δ → XmlToDb δ} (hm : Mild m) (rv : ℤ) :
    Total fuel fun st => some (rv, m st) :=
  fun st _ => ⟨rv, m st, rfl, hm.doc st, hm.stack st⟩

theorem Total.done (rv : ℤ) : Total fuel (XmlToDb.done rv : XmlHandler δ) :=
  Total.update mild_id rv

theorem Total.comp {m : XmlToDb δ → XmlToDb δ} (h : Total fuel g) (hm : Mild m) :
    Total fuel fun st => g (m st) := by
  intro st hf
  rw [← hm.doc st] at hf
  obtain ⟨rv, st', he, hd, hs⟩ := h (m st) hf
  exact ⟨rv, st', he, hd.trans (hm.doc st), (hm.stack st).trans hs⟩

theorem Total.choose {x : XmlToDb δ → α} {c : α → XmlHandler δ} (h : ∀ a, Total fuel (c a)) :
    Total fuel fun st => c (x st) st :=
  fun st hf => h (x st) st hf

theorem Total.bind (h : Total fuel g) (hk : ∀ rv, Total fuel (k rv)) :
    Total fuel fun st => (g st).bind fun r => k r.1 r.2 := by
  intro st hf
  obtain ⟨rv, st1, he, hd, hs⟩ := h st hf
  rw [← hd] at hf
  obtain ⟨rv', st', he', hd', hs'⟩ := hk rv st1 hf
  exact ⟨rv', st', by simp only [he, Option.bind_some, he'], hd'.trans hd, hs.trans hs'⟩

theorem Total.andThen (h : Total fuel g) (h' : Total fuel g') :
    Total fuel (XmlToDb.andThen g g') := by
  have hk : ∀ rv : ℤ, Total fuel fun st => if rv < 0 then some (rv, st) else g' st := by
    intro rv
    by_cases hrv : rv < 0
    · simp only [hrv, if_true]
      exact Total.done rv
    · simpa only [hrv, if_false] using h'
  exact h.bind hk

theorem Total.handleBody (h : Total fuel g) : Total fuel (XmlToDb.handleBody g) :=
  h.andThen (Total.done 0)

theorem Total.withNode {path : List UInt8} {flags : UInt32} {c : Option ℕ → XmlHandler δ}
    (h : ∀ o, Total fuel (c o)) : Total fuel (XmlToDb.withNode readOnly path flags c) :=
  fun _ hf => h _ _ hf

theorem Total.inDocNode (h : Total fuel g) (n : ℕ) (always : Bool) :
    Total fuel (XmlToDb.inDocNode n always g) := by
  intro st hf
  obtain ⟨rv, st1, he, hd, hs⟩ := h (enterDocNode n st) hf
  have hpos : st.stack.length + 1 ≤ st1.stack.length := hs
  unfold XmlToDb.inDocNode
  rw [he, Option.bind_some]
  by_cases hrv : rv < 0 ∧ always = false
  · rw [if_pos hrv]
    exact ⟨rv, st1, rfl, hd, by omega⟩
  · rw [if_neg hrv]
    unfold XmlToDb.leaveDocNode
    cases hstack : st1.stack with
    | nil => simp [hstack] at hpos
    | cons m stack =>
        rw [hstack, List.length_cons] at hpos
        exact ⟨rv, _, rfl, hd, Nat.le_of_succ_le_succ hpos⟩

variable {doc : XmlDoc} {name : CString}

theorem findTagFrom_bounds {p i j n : ℕ}
    (h : doc.findTagFrom p name i = some (j, n)) : i ≤ j ∧ j < (doc.node p).children.length := by
  unfold findTagFrom at h
  obtain ⟨k, -, h⟩ := Option.bind_eq_some_iff.mp h
  obtain ⟨nn, hnn, he⟩ := Option.map_eq_some_iff.mp h
  obtain ⟨rfl, rfl⟩ := Prod.mk.inj he
  exact ⟨Nat.le_add_right i k, (List.getElem?_eq_some_iff.mp hnn).1⟩

theorem total_forEveryLoop (h : Total fuel body) (name : CString) (p : ℕ) :
    ∀ (k i : ℕ) (st : XmlToDb δ), FuelOk fuel st.doc → i ≤ (st.doc.node p).children.length →
      (st.doc.node p).children.length < i + k →
      ∃ rv st', forEveryLoop body name p k i st = some (rv, st') ∧ st'.doc = st.doc ∧
        st.stack.length ≤ st'.stack.length
  | 0, i, st, _, hi, hk => absurd hk (Nat.not_lt.mpr hi)
  | k + 1, i, st, hf, _, hk => by
      unfold forEveryLoop
      cases hfind : st.doc.findTagFrom p name i with
      | none => exact ⟨0, st, rfl, rfl, le_rfl⟩
      | some jn =>
          obtain ⟨j, n⟩ := jn
          obtain ⟨hij, hjl⟩ := findTagFrom_bounds hfind
          obtain ⟨rv, st1, he, hd, hs⟩ := h.inDocNode n true st hf
          simp only [XmlToDb.andThen, he, Option.bind_some]
          by_cases hrv : rv < 0
          · rw [if_pos hrv]
            exact ⟨rv, st1, rfl, hd, hs⟩
          · rw [if_neg hrv]
            rw [← hd] at hf hjl hk
            obtain ⟨rv', st', he', hd', hs'⟩ := total_forEveryLoop h name p k (j + 1) st1 hf hjl
              (by omega)
            exact ⟨rv', st', he', hd'.trans hd, hs.trans hs'⟩

theorem total_getCharValueByPath (path : CString) {c : Option CString → XmlHandler δ}
    (h : ∀ v, Total fuel (c v)) : Total fuel (getCharValueByPath readOnly path c) := by
  unfold getCharValueByPath
  dsimp only
  split_ifs
  · exact Total.choose h
  · refine Total.withNode fun o => ?_
    cases o with
    | none => exact h none
    | some n => exact Total.choose h
  · refine Total.withNode fun o => ?_
    cases o with
    | none => exact h none
    | some n => exact Total.choose h

theorem total_handleXmlEnter (h : Total fuel body) :
    Total fuel (handleXmlEnter readOnly properties body) := by
  unfold handleXmlEnter
  cases getProperty properties pathProperty with
  | none => exact Total.done _
  | some path =>
      refine Total.withNode fun o => ?_
      cases o with
      | none => exact Total.done _
      | some n => exact h.handleBody.inDocNode n false

theorem total_handleXmlForEvery (h : Total fuel body) :
    Total fuel (handleXmlForEvery fuel properties body) := by
  unfold handleXmlForEvery
  cases getProperty properties nameProperty with
  | none => exact Total.done _
  | some name =>
      intro st hf
      have hk := hf st.current
      exact total_forEveryLoop h name st.current fuel 0 st hf (Nat.zero_le _) (by omega)

theorem total_createAndEnterGroup (h : Total fuel body) (temp : Bool) :
    Total fuel (createAndEnterGroup dest properties body temp) := by
  unfold createAndEnterGroup
  cases nonEmpty properties nameProperty with
  | none => exact Total.done _
  | some name =>
      have hc : ∀ d : δ, Total fuel
          fun st => (XmlToDb.handleBody body { st with db := dest.enterGroup temp name st.db }).bind
            fun r => some (r.1, { r.2 with db := dest.leaveGroup temp d r.2.db }) := by
        intro d
        exact (h.handleBody.comp (mild_db fun st => dest.enterGroup temp name st.db)).bind
          fun rv => Total.update (mild_db fun st => dest.leaveGroup temp d st.db) rv
      exact Total.choose hc

theorem total_setValue (temp : Bool) (value : Option CString) :
    Total fuel (setValue dest properties temp value) := by
  unfold setValue
  cases value.filter fun v => v.bytes ≠ [] with
  | none => exact Total.done 0
  | some v => exact Total.update (mild_db fun st => dest.setCharValue temp properties v st.db) 0

theorem total_handleDbSetCharValueInternal (temp : Bool) :
    Total fuel (handleDbSetCharValueInternal readOnly dest properties temp) := by
  unfold handleDbSetCharValueInternal
  cases nonEmpty properties nameProperty with
  | none => exact Total.done _
  | some name =>
      cases getProperty properties valueProperty with
      | none =>
          cases nonEmpty properties pathProperty with
          | none => exact Total.done _
          | some path => exact total_getCharValueByPath path fun v => total_setValue temp v
      | some value =>
          intro st hf
          cases hr : dest.replaceVars value st.db with
          | error rv =>
              simp only [hr]
              exact Total.done rv st hf
          | ok v =>
              simp only [hr]
              exact total_setValue temp (some v) st hf

theorem total_ifCharData (h : Total fuel body) (test : Option CString → Bool) :
    Total fuel (ifCharData readOnly properties body test) := by
  unfold ifCharData
  cases nonEmpty properties pathProperty with
  | none => exact Total.done _
  | some path =>
      refine total_getCharValueByPath path fun v => ?_
      split_ifs
      · exact h.handleBody
      · exact Total.done 0

theorem total_ifCharDataMatches (h : Total fuel body) (expected : Bool) :
    Total fuel (ifCharDataMatches readOnly properties body expected) := by
  unfold ifCharDataMatches
  cases nonEmpty properties pathProperty with
  | none => exact Total.done _
  | some path =>
      cases nonEmpty properties patternProperty with
      | none => exact Total.done _
      | some pattern => exact total_ifCharData h _

theorem total_ifPathExists (h : Total fuel body) (expected : Bool) :
    Total fuel (ifPathExists readOnly properties body expected) := by
  unfold ifPathExists
  cases nonEmpty properties pathProperty with
  | none => exact Total.done _
  | some path =>
      refine Total.withNode fun o => ?_
      split_ifs
      · exact h.handleBody
      · exact Total.done 0

theorem total_handleElement (h : Total fuel body) (command : Option Command) :
    Total fuel (handleElement readOnly dest fuel properties body command) := by
  match command with
  | none => exact Total.done _
  | some .xmlEnter => exact total_handleXmlEnter h
  | some .xmlForEvery => exact total_handleXmlForEvery h
  | some .dbCreateAndEnterGroup => exact total_createAndEnterGroup h false
  | some .dbCreateAndEnterTempGroup => exact total_createAndEnterGroup h true
  | some .dbSetCharValue => exact total_handleDbSetCharValueInternal false
  | some .dbSetTempCharValue => exact total_handleDbSetCharValueInternal true
  | some .xmlIfCharDataMatches => exact total_ifCharDataMatches h true
  | some .xmlIfNotCharDataMatches => exact total_ifCharDataMatches h false
  | some .xmlIfHasCharData => exact total_ifCharData h _
  | some .xmlIfNotHasCharData => exact total_ifCharData h _
  | some .xmlIfPathExists => exact total_ifPathExists h true
  | some .xmlIfNotPathExists => exact total_ifPathExists h false

theorem total_handleChildren : ∀ schema : XmlSchema,
    Total fuel (handleChildren readOnly dest fuel schema)
  | .nil => Total.done 0
  | .tag name properties children next => by
      have hchildren := total_handleChildren children
      have hnext := total_handleChildren next
      rw [handleChildren]
      split_ifs
      · exact hnext
      · exact ((total_handleElement hchildren (commandOf name)).comp
          (mild_logged name)).andThen hnext

/-! ### One round for each matching element -/

def inEach (body : XmlHandler δ) : List ℕ → XmlHandler δ
  | [] => XmlToDb.done 0
  | n :: ns => XmlToDb.andThen (XmlToDb.inDocNode n true body) (inEach body ns)

theorem findTagFrom_eq_none {p i : ℕ} :
    doc.findTagFrom p name i = none ↔
      ((doc.node p).children.drop i).filter (doc.isTag name) = [] := by
  unfold findTagFrom
  rw [List.filter_eq_nil_iff]
  constructor
  · intro h x hx
    cases hk : ((doc.node p).children.drop i).findIdx? (doc.isTag name) with
    | none => simpa using List.findIdx?_eq_none_iff.mp hk x hx
    | some k =>
        obtain ⟨hlt, -⟩ := List.findIdx?_eq_some_iff_getElem.mp hk
        rw [List.length_drop] at hlt
        rw [hk, Option.bind_some, List.getElem?_eq_getElem (by omega)] at h
        cases h
  · intro h
    rw [List.findIdx?_eq_none_iff.mpr fun x hx => by simpa using h x hx]
    rfl

theorem filter_of_findTagFrom {p i j n : ℕ}
    (h : doc.findTagFrom p name i = some (j, n)) :
    ((doc.node p).children.drop i).filter (doc.isTag name) =
      n :: ((doc.node p).children.drop (j + 1)).filter (doc.isTag name) := by
  unfold findTagFrom at h
  obtain ⟨k, hk, h⟩ := Option.bind_eq_some_iff.mp h
  obtain ⟨nn, hnn, he⟩ := Option.map_eq_some_iff.mp h
  obtain ⟨rfl, rfl⟩ := Prod.mk.inj he
  obtain ⟨hlt, htag, hbefore⟩ := List.findIdx?_eq_some_iff_getElem.mp hk
  have hget : ((doc.node p).children.drop i)[k] = nn := by
    rw [List.getElem_drop]
    exact (List.getElem?_eq_some_iff.mp hnn).2
  have hsplit : (doc.node p).children.drop i = ((doc.node p).children.drop i).take k ++
      nn :: (doc.node p).children.drop (i + k + 1) := by
    rw [← hget, Nat.add_assoc, ← List.drop_drop, ← List.drop_drop]
    simp
  have hnone : (((doc.node p).children.drop i).take k).filter (doc.isTag name) = [] := by
    rw [List.filter_eq_nil_iff]
    intro x hx
    obtain ⟨m, hm, rfl⟩ := List.mem_take_iff_getElem.mp hx
    exact hbefore m (by omega)
  rw [hsplit, List.filter_append, hnone, List.nil_append,
    List.filter_cons_of_pos (by rw [← hget]; exact htag)]

/-- As long as the document stays as it is, the loop of `XmlForEvery` executes its body once for
each matching child, in their order. -/
theorem forEveryLoop_eq (h : Keeps body) (name : CString) (p : ℕ) :
    ∀ (k i : ℕ) (st : XmlToDb δ), i ≤ (st.doc.node p).children.length →
      (st.doc.node p).children.length < i + k →
      forEveryLoop body name p k i st =
        inEach body (((st.doc.node p).children.drop i).filter (st.doc.isTag name)) st
  | 0, i, st, hi, hk => absurd hk (Nat.not_lt.mpr hi)
  | k + 1, i, st, _, hk => by
      unfold forEveryLoop
      cases hfind : st.doc.findTagFrom p name i with
      | none =>
          rw [findTagFrom_eq_none.mp hfind]
          rfl
      | some jn =>
          obtain ⟨j, n⟩ := jn
          obtain ⟨hij, hjl⟩ := findTagFrom_bounds hfind
          rw [filter_of_findTagFrom hfind, inEach]
          simp only [XmlToDb.andThen]
          cases hb : XmlToDb.inDocNode n true body st with
          | none => rfl
          | some r =>
              obtain ⟨rv, st1⟩ := r
              have hd := keeps_inDocNode h n st rv st1 hb
              simp only [Option.bind_some]
              split_ifs
              · rfl
              · rw [← hd] at hjl hk ⊢
                exact forEveryLoop_eq h name p k (j + 1) st1 hjl (by omega)

/-- While the commands only look at the document, `XmlForEvery` executes its children once for each
matching child of the current node, in their order. -/
theorem handleXmlForEvery_readOnly {schema : XmlSchema} {st : XmlToDb δ}
    (hname : getProperty properties nameProperty = some name) (hfuel : FuelOk fuel st.doc) :
    handleXmlForEvery fuel properties (handleChildren readOnly dest fuel schema) st =
      inEach (handleChildren readOnly dest fuel schema) (st.doc.tags st.current name) st := by
  have hk := hfuel st.current
  unfold handleXmlForEvery
  rw [hname]
  exact forEveryLoop_eq (sim_handleChildren schema).keeps name st.current fuel 0 st (Nat.zero_le _)
    (by omega)

/-! ### Only reading -/

/-- What executing a schema means for a document that is only looked at: `XmlEnter` fails if its
path denotes no element, and otherwise its children are executed there; the children of a condition
are executed if its path denotes an element, or if it denotes none; those of `XmlForEvery` are
executed once for each matching child of the current node, in their order. -/
structure Meaning (doc : XmlDoc) (exec : XmlSchema → XmlHandler δ) : Prop where
  next : ∀ name properties children next, exec (.tag name properties children next) =
    andThen (exec (.tag name properties children .nil)) (exec next)
  enter : ∀ {name properties path} children st, commandOf name = some .xmlEnter →
    getProperty properties pathProperty = some path → st.doc = doc →
    ∃ log, exec (.tag name properties children .nil) st =
      handleBody ((denoted path.bytes st.current doc).elim (done errorInvalid) fun n =>
        inDocNode n false (handleBody (exec children))) { st with log := log }
  condition : ∀ {name properties path} children st (expected : Bool),
    commandOf name = some (if expected then .xmlIfPathExists else .xmlIfNotPathExists) →
    nonEmpty properties pathProperty = some path → st.doc = doc →
    ∃ log, exec (.tag name properties children .nil) st =
      handleBody (if (denoted path.bytes st.current doc).isSome = expected then
        handleBody (exec children) else done 0) { st with log := log }
  forEvery : ∀ {name properties child} children st, commandOf name = some .xmlForEvery →
    getProperty properties nameProperty = some child → st.doc = doc →
    ∃ log, exec (.tag name properties children .nil) st =
      handleBody (inEach (exec children) (doc.tags st.current child)) { st with log := log }

theorem handleChildren_next (look : XmlLookup) (name : CString)
    (properties : List (CString × Option CString)) (children next : XmlSchema) :
    handleChildren look dest fuel (.tag name properties children next) =
      andThen (handleChildren look dest fuel (.tag name properties children .nil))
        (handleChildren look dest fuel next) := by
  funext st
  rw [handleChildren, handleChildren]
  by_cases hname : name.bytes = []
  · rw [if_pos hname, if_pos hname]
    rfl
  · rw [if_neg hname, if_neg hname, andThen, andThen, andThen]
    cases handleElement look dest fuel properties (handleChildren look dest fuel children)
        (commandOf name) (logged name st) with
    | none => rfl
    | some r =>
        rw [Option.bind_some, Option.bind_some]
        by_cases hneg : r.1 < 0
        · rw [if_pos hneg, if_pos hneg, Option.bind_some, if_pos hneg]
        · rw [if_neg hneg, if_neg hneg]
          rfl

theorem handleChildren_single (look : XmlLookup) {command : Command}
    (hname : commandOf name = some command) (properties : List (CString × Option CString))
    (children : XmlSchema) (st : XmlToDb δ) :
    handleChildren look dest fuel (.tag name properties children .nil) st =
      handleBody (handleElement look dest fuel properties (handleChildren look dest fuel children)
        (some command)) (logged name st) := by
  have hne : name.bytes ≠ [] := by
    intro hnil
    have hempty : name = CString.ofBytes [] := CString.ext hnil
    have hnone : commandOf (CString.ofBytes []) = none := by decide
    rw [hempty, hnone] at hname
    cases hname
  rw [handleChildren, if_neg hne, hname]
  rfl

theorem meaning_readOnly (hfuel : FuelOk fuel doc) :
    Meaning doc (handleChildren readOnly dest fuel) where
  next := handleChildren_next readOnly
  enter {name properties path} children st hname hpath hdoc := by
    subst hdoc
    refine ⟨.lookup path.bytes flagsPathMustExist st.current :: (logged name st).log, ?_⟩
    rw [handleChildren_single readOnly hname, handleElement, handleXmlEnter, hpath]
    have hnode : ∀ k : Option ℕ → XmlHandler δ,
        handleBody (withNode readOnly path.bytes flagsPathMustExist k) (logged name st) =
          handleBody (k (denoted path.bytes st.current st.doc)) { st with
            log := .lookup path.bytes flagsPathMustExist st.current :: (logged name st).log } :=
      fun _ => rfl
    refine (hnode _).trans ?_
    cases denoted path.bytes st.current st.doc <;> rfl
  condition {name properties path} children st expected hname hpath hdoc := by
    subst hdoc
    refine ⟨.lookup path.bytes flagsPathMustExist st.current :: (logged name st).log, ?_⟩
    have helement : handleElement readOnly dest fuel properties
        (handleChildren readOnly dest fuel children)
        (some (if expected then .xmlIfPathExists else .xmlIfNotPathExists)) =
          ifPathExists readOnly properties (handleChildren readOnly dest fuel children)
            expected := by
      cases expected <;> rfl
    rw [handleChildren_single readOnly hname, helement, ifPathExists, hpath]
    rfl
  forEvery {name properties child} children st hname hchild hdoc := by
    subst hdoc
    refine ⟨(logged name st).log, ?_⟩
    rw [handleChildren_single readOnly hname, handleElement, handleBody, handleBody, andThen,
      andThen]
    have hrounds := @handleXmlForEvery_readOnly _ _ dest _ child children (logged name st) hchild
      hfuel
    rw [hrounds]
    rfl

/-- The code comes to the same end, with the same log, as the commands that only look at the
document and mean what they should, and the document is what it was. -/
def OnlyReads (fuel : ℕ) (dest : XmlDestination δ) (doc : XmlDoc) (root : ℕ) (schema : XmlSchema)
    (db : δ) : Prop :=
  Meaning doc (handleChildren readOnly dest fuel) ∧
    ∃ rv st, xml2Db getNodeByXPath dest fuel doc root schema db = some (rv, st) ∧
      xml2Db readOnly dest fuel doc root schema db = some (rv, st) ∧ st.doc = doc

/-- Every path that is looked up while the commands only look at the document finds what it denotes
without creating an element. -/
def LooksUpQuietly (fuel : ℕ) (dest : XmlDestination δ) (doc : XmlDoc) (root : ℕ)
    (schema : XmlSchema) (db : δ) : Prop :=
  ∀ rv st, xml2Db readOnly dest fuel doc root schema db = some (rv, st) → ∀ e ∈ st.log, Quiet doc e

theorem quiet_lookup_iff {path : List UInt8} {flags : UInt32} {n : ℕ}
    (hf : ReadFlags flags) :
    Quiet doc (.lookup path flags n) ↔ (getNodeByXPath path flags n doc).2.size = doc.size := by
  show (getNodeByXPath path flags n doc).2 = doc ↔ _
  rcases getNodeByXPath_cases hf path n doc with hc | hc
  · exact ⟨fun _ => by rw [hc], fun _ => by rw [hc]⟩
  · constructor
    · intro h
      rw [h]
    · exact fun h => absurd h (Nat.ne_of_gt hc)

/-- A destination that takes values as text, in a `GWEN_DB` in memory: its nodes, the current group
and the current temporary group. -/
def plainDestination : XmlDestination (DbHeap × ℕ × ℕ) where
  enterGroup temp name d :=
    match Db.getGroup d.1 (if temp then d.2.2 else d.2.1) flagsCreateGroup name with
    | (none, h) => (h, d.2)
    | (some nn, h) => if temp then (h, d.2.1, nn) else (h, nn, d.2.2)
  leaveGroup temp before after :=
    if temp then ((Db.nodeUnlink after.1 after.2.2).getD after.1, after.2.1, before.2.2)
    else (after.1, before.2.1, after.2.2)
  replaceVars value _ := .ok value
  setCharValue temp properties v d :=
    match nonEmpty properties nameProperty with
    | none => d
    | some name => ((Db.setCharValue d.1 (if temp then d.2.2 else d.2.1) Db.flagsDefault name v).2,
        d.2)

def emptyDestination : DbHeap × ℕ × ℕ :=
  (Db.newNode (Db.emptyGroup (CString.ofChars ['r'])) .group (CString.ofChars ['t']), 0, 1)

/-- A document with one element `a` that has data, below its root. -/
def oneElement : XmlDoc where
  node n :=
    if n = 0 then ⟨.tag, CString.ofChars ['r'], [], [1], none⟩
    else if n = 1 then ⟨.tag, CString.ofChars ['a'], [], [2], some 0⟩
    else ⟨.data, CString.ofChars ['x'], [], [], some 1⟩
  size := 3

/-- A schema that executes a command if there is an element `a`. -/
def ifSchema (children : XmlSchema) : XmlSchema :=
  .tag (CString.ofChars ['X', 'm', 'l', 'I', 'f', 'P', 'a', 't', 'h', 'E', 'x', 'i', 's', 't', 's'])
    [(pathProperty, some (CString.ofChars ['a']))] children .nil

/-- A schema that sets a value to the data of an element `a`. -/
def setSchema : XmlSchema :=
  .tag (CString.ofChars ['D', 'b', 'S', 'e', 't', 'C', 'h', 'a', 'r', 'V', 'a', 'l', 'u', 'e'])
    [(nameProperty, some (CString.ofChars ['v'])), (pathProperty, some (CString.ofChars ['a']))]
    .nil .nil

theorem fuelOk_oneElement : FuelOk 2 oneElement := by
  intro n
  unfold oneElement
  dsimp only
  split_ifs <;> decide

/-- A document without elements below its root. -/
def noElement : XmlDoc where
  node _ := ⟨.tag, CString.ofChars ['r'], [], [], none⟩
  size := 1

end Gwenhywfar.XmlToDb
