import Gwenhywfar.Tools.BuildDeps
import Mathlib.Order.WellFounded
import Mathlib.Data.Fintype.Defs

/-! # Running a build

* `runLoop`: the rounds of `GWB_BuildCtx_Run`; what a round learns about files and processes
  comes from outside.
* `Placed`: each command is in one place.  Each thing that can happen to a command keeps this
  (`Placed.started`, `Placed.finished` and so on), so a round does, and a run (`run_conserves`).
* `Inv`: a command waits for the files whose makers are not done.  This is kept where each file has
  one maker.
* `run_ordered`: no command is started before those that make its files are done, whatever the
  processes do.
* `run_circular`: a run gives up because of circular dependencies only where there are some, or a
  file that nothing makes, and it does not succeed there. -/

namespace Gwenhywfar.Build

open Function
open CString (ofBytes)

/-! ### The loop -/

/-- What `GWEN_Process_CheckState` says, with the result of a process that has exited. -/
inductive ProcessState
  | running
  | exited (result : ℤ)
  | aborted

/-- What a round learns from outside: the dates of files (`_inFilesNewerThanOutFiles`,
`_checkDependencies`), whether a process can be started, and how the processes are. -/
structure World where
  inFilesNewer : ℕ → Bool
  checkDependencies : ℕ → ℤ
  startProcess : ℕ → Bool
  checkState : ℕ → ProcessState

/-- `_needRunCurrentCommand`. -/
def needRunCurrentCommand (bctx : Context) (w : World) (st : State) (bcmd : ℕ) : Bool :=
  match st.currentCommand bcmd with
  | [] => false
  | sub :: _ =>
      if (bctx.cmd bcmd).checkDates then
        w.inFilesNewer bcmd || sub.checkDepends && w.checkDependencies bcmd != -1
      else true

/-- `_startCommand`: whether the process of the current command runs now. -/
def startCommand (w : World) (st : State) (bcmd : ℕ) : Bool :=
  match st.currentCommand bcmd with
  | [] => false
  | sub :: _ => sub.command.bytes != [] && w.startProcess bcmd

/-- `GWB_BuildCmd_DecBlockingFiles`. -/
def decBlockingFiles (blockingFiles : ℕ → ℕ) (bcmd : ℕ) : ℕ → ℕ :=
  update blockingFiles bcmd (blockingFiles bcmd - 1)

/-- `_signalJobFinished`. -/
def signalJobFinished (bctx : Context) (st : State) (bcmd : ℕ) : State :=
  { st with
    blockingFiles := (bctx.cmd bcmd).outFiles.foldl
      (fun m file => (st.waitingBuildCmds file).foldl decBlockingFiles m) st.blockingFiles }

def State.pushRunning (st : State) (bcmd : ℕ) : State :=
  { st with runningQueue := st.runningQueue ++ [bcmd] }

def State.pushFinished (st : State) (bcmd : ℕ) : State :=
  { st with finishedQueue := st.finishedQueue ++ [bcmd] }

/-- `GWB_BuildCmd_SetCurrentCommand`. -/
def State.setCurrent (st : State) (bcmd : ℕ) (cmds : List SubCmd) : State :=
  { st with currentCommand := update st.currentCommand bcmd cmds }

/-- `_finishCurrentCommand`. -/
def finishCurrentCommand (bctx : Context) (st : State) (bcmd : ℕ) : State :=
  let nextCommand := (st.currentCommand bcmd).tail
  let st := st.setCurrent bcmd nextCommand
  if nextCommand ≠ [] then st.pushWaiting bcmd
  else (signalJobFinished bctx st bcmd).pushFinished bcmd

def checkWaitingLoop (bctx : Context) (w : World) (maxStartAllowed : ℤ) :
    List ℕ → (started : ℕ) → (errors : Bool) → State → State × ℕ × Bool
  | [], started, errors, st => (st, started, errors)
  | bcmd :: oldQueue, started, errors, st =>
      if (started : ℤ) < maxStartAllowed ∧ st.blockingFiles bcmd = 0 then
        if needRunCurrentCommand bctx w st bcmd then
          if startCommand w st bcmd then
            checkWaitingLoop bctx w maxStartAllowed oldQueue (started + 1) errors
              (st.pushRunning bcmd)
          else checkWaitingLoop bctx w maxStartAllowed oldQueue started true (st.pushFinished bcmd)
        else
          checkWaitingLoop bctx w maxStartAllowed oldQueue (started + 1) errors
            (finishCurrentCommand bctx st bcmd)
      else checkWaitingLoop bctx w maxStartAllowed oldQueue started errors (st.pushWaiting bcmd)

/-- `_checkWaitingQueue`: the state, the number of the commands that were started, and whether
there was an error. -/
def checkWaitingQueue (bctx : Context) (w : World) (maxStartAllowed : ℤ) (st : State) :
    State × ℕ × Bool :=
  checkWaitingLoop bctx w maxStartAllowed st.waitingQueue 0 false { st with waitingQueue := [] }

def ignoresResult (st : State) (bcmd : ℕ) : Bool :=
  (st.currentCommand bcmd).head?.any SubCmd.ignoreResult

def checkRunningLoop (bctx : Context) (w : World) :
    List ℕ → (changes : ℕ) → (errors : Bool) → State → State × ℕ × Bool
  | [], changes, errors, st => (st, changes, errors)
  | bcmd :: oldQueue, changes, errors, st =>
      match w.checkState bcmd with
      | .running => checkRunningLoop bctx w oldQueue changes errors (st.pushRunning bcmd)
      | .exited result =>
          if result = 0 ∨ ignoresResult st bcmd = true then
            checkRunningLoop bctx w oldQueue (changes + 1) errors (finishCurrentCommand bctx st bcmd)
          -- the command is put in no queue any more
          else checkRunningLoop bctx w oldQueue (changes + 1) true st
      | .aborted => checkRunningLoop bctx w oldQueue (changes + 1) true (st.pushFinished bcmd)

/-- `_checkRunningQueue`. -/
def checkRunningQueue (bctx : Context) (w : World) (st : State) : State × ℕ × Bool :=
  checkRunningLoop bctx w st.runningQueue 0 false { st with runningQueue := [] }

/-- How far a run is: it goes on, it has succeeded, a command has failed, or nothing can go on. -/
inductive Verdict
  | running
  | ok
  | error
  | circular
deriving DecidableEq

/-- One round of the loop of `GWB_BuildCtx_Run`. -/
def round (bctx : Context) (maxConcurrentJobs : ℤ) (w : World) (st : State) : State × Verdict :=
  let waiting := checkWaitingQueue bctx w (maxConcurrentJobs - st.runningQueue.length) st
  if waiting.2.2 then (waiting.1, .error)
  else
    let running := checkRunningQueue bctx w waiting.1
    if running.2.2 then (running.1, .error)
    -- the number of running jobs is the one before the round
    else if waiting.2.1 = 0 ∧ running.2.1 = 0 ∧ st.runningQueue = [] then (running.1, .circular)
    else (running.1, .running)

/-- The loop of `GWB_BuildCtx_Run`. -/
def runLoop (bctx : Context) (maxConcurrentJobs : ℤ) : List World → State → State × Verdict
  | [], st => (st, if st.waitingQueue = [] ∧ st.runningQueue = [] then .ok else .running)
  | w :: ws, st =>
      if st.waitingQueue = [] ∧ st.runningQueue = [] then (st, .ok)
      else
        let r := round bctx maxConcurrentJobs w st
        if r.2 = .running then runLoop bctx maxConcurrentJobs ws r.1 else r

/-- `GWB_BuildCtx_Run` up to the end of its loop. -/
def run (bctx : Context) (maxConcurrentJobs : ℤ) (usePrepareCommands : Bool)
    (builderName : CString) (ws : List World) : Option (State × Verdict) :=
  (fillWaitingQueue bctx builderName (setup bctx usePrepareCommands)).map
    (runLoop bctx maxConcurrentJobs ws)

/-! ### The invariant -/

def Done (st : State) (b : ℕ) : Prop := b ∈ st.finishedQueue ∧ st.currentCommand b = []

instance decidableDone (st : State) (b : ℕ) : Decidable (Done st b) :=
  inferInstanceAs (Decidable (_ ∧ _))

/-- A file is waited for until the command that makes it is done. -/
def pending (bctx : Context) (st : State) (f : ℕ) : Bool :=
  (setBuildCmdInFiles bctx f).any fun b => !decide (Done st b)

/-- All commands that make files for a command are done. -/
def Ready (bctx : Context) (st : State) (c : ℕ) : Prop := ∀ b, Feeds bctx b c → Done st b

def Ordered (bctx : Context) (st : State) : Prop :=
  ∀ before c after, st.finishedQueue = before ++ c :: after →
    ∀ b, Feeds bctx b c → b ∈ before ∧ st.currentCommand b = []

/-- Each of the commands is in one place: still to be looked at, in a queue, or dropped.  As long
as there is no error none is dropped, and those that are finished have no sub command left. -/
structure Placed (targets rest lost : List ℕ) (errors : Bool) (st : State) : Prop where
  perm : (rest ++ st.waitingQueue ++ st.runningQueue ++ st.finishedQueue ++ lost).Perm targets
  active : ∀ c ∈ rest ++ st.waitingQueue ++ st.runningQueue, st.currentCommand c ≠ []
  clean : errors = false → lost = [] ∧ ∀ c ∈ st.finishedQueue, st.currentCommand c = []

/-- The counters are those of the files that are waited for, and what runs or has ended does so
behind what it reads from. -/
structure Inv (bctx : Context) (targets : List ℕ) (st : State) : Prop where
  blockingFiles : ∀ c ∈ targets,
    st.blockingFiles c = (bctx.cmd c).inFiles.countP (pending bctx st)
  waitingBuildCmds : ∀ c f, (setBuildCmdInFiles bctx f).isSome →
    (st.waitingBuildCmds f).count c = if c ∈ targets then (bctx.cmd c).inFiles.count f else 0
  ready : ∀ c ∈ st.runningQueue, Ready bctx st c
  ordered : Ordered bctx st

section
variable {bctx : Context} {targets rest lost : List ℕ} {errors : Bool} {st st' : State}
  {b c f : ℕ}

theorem pending_congr (h : ∀ b, Done st' b ↔ Done st b) : pending bctx st' = pending bctx st := by
  funext f
  simp only [pending, h]

theorem pending_eq_false (hmade : setBuildCmdInFiles bctx f = some b)
    (h : pending bctx st f = false) : Done st b := by
  rw [pending, hmade] at h
  simpa using h

theorem exists_of_pending (h : pending bctx st f = true) :
    ∃ b, setBuildCmdInFiles bctx f = some b ∧ ¬ Done st b := by
  rw [pending] at h
  cases hmade : setBuildCmdInFiles bctx f with
  | none =>
      rw [hmade] at h
      cases h
  | some b =>
      rw [hmade, Option.any_some, Bool.not_eq_true', decide_eq_false_iff_not] at h
      exact ⟨b, rfl, h⟩

theorem Placed.nodup (hp : Placed targets rest lost errors st) (htargets : targets.Nodup) :
    (rest ++ st.waitingQueue ++ st.runningQueue ++ st.finishedQueue ++ lost).Nodup :=
  hp.perm.nodup_iff.mpr htargets

theorem Placed.mem_targets (hp : Placed targets (c :: rest) lost errors st) : c ∈ targets :=
  hp.perm.mem_iff.mp (by simp)

theorem Placed.current_ne_nil (hp : Placed targets (c :: rest) lost errors st) :
    st.currentCommand c ≠ [] := hp.active c (by simp)

theorem Placed.not_mem (hp : Placed targets (c :: rest) lost errors st) (htargets : targets.Nodup) :
    c ∉ rest ++ st.waitingQueue ++ st.runningQueue ++ st.finishedQueue ++ lost := by
  have hnodup := hp.nodup htargets
  rw [List.cons_append, List.cons_append, List.cons_append, List.cons_append,
    List.nodup_cons] at hnodup
  exact hnodup.1

theorem Placed.not_finished (hp : Placed targets (c :: rest) lost errors st)
    (htargets : targets.Nodup) : c ∉ st.finishedQueue :=
  fun hmem => hp.not_mem htargets (by simp [hmem])

theorem Placed.ne_of_done (hp : Placed targets (c :: rest) lost errors st) (hd : Done st b) :
    b ≠ c := by
  rintro rfl
  exact hp.current_ne_nil hd.2

theorem Inv.ready_of_zero (hi : Inv bctx targets st) (hc : c ∈ targets)
    (h0 : st.blockingFiles c = 0) : Ready bctx st c := by
  rw [hi.blockingFiles c hc, List.countP_eq_zero] at h0
  rintro b ⟨f, hf, hmade⟩
  exact pending_eq_false hmade (Bool.eq_false_iff.mpr (h0 f hf))

theorem Ready.mono (h : Ready bctx st c) (hdone : ∀ b, Done st b → Done st' b) :
    Ready bctx st' c := fun b hb => hdone b (h b hb)

/-! ### What can happen to a command -/

theorem Placed.kept (hp : Placed targets (c :: rest) lost errors st) :
    Placed targets rest lost errors (st.pushWaiting c) where
  perm := List.perm_iff_count.mpr fun x => by
    have h := List.perm_iff_count.mp hp.perm x
    simp only [State.pushWaiting, List.count_append, List.count_cons, List.count_nil] at h ⊢
    omega
  active d hd := hp.active d (by
    simp only [State.pushWaiting, List.mem_append, List.mem_cons, List.not_mem_nil] at hd ⊢
    tauto)
  clean := hp.clean

theorem Placed.started (hp : Placed targets (c :: rest) lost errors st) :
    Placed targets rest lost errors (st.pushRunning c) where
  perm := List.perm_iff_count.mpr fun x => by
    have h := List.perm_iff_count.mp hp.perm x
    simp only [State.pushRunning, List.count_append, List.count_cons, List.count_nil] at h ⊢
    omega
  active d hd := hp.active d (by
    simp only [State.pushRunning, List.mem_append, List.mem_cons, List.not_mem_nil] at hd ⊢
    tauto)
  clean := hp.clean

theorem Placed.dropped (hp : Placed targets (c :: rest) lost errors st) :
    Placed targets rest (c :: lost) true st where
  perm := List.perm_iff_count.mpr fun x => by
    have h := List.perm_iff_count.mp hp.perm x
    simp only [List.count_append, List.count_cons] at h ⊢
    omega
  active d hd := hp.active d (by
    simp only [List.mem_append, List.mem_cons] at hd ⊢
    tauto)
  clean := nofun

theorem Placed.failed (hp : Placed targets (c :: rest) lost errors st) :
    Placed targets rest lost true (st.pushFinished c) where
  perm := List.perm_iff_count.mpr fun x => by
    have h := List.perm_iff_count.mp hp.perm x
    simp only [State.pushFinished, List.count_append, List.count_cons, List.count_nil] at h ⊢
    omega
  active d hd := hp.active d (by
    simp only [State.pushFinished, List.mem_append, List.mem_cons] at hd ⊢
    tauto)
  clean := nofun

theorem Inv.kept (hi : Inv bctx targets st) : Inv bctx targets (st.pushWaiting c) :=
  ⟨hi.blockingFiles, hi.waitingBuildCmds, hi.ready, hi.ordered⟩

theorem Inv.started (hi : Inv bctx targets st) (hready : Ready bctx st c) :
    Inv bctx targets (st.pushRunning c) where
  blockingFiles := hi.blockingFiles
  waitingBuildCmds := hi.waitingBuildCmds
  ready d hd := by
    rcases List.mem_append.mp hd with hd | hd
    · exact hi.ready d hd
    · rw [List.mem_singleton.mp hd]
      exact hready
  ordered := hi.ordered

theorem Ordered.pushed (ho : Ordered bctx st) (hready : Ready bctx st c)
    (hfinished : st'.finishedQueue = st.finishedQueue ++ [c])
    (hcurrent : ∀ b, Done st b → st'.currentCommand b = []) : Ordered bctx st' := by
  intro before d after heq b hb
  rw [hfinished] at heq
  rcases List.eq_nil_or_concat after with rfl | ⟨after, e, rfl⟩
  · obtain ⟨rfl, hd⟩ := List.append_inj' heq rfl
    obtain rfl := List.singleton_inj.mp hd
    exact ⟨(hready b hb).1, hcurrent b (hready b hb)⟩
  · rw [List.concat_eq_append, ← List.cons_append, ← List.append_assoc] at heq
    have hold := ho before d after (List.append_inj' heq rfl).1 b hb
    refine ⟨hold.1, hcurrent b ⟨?_, hold.2⟩⟩
    rw [(List.append_inj' heq rfl).1]
    exact List.mem_append_left _ hold.1

theorem done_pushFinished (hcur : st.currentCommand c ≠ []) (b : ℕ) :
    Done (st.pushFinished c) b ↔ Done st b := by
  refine ⟨fun ⟨hmem, hnil⟩ => ⟨?_, hnil⟩, fun h => ⟨List.mem_append_left _ h.1, h.2⟩⟩
  rcases List.mem_append.mp hmem with hmem | hmem
  · exact hmem
  · rw [List.mem_singleton.mp hmem] at hnil
    exact absurd hnil hcur

theorem Inv.failed (hi : Inv bctx targets st) (hcur : st.currentCommand c ≠ [])
    (hready : Ready bctx st c) : Inv bctx targets (st.pushFinished c) where
  blockingFiles d hd := by
    rw [pending_congr (done_pushFinished hcur)]
    exact hi.blockingFiles d hd
  waitingBuildCmds := hi.waitingBuildCmds
  ready d hd := (hi.ready d hd).mono fun b => (done_pushFinished hcur b).mpr
  ordered := hi.ordered.pushed hready rfl fun _ h => h.2

/-! ### A command that finishes -/

theorem foldl_decBlockingFiles (c : ℕ) : ∀ (cmds : List ℕ) (m : ℕ → ℕ),
    cmds.foldl decBlockingFiles m c = m c - cmds.count c
  | [], _ => rfl
  | d :: cmds, m => by
      rw [List.foldl_cons, foldl_decBlockingFiles c cmds, decBlockingFiles, update_apply,
        List.count_cons]
      by_cases h : c = d
      · subst h
        rw [if_pos rfl, if_pos (beq_self_eq_true c)]
        omega
      · rw [if_neg h, if_neg (by simpa using Ne.symm h), Nat.add_zero]

theorem foldl_signal (waiting : ℕ → List ℕ) (c : ℕ) : ∀ (files : List ℕ) (m : ℕ → ℕ),
    files.foldl (fun m file => (waiting file).foldl decBlockingFiles m) m c =
      m c - (files.map fun file => (waiting file).count c).sum
  | [], _ => rfl
  | f :: files, m => by
      rw [List.foldl_cons, foldl_signal waiting c files, foldl_decBlockingFiles, List.map_cons,
        List.sum_cons, Nat.sub_add_eq]

theorem sum_count_eq : ∀ {files : List ℕ} (xs : List ℕ), files.Nodup →
    (files.map fun f => xs.count f).sum = xs.countP (· ∈ files)
  | [], xs, _ => by simp
  | f :: files, xs, hnodup => by
      rw [List.nodup_cons] at hnodup
      rw [List.map_cons, List.sum_cons, sum_count_eq xs hnodup.2]
      induction xs with
      | nil => rfl
      | cons x xs ih =>
          rw [List.count_cons, List.countP_cons, List.countP_cons, ← ih]
          by_cases hx : x = f
          · subst hx
            simp [hnodup.1]
            omega
          · simp [hx]
            omega

theorem countP_or {p q r : ℕ → Bool} (h : ∀ f, p f = (q f || r f))
    (hne : ∀ f, q f = true → r f = false) (xs : List ℕ) :
    xs.countP p = xs.countP q + xs.countP r := by
  induction xs with
  | nil => rfl
  | cons x xs ih =>
      rw [List.countP_cons, List.countP_cons, List.countP_cons, ih, h]
      cases hq : q x with
      | false =>
          rw [Bool.false_or, if_neg Bool.false_ne_true]
          omega
      | true =>
          rw [hne x hq, Bool.true_or, if_pos rfl, if_neg Bool.false_ne_true]
          omega

theorem Done.of_ne {cmds : List SubCmd} (hne : b ≠ c) (hd : Done (st.setCurrent c cmds) b) :
    Done st b := by
  refine ⟨hd.1, ?_⟩
  have hcur : update st.currentCommand c cmds b = [] := hd.2
  rwa [update_of_ne hne] at hcur

theorem Done.setCurrent {cmds : List SubCmd} (hne : b ≠ c) (hd : Done st b) :
    Done (st.setCurrent c cmds) b := by
  refine ⟨hd.1, ?_⟩
  change update st.currentCommand c cmds b = []
  rw [update_of_ne hne]
  exact hd.2

theorem Inv.continued (hi : Inv bctx targets st) (hc : c ∉ st.finishedQueue)
    (cmds : List SubCmd) : Inv bctx targets ((st.setCurrent c cmds).pushWaiting c) := by
  have hdone (b : ℕ) : Done ((st.setCurrent c cmds).pushWaiting c) b ↔ Done st b := by
    by_cases hb : b = c
    · subst hb
      exact ⟨fun h => absurd h.1 hc, fun h => absurd h.1 hc⟩
    · have hset : Done (st.setCurrent c cmds) b ↔ Done st b :=
        ⟨Done.of_ne hb, Done.setCurrent hb⟩
      exact hset
  refine ⟨fun d hd => ?_, hi.waitingBuildCmds, fun d hd => ?_, ?_⟩
  · rw [pending_congr hdone]
    exact hi.blockingFiles d hd
  · exact (hi.ready d hd).mono fun b => (hdone b).mpr
  · intro before d after heq b hb
    have hold := hi.ordered before d after heq b hb
    refine ⟨hold.1, ((hdone b).mpr ⟨?_, hold.2⟩).2⟩
    change st.finishedQueue = _ at heq
    rw [heq]
    exact List.mem_append_left _ hold.1

/-- A command is done: the files that it makes block no command any more. -/
theorem Inv.completed (hi : Inv bctx targets st) (hfinished : c ∉ st.finishedQueue)
    (hp : SingleProducer bctx) (hc : c ∈ bctx.commandList) (hready : Ready bctx st c) :
    Inv bctx targets ((signalJobFinished bctx (st.setCurrent c []) c).pushFinished c) := by
  set st' := (signalJobFinished bctx (st.setCurrent c []) c).pushFinished c with hst'
  have hself : st'.currentCommand c = [] := by
    change update st.currentCommand c [] c = []
    exact update_self ..
  have hdone (b : ℕ) : Done st' b ↔ Done st b ∨ b = c := by
    by_cases hb : b = c
    · subst hb
      exact ⟨fun _ => Or.inr rfl,
        fun _ => ⟨List.mem_append_right _ (List.mem_singleton_self b), hself⟩⟩
    · simp only [hb, or_false]
      constructor
      · rintro ⟨hmem, hnil⟩
        rcases List.mem_append.mp hmem with hmem | hmem
        · exact Done.of_ne hb ⟨hmem, hnil⟩
        · exact absurd (List.mem_singleton.mp hmem) hb
      · intro h
        have hset : Done (st.setCurrent c []) b := Done.setCurrent hb h
        exact ⟨List.mem_append_left _ hset.1, hset.2⟩
  have hnot : ¬ Done st c := fun h => hfinished h.1
  have hmade := fun f => hp.made_iff (f := f) hc
  refine ⟨fun d hd => ?_, hi.waitingBuildCmds, fun d hd => ?_, ?_⟩
  · have hsignal : st'.blockingFiles d =
        st.blockingFiles d - (bctx.cmd d).inFiles.countP (· ∈ (bctx.cmd c).outFiles) := by
      refine (foldl_signal st.waitingBuildCmds d (bctx.cmd c).outFiles st.blockingFiles).trans ?_
      rw [← sum_count_eq _ (hp.nodup c hc)]
      congr 2
      refine List.map_congr_left fun f hf => ?_
      rw [hi.waitingBuildCmds d f (by rw [(hmade f).mpr hf]; rfl), if_pos hd]
    have hsplit : (bctx.cmd d).inFiles.countP (pending bctx st) =
        (bctx.cmd d).inFiles.countP (pending bctx st') +
          (bctx.cmd d).inFiles.countP (· ∈ (bctx.cmd c).outFiles) := by
      refine countP_or (fun f => ?_) (fun f hf => ?_) _
      · rw [pending, pending]
        cases hb : setBuildCmdInFiles bctx f with
        | none =>
            have hf : f ∉ (bctx.cmd c).outFiles := fun hf => by
              rw [(hmade f).mpr hf] at hb
              cases hb
            simp [hf]
        | some b =>
            have hmem : f ∈ (bctx.cmd c).outFiles ↔ b = c := by
              rw [← hmade f, hb, Option.some.injEq]
            simp only [Option.any_some, hmem, hdone]
            by_cases hbc : b = c
            · subst hbc
              simp [hnot]
            · simp [hbc]
      · rw [pending] at hf
        rw [decide_eq_false_iff_not]
        intro hmem
        rw [(hmade f).mpr hmem, Option.any_some, Bool.not_eq_true', decide_eq_false_iff_not] at hf
        exact hf ((hdone c).mpr (Or.inr rfl))
    rw [hsignal, hi.blockingFiles d hd, hsplit, Nat.add_sub_cancel]
  · exact (hi.ready d hd).mono fun b h => (hdone b).mpr (Or.inl h)
  · exact hi.ordered.pushed hready rfl fun b h => ((hdone b).mpr (Or.inl h)).2

theorem finish_currentCommand_eq : (finishCurrentCommand bctx st c).currentCommand =
    update st.currentCommand c (st.currentCommand c).tail := by
  rw [finishCurrentCommand]
  split <;> rfl

theorem finish_currentCommand {d : ℕ} (hd : d ≠ c) :
    (finishCurrentCommand bctx st c).currentCommand d = st.currentCommand d := by
  rw [finish_currentCommand_eq, update_of_ne hd]

theorem finish_finishedQueue (bctx : Context) (st : State) (c : ℕ) :
    (finishCurrentCommand bctx st c).finishedQueue = st.finishedQueue ∨
      (finishCurrentCommand bctx st c).finishedQueue = st.finishedQueue ++ [c] ∧
        (finishCurrentCommand bctx st c).currentCommand c = [] := by
  rw [finishCurrentCommand]
  split
  · exact Or.inl rfl
  · next h =>
      refine Or.inr ⟨rfl, ?_⟩
      change update st.currentCommand c (st.currentCommand c).tail c = []
      rw [update_self]
      exact not_not.mp h

@[simp] theorem finish_runningQueue :
    (finishCurrentCommand bctx st c).runningQueue = st.runningQueue := by
  rw [finishCurrentCommand]
  split <;> rfl

@[simp] theorem pushFinished_runningQueue : (st.pushFinished c).runningQueue = st.runningQueue :=
  rfl

@[simp] theorem length_pushRunning :
    (st.pushRunning c).runningQueue.length = st.runningQueue.length + 1 :=
  List.length_append

theorem Placed.done_finish (hp : Placed targets (c :: rest) lost errors st) (hd : Done st b) :
    Done (finishCurrentCommand bctx st c) b := by
  refine ⟨?_, (finish_currentCommand (hp.ne_of_done hd)).trans hd.2⟩
  rcases finish_finishedQueue bctx st c with h | ⟨h, -⟩
  · rw [h]
    exact hd.1
  · rw [h]
    exact List.mem_append_left _ hd.1

theorem Placed.finished (hp : Placed targets (c :: rest) lost errors st) (htargets : targets.Nodup) :
    Placed targets rest lost errors (finishCurrentCommand bctx st c) := by
  have hnot := hp.not_mem htargets
  have hother {d : ℕ} (hd : d ≠ c) :
      (finishCurrentCommand bctx st c).currentCommand d = st.currentCommand d :=
    finish_currentCommand hd
  refine ⟨List.perm_iff_count.mpr fun x => ?_, fun d hd => ?_, fun h => ⟨(hp.clean h).1,
    fun d hd => ?_⟩⟩
  · have h := List.perm_iff_count.mp hp.perm x
    rw [finishCurrentCommand]
    split
    · simp only [State.pushWaiting, State.setCurrent, List.count_append, List.count_cons,
        List.count_nil] at h ⊢
      omega
    · simp only [State.pushFinished, signalJobFinished, State.setCurrent, List.count_append,
        List.count_cons, List.count_nil] at h ⊢
      omega
  · by_cases hdc : d = c
    · subst hdc
      rw [finish_currentCommand_eq, update_self]
      rw [finishCurrentCommand] at hd
      split at hd
      · assumption
      · simp only [State.pushFinished, signalJobFinished, State.setCurrent, List.mem_append] at hd
        refine absurd ?_ hnot
        simp only [List.mem_append]
        tauto
    · rw [hother hdc]
      refine hp.active d ?_
      rw [finishCurrentCommand] at hd
      split at hd
      · simp only [State.pushWaiting, State.setCurrent, List.mem_append, List.mem_cons,
          List.not_mem_nil] at hd ⊢
        tauto
      · exact List.mem_cons_of_mem _ hd
  · have hold (hmem : d ∈ st.finishedQueue) :
        (finishCurrentCommand bctx st c).currentCommand d = [] := by
      rw [hother fun heq => hp.not_finished htargets (heq ▸ hmem)]
      exact (hp.clean h).2 d hmem
    rcases finish_finishedQueue bctx st c with hq | ⟨hq, hnil⟩
    · rw [hq] at hd
      exact hold hd
    · rw [hq] at hd
      rcases List.mem_append.mp hd with hd | hd
      · exact hold hd
      · rw [List.mem_singleton.mp hd]
        exact hnil

theorem Placed.takeWaiting (hp : Placed targets [] lost errors st) :
    Placed targets st.waitingQueue lost errors { st with waitingQueue := [] } := by
  refine ⟨?_, fun c hc => ?_, hp.clean⟩
  · rw [List.append_nil]
    exact hp.perm
  · rw [List.append_nil] at hc
    exact hp.active c hc

theorem Placed.takeRunning (hp : Placed targets [] lost errors st) :
    Placed targets st.runningQueue lost errors { st with runningQueue := [] } := by
  refine ⟨?_, fun c hc => ?_, hp.clean⟩
  · refine List.Perm.trans ?_ hp.perm
    rw [List.append_nil, List.nil_append]
    exact (List.perm_append_comm.append_right _).append_right _
  · rw [List.append_nil] at hc
    exact hp.active c (List.perm_append_comm.mem_iff.mp hc)

/-! ### Nothing is lost -/

variable {w : World} {maxStartAllowed : ℤ}

theorem checkWaitingLoop_placed (htargets : targets.Nodup) :
    ∀ (old : List ℕ) (started : ℕ) (errors : Bool) (st : State),
    Placed targets old lost errors st →
    let r := checkWaitingLoop bctx w maxStartAllowed old started errors st
    Placed targets [] lost r.2.2 r.1
  | [], _, _, _, hp => hp
  | c :: old, started, errors, st, hp => by
      have ih := checkWaitingLoop_placed htargets old
      rw [checkWaitingLoop]
      dsimp only at ih ⊢
      split
      · split
        · split
          · exact ih (started + 1) errors (st.pushRunning c) hp.started
          · exact ih started true (st.pushFinished c) hp.failed
        · exact ih (started + 1) errors (finishCurrentCommand bctx st c) (hp.finished htargets)
      · exact ih started errors (st.pushWaiting c) hp.kept

theorem checkRunningLoop_placed (htargets : targets.Nodup) :
    ∀ (old : List ℕ) (changes : ℕ) (errors : Bool) (lost : List ℕ) (st : State),
    Placed targets old lost errors st →
    let r := checkRunningLoop bctx w old changes errors st
    ∃ lost', Placed targets [] lost' r.2.2 r.1
  | [], _, _, lost, _, hp => ⟨lost, hp⟩
  | c :: old, changes, errors, lost, st, hp => by
      have ih := checkRunningLoop_placed htargets old
      rw [checkRunningLoop]
      dsimp only at ih ⊢
      split
      · exact ih changes errors lost (st.pushRunning c) hp.started
      · split
        · exact ih (changes + 1) errors lost (finishCurrentCommand bctx st c) (hp.finished htargets)
        · exact ih (changes + 1) true (c :: lost) st hp.dropped
      · exact ih (changes + 1) true lost (st.pushFinished c) hp.failed

variable {maxConcurrentJobs : ℤ}

theorem round_ne_ok (w : World) (st : State) : (round bctx maxConcurrentJobs w st).2 ≠ .ok := by
  rw [round]
  dsimp only
  split
  · exact nofun
  · split
    · exact nofun
    · split <;> exact nofun

/-- A round drops no command unless it reports an error. -/
theorem round_placed (htargets : targets.Nodup) (hp : Placed targets [] [] false st) (w : World) :
    (round bctx maxConcurrentJobs w st).2 ≠ .error →
    Placed targets [] [] false (round bctx maxConcurrentJobs w st).1 := by
  have hwaiting := @checkWaitingLoop_placed bctx targets [] w
    (maxConcurrentJobs - st.runningQueue.length) htargets st.waitingQueue 0 false _ hp.takeWaiting
  rw [← checkWaitingQueue] at hwaiting
  generalize hr : checkWaitingQueue bctx w (maxConcurrentJobs - st.runningQueue.length) st = r
    at hwaiting
  dsimp only at hwaiting
  rw [round, hr]
  dsimp only
  split
  · exact fun h => absurd rfl h
  · next herror =>
      rw [Bool.not_eq_true] at herror
      rw [herror] at hwaiting
      obtain ⟨lost, hrunning⟩ := @checkRunningLoop_placed bctx targets w htargets
        r.1.runningQueue 0 false [] _ hwaiting.takeRunning
      rw [← checkRunningQueue] at hrunning
      split
      · exact fun h => absurd rfl h
      · next herror' =>
          rw [Bool.not_eq_true] at herror'
          rw [herror'] at hrunning
          rw [(hrunning.clean rfl).1] at hrunning
          split <;> exact fun _ => hrunning

/-- A run drops no command unless it reports an error, and one that succeeds leaves none waiting or
running. -/
theorem runLoop_placed (htargets : targets.Nodup) : ∀ (ws : List World) (st : State),
    Placed targets [] [] false st →
    let r := runLoop bctx maxConcurrentJobs ws st
    (r.2 ≠ .error → Placed targets [] [] false r.1) ∧
      (r.2 = .ok → r.1.waitingQueue = [] ∧ r.1.runningQueue = [])
  | [], st, hp => by
      rw [runLoop]
      dsimp only
      split
      · next hclosed => exact ⟨fun _ => hp, fun _ => hclosed⟩
      · exact ⟨fun _ => hp, nofun⟩
  | w :: ws, st, hp => by
      have hround := @round_placed bctx targets st maxConcurrentJobs htargets hp w
      rw [runLoop]
      split
      · next hclosed => exact ⟨fun _ => hp, fun _ => hclosed⟩
      · dsimp only
        split
        · next hagain =>
            exact runLoop_placed htargets ws _ (hround (by rw [hagain]; exact nofun))
        · exact ⟨hround, fun hok => absurd hok (round_ne_ok w st)⟩

/-! ### A round -/

/-- The commands of a run. -/
structure Targets (bctx : Context) (targets : List ℕ) : Prop where
  nodup : targets.Nodup
  commands : ∀ c ∈ targets, c ∈ bctx.commandList
  single : SingleProducer bctx

/-- What is known between two steps where each file has one maker. -/
structure Sound (bctx : Context) (targets rest lost : List ℕ) (errors : Bool) (st : State) :
    Prop where
  placed : Placed targets rest lost errors st
  inv : Inv bctx targets st

theorem Sound.finished (hs : Sound bctx targets (c :: rest) lost errors st)
    (ht : Targets bctx targets) (hready : Ready bctx st c) :
    Sound bctx targets rest lost errors (finishCurrentCommand bctx st c) := by
  refine ⟨hs.placed.finished ht.nodup, ?_⟩
  have hnot := hs.placed.not_finished ht.nodup
  by_cases hnext : (st.currentCommand c).tail ≠ []
  · rw [finishCurrentCommand, if_pos hnext]
    exact hs.inv.continued hnot _
  · have hdone := hs.inv.completed hnot ht.single (ht.commands c hs.placed.mem_targets) hready
    rw [finishCurrentCommand, if_neg hnext, not_not.mp hnext]
    exact hdone

theorem checkWaitingLoop_mono : ∀ (old : List ℕ) (started : ℕ) (errors : Bool) (st : State),
    let r := checkWaitingLoop bctx w maxStartAllowed old started errors st
    started ≤ r.2.1 ∧ (errors = true → r.2.2 = true)
  | [], _, _, _ => ⟨le_rfl, id⟩
  | c :: old, started, errors, st => by
      have ih := checkWaitingLoop_mono old
      rw [checkWaitingLoop]
      split
      · split
        · split
          · exact ⟨(Nat.le_succ started).trans (ih (started + 1) errors _).1,
              (ih (started + 1) errors _).2⟩
          · exact ⟨(ih started true _).1, fun _ => (ih started true _).2 rfl⟩
        · exact ⟨(Nat.le_succ started).trans (ih (started + 1) errors _).1,
            (ih (started + 1) errors _).2⟩
      · exact ih started errors _

/-- The waiting commands are started, at most as many as are allowed. -/
theorem checkWaitingLoop_sound (ht : Targets bctx targets) :
    ∀ (old : List ℕ) (started : ℕ) (errors : Bool) (st : State),
    Sound bctx targets old lost errors st →
    let r := checkWaitingLoop bctx w maxStartAllowed old started errors st
    Sound bctx targets [] lost r.2.2 r.1 ∧
      r.1.runningQueue.length + started ≤ st.runningQueue.length + r.2.1 ∧
      (r.2.1 : ℤ) ≤ max (started : ℤ) maxStartAllowed
  | [], started, errors, st, hs => ⟨hs, le_rfl, le_max_left _ _⟩
  | c :: old, started, errors, st, hs => by
      have ih := checkWaitingLoop_sound ht old
      rw [checkWaitingLoop]
      dsimp only at ih ⊢
      split
      · next h =>
          obtain ⟨hstart, hzero⟩ := h
          have hready := hs.inv.ready_of_zero hs.placed.mem_targets hzero
          have hroom : max ((started + 1 : ℕ) : ℤ) maxStartAllowed =
              max (started : ℤ) maxStartAllowed := by
            push_cast
            omega
          split
          · split
            · obtain ⟨hsound, hrunning, hmax⟩ := ih (started + 1) errors (st.pushRunning c)
                ⟨hs.placed.started, hs.inv.started hready⟩
              rw [length_pushRunning] at hrunning
              exact ⟨hsound, by omega, hroom ▸ hmax⟩
            · exact ih started true (st.pushFinished c)
                ⟨hs.placed.failed, hs.inv.failed hs.placed.current_ne_nil hready⟩
          · obtain ⟨hsound, hrunning, hmax⟩ := ih (started + 1) errors
              (finishCurrentCommand bctx st c) (hs.finished ht hready)
            rw [finish_runningQueue] at hrunning
            exact ⟨hsound, by omega, hroom ▸ hmax⟩
      · exact ih started errors (st.pushWaiting c) ⟨hs.placed.kept, hs.inv.kept⟩

/-- Where nothing was started, every command that was waiting waits for a file. -/
theorem checkWaitingLoop_stuck : ∀ (old : List ℕ) (started : ℕ) (st : State),
    (started : ℤ) < maxStartAllowed →
    (checkWaitingLoop bctx w maxStartAllowed old started false st).2 = (started, false) →
    (checkWaitingLoop bctx w maxStartAllowed old started false st).1 =
        { st with waitingQueue := st.waitingQueue ++ old } ∧
      ∀ c ∈ old, st.blockingFiles c ≠ 0
  | [], started, st, _, _ => ⟨by rw [checkWaitingLoop, List.append_nil],
      fun _ hc => absurd hc List.not_mem_nil⟩
  | c :: old, started, st, hstart, heq => by
      have hmono : ∀ (n : ℕ) (errors : Bool) (st : State),
          n ≤ (checkWaitingLoop bctx w maxStartAllowed old n errors st).2.1 ∧ (errors = true →
            (checkWaitingLoop bctx w maxStartAllowed old n errors st).2.2 = true) :=
        checkWaitingLoop_mono old
      rw [checkWaitingLoop] at heq ⊢
      by_cases hzero : st.blockingFiles c = 0
      · rw [if_pos ⟨hstart, hzero⟩] at heq
        split at heq
        · split at heq
          · have h := (hmono (started + 1) false (st.pushRunning c)).1
            rw [heq] at h
            omega
          · have h := (hmono started true (st.pushFinished c)).2 rfl
            rw [heq] at h
            exact absurd h Bool.false_ne_true
        · have h := (hmono (started + 1) false (finishCurrentCommand bctx st c)).1
          rw [heq] at h
          omega
      · rw [if_neg fun h => hzero h.2] at heq ⊢
        obtain ⟨hst, hblocked⟩ := checkWaitingLoop_stuck old started (st.pushWaiting c) hstart heq
        refine ⟨?_, List.forall_mem_cons.mpr ⟨hzero, hblocked⟩⟩
        rw [hst, State.pushWaiting, List.append_assoc, List.singleton_append]

theorem checkRunningLoop_sound (ht : Targets bctx targets) :
    ∀ (old : List ℕ) (changes : ℕ) (errors : Bool) (lost : List ℕ) (st : State),
    Sound bctx targets old lost errors st → (∀ c ∈ old, Ready bctx st c) →
    let r := checkRunningLoop bctx w old changes errors st
    (∃ lost', Sound bctx targets [] lost' r.2.2 r.1) ∧
      r.1.runningQueue.length ≤ st.runningQueue.length + old.length
  | [], changes, errors, lost, st, hs, _ => ⟨⟨lost, hs⟩, Nat.le_add_right _ _⟩
  | c :: old, changes, errors, lost, st, hs, hold => by
      rw [List.forall_mem_cons] at hold
      have ih := checkRunningLoop_sound ht old
      rw [checkRunningLoop]
      dsimp only at ih ⊢
      rw [List.length_cons]
      split
      · obtain ⟨hsound, hrunning⟩ := ih changes errors lost (st.pushRunning c)
          ⟨hs.placed.started, hs.inv.started hold.1⟩ hold.2
        rw [length_pushRunning] at hrunning
        exact ⟨hsound, by omega⟩
      · split
        · obtain ⟨hsound, hrunning⟩ := ih (changes + 1) errors lost
            (finishCurrentCommand bctx st c) (hs.finished ht hold.1)
            fun d hd => (hold.2 d hd).mono fun b => hs.placed.done_finish
          rw [finish_runningQueue] at hrunning
          exact ⟨hsound, by omega⟩
        · obtain ⟨hsound, hrunning⟩ := ih (changes + 1) true (c :: lost) st
            ⟨hs.placed.dropped, hs.inv⟩ hold.2
          exact ⟨hsound, by omega⟩
      · obtain ⟨hsound, hrunning⟩ := ih (changes + 1) true lost (st.pushFinished c)
          ⟨hs.placed.failed, hs.inv.failed hs.placed.current_ne_nil hold.1⟩
          fun d hd => (hold.2 d hd).mono fun b => (done_pushFinished hs.placed.current_ne_nil b).mpr
        rw [pushFinished_runningQueue] at hrunning
        exact ⟨hsound, by omega⟩

theorem Sound.takeWaiting (hs : Sound bctx targets [] lost errors st) :
    Sound bctx targets st.waitingQueue lost errors { st with waitingQueue := [] } :=
  ⟨hs.placed.takeWaiting, hs.inv.blockingFiles, hs.inv.waitingBuildCmds, hs.inv.ready,
    hs.inv.ordered⟩

theorem Sound.takeRunning (hs : Sound bctx targets [] lost errors st) :
    Sound bctx targets st.runningQueue lost errors { st with runningQueue := [] } :=
  ⟨hs.placed.takeRunning, hs.inv.blockingFiles, hs.inv.waitingBuildCmds,
    fun _ hc => absurd hc List.not_mem_nil, hs.inv.ordered⟩

/-- There are no more running commands than allowed. -/
def Limited (maxConcurrentJobs : ℤ) (st : State) : Prop :=
  (st.runningQueue.length : ℤ) ≤ max maxConcurrentJobs 0

theorem checkWaitingQueue_sound (ht : Targets bctx targets)
    (hs : Sound bctx targets [] lost errors st) (hlimit : Limited maxConcurrentJobs st)
    (herrors : errors = false) (w : World) :
    let r := checkWaitingQueue bctx w (maxConcurrentJobs - st.runningQueue.length) st
    Sound bctx targets [] lost r.2.2 r.1 ∧ Limited maxConcurrentJobs r.1 := by
  subst herrors
  obtain ⟨hsound, hrunning, hmax⟩ := checkWaitingLoop_sound (w := w) ht st.waitingQueue 0 false _
    hs.takeWaiting
  refine ⟨hsound, ?_⟩
  rw [Limited, checkWaitingQueue] at *
  dsimp only at hrunning
  rw [Nat.cast_zero] at hmax
  omega

/-- No command runs, some wait, and each of them waits for a file. -/
structure Stuck (st : State) : Prop where
  runningQueue : st.runningQueue = []
  waitingQueue : st.waitingQueue ≠ []
  blocked : ∀ c ∈ st.waitingQueue, st.blockingFiles c ≠ 0

/-- What is known of a state and a verdict. -/
structure Ends (bctx : Context) (targets : List ℕ) (maxConcurrentJobs : ℤ) (r : State × Verdict) :
    Prop where
  sound : ∃ lost errors, Sound bctx targets [] lost errors r.1 ∧ (r.2 ≠ .error → errors = false)
  limited : Limited maxConcurrentJobs r.1
  ok : r.2 = .ok → r.1.waitingQueue = [] ∧ r.1.runningQueue = []
  circular : r.2 = .circular → 0 < maxConcurrentJobs → Stuck r.1

theorem Ends.sound_of_ne {r : State × Verdict} (h : Ends bctx targets maxConcurrentJobs r)
    (hne : r.2 ≠ .error) : Sound bctx targets [] [] false r.1 := by
  obtain ⟨lost, errors, hs, herrors⟩ := h.sound
  obtain rfl := herrors hne
  obtain rfl := (hs.placed.clean rfl).1
  exact hs

theorem round_ends (ht : Targets bctx targets) (hs : Sound bctx targets [] [] false st)
    (hlimit : Limited maxConcurrentJobs st)
    (hopen : ¬ (st.waitingQueue = [] ∧ st.runningQueue = [])) (w : World) :
    Ends bctx targets maxConcurrentJobs (round bctx maxConcurrentJobs w st) := by
  obtain ⟨hwaiting, hlimited⟩ := checkWaitingQueue_sound ht hs hlimit rfl w
  generalize hr : checkWaitingQueue bctx w (maxConcurrentJobs - st.runningQueue.length) st = r
    at hwaiting hlimited
  rw [round, hr]
  dsimp only
  split
  · next herror =>
      exact ⟨⟨[], r.2.2, hwaiting, fun h => absurd rfl h⟩, hlimited, nofun, nofun⟩
  · next herror =>
      rw [Bool.not_eq_true] at herror
      rw [herror] at hwaiting
      obtain ⟨⟨lost, hrunning⟩, hlength⟩ := checkRunningLoop_sound (w := w) ht r.1.runningQueue 0
        false [] _ hwaiting.takeRunning hwaiting.inv.ready
      rw [← checkRunningQueue] at hrunning hlength
      dsimp only at hlength
      rw [List.length_nil, Nat.zero_add] at hlength
      have hlimited' : Limited maxConcurrentJobs (checkRunningQueue bctx w r.1).1 := by
        rw [Limited] at hlimited ⊢
        omega
      split
      · next herror' =>
          exact ⟨⟨lost, _, hrunning, fun h => absurd rfl h⟩, hlimited', nofun, nofun⟩
      · next herror' =>
          rw [Bool.not_eq_true] at herror'
          split
          · next hstuck =>
              refine ⟨⟨lost, _, hrunning, fun _ => herror'⟩, hlimited', nofun, fun _ hpos => ?_⟩
              obtain ⟨hstarted, -, hnone⟩ := hstuck
              have hloop : checkWaitingLoop bctx w maxConcurrentJobs st.waitingQueue 0 false
                  { st with waitingQueue := [] } = r := by
                rw [← hr, checkWaitingQueue, hnone, List.length_nil, Nat.cast_zero, sub_zero]
              obtain ⟨hst, hblocked⟩ := checkWaitingLoop_stuck st.waitingQueue 0
                { st with waitingQueue := [] } (w := w) hpos
                (by rw [hloop]; exact Prod.ext hstarted herror)
              rw [hloop] at hst
              rw [hst, checkRunningQueue]
              dsimp only
              rw [hnone, List.nil_append, checkRunningLoop]
              exact ⟨rfl, fun hnil => hopen ⟨hnil, hnone⟩, hblocked⟩
          · exact ⟨⟨lost, _, hrunning, fun _ => herror'⟩, hlimited', nofun, nofun⟩

theorem runLoop_ends (ht : Targets bctx targets) : ∀ (ws : List World) (st : State),
    Sound bctx targets [] [] false st → Limited maxConcurrentJobs st →
    Ends bctx targets maxConcurrentJobs (runLoop bctx maxConcurrentJobs ws st)
  | [], st, hs, hlimit => by
      refine ⟨⟨[], false, hs, fun _ => rfl⟩, hlimit, fun h => ?_, fun h => ?_⟩
      · rw [runLoop] at h
        dsimp only at h
        split at h
        · assumption
        · cases h
      · rw [runLoop] at h
        dsimp only at h
        split at h <;> cases h
  | w :: ws, st, hs, hlimit => by
      rw [runLoop]
      split
      · next hclosed =>
          exact ⟨⟨[], false, hs, fun _ => rfl⟩, hlimit, fun _ => hclosed, nofun⟩
      · next hopen =>
          have hround := round_ends ht hs hlimit hopen w
          dsimp only
          split
          · next hagain =>
              refine runLoop_ends ht ws _ (hround.sound_of_ne ?_) hround.limited
              rw [hagain]
              exact nofun
          · exact hround

/-! ### Runs -/

variable {usePrepareCommands : Bool} {builderName : CString}

theorem Queued.placed (hq : Queued bctx usePrepareCommands st) :
    Placed st.waitingQueue [] [] false st := by
  refine ⟨?_, fun c hc => ?_, fun _ => ⟨rfl, fun c hc => ?_⟩⟩
  · rw [hq.runningQueue, hq.finishedQueue, List.nil_append, List.append_nil, List.append_nil,
      List.append_nil]
  · rw [hq.runningQueue, List.nil_append, List.append_nil] at hc
    exact (hq.commands c hc).2
  · rw [hq.finishedQueue] at hc
    cases hc

theorem Queued.inv (hq : Queued bctx usePrepareCommands st) : Inv bctx st.waitingQueue st := by
  have hpending : pending bctx st = fun f => (setBuildCmdInFiles bctx f).isSome := by
    funext f
    rw [pending]
    cases setBuildCmdInFiles bctx f with
    | none => rfl
    | some b => simp [Done, hq.finishedQueue]
  refine ⟨fun c hc => ?_, hq.waitingBuildCmds, fun c hc => ?_, ?_⟩
  · rw [hpending]
    exact hq.blockingFiles c hc
  · rw [hq.runningQueue] at hc
    cases hc
  · intro before c after heq
    rw [hq.finishedQueue] at heq
    exact absurd heq.symm (List.append_ne_nil_of_right_ne_nil _ (List.cons_ne_nil _ _))

theorem Queued.toTargets (hq : Queued bctx usePrepareCommands st) (hp : SingleProducer bctx) :
    Targets bctx st.waitingQueue :=
  ⟨hq.nodup, fun c hc => (hq.commands c hc).1, hp⟩

theorem Queued.limited (hq : Queued bctx usePrepareCommands st) : Limited maxConcurrentJobs st := by
  rw [Limited, hq.runningQueue]
  exact le_max_right _ _

theorem run_ends (hp : SingleProducer bctx) (maxConcurrentJobs : ℤ) (usePrepareCommands : Bool)
    (builderName : CString) (ws : List World) :
    ∃ st r, fillWaitingQueue bctx builderName (setup bctx usePrepareCommands) = some st ∧
      run bctx maxConcurrentJobs usePrepareCommands builderName ws = some r ∧
      Queued bctx usePrepareCommands st ∧ Ends bctx st.waitingQueue maxConcurrentJobs r := by
  obtain ⟨st, hfill, hq, -⟩ := fillWaitingQueue_closed bctx usePrepareCommands builderName
  refine ⟨st, runLoop bctx maxConcurrentJobs ws st, hfill, by rw [run, hfill]; rfl, hq, ?_⟩
  exact runLoop_ends (hq.toTargets hp) ws st ⟨hq.placed, hq.inv⟩ hq.limited

/-- A library and a program with two sub commands that reads it. -/
def sampleCmd (n : ℕ) : BuildCmd :=
  let sub := { command := ofBytes [0x63], ignoreResult := false, checkDepends := false }
  { builderName := none, auto := true, checkDates := true
    inFiles := if n = 1 then [0, 0, 2] else []
    outFiles := [n]
    prepareCommands := []
    buildCommands := List.replicate (n + 1) sub }

def sampleContext : Context := { cmd := sampleCmd, commandList := [1, 0] }

theorem singleProducer_sample : SingleProducer sampleContext :=
  ⟨by decide, by decide⟩

/-- Every process can be started, and it ends at once. -/
def sampleWorld : World where
  inFilesNewer := fun _ => true
  checkDependencies := fun _ => 0
  startProcess := fun _ => true
  checkState := fun _ => .exited 0

/-! ### The order of the commands -/

/-- What holds at every moment at which commands run: there are not too many of them, and nothing
runs or has ended before everything that it reads was there. -/
structure Safe (bctx : Context) (maxConcurrentJobs : ℤ) (st : State) : Prop where
  limited : Limited maxConcurrentJobs st
  nodup : (st.waitingQueue ++ st.runningQueue ++ st.finishedQueue).Nodup
  ready : ∀ c ∈ st.runningQueue, Ready bctx st c
  ordered : Ordered bctx st

theorem Sound.safe (hs : Sound bctx targets [] lost errors st) (ht : Targets bctx targets)
    (hlimit : Limited maxConcurrentJobs st) : Safe bctx maxConcurrentJobs st :=
  ⟨hlimit, (List.nodup_append.mp (hs.placed.nodup ht.nodup)).1, hs.inv.ready, hs.inv.ordered⟩

/-- Whatever the files and processes do, a command is started only when the commands that make
its files are done, no command is in two places, and there are no more processes than allowed: after
every round, and between the start of new commands and the look at those that run. -/
theorem run_ordered (hp : SingleProducer bctx) (maxConcurrentJobs : ℤ) (usePrepareCommands : Bool)
    (builderName : CString) (ws : List World) :
    ∃ r, run bctx maxConcurrentJobs usePrepareCommands builderName ws = some r ∧
      Safe bctx maxConcurrentJobs r.1 ∧ (r.2 = .running → ∀ w, Safe bctx maxConcurrentJobs
        (checkWaitingQueue bctx w (maxConcurrentJobs - r.1.runningQueue.length) r.1).1) := by
  obtain ⟨st, r, -, hrun, hq, hends⟩ :=
    run_ends hp maxConcurrentJobs usePrepareCommands builderName ws
  have ht := hq.toTargets hp
  obtain ⟨lost, errors, hs, -⟩ := hends.sound
  refine ⟨r, hrun, hs.safe ht hends.limited, fun hr w => ?_⟩
  have hs := hends.sound_of_ne (by rw [hr]; exact nofun)
  obtain ⟨hwaiting, hlimited⟩ := checkWaitingQueue_sound ht hs hends.limited rfl w
  exact hwaiting.safe ht hlimited

theorem run_ordered_sample :
    ∃ r, run sampleContext 2 false (ofBytes []) [sampleWorld] = some r ∧
      Safe sampleContext 2 r.1 ∧ (r.2 = .running → ∀ w, Safe sampleContext 2
        (checkWaitingQueue sampleContext w (2 - r.1.runningQueue.length) r.1).1) :=
  run_ordered singleProducer_sample 2 false (ofBytes []) [sampleWorld]

/-- No command is lost as long as none fails, and a run that succeeds has done all of them. -/
theorem run_conserves (bctx : Context) (maxConcurrentJobs : ℤ) (usePrepareCommands : Bool)
    (builderName : CString) (ws : List World) :
    ∃ st r, fillWaitingQueue bctx builderName (setup bctx usePrepareCommands) = some st ∧
      run bctx maxConcurrentJobs usePrepareCommands builderName ws = some r ∧
      (r.2 ≠ .error → (r.1.waitingQueue ++ r.1.runningQueue ++ r.1.finishedQueue).Perm
        st.waitingQueue ∧ ∀ c ∈ r.1.finishedQueue, r.1.currentCommand c = []) ∧
      (r.2 = .ok → r.1.finishedQueue.Perm st.waitingQueue) := by
  obtain ⟨st, hfill, hq, -⟩ := fillWaitingQueue_closed bctx usePrepareCommands builderName
  obtain ⟨hplaced, hempty⟩ := @runLoop_placed bctx _ maxConcurrentJobs hq.nodup ws st
    hq.placed
  refine ⟨st, _, hfill, by rw [run, hfill]; rfl, ?_⟩
  generalize runLoop bctx maxConcurrentJobs ws st = r at hplaced hempty
  have hall (hne : r.2 ≠ .error) :
      (r.1.waitingQueue ++ r.1.runningQueue ++ r.1.finishedQueue).Perm st.waitingQueue := by
    have hperm := (hplaced hne).perm
    rwa [List.nil_append, List.append_nil] at hperm
  refine ⟨fun hne => ⟨hall hne, ((hplaced hne).clean rfl).2⟩, fun hok => ?_⟩
  have hperm := hall (by rw [hok]; exact nofun)
  rwa [(hempty hok).1, (hempty hok).2] at hperm

/-! ### Circular dependencies -/

/-- Some command can never have everything that it reads: a file for it is made by a command
without sub commands, or the command depends on itself. -/
def Blocked (bctx : Context) (usePrepareCommands : Bool) (targets : List ℕ) : Prop :=
  ∃ c ∈ targets, (∃ b, Feeds bctx b c ∧ bctx.subCmds usePrepareCommands b = []) ∨
    Relation.TransGen (Feeds bctx) c c

theorem exists_circle {α : Type} {r : α → α → Prop} {l : List α} (hne : l ≠ [])
    (h : ∀ c ∈ l, ∃ b ∈ l, r b c) : ∃ c ∈ l, Relation.TransGen r c c := by
  by_contra hnone
  push Not at hnone
  let before : {c // c ∈ l} → {c // c ∈ l} → Prop := fun b c => Relation.TransGen r b c
  have htrans : IsTrans {c // c ∈ l} before := ⟨fun _ _ _ => Relation.TransGen.trans⟩
  have hirrefl : Std.Irrefl before := ⟨fun c => hnone c.1 c.2⟩
  have hfinite : Finite {c // c ∈ l} := List.finite_toSet l
  have hwf := Finite.wellFounded_of_trans_of_irrefl before
  obtain ⟨c0, hc0⟩ := List.exists_mem_of_ne_nil l hne
  obtain ⟨c, -, hmin⟩ := hwf.has_min Set.univ ⟨⟨c0, hc0⟩, trivial⟩
  obtain ⟨b, hb, hbc⟩ := h c.1 c.2
  exact hmin ⟨b, hb⟩ trivial (.single hbc)

theorem Ordered.idxOf_lt (ho : Ordered bctx st) (hnodup : st.finishedQueue.Nodup)
    (hc : c ∈ st.finishedQueue) (hpath : Relation.TransGen (Feeds bctx) b c) :
    b ∈ st.finishedQueue ∧ st.finishedQueue.idxOf b < st.finishedQueue.idxOf c := by
  have hstep {b c : ℕ} (hc : c ∈ st.finishedQueue) (hbc : Feeds bctx b c) :
      b ∈ st.finishedQueue ∧ st.finishedQueue.idxOf b < st.finishedQueue.idxOf c := by
    obtain ⟨before, after, heq⟩ := List.append_of_mem hc
    have hmem := (ho before c after heq b hbc).1
    rw [heq] at hnodup ⊢
    have hnot : c ∉ before := fun hcb =>
      (List.nodup_append.mp hnodup).2.2 c hcb c List.mem_cons_self rfl
    refine ⟨List.mem_append_left _ hmem, ?_⟩
    rw [List.idxOf_append_of_mem hmem, List.idxOf_append_of_notMem hnot, List.idxOf_cons_self]
    exact (List.idxOf_lt_length_iff.mpr hmem).trans_le (Nat.le_add_right _ _)
  induction hpath using Relation.TransGen.head_induction_on with
  | single hbc => exact hstep hc hbc
  | head hab _ ih => exact ⟨(hstep ih.1 hab).1, (hstep ih.1 hab).2.trans ih.2⟩

theorem Queued.subCmds_ne_nil (hq : Queued bctx usePrepareCommands st)
    (hb : b ∈ st.waitingQueue) : bctx.subCmds usePrepareCommands b ≠ [] := by
  obtain ⟨hmem, hcur⟩ := hq.commands b hb
  rw [hq.currentCommand, setup] at hcur
  dsimp only at hcur
  rwa [if_pos hmem] at hcur

theorem Queued.mem_of_feeds (hq : Queued bctx usePrepareCommands st) (hc : c ∈ st.waitingQueue)
    (hbc : Feeds bctx b c) (hsub : bctx.subCmds usePrepareCommands b ≠ []) :
    b ∈ st.waitingQueue := by
  refine hq.closed c hc b ⟨hbc, ?_⟩
  obtain ⟨f, -, hmade⟩ := hbc
  rw [hq.currentCommand, setup]
  dsimp only
  rwa [if_pos (setBuildCmdInFiles_some hmade).1]

/-- Where nothing can go on, some command is blocked for ever. -/
theorem Stuck.blocked_targets {r : State} (hq : Queued bctx usePrepareCommands st)
    (hs : Sound bctx st.waitingQueue [] [] false r) (hstuck : Stuck r) :
    Blocked bctx usePrepareCommands st.waitingQueue := by
  have hperm := hs.placed.perm
  rw [hstuck.runningQueue, List.nil_append, List.append_nil, List.append_nil] at hperm
  by_contra hnot
  have hbefore : ∀ c ∈ r.waitingQueue, ∃ b ∈ r.waitingQueue, Feeds bctx b c := by
    intro c hc
    have hct : c ∈ st.waitingQueue := hperm.mem_iff.mp (List.mem_append_left _ hc)
    have hblocking := hstuck.blocked c hc
    rw [hs.inv.blockingFiles c hct, ne_eq, List.countP_eq_zero] at hblocking
    push Not at hblocking
    obtain ⟨f, hf, hpending⟩ := hblocking
    obtain ⟨b, hmade, hdone⟩ := exists_of_pending hpending
    have hbc : Feeds bctx b c := ⟨f, hf, hmade⟩
    have hsub : bctx.subCmds usePrepareCommands b ≠ [] := fun h =>
      hnot ⟨c, hct, Or.inl ⟨b, hbc, h⟩⟩
    refine ⟨b, ?_, hbc⟩
    rcases List.mem_append.mp (hperm.mem_iff.mpr (hq.mem_of_feeds hct hbc hsub)) with hb | hb
    · exact hb
    · exact absurd ⟨hb, (hs.placed.clean rfl).2 b hb⟩ hdone
  obtain ⟨c, hc, hcircle⟩ := exists_circle hstuck.waitingQueue hbefore
  exact hnot ⟨c, hperm.mem_iff.mp (List.mem_append_left _ hc), Or.inr hcircle⟩

/-- The run reports circular dependencies only for commands that are blocked for ever, and it never
succeeds with such commands. -/
theorem run_circular (hp : SingleProducer bctx) {maxConcurrentJobs : ℤ}
    (hmax : 0 < maxConcurrentJobs) (usePrepareCommands : Bool) (builderName : CString)
    (ws : List World) :
    ∃ st r, fillWaitingQueue bctx builderName (setup bctx usePrepareCommands) = some st ∧
      run bctx maxConcurrentJobs usePrepareCommands builderName ws = some r ∧
      (r.2 = .circular → Blocked bctx usePrepareCommands st.waitingQueue) ∧
      (r.2 = .ok → ¬ Blocked bctx usePrepareCommands st.waitingQueue) := by
  obtain ⟨st, r, hfill, hrun, hq, hends⟩ :=
    run_ends hp maxConcurrentJobs usePrepareCommands builderName ws
  refine ⟨st, r, hfill, hrun, fun hcircular => ?_, fun hok hblocked => ?_⟩
  · have hs := hends.sound_of_ne (by rw [hcircular]; exact nofun)
    exact (hends.circular hcircular hmax).blocked_targets hq hs
  · have hs := hends.sound_of_ne (by rw [hok]; exact nofun)
    have hperm := hs.placed.perm
    rw [(hends.ok hok).1, (hends.ok hok).2, List.nil_append, List.nil_append, List.append_nil,
      List.nil_append] at hperm
    obtain ⟨c, hc, ⟨b, hbc, hsub⟩ | hcircle⟩ := hblocked
    · obtain ⟨before, after, heq⟩ := List.append_of_mem (hperm.mem_iff.mpr hc)
      have hb := (hs.inv.ordered before c after heq b hbc).1
      refine hq.subCmds_ne_nil (hperm.mem_iff.mp ?_) hsub
      rw [heq]
      exact List.mem_append_left _ hb
    · have hlt := hs.inv.ordered.idxOf_lt (hperm.nodup_iff.mpr hq.nodup) (hperm.mem_iff.mpr hc)
        hcircle
      exact lt_irrefl _ hlt.2

/-- A program and a library, each of which reads a file that the other one makes. -/
def circleContext : Context :=
  { cmd := fun n => { sampleCmd n with inFiles := [1 - n] }, commandList := [1, 0] }

theorem run_circular_circle :
    ∃ st r, fillWaitingQueue circleContext (ofBytes []) (setup circleContext false) =
        some st ∧ run circleContext 1 false (ofBytes []) [sampleWorld] = some r ∧
      r.2 = .circular ∧ Blocked circleContext false st.waitingQueue := by
  obtain ⟨st, r, hfill, hrun, hcircular, -⟩ := @run_circular circleContext
    ⟨by decide, by decide⟩ 1 Int.one_pos false (ofBytes []) [sampleWorld]
  have hverdict : (run circleContext 1 false (ofBytes []) [sampleWorld]).map Prod.snd =
      some .circular := by decide
  rw [hrun, Option.map_some, Option.some.injEq] at hverdict
  exact ⟨st, r, hfill, hrun, hverdict, hcircular hverdict⟩

end
end Gwenhywfar.Build
