import Gwenhywfar.Base.CString
import Mathlib.Data.List.Count
import Mathlib.Data.List.Nodup
import Mathlib.Data.List.Perm.Basic
import Mathlib.Logic.Relation
import Mathlib.Logic.Function.Basic
import Mathlib.Tactic.Common

/-! # The dependencies of a build

* `fillWaitingQueue`: the commands of a builder and all commands that produce files for them are
  put in a queue; each file that is produced counts as blocking for the commands that read it.
* `Grows`: what is added, with the pairs of a command and a file it waits for.
* `fillWaitingQueue_spec`: the queue is closed under producers, whether there are circles among
  the commands or not, and every count is the number of the files that are waited for. -/

namespace Gwenhywfar.Build

open Function

/-! ### Commands and files -/

/-- `GWB_BUILD_SUBCMD`. -/
structure SubCmd where
  command : CString
  ignoreResult : Bool
  checkDepends : Bool
deriving DecidableEq

/-- `GWB_BUILD_CMD`, with the numbers of its files. -/
structure BuildCmd where
  builderName : Option CString
  auto : Bool
  checkDates : Bool
  inFiles : List ℕ
  outFiles : List ℕ
  prepareCommands : List SubCmd
  buildCommands : List SubCmd

/-- What a run does not change of `GWB_BUILD_CONTEXT`. -/
structure Context where
  cmd : ℕ → BuildCmd
  commandList : List ℕ

/-- What a run changes.  The current command is there with the commands behind it. -/
structure State where
  blockingFiles : ℕ → ℕ
  currentCommand : ℕ → List SubCmd
  waitingBuildCmds : ℕ → List ℕ
  waitingQueue : List ℕ
  runningQueue : List ℕ
  finishedQueue : List ℕ

/-- `_fileListSetBuildCmd`. -/
def fileListSetBuildCmd (fileList : List ℕ) (bcmd : ℕ) (buildCmd : ℕ → Option ℕ) : ℕ → Option ℕ :=
  fileList.foldl (fun m file => update m file (some bcmd)) buildCmd

/-- `_setBuildCmdInFiles`: the commands that the files are made by. -/
def setBuildCmdInFiles (bctx : Context) : ℕ → Option ℕ :=
  bctx.commandList.foldl (fun m bcmd => fileListSetBuildCmd (bctx.cmd bcmd).outFiles bcmd m)
    fun _ => none

def Context.subCmds (bctx : Context) (forPrepareCommands : Bool) (bcmd : ℕ) : List SubCmd :=
  if forPrepareCommands then (bctx.cmd bcmd).prepareCommands else (bctx.cmd bcmd).buildCommands

/-- `_clearDeps`, `_setupCommands` and `_createCommandQueues`. -/
def setup (bctx : Context) (forPrepareCommands : Bool) : State where
  blockingFiles := fun _ => 0
  currentCommand := fun bcmd =>
    if bcmd ∈ bctx.commandList then bctx.subCmds forPrepareCommands bcmd else []
  waitingBuildCmds := fun _ => []
  waitingQueue := []
  runningQueue := []
  finishedQueue := []

/-- A command waits for a file: `GWB_File_AddWaitingBuildCmd` and `GWB_BuildCmd_IncBlockingFiles`. -/
def State.addWaiting (st : State) (file bcmd : ℕ) : State :=
  { st with
    waitingBuildCmds := update st.waitingBuildCmds file (st.waitingBuildCmds file ++ [bcmd])
    blockingFiles := update st.blockingFiles bcmd (st.blockingFiles bcmd + 1) }

def State.pushWaiting (st : State) (bcmd : ℕ) : State :=
  { st with waitingQueue := st.waitingQueue ++ [bcmd] }

def setupDepsLoop (bctx : Context) (rec : ℕ → State → Option State) (bcmd : ℕ) :
    List ℕ → State → Option State
  | [], st => some st
  | file :: files, st =>
      match setBuildCmdInFiles bctx file with
      | none => setupDepsLoop bctx rec bcmd files st
      | some fileBuildCmd =>
          let st := st.addWaiting file bcmd
          if fileBuildCmd ∈ st.waitingQueue ∨ st.currentCommand fileBuildCmd = [] then
            setupDepsLoop bctx rec bcmd files st
          else (rec fileBuildCmd (st.pushWaiting fileBuildCmd)).bind
            (setupDepsLoop bctx rec bcmd files)

/-- `_setupDepsForCmd`, with the depth of the recursion. -/
def setupDepsForCmd (bctx : Context) : (depth : ℕ) → ℕ → State → Option State
  | 0, _, _ => none
  | k + 1, bcmd, st =>
      setupDepsLoop bctx (setupDepsForCmd bctx k) bcmd (bctx.cmd bcmd).inFiles st

/-- The commands that are asked for: those of the builder, or those with the flag AUTO. -/
def Context.selects (bctx : Context) (builderName : CString) (bcmd : ℕ) : Bool :=
  if builderName.bytes = [] then (bctx.cmd bcmd).auto
  else (bctx.cmd bcmd).builderName.any fun s => strcaseEq s builderName

/-- The loop over the commands of `GWB_BuildCtx_AddBuildCmdsByBuilderNameToList`. -/
def addBuildCmdsByBuilderName (bctx : Context) (builderName : CString) :
    List ℕ → State → Option State
  | [], st => some st
  | bcmd :: cmds, st =>
      if bctx.selects builderName bcmd = true ∧ bcmd ∉ st.waitingQueue ∧
          st.currentCommand bcmd ≠ [] then
        (setupDepsForCmd bctx (bctx.commandList.length + 1) bcmd (st.pushWaiting bcmd)).bind
          (addBuildCmdsByBuilderName bctx builderName cmds)
      else addBuildCmdsByBuilderName bctx builderName cmds st

/-- `GWB_BuildCtx_FillWaitingQueue`. -/
def fillWaitingQueue (bctx : Context) (builderName : CString) (st : State) : Option State :=
  addBuildCmdsByBuilderName bctx builderName bctx.commandList st

/-! ### Producers -/

section
variable {bctx : Context} {b c f : ℕ} {cs : List ℕ} {m : ℕ → Option ℕ}

theorem fileListSetBuildCmd_eq : ∀ (fileList : List ℕ) (m : ℕ → Option ℕ),
    fileListSetBuildCmd fileList b m f = if f ∈ fileList then some b else m f
  | [], m => (if_neg List.not_mem_nil).symm
  | g :: fileList, m => by
      have ih := fileListSetBuildCmd_eq fileList (update m g (some b))
      rw [fileListSetBuildCmd] at ih ⊢
      rw [List.foldl_cons, ih]
      by_cases hmem : f ∈ fileList
      · rw [if_pos hmem, if_pos (List.mem_cons_of_mem g hmem)]
      · rw [if_neg hmem, update_apply]
        simp only [List.mem_cons, hmem, or_false]

/-- A file is made by a command that lists it, and every file that is listed is made. -/
theorem setBuildCmd_foldl : ∀ (cs : List ℕ) (m : ℕ → Option ℕ),
    let m' := cs.foldl (fun m bcmd => fileListSetBuildCmd (bctx.cmd bcmd).outFiles bcmd m) m
    (m' f = some b → m f = some b ∨ b ∈ cs ∧ f ∈ (bctx.cmd b).outFiles) ∧
      (∀ c ∈ cs, f ∈ (bctx.cmd c).outFiles → m' f ≠ none) ∧ (m f ≠ none → m' f ≠ none)
  | [], m => ⟨Or.inl, fun c hc => absurd hc List.not_mem_nil, id⟩
  | c :: cs, m => by
      obtain ⟨hmade, hlisted, hkept⟩ :=
        setBuildCmd_foldl cs (fileListSetBuildCmd (bctx.cmd c).outFiles c m)
      refine ⟨fun h => ?_, fun d hd hf => ?_, fun h => hkept ?_⟩
      · rcases hmade h with hold | ⟨hb, hf⟩
        · rw [fileListSetBuildCmd_eq] at hold
          split at hold
          · next hf =>
              obtain rfl := Option.some.inj hold
              exact Or.inr ⟨List.mem_cons_self, hf⟩
          · exact Or.inl hold
        · exact Or.inr ⟨List.mem_cons_of_mem c hb, hf⟩
      · rcases List.mem_cons.mp hd with rfl | hd
        · refine hkept ?_
          rw [fileListSetBuildCmd_eq, if_pos hf]
          exact Option.some_ne_none d
        · exact hlisted d hd hf
      · rw [fileListSetBuildCmd_eq]
        split
        · exact Option.some_ne_none c
        · exact h

theorem setBuildCmdInFiles_some (h : setBuildCmdInFiles bctx f = some b) :
    b ∈ bctx.commandList ∧ f ∈ (bctx.cmd b).outFiles := by
  rcases (setBuildCmd_foldl bctx.commandList fun _ => none).1 h with hnone | hsome
  · cases hnone
  · exact hsome

/-- No file is made by two commands, or twice by one. -/
structure SingleProducer (bctx : Context) : Prop where
  nodup : ∀ c ∈ bctx.commandList, (bctx.cmd c).outFiles.Nodup
  unique : ∀ c ∈ bctx.commandList, ∀ d ∈ bctx.commandList, ∀ f ∈ (bctx.cmd c).outFiles,
    f ∈ (bctx.cmd d).outFiles → c = d

theorem SingleProducer.made_iff (hp : SingleProducer bctx) (hb : b ∈ bctx.commandList) :
    setBuildCmdInFiles bctx f = some b ↔ f ∈ (bctx.cmd b).outFiles := by
  refine ⟨fun h => (setBuildCmdInFiles_some h).2, fun hf => ?_⟩
  obtain ⟨c, hc⟩ := Option.ne_none_iff_exists'.mp
    ((setBuildCmd_foldl (f := f) (b := b) bctx.commandList fun _ => none).2.1 b hb hf)
  have hmade := setBuildCmdInFiles_some hc
  rw [← hp.unique c hmade.1 b hb f hmade.2 hf]
  exact hc

/-- One command makes a file that another one reads. -/
def Feeds (bctx : Context) (b c : ℕ) : Prop :=
  ∃ f ∈ (bctx.cmd c).inFiles, setBuildCmdInFiles bctx f = some b

def waits (bctx : Context) (bcmd : ℕ) : List (ℕ × ℕ) :=
  ((bctx.cmd bcmd).inFiles.filter fun f => (setBuildCmdInFiles bctx f).isSome).map (bcmd, ·)

/-! ### What is added -/

variable {st st' st'' : State} {new new' : List ℕ} {es es' : List (ℕ × ℕ)}

/-- Commands were put in the queue, and commands wait for files. -/
structure Grows (st st' : State) (new : List ℕ) (es : List (ℕ × ℕ)) : Prop where
  waitingQueue : st'.waitingQueue = st.waitingQueue ++ new
  blockingFiles : ∀ c, st'.blockingFiles c = st.blockingFiles c + es.countP (·.1 = c)
  waitingBuildCmds : ∀ c f,
    (st'.waitingBuildCmds f).count c = (st.waitingBuildCmds f).count c + es.count (c, f)
  currentCommand : st'.currentCommand = st.currentCommand
  runningQueue : st'.runningQueue = st.runningQueue
  finishedQueue : st'.finishedQueue = st.finishedQueue

theorem Grows.refl (st : State) : Grows st st [] [] :=
  ⟨(List.append_nil _).symm, fun _ => rfl, fun _ _ => rfl, rfl, rfl, rfl⟩

theorem Grows.trans (h : Grows st st' new es) (h' : Grows st' st'' new' es') :
    Grows st st'' (new ++ new') (es ++ es') where
  waitingQueue := by rw [h'.waitingQueue, h.waitingQueue, List.append_assoc]
  blockingFiles c := by
    rw [h'.blockingFiles, h.blockingFiles, List.countP_append, Nat.add_assoc]
  waitingBuildCmds c f := by
    rw [h'.waitingBuildCmds, h.waitingBuildCmds, List.count_append, Nat.add_assoc]
  currentCommand := h'.currentCommand.trans h.currentCommand
  runningQueue := h'.runningQueue.trans h.runningQueue
  finishedQueue := h'.finishedQueue.trans h.finishedQueue

theorem grows_addWaiting (st : State) (f c : ℕ) : Grows st (st.addWaiting f c) [] [(c, f)] where
  waitingQueue := (List.append_nil _).symm
  blockingFiles d := by
    change update st.blockingFiles c (st.blockingFiles c + 1) d = _
    rw [update_apply, List.countP_singleton]
    by_cases h : d = c
    · simp [h]
    · simp [h, Ne.symm h]
  waitingBuildCmds d g := by
    change (update st.waitingBuildCmds f (st.waitingBuildCmds f ++ [c]) g).count d = _
    rw [update_apply, List.count_singleton]
    by_cases h : g = f
    · subst h
      rw [if_pos rfl, List.count_append, List.count_singleton]
      by_cases hd : c = d <;> simp [hd]
    · simp [h, Ne.symm h]
  currentCommand := rfl
  runningQueue := rfl
  finishedQueue := rfl

theorem grows_pushWaiting (st : State) (c : ℕ) : Grows st (st.pushWaiting c) [c] [] :=
  ⟨rfl, fun _ => rfl, fun _ _ => rfl, rfl, rfl, rfl⟩

/-! ### The queue -/

/-- A command makes a file that another one reads, and it has something to do. -/
def Supplies (bctx : Context) (st : State) (b c : ℕ) : Prop :=
  Feeds bctx b c ∧ st.currentCommand b ≠ []

/-- The commands that supply a command are in the queue. -/
def Closed (bctx : Context) (st : State) (c : ℕ) : Prop :=
  ∀ b, Supplies bctx st b c → b ∈ st.waitingQueue

/-- New commands were put in the queue together with everything they wait for, and a command that
was there already waits for some files, too. -/
structure Filled (bctx : Context) (st st' : State) (own : List (ℕ × ℕ)) (new : List ℕ) : Prop where
  grows : ∃ es, Grows st st' new es ∧ es.Perm (own ++ new.flatMap (waits bctx))
  nodup : st'.waitingQueue.Nodup
  commands : ∀ c ∈ new, c ∈ bctx.commandList ∧ st.currentCommand c ≠ []
  closed : ∀ c ∈ new, Closed bctx st' c

variable {own own' : List (ℕ × ℕ)} {k : ℕ}

theorem Filled.mem (h : Filled bctx st st' own new) (hc : c ∈ st.waitingQueue) :
    c ∈ st'.waitingQueue := by
  obtain ⟨es, hgrows, -⟩ := h.grows
  rw [hgrows.waitingQueue]
  exact List.mem_append_left new hc

theorem Filled.currentCommand (h : Filled bctx st st' own new) :
    st'.currentCommand = st.currentCommand := by
  obtain ⟨es, hgrows, -⟩ := h.grows
  exact hgrows.currentCommand

theorem Filled.supplies_eq (h : Filled bctx st st' own new) :
    Supplies bctx st' = Supplies bctx st := by
  funext b c
  rw [Supplies, Supplies, h.currentCommand]

theorem Filled.closed_mono (h : Filled bctx st st' own new) (hc : Closed bctx st c) :
    Closed bctx st' c := fun b hb => h.mem (hc b (h.supplies_eq ▸ hb))

theorem Filled.refl (hnodup : st.waitingQueue.Nodup) : Filled bctx st st [] [] :=
  ⟨⟨[], .refl st, .refl _⟩, hnodup, fun _ hc => absurd hc List.not_mem_nil,
    fun _ hc => absurd hc List.not_mem_nil⟩

theorem Filled.trans (h : Filled bctx st st' own new) (h' : Filled bctx st' st'' own' new') :
    Filled bctx st st'' (own ++ own') (new ++ new') := by
  obtain ⟨es, hgrows, hperm⟩ := h.grows
  obtain ⟨es', hgrows', hperm'⟩ := h'.grows
  refine ⟨⟨es ++ es', hgrows.trans hgrows', ?_⟩, h'.nodup, fun c hc => ?_, fun c hc => ?_⟩
  · calc (es ++ es').Perm
          ((own ++ new.flatMap (waits bctx)) ++ (own' ++ new'.flatMap (waits bctx))) :=
            hperm.append hperm'
      _ = own ++ (new.flatMap (waits bctx) ++ own') ++ new'.flatMap (waits bctx) := by
            simp only [List.append_assoc]
      List.Perm _ (own ++ (own' ++ new.flatMap (waits bctx)) ++ new'.flatMap (waits bctx)) :=
            (List.perm_append_comm.append_left own).append_right _
      _ = own ++ own' ++ (new ++ new').flatMap (waits bctx) := by
            simp only [List.append_assoc, List.flatMap_append]
  · rcases List.mem_append.mp hc with hc | hc
    · exact h.commands c hc
    · rw [← h.currentCommand]
      exact h'.commands c hc
  · rcases List.mem_append.mp hc with hc | hc
    · exact h'.closed_mono (h.closed c hc)
    · exact h'.closed c hc

theorem filled_addWaiting (hnodup : st.waitingQueue.Nodup) :
    Filled bctx st (st.addWaiting f c) [(c, f)] [] :=
  ⟨⟨_, grows_addWaiting st f c, .refl _⟩, hnodup, fun _ hc => absurd hc List.not_mem_nil,
    fun _ hc => absurd hc List.not_mem_nil⟩

theorem Filled.pushed (h : Filled bctx (st.pushWaiting b) st' (waits bctx b) new)
    (hb : b ∈ bctx.commandList) (hcur : st.currentCommand b ≠ []) (hclosed : Closed bctx st' b) :
    Filled bctx st st' [] (b :: new) := by
  obtain ⟨es, hgrows, hperm⟩ := h.grows
  refine ⟨⟨es, (grows_pushWaiting st b).trans hgrows, hperm⟩, h.nodup, ?_, ?_⟩
  · exact List.forall_mem_cons.mpr ⟨⟨hb, hcur⟩, h.commands⟩
  · exact List.forall_mem_cons.mpr ⟨hclosed, h.closed⟩

def unqueued (bctx : Context) (st : State) : ℕ :=
  (bctx.commandList.filter (· ∉ st.waitingQueue)).length

theorem Filled.unqueued_le (h : Filled bctx st st' own new) : unqueued bctx st' ≤ unqueued bctx st :=
  List.Sublist.length_le (List.monotone_filter_right _ fun c hc => by
    rw [decide_eq_true_iff] at hc ⊢
    exact fun hmem => hc (h.mem hmem))

theorem unqueued_pushWaiting (hb : b ∈ bctx.commandList) (hmem : b ∉ st.waitingQueue) :
    unqueued bctx (st.pushWaiting b) < unqueued bctx st := by
  have heq : bctx.commandList.filter (· ∉ (st.pushWaiting b).waitingQueue) =
      (bctx.commandList.filter (· ∉ st.waitingQueue)).filter (· ≠ b) := by
    rw [List.filter_filter]
    refine List.filter_congr fun c _ => ?_
    simp [State.pushWaiting, and_comm]
  rw [unqueued, unqueued, heq]
  refine List.length_filter_lt_length_iff_exists.mpr ⟨b, ?_, by simp⟩
  exact List.mem_filter.mpr ⟨hb, decide_eq_true hmem⟩

theorem nodup_pushWaiting (hnodup : st.waitingQueue.Nodup) (hmem : b ∉ st.waitingQueue) :
    (st.pushWaiting b).waitingQueue.Nodup :=
  List.nodup_append.mpr ⟨hnodup, List.nodup_singleton b, fun c hc d hd heq => hmem (by
    rw [← List.mem_singleton.mp hd, ← heq]
    exact hc)⟩

/-- What the recursion does with a command: everything behind it is needed for it. -/
def SetsUp (bctx : Context) (k : ℕ) (rec : ℕ → State → Option State) : Prop :=
  ∀ (b : ℕ) (st : State), unqueued bctx st < k → st.waitingQueue.Nodup →
    ∃ st' new, rec b st = some st' ∧ Filled bctx st st' (waits bctx b) new ∧
      Closed bctx st' b ∧ ∀ c ∈ new, Relation.TransGen (Supplies bctx st) c b

theorem setupDepsLoop_spec {rec : ℕ → State → Option State} (hrec : SetsUp bctx k rec) :
    ∀ (files : List ℕ) (st : State), (∀ f ∈ files, f ∈ (bctx.cmd c).inFiles) →
    unqueued bctx st < k + 1 → st.waitingQueue.Nodup →
    ∃ st' new, setupDepsLoop bctx rec c files st = some st' ∧
      Filled bctx st st'
        ((files.filter fun f => (setBuildCmdInFiles bctx f).isSome).map (c, ·)) new ∧
      (∀ f ∈ files, ∀ b, setBuildCmdInFiles bctx f = some b → st'.currentCommand b ≠ [] →
        b ∈ st'.waitingQueue) ∧
      ∀ d ∈ new, Relation.TransGen (Supplies bctx st) d c
  | [], st, _, _, hnodup => ⟨st, [], rfl, .refl hnodup, fun _ hf => absurd hf List.not_mem_nil,
      fun _ hd => absurd hd List.not_mem_nil⟩
  | f :: files, st, hfiles, hk, hnodup => by
      rw [List.forall_mem_cons] at hfiles
      have ih := setupDepsLoop_spec hrec files
      rw [setupDepsLoop]
      cases hmade : setBuildCmdInFiles bctx f with
      | none =>
          obtain ⟨st', new, hrun, hfilled, hclosed, hneeded⟩ := ih st hfiles.2 hk hnodup
          refine ⟨st', new, hrun, ?_, List.forall_mem_cons.mpr ⟨?_, hclosed⟩, hneeded⟩
          · rw [List.filter_cons_of_neg (by rw [hmade]; exact Bool.false_ne_true)]
            exact hfilled
          · rw [hmade]
            exact fun b hb => nomatch hb
      | some b =>
          have hadd : Filled bctx st (st.addWaiting f c) [(c, f)] [] := filled_addWaiting hnodup
          have hpairs : (f :: files).filter (fun f => (setBuildCmdInFiles bctx f).isSome) =
              f :: files.filter fun f => (setBuildCmdInFiles bctx f).isSome :=
            List.filter_cons_of_pos (by rw [hmade]; rfl)
          have hb := (setBuildCmdInFiles_some hmade).1
          dsimp only
          rw [hpairs, List.map_cons]
          by_cases hstop : b ∈ (st.addWaiting f c).waitingQueue ∨
              (st.addWaiting f c).currentCommand b = []
          · rw [if_pos hstop]
            obtain ⟨st', new, hrun, hfilled, hclosed, hneeded⟩ :=
              ih (st.addWaiting f c) hfiles.2 hk hadd.nodup
            refine ⟨st', new, hrun, hadd.trans hfilled, List.forall_mem_cons.mpr ⟨?_, hclosed⟩,
              hneeded⟩
            intro d hd hcur
            obtain rfl := Option.some.inj (hmade.symm.trans hd)
            rw [hfilled.currentCommand] at hcur
            exact hfilled.mem (hstop.resolve_right hcur)
          · rw [if_neg hstop]
            rw [not_or] at hstop
            have hleft := unqueued_pushWaiting hb hstop.1
            obtain ⟨st1, new1, hrun1, hfilled1, hclosed1, hneeded1⟩ :=
              hrec b ((st.addWaiting f c).pushWaiting b)
                (lt_of_lt_of_le hleft (Nat.lt_succ_iff.mp hk))
                (nodup_pushWaiting hnodup hstop.1)
            have hpushed := hfilled1.pushed hb hstop.2 hclosed1
            obtain ⟨st', new, hrun, hfilled, hclosed, hneeded⟩ :=
              ih st1 hfiles.2 (lt_of_le_of_lt hpushed.unqueued_le hk) hfilled1.nodup
            have hsupplies : Supplies bctx st b c := ⟨⟨f, hfiles.1, hmade⟩, hstop.2⟩
            refine ⟨st', (b :: new1) ++ new, by rw [hrun1]; exact hrun,
              hadd.trans (hpushed.trans hfilled), List.forall_mem_cons.mpr ⟨?_, hclosed⟩, ?_⟩
            · intro d hd _
              obtain rfl := Option.some.inj (hmade.symm.trans hd)
              refine hfilled.mem (hfilled1.mem ?_)
              exact List.mem_append_right _ (List.mem_singleton_self b)
            · intro d hd
              rcases List.mem_append.mp hd with hd | hd
              · rcases List.mem_cons.mp hd with rfl | hd
                · exact .single hsupplies
                · exact .tail (hneeded1 d hd) hsupplies
              · have hd := hneeded d hd
                rwa [hpushed.supplies_eq] at hd

theorem setupDepsForCmd_spec : ∀ k : ℕ, SetsUp bctx k (setupDepsForCmd bctx k)
  | 0, _, _, hk, _ => absurd hk (Nat.not_lt_zero _)
  | k + 1, c, st, hk, hnodup => by
      obtain ⟨st', new, hrun, hfilled, hclosed, hneeded⟩ := setupDepsLoop_spec
        (setupDepsForCmd_spec k) (bctx.cmd c).inFiles st (fun _ hf => hf) hk hnodup
      refine ⟨st', new, hrun, hfilled, ?_, hneeded⟩
      rintro b ⟨⟨f, hf, hmade⟩, hcur⟩
      exact hclosed f hf b hmade hcur

theorem addBuildCmds_spec (builderName : CString) : ∀ (cmds : List ℕ) (st : State),
    (∀ c ∈ cmds, c ∈ bctx.commandList) → st.waitingQueue.Nodup →
    ∃ st' new, addBuildCmdsByBuilderName bctx builderName cmds st = some st' ∧
      Filled bctx st st' [] new ∧
      (∀ c ∈ cmds, bctx.selects builderName c = true → st.currentCommand c ≠ [] →
        c ∈ st'.waitingQueue) ∧
      ∀ d ∈ new, ∃ c ∈ cmds, bctx.selects builderName c = true ∧ st.currentCommand c ≠ [] ∧
        Relation.ReflTransGen (Supplies bctx st) d c
  | [], st, _, hnodup => ⟨st, [], rfl, .refl hnodup, fun _ hc => absurd hc List.not_mem_nil,
      fun _ hd => absurd hd List.not_mem_nil⟩
  | c :: cmds, st, hcmds, hnodup => by
      rw [List.forall_mem_cons] at hcmds
      have ih := addBuildCmds_spec builderName cmds
      rw [addBuildCmdsByBuilderName]
      by_cases hadd : bctx.selects builderName c = true ∧ c ∉ st.waitingQueue ∧
          st.currentCommand c ≠ []
      · obtain ⟨hselects, hmem, hcur⟩ := hadd
        rw [if_pos ⟨hselects, hmem, hcur⟩]
        have hdepth : unqueued bctx (st.pushWaiting c) < bctx.commandList.length + 1 :=
          Nat.lt_succ_of_le (List.length_filter_le _ _)
        obtain ⟨st1, new1, hrun1, hfilled1, hclosed1, hneeded1⟩ := setupDepsForCmd_spec _ c
          (st.pushWaiting c) hdepth (nodup_pushWaiting hnodup hmem)
        have hpushed := hfilled1.pushed hcmds.1 hcur hclosed1
        obtain ⟨st', new, hrun, hfilled, hselected, hneeded⟩ := ih st1 hcmds.2 hfilled1.nodup
        refine ⟨st', (c :: new1) ++ new, by rw [hrun1]; exact hrun, hpushed.trans hfilled,
          List.forall_mem_cons.mpr ⟨fun _ _ => ?_, ?_⟩, ?_⟩
        · exact hfilled.mem (hfilled1.mem (List.mem_append_right _ (List.mem_singleton_self c)))
        · rw [hpushed.currentCommand] at hselected
          exact hselected
        · intro d hd
          rcases List.mem_append.mp hd with hd | hd
          · refine ⟨c, List.mem_cons_self, hselects, hcur, ?_⟩
            rcases List.mem_cons.mp hd with rfl | hd
            · exact .refl
            · exact (hneeded1 d hd).to_reflTransGen
          · obtain ⟨a, ha, hsel, hacur, hpath⟩ := hneeded d hd
            rw [hpushed.currentCommand] at hacur
            rw [hpushed.supplies_eq] at hpath
            exact ⟨a, List.mem_cons_of_mem c ha, hsel, hacur, hpath⟩
      · rw [if_neg hadd]
        obtain ⟨st', new, hrun, hfilled, hselected, hneeded⟩ := ih st hcmds.2 hnodup
        refine ⟨st', new, hrun, hfilled, List.forall_mem_cons.mpr ⟨fun hsel hcur => ?_, hselected⟩,
          ?_⟩
        · by_contra hnot
          exact hadd ⟨hsel, fun hmem => hnot (hfilled.mem hmem), hcur⟩
        · intro d hd
          obtain ⟨a, ha, hrest⟩ := hneeded d hd
          exact ⟨a, List.mem_cons_of_mem c ha, hrest⟩

variable {forPrepareCommands : Bool} {builderName : CString}

/-- The state in which a run begins: every command of the queue waits for the files that are
made for it. -/
structure Queued (bctx : Context) (forPrepareCommands : Bool) (st : State) : Prop where
  nodup : st.waitingQueue.Nodup
  commands : ∀ c ∈ st.waitingQueue, c ∈ bctx.commandList ∧ st.currentCommand c ≠ []
  closed : ∀ c ∈ st.waitingQueue, Closed bctx st c
  blockingFiles : ∀ c ∈ st.waitingQueue, st.blockingFiles c =
    (bctx.cmd c).inFiles.countP fun f => (setBuildCmdInFiles bctx f).isSome
  waitingBuildCmds : ∀ c f, (setBuildCmdInFiles bctx f).isSome →
    (st.waitingBuildCmds f).count c =
      if c ∈ st.waitingQueue then (bctx.cmd c).inFiles.count f else 0
  currentCommand : st.currentCommand = (setup bctx forPrepareCommands).currentCommand
  runningQueue : st.runningQueue = []
  finishedQueue : st.finishedQueue = []

theorem countP_waits (c d : ℕ) : (waits bctx d).countP (·.1 = c) =
    if d = c then (bctx.cmd d).inFiles.countP fun f => (setBuildCmdInFiles bctx f).isSome else 0 := by
  rw [waits, List.countP_map]
  by_cases h : d = c
  · rw [if_pos h, List.countP_eq_length_filter (l := (bctx.cmd d).inFiles)]
    exact List.countP_eq_length.mpr fun _ _ => decide_eq_true h
  · rw [if_neg h]
    exact List.countP_eq_zero.mpr fun _ _ hc => h (of_decide_eq_true hc)

theorem count_waits (c d : ℕ) (hf : (setBuildCmdInFiles bctx f).isSome) :
    (waits bctx d).count (c, f) = if d = c then (bctx.cmd d).inFiles.count f else 0 := by
  rw [waits]
  by_cases h : d = c
  · subst h
    rw [if_pos rfl, List.count_map_of_injective _ _ (Prod.mk_right_injective d)]
    exact List.count_filter (p := fun f => (setBuildCmdInFiles bctx f).isSome) hf
  · rw [if_neg h]
    refine List.count_eq_zero.mpr fun hmem => ?_
    obtain ⟨g, -, hg⟩ := List.mem_map.mp hmem
    exact h (Prod.mk.inj hg).1

theorem sum_of_nodup {g : ℕ → ℕ} : ∀ {cs : List ℕ}, cs.Nodup →
    (cs.map fun d => if d = c then g d else 0).sum = if c ∈ cs then g c else 0
  | [], _ => (if_neg List.not_mem_nil).symm
  | d :: cs, hnodup => by
      rw [List.nodup_cons] at hnodup
      rw [List.map_cons, List.sum_cons, sum_of_nodup hnodup.2]
      by_cases h : d = c
      · subst h
        rw [if_pos rfl, if_neg hnodup.1, if_pos List.mem_cons_self, Nat.add_zero]
      · rw [if_neg h, Nat.zero_add]
        simp only [List.mem_cons, Ne.symm h, false_or]

/-- Filling the queue always comes to an end.  The queue then has the commands that are asked for
and those that supply them over any number of files, each of them once, and nothing else. -/
theorem fillWaitingQueue_closed (bctx : Context) (forPrepareCommands : Bool)
    (builderName : CString) :
    ∃ st, fillWaitingQueue bctx builderName (setup bctx forPrepareCommands) = some st ∧
      Queued bctx forPrepareCommands st ∧ ∀ c, c ∈ st.waitingQueue ↔ ∃ root ∈ bctx.commandList,
        bctx.selects builderName root = true ∧ bctx.subCmds forPrepareCommands root ≠ [] ∧
          Relation.ReflTransGen (Supplies bctx (setup bctx forPrepareCommands)) c root := by
  obtain ⟨st, new, hrun, hfilled, hselected, hneeded⟩ := addBuildCmds_spec
    builderName bctx.commandList (setup bctx forPrepareCommands)
    (fun _ hc => hc) List.nodup_nil
  obtain ⟨es, hgrows, hperm⟩ := hfilled.grows
  have hqueue : st.waitingQueue = new := hgrows.waitingQueue
  have hcurrent {c : ℕ} (hc : c ∈ bctx.commandList) :
      (setup bctx forPrepareCommands).currentCommand c = bctx.subCmds forPrepareCommands c :=
    if_pos hc
  have hnodup := hfilled.nodup
  refine ⟨st, hrun, ?_, fun c => ⟨fun hc => ?_, ?_⟩⟩
  · refine ⟨hnodup, fun c hc => ?_, fun c hc => hfilled.closed c (hqueue ▸ hc), fun c hc => ?_,
      fun c f hf => ?_, hfilled.currentCommand, hgrows.runningQueue, hgrows.finishedQueue⟩
    · rw [hfilled.currentCommand]
      exact hfilled.commands c (hqueue ▸ hc)
    · rw [hgrows.blockingFiles, hperm.countP_eq, List.nil_append, List.countP_flatMap]
      rw [hqueue] at hnodup hc
      have hsum := sum_of_nodup (c := c) (g := fun d => (bctx.cmd d).inFiles.countP fun f =>
        (setBuildCmdInFiles bctx f).isSome) hnodup
      rw [if_pos hc] at hsum
      rw [← hsum]
      exact (Nat.zero_add _).trans (congrArg List.sum
        (List.map_congr_left fun d _ => countP_waits c d))
    · rw [hgrows.waitingBuildCmds, hperm.count_eq, List.nil_append, List.count_flatMap]
      rw [hqueue] at hnodup ⊢
      rw [← sum_of_nodup (c := c) (g := fun d => (bctx.cmd d).inFiles.count f) hnodup]
      exact (Nat.zero_add _).trans (congrArg List.sum
        (List.map_congr_left fun d _ => count_waits c d hf))
  · obtain ⟨root, hroot, hsel, hcur, hpath⟩ := hneeded c (hqueue ▸ hc)
    rw [hcurrent hroot] at hcur
    exact ⟨root, hroot, hsel, hcur, hpath⟩
  · rintro ⟨root, hroot, hsel, hcur, hpath⟩
    rw [← hcurrent hroot] at hcur
    have hmem := hselected root hroot hsel hcur
    induction hpath using Relation.ReflTransGen.head_induction_on with
    | refl => exact hmem
    | head hstep _ ih =>
        rw [← hfilled.supplies_eq] at hstep
        exact hfilled.closed _ (hqueue ▸ ih) _ hstep

end
end Gwenhywfar.Build
