import Gwenhywfar.Base.CString
import Gwenhywfar.Base.Error

/-! # The members of an archive

* `SarAnswers`: what the functions for digests, archives and files answer for one member.
* `extractFile`: `GWEN_Sar_ExtractAndDigestFile` for the three kinds of members, with what it does
  to the files.
* `processArchive`: the loops of `GWEN_Sar_CheckArchive` and `GWEN_Sar__UnpackArchive`; there is no
  outcome where the archive is used after it was released.
* `reportsBad_iff`: a failing member ends neither loop, a directory is removed also by a check, and
  a file with a wrong hash is left. -/

namespace Gwenhywfar.Sar

/-! ### Members -/

/-- `GWEN_SarFileHeader_FType`. -/
inductive FileType
  | file
  | dir
  | symLink
  | unknown
  deriving DecidableEq

/-- `GWEN_SAR_FILEHEADER`, as far as it decides which functions are called. -/
structure FileHeader where
  fileType : FileType
  headerSize : ℕ
  fileSize : ℕ
  dataSize : ℕ
  hashPos : ℕ

/-- The answers of the functions that are called for a member; `copy` is how the loop over its data
ends. -/
structure SarAnswers where
  digestBegin : ℤ
  seekHeader : ℤ
  readHeader : ℤ
  digestHeader : ℤ
  connect : ℤ
  seekData : ℤ
  copy : ℤ
  readData : ℤ
  digestData : ℤ
  symlink : Bool
  digestEnd : ℤ
  seekHash : ℤ
  readHash : ℤ
  hashEqual : Bool
  mkdir : Bool

/-- What is done to the file of a member. -/
inductive FileOp
  | create
  | remove
  deriving DecidableEq

/-- The result for a member, what was done to its file, and whether the hashes were compared and
differ. -/
structure Extracted where
  rv : ℤ
  ops : List FileOp
  wrongHash : Bool
  deriving DecidableEq

/-- A result of an earlier step ends the function. -/
def Extracted.early (rv : ℤ) (ops : List FileOp) : Extracted := ⟨rv, ops, false⟩

def digestHead (fh : FileHeader) (a : SarAnswers) : ℤ :=
  if a.digestBegin < 0 then a.digestBegin
  else if fh.headerSize = 0 then 0
  else if a.seekHeader < 0 then a.seekHeader
  else if a.readHeader < 0 then a.readHeader
  else if a.digestHeader < 0 then a.digestHeader
  else 0

/-- The digest is ended and compared; `cleanup` is done where the hash cannot be read or differs. -/
def checkHash (fh : FileHeader) (a : SarAnswers) (ops cleanup : List FileOp) : Extracted :=
  if a.digestEnd < 0 then .early a.digestEnd ops
  else if fh.hashPos = 0 then .early 0 ops
  else if a.seekHash < 0 then .early a.seekHash ops
  else if a.readHash < 0 then .early a.readHash (ops ++ cleanup)
  else if !a.hashEqual then ⟨errorBadData, ops ++ cleanup, true⟩
  else .early 0 ops

/-- `GWEN_Sar_ExtractAndDigestFileReg`. -/
def extractFileReg (fh : FileHeader) (a : SarAnswers) (checkOnly : Bool) : Extracted :=
  let ops := if checkOnly then [] else [.create]
  if digestHead fh a < 0 then .early (digestHead fh a) []
  else if !checkOnly ∧ a.connect < 0 then .early a.connect []
  else if fh.fileSize ≠ 0 ∧ a.seekData < 0 then .early a.seekData ops
  else if fh.fileSize ≠ 0 ∧ a.copy < 0 then .early a.copy ops
  else checkHash fh a ops []

/-- `GWEN_Sar_ExtractAndDigestFileLink`. -/
def extractFileLink (fh : FileHeader) (a : SarAnswers) (checkOnly : Bool) : Extracted :=
  let ops := if checkOnly ∨ fh.dataSize = 0 then [] else [.create]
  if digestHead fh a < 0 then .early (digestHead fh a) []
  else if a.seekData < 0 then .early a.seekData []
  else if fh.dataSize ≠ 0 ∧ a.readData < 0 then .early a.readData []
  else if fh.dataSize ≠ 0 ∧ a.digestData < 0 then .early a.digestData []
  else if fh.dataSize ≠ 0 ∧ !checkOnly ∧ !a.symlink then .early errorIo []
  else checkHash fh a ops (if checkOnly then [] else [.remove])

/-- `GWEN_Sar_ExtractAndDigestFileDir`; a folder is created behind the comparison. -/
def extractFileDir (fh : FileHeader) (a : SarAnswers) (checkOnly : Bool) : Extracted :=
  if digestHead fh a < 0 then .early (digestHead fh a) []
  else
    let e := checkHash fh a [] [.remove]
    if e.rv < 0 ∨ checkOnly then e
    else if a.mkdir then .early 0 [.create]
    else .early errorIo []

/-- `GWEN_Sar_ExtractAndDigestFile`. -/
def extractFile (fh : FileHeader) (a : SarAnswers) (checkOnly : Bool) : Extracted :=
  match fh.fileType with
  | .file => extractFileReg fh a checkOnly
  | .dir => extractFileDir fh a checkOnly
  | .symLink => extractFileLink fh a checkOnly
  | .unknown => .early errorInvalid []

def leavesFile (ops : List FileOp) : Bool := ops.getLast? == some .create

/-! ### Archives -/

/-- A member with the answers for it, and what `GWEN_Gui_ProgressAdvance` answers behind it. -/
structure Entry where
  header : FileHeader
  answers : SarAnswers
  advance : ℤ

/-- An archive, and what the other functions answer for it. -/
structure Archive where
  opened : ℤ
  chdir : Bool
  entries : List Entry
  closed : ℤ

/-- The loop over the members; they that were touched are counted.  A member that fails releases the
archive, but the loop goes on with the next member of its list. -/
def memberLoop (checkOnly : Bool) (touched : ℕ) : List Entry → Option (ℤ × ℕ)
  | [] => some (0, touched)
  | e :: rest =>
      let released := (extractFile e.header e.answers checkOnly).rv < 0
      if released then
        -- `GWEN_Sar_CloseArchive` or `GWEN_SarFileHeader_List_Next`
        none
      else if e.advance < 0 then some (e.advance, touched + 1)
      else memberLoop checkOnly (touched + 1) rest

/-- `GWEN_Sar_CheckArchive`, and `GWEN_Sar__UnpackArchive` where it is no check. -/
def processArchive (checkOnly : Bool) (ar : Archive) : Option (ℤ × ℕ) :=
  if ar.opened < 0 then some (ar.opened, 0)
  else if !checkOnly ∧ !ar.chdir then some (errorIo, 0)
  else
    (memberLoop checkOnly 0 ar.entries).map fun r =>
      if r.1 < 0 then r else if ar.closed < 0 then (2, r.2) else (0, r.2)

/-! ### Members that fail -/

section
variable {fh : FileHeader} {a : SarAnswers} {checkOnly : Bool}

/-- The hash cannot be read, or it differs: the clean-up is done. -/
def Cleans (fh : FileHeader) (a : SarAnswers) : Prop :=
  0 ≤ digestHead fh a ∧ 0 ≤ a.digestEnd ∧ fh.hashPos ≠ 0 ∧ 0 ≤ a.seekHash ∧
    (a.readHash < 0 ∨ a.hashEqual = false)

def FileDiffers (fh : FileHeader) (a : SarAnswers) : Prop :=
  0 ≤ digestHead fh a ∧ 0 ≤ a.connect ∧ (fh.fileSize ≠ 0 → 0 ≤ a.seekData ∧ 0 ≤ a.copy) ∧
    0 ≤ a.digestEnd ∧ fh.hashPos ≠ 0 ∧ 0 ≤ a.seekHash ∧ 0 ≤ a.readHash ∧ a.hashEqual = false

theorem checkHash_ops (ops cleanup : List FileOp) :
    (checkHash fh a ops cleanup).ops = ops ∨ (checkHash fh a ops cleanup).ops = ops ++ cleanup := by
  unfold checkHash
  split_ifs <;> simp [Extracted.early]

theorem checkHash_wrongHash (ops cleanup : List FileOp) :
    (checkHash fh a ops cleanup).wrongHash = true ↔
      0 ≤ a.digestEnd ∧ fh.hashPos ≠ 0 ∧ 0 ≤ a.seekHash ∧ 0 ≤ a.readHash ∧ a.hashEqual = false := by
  unfold checkHash
  split_ifs <;> simp_all [Extracted.early]

theorem checkHash_ops_of_wrongHash {ops cleanup : List FileOp}
    (h : (checkHash fh a ops cleanup).wrongHash = true) :
    (checkHash fh a ops cleanup).ops = ops ++ cleanup := by
  unfold checkHash at h ⊢
  split_ifs at h ⊢ <;> simp_all [Extracted.early]

theorem checkHash_cleanup :
    (checkHash fh a [] [.remove]).ops = [] ↔ ¬(0 ≤ a.digestEnd ∧ fh.hashPos ≠ 0 ∧ 0 ≤ a.seekHash ∧
      (a.readHash < 0 ∨ a.hashEqual = false)) := by
  rw [checkHash]
  by_cases hend : a.digestEnd < 0
  · simp [hend, Extracted.early]
  by_cases hpos : fh.hashPos = 0
  · simp [hend, hpos, Extracted.early]
  by_cases hseek : a.seekHash < 0
  · simp [hend, hpos, hseek, Extracted.early]
  rw [if_neg hend, if_neg hpos, if_neg hseek]
  by_cases hread : a.readHash < 0
  · simp [hpos, hread, Extracted.early, not_lt.mp hend, not_lt.mp hseek]
  rw [if_neg hread]
  by_cases hequal : a.hashEqual = true
  · simp [hequal, hread, Extracted.early]
  · simp [hequal, hpos, not_lt.mp hend, not_lt.mp hseek]

/-- A check leaves the files alone, unless it cleans up for a directory. -/
theorem extractFile_check_iff :
    (extractFile fh a true).ops = [] ↔ ¬(fh.fileType = .dir ∧ Cleans fh a) := by
  have hnone : (checkHash fh a [] []).ops = [] := by
    simpa using @checkHash_ops fh a [] []
  unfold extractFile
  cases fh.fileType with
  | file =>
      refine iff_of_true ?_ (by simp)
      simp only [extractFileReg, if_true]
      split_ifs <;> first | rfl | exact hnone
  | symLink =>
      refine iff_of_true ?_ (by simp)
      simp only [extractFileLink, true_or, if_true]
      split_ifs <;> first | rfl | exact hnone
  | unknown => simp [Extracted.early]
  | dir =>
      rw [extractFileDir, Cleans]
      by_cases hhead : digestHead fh a < 0
      · simp [hhead, Extracted.early]
      · simp only [if_neg hhead, or_true, if_true, true_and]
        rw [checkHash_cleanup, and_iff_right (not_lt.mp hhead)]

@[simp] theorem early_wrongHash (rv : ℤ) (ops : List FileOp) :
    (Extracted.early rv ops).wrongHash = false := rfl

theorem extractFileReg_wrongHash :
    (extractFileReg fh a false).wrongHash = true ↔ FileDiffers fh a := by
  rw [extractFileReg, FileDiffers]
  by_cases h1 : digestHead fh a < 0
  · simp [h1, not_le.mpr h1]
  by_cases h2 : a.connect < 0
  · simp [h1, h2, not_le.mpr h2]
  by_cases h3 : fh.fileSize ≠ 0 ∧ a.seekData < 0
  · simp [h1, h2, h3.1, h3.2, not_le.mpr h3.2]
  by_cases h4 : fh.fileSize ≠ 0 ∧ a.copy < 0
  · simp [h1, h2, h4.1, h4.2, not_le.mpr h4.2]
    split_ifs <;> rfl
  · rw [if_neg h1, if_neg (fun h => h2 h.2), if_neg h3, if_neg h4, checkHash_wrongHash]
    have hdata : fh.fileSize ≠ 0 → 0 ≤ a.seekData ∧ 0 ≤ a.copy :=
      fun h => ⟨not_lt.mp fun hs => h3 ⟨h, hs⟩, not_lt.mp fun hc => h4 ⟨h, hc⟩⟩
    rw [and_iff_right (not_lt.mp h1), and_iff_right (not_lt.mp h2), and_iff_right hdata]

theorem extractFileReg_ops (h : (extractFileReg fh a false).wrongHash = true) :
    (extractFileReg fh a false).ops = [.create] := by
  have heq : extractFileReg fh a false = checkHash fh a [.create] [] := by
    rw [extractFileReg] at h ⊢
    simp only [Bool.false_eq_true, if_false] at h ⊢
    split_ifs at h ⊢ <;> first | rfl | cases h
  rw [heq] at h ⊢
  exact checkHash_ops_of_wrongHash h

theorem extractFileLink_ops (h : (extractFileLink fh a false).wrongHash = true) :
    leavesFile (extractFileLink fh a false).ops = false := by
  have heq : extractFileLink fh a false =
      checkHash fh a (if fh.dataSize = 0 then [] else [.create]) [.remove] := by
    rw [extractFileLink] at h ⊢
    simp only [Bool.false_eq_true, false_or, if_false] at h ⊢
    split_ifs at h ⊢ <;> first | rfl | cases h
  rw [heq] at h ⊢
  rw [checkHash_ops_of_wrongHash h, leavesFile, List.getLast?_concat]
  rfl

theorem extractFileDir_ops (h : (extractFileDir fh a false).wrongHash = true) :
    leavesFile (extractFileDir fh a false).ops = false := by
  have heq : extractFileDir fh a false = checkHash fh a [] [.remove] := by
    rw [extractFileDir] at h ⊢
    dsimp only at h ⊢
    split_ifs at h ⊢ <;> first | rfl | cases h
  rw [heq] at h ⊢
  rw [checkHash_ops_of_wrongHash h]
  rfl

theorem extractFile_wrongHash_iff :
    ((extractFile fh a false).wrongHash = true → leavesFile (extractFile fh a false).ops = false) ↔
      ¬(fh.fileType = .file ∧ FileDiffers fh a) := by
  unfold extractFile
  cases fh.fileType with
  | file =>
      dsimp only
      rw [← extractFileReg_wrongHash]
      constructor
      · rintro h ⟨-, hwrong⟩
        have := h hwrong
        rw [extractFileReg_ops hwrong] at this
        cases this
      · exact fun h hwrong => absurd ⟨rfl, hwrong⟩ h
  | symLink => simpa using extractFileLink_ops
  | unknown => simp
  | dir => simpa using extractFileDir_ops

/-- A member is reached if the progress was not aborted behind one before it. -/
def Reached (entries : List Entry) (e : Entry) : Prop :=
  ∃ front back, entries = front ++ e :: back ∧ ∀ d ∈ front, 0 ≤ d.advance

theorem reached_cons {d e : Entry} {entries : List Entry} :
    Reached (d :: entries) e ↔ e = d ∨ 0 ≤ d.advance ∧ Reached entries e := by
  constructor
  · rintro ⟨front, back, heq, hfront⟩
    cases front with
    | nil => exact Or.inl (List.cons.inj heq).1.symm
    | cons c front =>
        obtain ⟨rfl, rfl⟩ := List.cons.inj heq
        rw [List.forall_mem_cons] at hfront
        exact Or.inr ⟨hfront.1, front, back, rfl, hfront.2⟩
  · rintro (rfl | ⟨hd, front, back, rfl, hfront⟩)
    · exact ⟨[], entries, rfl, by simp⟩
    · exact ⟨d :: front, back, rfl, List.forall_mem_cons.mpr ⟨hd, hfront⟩⟩

/-- The result for a member. -/
def Entry.rv (checkOnly : Bool) (e : Entry) : ℤ := (extractFile e.header e.answers checkOnly).rv

theorem memberLoop_spec (touched : ℕ) (entries : List Entry)
    (h : ∀ e, Reached entries e → 0 ≤ e.rv checkOnly) :
    ∃ rv n, memberLoop checkOnly touched entries = some (rv, n) ∧
      (0 ≤ rv → rv = 0 ∧ n = touched + entries.length ∧ ∀ e ∈ entries, 0 ≤ e.rv checkOnly) := by
  induction entries generalizing touched with
  | nil => exact ⟨0, touched, rfl, by simp⟩
  | cons e entries ih =>
      have he := h e (reached_cons.mpr (Or.inl rfl))
      rw [Entry.rv] at he
      rw [memberLoop, if_neg (not_lt.mpr he)]
      by_cases hadvance : e.advance < 0
      · exact ⟨e.advance, touched + 1, by rw [if_pos hadvance], fun h0 => by omega⟩
      · obtain ⟨rv, n, hrun, hspec⟩ := ih (touched + 1) fun d hd =>
          h d (reached_cons.mpr (Or.inr ⟨not_lt.mp hadvance, hd⟩))
        refine ⟨rv, n, by rw [if_neg hadvance, hrun], fun h0 => ?_⟩
        obtain ⟨rfl, rfl, hall⟩ := hspec h0
        refine ⟨rfl, by rw [List.length_cons]; omega, List.forall_mem_cons.mpr ⟨he, hall⟩⟩

theorem memberLoop_of_failing (touched : ℕ) {entries : List Entry} {e : Entry}
    (hreach : Reached entries e) (he : e.rv checkOnly < 0) :
    memberLoop checkOnly touched entries = none := by
  induction entries generalizing touched with
  | nil =>
      obtain ⟨front, back, heq, -⟩ := hreach
      simp at heq
  | cons d entries ih =>
      rw [memberLoop]
      by_cases hd : (extractFile d.header d.answers checkOnly).rv < 0
      · rw [if_pos hd]
      · rcases reached_cons.mp hreach with rfl | ⟨hadvance, hreach⟩
        · exact absurd he hd
        · rw [if_neg hd, if_neg (not_lt.mpr hadvance), ih (touched + 1) hreach]

/-- The loop over the members is reached. -/
def Opens (checkOnly : Bool) (ar : Archive) : Prop :=
  0 ≤ ar.opened ∧ (checkOnly = false → ar.chdir = true)

/-- The archive is not used after its release, 0 is returned only if no member fails, no file is
created or removed by a check, and none with a wrong hash is left. -/
def ReportsBad (checkOnly : Bool) (ar : Archive) : Prop :=
  (∃ rv n, processArchive checkOnly ar = some (rv, n) ∧
      (rv = 0 → n = ar.entries.length ∧ ∀ e ∈ ar.entries, 0 ≤ e.rv checkOnly)) ∧
    ∀ e ∈ ar.entries, (extractFile e.header e.answers true).ops = [] ∧
      ((extractFile e.header e.answers false).wrongHash = true →
        leavesFile (extractFile e.header e.answers false).ops = false)

theorem reportsBad_iff (checkOnly : Bool) (ar : Archive) : ReportsBad checkOnly ar ↔
      (Opens checkOnly ar → ∀ e, Reached ar.entries e → 0 ≤ e.rv checkOnly) ∧
        ∀ e ∈ ar.entries, ¬(e.header.fileType = .dir ∧ Cleans e.header e.answers) ∧
          ¬(e.header.fileType = .file ∧ FileDiffers e.header e.answers) := by
  refine and_congr ?_ (forall₂_congr fun e _ =>
    and_congr extractFile_check_iff extractFile_wrongHash_iff)
  rw [processArchive]
  by_cases hopen : ar.opened < 0
  · rw [if_pos hopen]
    refine iff_of_true ⟨ar.opened, 0, rfl, fun h => by omega⟩ fun h => ?_
    exact absurd h.1 (not_le.mpr hopen)
  by_cases hchdir : (!checkOnly) = true ∧ (!ar.chdir) = true
  · rw [if_neg hopen, if_pos hchdir]
    refine iff_of_true ⟨errorIo, 0, rfl, fun h => absurd h (by decide)⟩ fun h => ?_
    have := h.2 (by simpa using hchdir.1)
    simp [this] at hchdir
  have hopens : Opens checkOnly ar := by
    refine ⟨not_lt.mp hopen, fun h => ?_⟩
    simpa [h] using hchdir
  rw [if_neg hopen, if_neg hchdir]
  constructor
  · rintro ⟨rv, n, hrun, -⟩ - e hreach
    by_contra he
    rw [memberLoop_of_failing 0 hreach (not_le.mp he)] at hrun
    simp at hrun
  · intro h
    obtain ⟨rv, n, hrun, hspec⟩ := memberLoop_spec 0 ar.entries (h hopens)
    rw [hrun, Option.map_some]
    by_cases hrv : rv < 0
    · exact ⟨rv, n, by simp [hrv], fun h0 => by omega⟩
    · obtain ⟨rfl, rfl, hall⟩ := hspec (not_lt.mp hrv)
      by_cases hclosed : ar.closed < 0
      · exact ⟨2, ar.entries.length, by simp [hclosed], fun h0 => by omega⟩
      · exact ⟨0, 0 + ar.entries.length, by simp [hclosed], fun _ => ⟨by omega, hall⟩⟩

end

def answers (hashEqual : Bool) : SarAnswers where
  digestBegin := 0
  seekHeader := 0
  readHeader := 0
  digestHeader := 0
  connect := 0
  seekData := 0
  copy := 0
  readData := 0
  digestData := 0
  symlink := true
  digestEnd := 0
  seekHash := 0
  readHash := 0
  hashEqual := hashEqual
  mkdir := true

def oneFile (hashEqual : Bool) : Archive where
  opened := 0
  chdir := true
  entries := [⟨⟨.file, 40, 3, 3, 50⟩, answers hashEqual, 0⟩]
  closed := 0

/-- The check fails for the file, and goes on with an archive that was released. -/
theorem not_reportsBad_wrongHash : ¬ReportsBad true (oneFile false) := by
  rintro ⟨⟨rv, n, hrun, -⟩, -⟩
  have hnone : processArchive true (oneFile false) = none := by decide
  rw [hnone] at hrun
  cases hrun
end Gwenhywfar.Sar
