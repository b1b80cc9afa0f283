import Gwenhywfar.Sar.ScanFile

/-! # Members in the bytes of an archive

* `extractIn`: `GWEN_Sar_ExtractAndDigestFile` for a member of the file; the answers of the digest,
  of other files and of the progress are given.  There is no outcome where a loop does not end, an
  assertion fails or no memory is asked for.
* `addAndDigestFileReg`: a source is copied into the archive.
* `archive_iff`: the conditions under which scanning, processing and adding end, and damage is
  noticed. -/

namespace Gwenhywfar.Sar

/-! ### Members -/

/-- What decides which functions are called for a member. -/
def Member.header (m : Member) : FileHeader :=
  ⟨fileTypeOf m.fileType, m.headerSize, m.fileSize, m.dataSize, m.hashPos⟩

/-- The answers for a member of this file; those of the digest and of other files are given. -/
def answersIn (content : List UInt8) (env : SarAnswers) (m : Member) (copy : ℤ) : SarAnswers :=
  { env with
    seekHeader := m.headerStartPos
    readHeader := readForced content m.headerStartPos m.headerSize
    seekData := m.dataPos
    copy := copy
    readData := readForced content m.dataPos m.dataSize
    seekHash := m.hashPos
    readHash := readForced content m.hashPos 20 }

/-- `sizeof(fbuf)`. -/
def chunk : ℕ := 10240

/-- The loop that copies `fsize` bytes where `left` bytes are left to read; `round k` is the first
error of what is done behind the read of a round. -/
def copyLoop (round : ℕ → ℤ) : ℕ → ℕ → ℕ → ℕ → Option ℤ
  | 0, _, _, _ => none
  | n + 1, k, left, fsize =>
      if fsize = 0 then some 0
      else if round k < 0 then some (round k)
      else
        copyLoop round n (k + 1) (left - min (min fsize chunk) left)
          (fsize - min (min fsize chunk) left)

/-- `GWEN_Buffer_new` asks for no bytes and aborts: the size is a `uint32_t`, as is one more. -/
def NoRoom (size : ℕ) : Prop := size % 2 ^ 32 = 0 ∨ size % 2 ^ 32 = 2 ^ 32 - 1

instance (size : ℕ) : Decidable (NoRoom size) := inferInstanceAs (Decidable (_ ∨ _))

/-- `GWEN_Sar_ExtractAndDigestFile` for a member of the file, with the assertions about its path and
the size of its header. -/
def extractIn (content : List UInt8) (env : SarAnswers) (round : ℕ → ℤ) (checkOnly : Bool)
    (m : Member) (fuel : ℕ) : Option ℤ :=
  let fh := m.header
  if fh.fileType = .unknown ∨ env.digestBegin < 0 then
    some (extractFile fh (answersIn content env m 0) checkOnly).rv
  else if m.path = none ∨ fh.fileType = .dir ∧ m.headerSize = 0 ∨
      m.headerSize ≠ 0 ∧ NoRoom m.headerSize then none
  else if fh.fileType = .symLink ∧ m.dataSize ≠ 0 ∧ NoRoom m.dataSize ∧
      0 ≤ digestHead fh (answersIn content env m 0) then none
  else if fh.fileType = .file ∧ m.fileSize ≠ 0 ∧ 0 ≤ digestHead fh (answersIn content env m 0) ∧
      (checkOnly ∨ 0 ≤ env.connect) then
    (copyLoop round fuel 0 (content.length - m.dataPos) m.fileSize).map fun copy =>
      (extractFile fh (answersIn content env m copy) checkOnly).rv
  else some (extractFile fh (answersIn content env m 0) checkOnly).rv

/-- What the functions answer before the data is added. -/
structure AddAnswers where
  writeHeader : ℤ
  writeForced : ℤ
  connect : ℤ

/-- `GWEN_Sar_AddAndDigestFileReg` for a source with `left` bytes. -/
def addAndDigestFileReg (env : AddAnswers) (round : ℕ → ℤ) (left fsize fuel : ℕ) : Option ℤ :=
  if env.writeHeader < 0 then some env.writeHeader
  else if env.writeForced < 0 then some env.writeForced
  else if fsize = 0 then some 0
  else if env.connect < 0 then some env.connect
  else copyLoop round fuel 0 left fsize

def Present (content : List UInt8) (m : Member) : Prop :=
  HeaderPresent content m ∧
    (fileTypeOf m.fileType = .file → m.fileSize ≠ 0 →
      m.dataPos ≠ 0 ∧ m.dataPos + m.fileSize ≤ content.length) ∧
    (fileTypeOf m.fileType = .symLink →
      m.dataPos ≠ 0 ∧ m.dataPos + m.dataSize ≤ content.length) ∧
    m.hashPos ≠ 0 ∧ m.hashPos + 20 ≤ content.length

/-- Processing a member ends with a result, and with an error if something of it is missing. -/
def MemberSound (content : List UInt8) (env : SarAnswers) (round : ℕ → ℤ) (checkOnly : Bool)
    (m : Member) : Prop :=
  ∃ fuel rv, extractIn content env round checkOnly m fuel = some rv ∧
    (¬Present content m → rv < 0)

def HeadFails (content : List UInt8) (env : SarAnswers) (m : Member) : Prop :=
  env.digestBegin < 0 ∨ m.headerSize ≠ 0 ∧
    (readForced content m.headerStartPos m.headerSize < 0 ∨ env.digestHeader < 0)

def HashFails (content : List UInt8) (env : SarAnswers) (m : Member) : Prop :=
  env.digestEnd < 0 ∨
    m.hashPos ≠ 0 ∧ (content.length < m.hashPos + 20 ∨ env.hashEqual = false)

def DataFits (content : List UInt8) (m : Member) : Prop :=
  m.fileSize ≤ content.length - m.dataPos

/-- Something that is done behind a read fails. -/
def CopyFails (content : List UInt8) (round : ℕ → ℤ) (m : Member) : Prop :=
  ∃ k, round k < 0 ∧ (DataFits content m → k * chunk < m.fileSize)

def LinkFails (content : List UInt8) (env : SarAnswers) (checkOnly : Bool) (m : Member) : Prop :=
  m.dataSize ≠ 0 ∧ (readForced content m.dataPos m.dataSize < 0 ∨ env.digestData < 0 ∨
    checkOnly = false ∧ env.symlink = false)

/-- The member has a path, there is room for its header and target, its data can be copied, and
nothing of it is missing where no function reports an error. -/
def MemberFits (content : List UInt8) (env : SarAnswers) (round : ℕ → ℤ) (checkOnly : Bool)
    (m : Member) : Prop :=
  fileTypeOf m.fileType = .unknown ∨ env.digestBegin < 0 ∨
    m.path ≠ none ∧ (fileTypeOf m.fileType = .dir → m.headerSize ≠ 0) ∧
      (m.headerSize ≠ 0 → ¬NoRoom m.headerSize) ∧ (HeadFails content env m ∨
        fileTypeOf m.fileType = .file ∧ (checkOnly = false ∧ env.connect < 0 ∨
          m.fileSize ≠ 0 ∧ CopyFails content round m ∨
          (m.fileSize ≠ 0 → DataFits content m) ∧
            (HashFails content env m ∨ Present content m)) ∨
        fileTypeOf m.fileType = .symLink ∧ (m.dataSize ≠ 0 → ¬NoRoom m.dataSize) ∧
          (LinkFails content env checkOnly m ∨ HashFails content env m ∨ Present content m) ∨
        fileTypeOf m.fileType = .dir ∧ (HashFails content env m ∨
          checkOnly = false ∧ env.mkdir = false ∨ Present content m))

section
variable {content : List UInt8} {env : SarAnswers} {round : ℕ → ℤ} {checkOnly : Bool} {m : Member}

theorem chunk_pos : 0 < chunk := by decide

theorem copyLoop_some {n k left fsize : ℕ} {rv : ℤ} (h : copyLoop round n k left fsize = some rv) :
    (rv < 0 ∧ ∃ j, round (k + j) < 0 ∧ (fsize ≤ left → j * chunk < fsize)) ∨
      rv = 0 ∧ fsize ≤ left ∧ ∀ j, j * chunk < fsize → 0 ≤ round (k + j) := by
  induction n generalizing k left fsize with
  | zero => cases h
  | succ n ih =>
      rw [copyLoop] at h
      by_cases hzero : fsize = 0
      · rw [if_pos hzero] at h
        exact Or.inr ⟨(Option.some.inj h).symm, by omega, fun j hj => by omega⟩
      rw [if_neg hzero] at h
      by_cases hround : round k < 0
      · rw [if_pos hround] at h
        rw [← Option.some.inj h]
        exact Or.inl ⟨hround, 0, hround, fun _ => by rw [Nat.zero_mul]; omega⟩
      rw [if_neg hround] at h
      rcases ih h with ⟨hneg, j, hj, hlt⟩ | ⟨hrv, hfits, hall⟩
      · refine Or.inl ⟨hneg, j + 1, by rwa [Nat.add_right_comm, Nat.add_assoc] at hj, fun hle => ?_⟩
        have hrest := hlt (by omega)
        rw [Nat.succ_mul]
        omega
      · refine Or.inr ⟨hrv, by omega, fun j hj => ?_⟩
        cases j with
        | zero => exact not_lt.mp hround
        | succ j =>
            rw [Nat.succ_mul] at hj
            have hrest := hall j (by omega)
            rwa [Nat.add_right_comm, Nat.add_assoc] at hrest

theorem copyLoop_fits {k left fsize : ℕ} (h : fsize ≤ left) :
    ∃ n rv, copyLoop round n k left fsize = some rv := by
  induction fsize using Nat.strong_induction_on generalizing k left with
  | _ fsize ih =>
      by_cases hzero : fsize = 0
      · exact ⟨1, 0, by rw [copyLoop, if_pos hzero]⟩
      by_cases hround : round k < 0
      · exact ⟨1, round k, by rw [copyLoop, if_neg hzero, if_pos hround]⟩
      have hpos := chunk_pos
      obtain ⟨n, rv, hn⟩ := @ih (fsize - min (min fsize chunk) left) (by omega) (k + 1)
        (left - min (min fsize chunk) left) (by omega)
      exact ⟨n + 1, rv, by rw [copyLoop, if_neg hzero, if_neg hround, hn]⟩

theorem copyLoop_fails {j k left fsize : ℕ} (h : round (k + j) < 0) :
    ∃ n rv, copyLoop round n k left fsize = some rv := by
  induction j generalizing k left fsize with
  | zero =>
      by_cases hzero : fsize = 0
      · exact ⟨1, 0, by rw [copyLoop, if_pos hzero]⟩
      · exact ⟨1, round k, by rw [copyLoop, if_neg hzero, if_pos (show round k < 0 from h)]⟩
  | succ j ih =>
      by_cases hzero : fsize = 0
      · exact ⟨1, 0, by rw [copyLoop, if_pos hzero]⟩
      by_cases hround : round k < 0
      · exact ⟨1, round k, by rw [copyLoop, if_neg hzero, if_pos hround]⟩
      obtain ⟨n, rv, hn⟩ := @ih (k + 1) (left - min (min fsize chunk) left)
        (fsize - min (min fsize chunk) left) (by rwa [Nat.add_right_comm, Nat.add_assoc])
      exact ⟨n + 1, rv, by rw [copyLoop, if_neg hzero, if_neg hround, hn]⟩

theorem copyLoop_ends_iff {left fsize : ℕ} :
    (∃ n rv, copyLoop round n 0 left fsize = some rv) ↔ fsize ≤ left ∨ ∃ k, round k < 0 := by
  constructor
  · rintro ⟨n, rv, h⟩
    rcases copyLoop_some h with ⟨-, j, hj, -⟩ | ⟨-, hfits, -⟩
    · exact Or.inr ⟨_, hj⟩
    · exact Or.inl hfits
  · rintro (hfits | ⟨k, hk⟩)
    · exact copyLoop_fits hfits
    · exact @copyLoop_fails round k 0 left fsize (by rwa [Nat.zero_add])

theorem digestHead_neg (copy : ℤ) :
    digestHead m.header (answersIn content env m copy) < 0 ↔ HeadFails content env m := by
  have hseek : ¬(m.headerStartPos : ℤ) < 0 := by omega
  simp only [digestHead, HeadFails, answersIn, Member.header]
  by_cases hbegin : env.digestBegin < 0
  · simp [hbegin]
  by_cases hsize : m.headerSize = 0
  · simp [hbegin, hsize]
  by_cases hread : readForced content m.headerStartPos m.headerSize < 0
  · simp [hbegin, hsize, hseek, hread]
  by_cases hdigest : env.digestHeader < 0
  · simp [hbegin, hsize, hseek, hread, hdigest]
  · simp [hbegin, hsize, hseek, hread, hdigest]

theorem readForced_hash (pos : ℕ) : readForced content pos 20 < 0 ↔ content.length < pos + 20 := by
  have h20 : Buffer.toInt (20 % 2 ^ 32) = 20 := by decide
  have hmod : 20 % 2 ^ 32 = 20 := by decide
  rw [readForced, h20, hmod]
  by_cases hfits : pos + 20 ≤ content.length
  · rw [if_pos (Or.inr hfits)]
    omega
  · rw [if_neg (by omega)]
    exact ⟨fun _ => by omega, fun _ => by decide⟩

theorem checkHash_neg (copy : ℤ) (ops cleanup : List FileOp) :
    (checkHash m.header (answersIn content env m copy) ops cleanup).rv < 0 ↔
      HashFails content env m := by
  have hseek : ¬(m.hashPos : ℤ) < 0 := by omega
  have hread := @readForced_hash content m.hashPos
  simp only [checkHash, HashFails, answersIn, Member.header, Extracted.early]
  by_cases hend : env.digestEnd < 0
  · simp [hend]
  by_cases hpos : m.hashPos = 0
  · simp [hend, hpos]
  by_cases hcut : content.length < m.hashPos + 20
  · simp [hend, hpos, hseek, hcut, hread.mpr hcut]
  by_cases heq : env.hashEqual = true
  · simp [hend, hpos, hseek, hcut, mt hread.mp hcut, heq]
  · simp [hend, hpos, hseek, hcut, mt hread.mp hcut, heq]

theorem extractFileReg_neg (copy : ℤ) :
    (extractFileReg m.header (answersIn content env m copy) checkOnly).rv < 0 ↔
      HeadFails content env m ∨ checkOnly = false ∧ env.connect < 0 ∨
        m.fileSize ≠ 0 ∧ copy < 0 ∨ HashFails content env m := by
  have hseek : ¬(m.fileSize ≠ 0 ∧ (m.dataPos : ℤ) < 0) := by omega
  have hconnect : (answersIn content env m copy).connect = env.connect := rfl
  have hdata : (answersIn content env m copy).seekData = m.dataPos := rfl
  have hcopied : (answersIn content env m copy).copy = copy := rfl
  have hsize : m.header.fileSize = m.fileSize := rfl
  rw [← digestHead_neg copy, ← checkHash_neg copy (if checkOnly = true then [] else [.create]) [],
    extractFileReg, hconnect, hdata, hcopied, hsize]
  by_cases hhead : digestHead m.header (answersIn content env m copy) < 0
  · simp [hhead, Extracted.early]
  rw [if_neg hhead, if_neg hseek]
  by_cases hopen : checkOnly = false ∧ env.connect < 0
  · simp [hopen.1, hopen.2, Extracted.early]
  rw [if_neg (by simpa using hopen)]
  by_cases hcopy : m.fileSize ≠ 0 ∧ copy < 0
  · rw [if_pos hcopy]
    simp [hcopy.1, hcopy.2, Extracted.early]
  · rw [if_neg hcopy]
    simp only [hhead, hopen, hcopy, false_or]

theorem extractFileLink_neg (copy : ℤ) :
    (extractFileLink m.header (answersIn content env m copy) checkOnly).rv < 0 ↔
      HeadFails content env m ∨ LinkFails content env checkOnly m ∨ HashFails content env m := by
  have hseek : ¬(m.dataPos : ℤ) < 0 := by omega
  have hdata : (answersIn content env m copy).seekData = m.dataPos := rfl
  have hreadData : (answersIn content env m copy).readData =
      readForced content m.dataPos m.dataSize := rfl
  have hdigestData : (answersIn content env m copy).digestData = env.digestData := rfl
  have hsymlink : (answersIn content env m copy).symlink = env.symlink := rfl
  have hsize : m.header.dataSize = m.dataSize := rfl
  rw [← digestHead_neg copy, ← checkHash_neg copy
    (if checkOnly = true ∨ m.dataSize = 0 then [] else [.create])
    (if checkOnly = true then [] else [.remove]), extractFileLink, hdata, hreadData, hdigestData,
    hsymlink, hsize, LinkFails]
  by_cases hhead : digestHead m.header (answersIn content env m copy) < 0
  · simp [hhead, Extracted.early]
  rw [if_neg hhead, if_neg hseek]
  by_cases hzero : m.dataSize = 0
  · simp only [hzero, hhead, ne_eq, not_true_eq_false, false_and, if_false, false_or]
  by_cases hread : readForced content m.dataPos m.dataSize < 0
  · simp [hzero, hread, Extracted.early]
  by_cases hdigest : env.digestData < 0
  · simp [hzero, hread, hdigest, Extracted.early]
  by_cases hlink : checkOnly = false ∧ env.symlink = false
  · simp [hzero, hread, hdigest, hlink.1, hlink.2, Extracted.early]
  · rw [if_neg fun h => hread h.2, if_neg fun h => hdigest h.2,
      if_neg fun h => hlink (by simpa using h.2)]
    simp only [hhead, hread, hdigest, hlink, or_self, and_false, false_or]

theorem extractFileDir_neg (copy : ℤ) :
    (extractFileDir m.header (answersIn content env m copy) checkOnly).rv < 0 ↔
      HeadFails content env m ∨ HashFails content env m ∨
        checkOnly = false ∧ env.mkdir = false := by
  rw [← digestHead_neg copy, ← checkHash_neg copy [] [.remove], extractFileDir]
  dsimp only
  by_cases hhead : digestHead m.header (answersIn content env m copy) < 0
  · simp [hhead, Extracted.early]
  rw [if_neg hhead]
  by_cases hhash : (checkHash m.header (answersIn content env m copy) [] [.remove]).rv < 0
  · simp [hhash]
  by_cases hcheck : checkOnly = true
  · simp [hhash, hhead, hcheck]
  rw [if_neg (not_or.mpr ⟨hhash, hcheck⟩)]
  have hmkdir : (answersIn content env m copy).mkdir = env.mkdir := rfl
  simp only [hmkdir, hhead, hhash, false_or]
  by_cases hdir : env.mkdir = true
  · simp [hdir, Extracted.early]
  · simp [hcheck, hdir, Extracted.early]

theorem copied_iff (hhead : ¬HeadFails content env m) (hopen : ¬(checkOnly = false ∧ env.connect < 0))
    (hsize : m.fileSize ≠ 0) :
    (∃ fuel rv, (copyLoop round fuel 0 (content.length - m.dataPos) m.fileSize).map (fun copy =>
        (extractFileReg m.header (answersIn content env m copy) checkOnly).rv) = some rv ∧
      (¬Present content m → rv < 0)) ↔ CopyFails content round m ∨
        DataFits content m ∧ (HashFails content env m ∨ Present content m) := by
  have hneg : ∀ copy : ℤ,
      (extractFileReg m.header (answersIn content env m copy) checkOnly).rv < 0 ↔
        copy < 0 ∨ HashFails content env m := by
    intro copy
    rw [extractFileReg_neg]
    simp only [hhead, hopen, hsize, false_or, ne_eq, not_false_eq_true, true_and]
  constructor
  · rintro ⟨fuel, rv, hrun, hrv⟩
    obtain ⟨copy, hcopy, rfl⟩ := Option.map_eq_some_iff.mp hrun
    rcases copyLoop_some hcopy with ⟨-, j, hj, hlt⟩ | ⟨rfl, hfits, -⟩
    · exact Or.inl ⟨0 + j, hj, by simpa [DataFits] using hlt⟩
    · refine Or.inr ⟨hfits, ?_⟩
      by_cases hpresent : Present content m
      · exact Or.inr hpresent
      · exact Or.inl (((hneg 0).mp (hrv hpresent)).resolve_left (lt_irrefl 0))
  · intro h
    have hends : m.fileSize ≤ content.length - m.dataPos ∨ ∃ k, round k < 0 := by
      rcases h with ⟨k, hk, -⟩ | ⟨hfits, -⟩
      · exact Or.inr ⟨k, hk⟩
      · exact Or.inl hfits
    obtain ⟨fuel, copy, hcopy⟩ := copyLoop_ends_iff.mpr hends
    refine ⟨fuel, _, by rw [hcopy]; rfl, fun hpresent => (hneg copy).mpr ?_⟩
    rcases copyLoop_some hcopy with ⟨hlow, -⟩ | ⟨-, hfits, hall⟩
    · exact Or.inl hlow
    · rcases h with ⟨k, hk, hlt⟩ | ⟨-, hhash⟩
      · have hround := hall k (hlt hfits)
        rw [Nat.zero_add] at hround
        exact absurd hk (not_lt.mpr hround)
      · exact Or.inr (hhash.resolve_right hpresent)

theorem returns_iff (r : ℤ) :
    (∃ (_ : ℕ) (rv : ℤ), some r = some rv ∧ (¬Present content m → rv < 0)) ↔
      r < 0 ∨ Present content m := by
  constructor
  · rintro ⟨-, rv, heq, hrv⟩
    obtain rfl := Option.some.inj heq
    exact or_iff_not_imp_right.mpr hrv
  · intro h
    exact ⟨0, r, rfl, or_iff_not_imp_right.mp h⟩

theorem target_iff :
    (∃ (_ : ℕ) (rv : ℤ), (if m.dataSize ≠ 0 ∧ NoRoom m.dataSize ∧
        0 ≤ digestHead m.header (answersIn content env m 0) then none
      else some (extractFileLink m.header (answersIn content env m 0) checkOnly).rv) = some rv ∧
        (¬Present content m → rv < 0)) ↔
      HeadFails content env m ∨ (m.dataSize ≠ 0 → ¬NoRoom m.dataSize) ∧
        (LinkFails content env checkOnly m ∨ HashFails content env m ∨ Present content m) := by
  have hhead := @digestHead_neg content env m 0
  by_cases hno : m.dataSize ≠ 0 ∧ NoRoom m.dataSize ∧
      0 ≤ digestHead m.header (answersIn content env m 0)
  · simp only [if_pos hno]
    constructor
    · rintro ⟨-, rv, h, -⟩
      cases h
    · rintro (hfails | ⟨hroom, -⟩)
      · exact absurd (hhead.mpr hfails) (not_lt.mpr hno.2.2)
      · exact absurd hno.2.1 (hroom hno.1)
  · simp only [if_neg hno]
    have hroom : ¬HeadFails content env m → m.dataSize ≠ 0 → ¬NoRoom m.dataSize :=
      fun hfails hne hroom => hno ⟨hne, hroom, not_lt.mp fun h => hfails (hhead.mp h)⟩
    rw [returns_iff, extractFileLink_neg, or_assoc]
    by_cases hfails : HeadFails content env m
    · simp only [hfails, true_or]
    · simp only [hfails, false_or]
      rw [and_iff_right (hroom hfails), or_assoc]

/-- A regular file is copied only where its header was digested and the output opened. -/
theorem regular_iff :
    (∃ fuel rv, (if m.fileSize ≠ 0 ∧ 0 ≤ digestHead m.header (answersIn content env m 0) ∧
        (checkOnly = true ∨ 0 ≤ env.connect) then
        (copyLoop round fuel 0 (content.length - m.dataPos) m.fileSize).map fun copy =>
          (extractFileReg m.header (answersIn content env m copy) checkOnly).rv
      else some (extractFileReg m.header (answersIn content env m 0) checkOnly).rv) = some rv ∧
        (¬Present content m → rv < 0)) ↔
      HeadFails content env m ∨ checkOnly = false ∧ env.connect < 0 ∨
        m.fileSize ≠ 0 ∧ CopyFails content round m ∨
          (m.fileSize ≠ 0 → DataFits content m) ∧
            (HashFails content env m ∨ Present content m) := by
  have hhead := @digestHead_neg content env m 0
  by_cases hloop : m.fileSize ≠ 0 ∧ 0 ≤ digestHead m.header (answersIn content env m 0) ∧
      (checkOnly = true ∨ 0 ≤ env.connect)
  · simp only [if_pos hloop]
    obtain ⟨hsize, hpos, hopen⟩ := hloop
    have hhead' : ¬HeadFails content env m := fun h => not_lt.mpr hpos (hhead.mpr h)
    have hopen' : ¬(checkOnly = false ∧ env.connect < 0) := by
      rintro ⟨hfalse, hneg⟩
      rcases hopen with htrue | hpos
      · exact Bool.false_ne_true (hfalse.symm.trans htrue)
      · exact not_lt.mpr hpos hneg
    rw [copied_iff hhead' hopen' hsize]
    simp only [hhead', hopen', hsize, ne_eq, not_false_eq_true, true_and, false_or, true_implies]
  · simp only [if_neg hloop]
    rw [returns_iff, extractFileReg_neg]
    simp only [lt_irrefl, and_false, false_or]
    by_cases hfails : HeadFails content env m
    · simp only [hfails, true_or]
    by_cases hopen : checkOnly = false ∧ env.connect < 0
    · simp only [hopen, true_or, or_true, and_self]
    have hzero : m.fileSize = 0 := by
      by_contra hsize
      refine hloop ⟨hsize, not_lt.mp fun h => hfails (hhead.mp h), ?_⟩
      rw [not_and, not_lt] at hopen
      cases checkOnly with
      | true => exact Or.inl rfl
      | false => exact Or.inr (hopen rfl)
    simp only [hfails, hopen, hzero, ne_eq, not_true_eq_false, false_and, false_implies, false_or,
      true_and]

theorem memberSound_iff (content : List UInt8) (env : SarAnswers) (round : ℕ → ℤ)
    (checkOnly : Bool) (m : Member) :
    MemberSound content env round checkOnly m ↔ MemberFits content env round checkOnly m := by
  have hinvalid : errorInvalid < 0 := by decide
  have htype : m.header.fileType = fileTypeOf m.fileType := rfl
  rw [MemberSound, MemberFits]
  simp only [extractIn, htype]
  by_cases hunknown : fileTypeOf m.fileType = .unknown
  · simp only [hunknown, true_or, if_true, iff_true]
    refine (returns_iff _).mpr (Or.inl ?_)
    rw [extractFile, htype, hunknown]
    exact hinvalid
  by_cases hbegin : env.digestBegin < 0
  · have hhead : HeadFails content env m := Or.inl hbegin
    simp only [hbegin, or_true, true_or, if_true, iff_true]
    refine (returns_iff _).mpr (Or.inl ?_)
    rw [extractFile]
    cases m.header.fileType with
    | file => exact (extractFileReg_neg 0).mpr (Or.inl hhead)
    | dir => exact (extractFileDir_neg 0).mpr (Or.inl hhead)
    | symLink => exact (extractFileLink_neg 0).mpr (Or.inl hhead)
    | unknown => exact hinvalid
  simp only [hunknown, hbegin, or_self, if_false, false_or]
  by_cases hassert : m.path = none ∨ fileTypeOf m.fileType = .dir ∧ m.headerSize = 0 ∨
      m.headerSize ≠ 0 ∧ NoRoom m.headerSize
  · simp only [hassert, if_true]
    constructor
    · rintro ⟨-, rv, h, -⟩
      cases h
    · rintro ⟨hpath, hdir, hroom, -⟩
      rcases hassert with hnone | ⟨htype, hzero⟩ | ⟨hne, hno⟩
      · exact absurd hnone hpath
      · exact absurd hzero (hdir htype)
      · exact absurd hno (hroom hne)
  have hright : ∀ P : Prop, (m.path ≠ none ∧
      (fileTypeOf m.fileType = .dir → m.headerSize ≠ 0) ∧
      (m.headerSize ≠ 0 → ¬NoRoom m.headerSize) ∧ P) ↔ P := by
    rw [not_or, not_or, not_and, not_and] at hassert
    exact fun P => ⟨fun h => h.2.2.2, fun h => ⟨hassert.1, hassert.2.1, hassert.2.2, h⟩⟩
  rw [hright]
  simp only [hassert, if_false]
  cases hft : fileTypeOf m.fileType with
  | unknown => exact absurd hft hunknown
  | dir =>
      have hdir : extractFile m.header (answersIn content env m 0) checkOnly =
          extractFileDir m.header (answersIn content env m 0) checkOnly := by
        rw [extractFile, htype, hft]
      simp only [reduceCtorEq, false_and, if_false, false_or, true_and]
      rw [returns_iff, hdir, extractFileDir_neg, or_assoc, or_assoc]
  | symLink =>
      have hlink : extractFile m.header (answersIn content env m 0) checkOnly =
          extractFileLink m.header (answersIn content env m 0) checkOnly := by
        rw [extractFile, htype, hft]
      simp only [reduceCtorEq, false_and, if_false, false_or, true_and, or_false, hlink]
      exact target_iff
  | file =>
      have hreg : ∀ copy, extractFile m.header (answersIn content env m copy) checkOnly =
          extractFileReg m.header (answersIn content env m copy) checkOnly := by
        intro copy
        rw [extractFile, htype, hft]
      simp only [reduceCtorEq, false_and, if_false, or_false, true_and, hreg]
      exact regular_iff

theorem addEnds_iff (env : AddAnswers) (round : ℕ → ℤ) (left fsize : ℕ) :
    (∃ fuel rv, addAndDigestFileReg env round left fsize fuel = some rv) ↔
      (0 ≤ env.writeHeader → 0 ≤ env.writeForced → 0 ≤ env.connect →
        fsize ≤ left ∨ ∃ k, round k < 0) := by
  simp only [addAndDigestFileReg]
  by_cases hheader : env.writeHeader < 0
  · simp [hheader]
  by_cases hwrite : env.writeForced < 0
  · simp [hheader, hwrite]
  by_cases hzero : fsize = 0
  · simp [hheader, hwrite, hzero]
  by_cases hconnect : env.connect < 0
  · simp [hheader, hwrite, hzero, hconnect]
  simp only [hheader, hwrite, hzero, hconnect, if_false, copyLoop_ends_iff]
  simp [not_lt.mp hheader, not_lt.mp hwrite, not_lt.mp hconnect]

end

/-- Scanning, processing a member, and adding a file: each does what it should exactly when its
condition is met. -/
theorem archive_iff (content : List UInt8) (stale : UInt8) (env : SarAnswers) (round : ℕ → ℤ)
    (checkOnly : Bool) (m : Member) (add : AddAnswers) (left fsize : ℕ) :
    (ScanSound content stale ↔ ScanFits content stale) ∧
      (MemberSound content env round checkOnly m ↔ MemberFits content env round checkOnly m) ∧
      ((∃ fuel rv, addAndDigestFileReg add round left fsize fuel = some rv) ↔
        (0 ≤ add.writeHeader → 0 ≤ add.writeForced → 0 ≤ add.connect →
          fsize ≤ left ∨ ∃ k, round k < 0)) :=
  ⟨scanSound_iff content stale, memberSound_iff content env round checkOnly m,
    addEnds_iff add round left fsize⟩

/-- A file of five bytes, the last three of which are cut off. -/
def truncated : List UInt8 :=
  [0xe1, 10, 0x04, 2, 97, 0, 0x05, 1, 1, 0x0a, 1, 5, 0x02, 5, 1, 2]

def truncatedMember : Member := ⟨some [97], 1, 5, 0, 12, 14, 5, 0⟩

theorem scan_truncated : scan truncated 0 = some (0, [truncatedMember]) := by decide +kernel

/-- The check of a file that is cut off does not end. -/
theorem not_sound_truncated : ¬∀ (content : List UInt8) (stale : UInt8) (env : SarAnswers)
    (round : ℕ → ℤ) (checkOnly : Bool), ScanSound content stale ∧
      ∀ headers, scan content stale = some (0, headers) → ∀ m ∈ headers,
        MemberSound content env round checkOnly m := by
  intro h
  have hsound := (h truncated 0 (answers true) (fun _ => 0) true).2 _ scan_truncated
    truncatedMember List.mem_cons_self
  obtain ⟨fuel, rv, hrun, -⟩ := hsound
  simp only [extractIn] at hrun
  rw [if_neg (by decide), if_neg (by decide), if_neg (by decide), if_pos (by decide)] at hrun
  obtain ⟨copy, hcopy, -⟩ := Option.map_eq_some_iff.mp hrun
  rcases copyLoop_some hcopy with ⟨-, j, hj, -⟩ | ⟨-, hfits, -⟩
  · exact absurd hj (lt_irrefl 0)
  · exact absurd hfits (by decide)
end Gwenhywfar.Sar
