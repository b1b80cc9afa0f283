import Gwenhywfar.Sar.Archive
import Gwenhywfar.Parser.TlvTotal
import Gwenhywfar.Base.Buffer

/-! # Scanning an archive

* `tlvToFileHeader`: the fields of a file header, the texts of which are taken up to their end.
* `scan`: `GWEN_Sar_ScanFile` over the bytes of the file.  There is no outcome where it reads behind
  a text, stores behind the buffer, or where the buffer aborts because of its hard limit.
* `scanSound_iff`: the scan ends and lists only members whose headers are in the file, if and only if
  no bad header is reached. -/

namespace Gwenhywfar.Sar

open Tlv (fromBuffer readHeader valueOf)

/-! ### File headers -/

/-- `GWEN_SAR_FILEHEADER`, as it is read from an archive. -/
structure Member where
  path : Option (List UInt8)
  fileType : ℕ
  fileSize : ℕ
  headerStartPos : ℕ
  headerSize : ℕ
  dataPos : ℕ
  dataSize : ℕ
  hashPos : ℕ
  deriving DecidableEq

/-- `GWEN_SarFileHeader_new`. -/
def Member.new : Member := ⟨none, 0, 0, 0, 0, 0, 0, 0⟩

/-- `GWEN_Sar_ReadUint64`. -/
def readUint64 (p : List UInt8) : ℕ := if p.length ≤ 8 then valueOf p else 0

/-- The loop of `GWEN_Time__fromString` over the letters of the template stays inside of the text;
a byte that is no digit is met again with the next letter. -/
def timeInside : ℕ → List UInt8 → Bool
  | 0, _ => true
  | _ + 1, [] => false
  | k + 1, c :: p =>
      if c = 0 then true else if isDigit c then timeInside k p else timeInside k (c :: p)

/-- The month that the loop of `GWEN_Time__fromString` reads, from the fifth and the sixth digit of
those at the start. -/
def timeMonth (p : List UInt8) : ℕ :=
  (((p.takeWhile isDigit).drop 4).take 2).foldl (fun month c => month * 10 + (c - 0x30).toNat) 0

/-- `GWEN_SAR_TAG_HEADER_PATH`. -/
def tagHeaderPath : ℕ := 0x04

/-- `GWEN_SAR_TAG_HEADER_TYPE`. -/
def tagHeaderType : ℕ := 0x05

/-- `GWEN_SAR_TAG_HEADER_ATIME`, `GWEN_SAR_TAG_HEADER_MTIME` and `GWEN_SAR_TAG_HEADER_CTIME`. -/
def tagHeaderTimes : List ℕ := [0x07, 0x08, 0x09]

/-- `GWEN_SAR_TAG_HEADER_SIZE`. -/
def tagHeaderSize : ℕ := 0x0a

/-- The `switch` of `GWEN_Sar_TlvToFileHeader`. -/
def storeTag (fh : Member) (tlv : Tlv) : Option Member :=
  if tlv.tagType = tagHeaderPath then
    if tlv.tagData = [] then some { fh with path := none }
    else if 0 ∈ tlv.tagData then some { fh with path := some (tlv.tagData.takeWhile (· != 0)) }
    else none
  else if tlv.tagType = tagHeaderType then
    some { fh with fileType := readUint64 tlv.tagData % 2 ^ 32 }
  else if tlv.tagType ∈ tagHeaderTimes then
    -- the template is YYYYMMDDhhmmss, and `GWEN_Time__mktimeUtc` has the days of twelve months
    if timeInside 14 tlv.tagData ∧ timeMonth tlv.tagData ≤ 13 then some fh else none
  else if tlv.tagType = tagHeaderSize then some { fh with fileSize := readUint64 tlv.tagData }
  else some fh

/-- `GWEN_Sar_TlvToFileHeader`; every TLV has two bytes at least. -/
def tlvToFileHeader (mbuf : List UInt8) : ℕ → ℕ → Member → Option (ℤ × Member)
  | 0, _, fh => some (0, fh)
  | k + 1, pos, fh =>
      if mbuf.length ≤ pos then some (0, fh)
      else
        (fromBuffer mbuf pos true).1.elim (some (errorBadData, fh)) fun tlv =>
          (storeTag fh tlv).bind (tlvToFileHeader mbuf k (fromBuffer mbuf pos true).2)

/-- The TLVs that are read one after the other. -/
def headerTags (mbuf : List UInt8) : ℕ → ℕ → List Tlv
  | 0, _ => []
  | k + 1, pos =>
      if mbuf.length ≤ pos then []
      else
        (fromBuffer mbuf pos true).1.elim [] fun tlv =>
          tlv :: headerTags mbuf k (fromBuffer mbuf pos true).2

/-- The text of a tag ends inside of its data: a path has a 0, and a time has 14 bytes or one that
is no digit.  The month of a time is not above 13. -/
def StringInside (tlv : Tlv) : Prop :=
  (tlv.tagType = tagHeaderPath → tlv.tagData = [] ∨ 0 ∈ tlv.tagData) ∧
    (tlv.tagType ∈ tagHeaderTimes →
      (14 ≤ tlv.tagData.length ∨ ∃ c ∈ tlv.tagData, isDigit c = false) ∧
        timeMonth tlv.tagData ≤ 13)

theorem timeInside_iff (k : ℕ) (p : List UInt8) :
    timeInside k p = true ↔ k ≤ p.length ∨ ∃ c ∈ p, isDigit c = false := by
  induction k generalizing p with
  | zero => simp [timeInside]
  | succ k ih =>
      cases p with
      | nil => simp [timeInside]
      | cons c p =>
          have hzero : isDigit 0 = false := by decide
          rw [timeInside]
          by_cases hc : c = 0
          · simp [hc, hzero]
          by_cases hd : isDigit c = true
          · rw [if_neg hc, if_pos hd, ih]
            simp [hd]
          · rw [if_neg hc, if_neg hd, ih]
            simp [hd]

theorem storeTag_isSome (fh : Member) (tlv : Tlv) :
    (∃ fh', storeTag fh tlv = some fh') ↔ StringInside tlv := by
  rw [storeTag, StringInside]
  by_cases hpath : tlv.tagType = tagHeaderPath
  · have htimes : tlv.tagType ∉ tagHeaderTimes := by
      rw [hpath]
      decide
    by_cases hnil : tlv.tagData = []
    · simp [hpath, hnil, hpath ▸ htimes]
    · by_cases h0 : (0 : UInt8) ∈ tlv.tagData
      · simp [hpath, hnil, h0, hpath ▸ htimes]
      · simp [hpath, hnil, h0]
  rw [if_neg hpath]
  by_cases htype : tlv.tagType = tagHeaderType
  · have htimes : tlv.tagType ∉ tagHeaderTimes := by
      rw [htype]
      decide
    simp only [if_pos htype, hpath, htimes, false_implies, true_and]
    simp
  rw [if_neg htype]
  by_cases htimes : tlv.tagType ∈ tagHeaderTimes
  · rw [if_pos htimes]
    simp only [hpath, htimes, false_implies, true_implies, true_and, ← timeInside_iff]
    by_cases hin : timeInside 14 tlv.tagData = true ∧ timeMonth tlv.tagData ≤ 13
    · simp [hin]
    · simp [hin]
  · rw [if_neg htimes]
    simp only [hpath, htimes, false_implies, true_and]
    by_cases hsize : tlv.tagType = tagHeaderSize
    · simp [hsize]
    · simp [hsize]

theorem tlvToFileHeader_isSome (mbuf : List UInt8) (k pos : ℕ) (fh : Member) :
    (∃ r, tlvToFileHeader mbuf k pos fh = some r) ↔
      ∀ tlv ∈ headerTags mbuf k pos, StringInside tlv := by
  induction k generalizing pos fh with
  | zero => simp [tlvToFileHeader, headerTags]
  | succ k ih =>
      rw [tlvToFileHeader, headerTags]
      by_cases hpos : mbuf.length ≤ pos
      · simp [hpos]
      rw [if_neg hpos, if_neg hpos]
      cases htlv : (fromBuffer mbuf pos true).1 with
      | none => simp
      | some tlv =>
          rw [Option.elim_some, Option.elim_some, List.forall_mem_cons, ← storeTag_isSome fh]
          cases hstore : storeTag fh tlv with
          | none => simp
          | some fh' => simpa using ih _ fh'

/-! ### Scanning -/

/-- `GWEN_SAR_TAG_HEADER`. -/
def tagHeader : ℕ := 0x01

/-- `GWEN_SAR_TAG_FILE`. -/
def tagFile : ℕ := 0x02

/-- `GWEN_SAR_TAG_HASH`. -/
def tagHash : ℕ := 0x03

/-- `GWEN_SarFileHeader_FType`. -/
def fileTypeOf (n : ℕ) : FileType :=
  if n = 1 then .file else if n = 2 then .dir else if n = 3 then .symLink else .unknown

/-- `GWEN_SyncIo_ReadForced` from a position of the file on; the size is a `uint32_t`, and the result
an `int`. -/
def readForced (content : List UInt8) (pos size : ℕ) : ℤ :=
  if size % 2 ^ 32 = 0 ∨ pos + size % 2 ^ 32 ≤ content.length then Buffer.toInt (size % 2 ^ 32)
  else errorEof

/-- `GWEN_TLV_ReadHeader` at a position of the file.  The last byte of a length may be the one behind
those that were read. -/
def readTag (content : List UInt8) (stale : UInt8) (pos : ℕ) : ℤ × Tlv :=
  let buffer := (content.drop pos).take 32
  let r := readHeader ⟨false, 0, 0, 0, 0, []⟩ buffer true
  if r.1 = buffer.length + 1 then readHeader ⟨false, 0, 0, 0, 0, []⟩ (buffer ++ [stale]) true
  else r

/-- The position, the buffer for headers, and the members, the last one first. -/
structure Scan where
  pos : ℕ
  mbuf : Buffer
  headers : List Member

def scanHeader (content : List UInt8) (st : Scan) (startOfTagData : ℕ) (tlv : Tlv) :
    Option (ℤ ⊕ Scan) :=
  (st.mbuf.allocRoom tlv.tagLength).bind fun r =>
    if r.2.block.length < min tlv.tagLength (content.length - startOfTagData) then none
    else if readForced content startOfTagData tlv.tagLength < 0 then
      some (.inl (readForced content startOfTagData tlv.tagLength))
    -- the text in the buffer is terminated
    else if r.2.block.length ≤ tlv.tagLength then none
    else
      let mbuf := (content.drop startOfTagData).take tlv.tagLength
      (tlvToFileHeader mbuf (mbuf.length + 1) 0 Member.new).map fun h =>
        if h.1 < 0 then .inl h.1
        else .inr ⟨startOfTagData + tlv.tagLength, r.2,
          { h.2 with headerStartPos := st.pos, headerSize := tlv.tagSize } :: st.headers⟩

def scanMember (st : Scan) (pos : ℕ) (store : Member → Option Member) : ℤ ⊕ Scan :=
  (st.headers.head?.bind store).elim (.inl errorBadData) fun fh =>
    .inr { st with pos := pos, headers := fh :: st.headers.tail }

/-- A round of the loop of `GWEN_Sar_ScanFile`: its result, or the next round. -/
def scanElement (content : List UInt8) (stale : UInt8) (st : Scan) : Option (ℤ ⊕ Scan) :=
  if content.length ≤ st.pos then some (.inl 0)
  else
    let tag := readTag content stale st.pos
    let startOfTagData := st.pos + tag.1.toNat
    if tag.1 < 2 then some (.inl tag.1)
    else if tag.2.tagType = tagHeader then scanHeader content st startOfTagData tag.2
    else if tag.2.tagType = tagFile then
      some (scanMember st (startOfTagData + tag.2.tagLength) fun fh =>
        if fileTypeOf fh.fileType ≠ .symLink ∧ fh.fileSize ≠ tag.2.tagLength then none
        else some { fh with dataPos := startOfTagData, dataSize := tag.2.tagLength })
    else if tag.2.tagType = tagHash then
      some (scanMember st (startOfTagData + tag.2.tagLength) fun fh =>
        some { fh with hashPos := startOfTagData })
    else some (.inr { st with pos := startOfTagData + tag.2.tagLength })

/-- The loop of `GWEN_Sar_ScanFile`; no round is without a byte. -/
def scanLoop (content : List UInt8) (stale : UInt8) : ℕ → Scan → Option (ℤ × List Member)
  | 0, st => some (0, st.headers)
  | k + 1, st =>
      (scanElement content stale st).bind fun r =>
        r.elim (fun rv => some (rv, st.headers)) (scanLoop content stale k)

/-- `GWEN_Sar_ScanFile`. -/
def scan (content : List UInt8) (stale : UInt8) : Option (ℤ × List Member) :=
  (Buffer.new 1024).bind fun mbuf => scanLoop content stale (content.length + 1) ⟨0, mbuf, []⟩

/-- The rounds that are reached. -/
inductive ScanReaches (content : List UInt8) (stale : UInt8) : Scan → Scan → Prop
  | refl (st : Scan) : ScanReaches content stale st st
  | step {st st' st'' : Scan} (h : ScanReaches content stale st st')
      (hnext : scanElement content stale st' = some (.inr st'')) : ScanReaches content stale st st''

def HeaderPresent (content : List UInt8) (fh : Member) : Prop :=
  fh.headerStartPos + fh.headerSize ≤ content.length

/-- The scan ends inside of its memory, and lists members with their headers only. -/
def ScanSound (content : List UInt8) (stale : UInt8) : Prop :=
  ∃ rv headers, scan content stale = some (rv, headers) ∧
    (0 ≤ rv → ∀ fh ∈ headers, HeaderPresent content fh)

/-- The header at this position is too long for the buffer, or it is complete and one of its texts
does not end, or the bytes before its data are cut off. -/
def BadHeader (content : List UInt8) (st : Scan) (startOfTagData : ℕ) (tlv : Tlv) : Prop :=
  st.mbuf.allocRoom tlv.tagLength = none ∨
    ∃ r, st.mbuf.allocRoom tlv.tagLength = some r ∧
      (r.2.block.length < min tlv.tagLength (content.length - startOfTagData) ∨
        0 ≤ readForced content startOfTagData tlv.tagLength ∧
          (r.2.block.length ≤ tlv.tagLength ∨ content.length < startOfTagData ∨
            ¬∀ t ∈ headerTags ((content.drop startOfTagData).take tlv.tagLength)
              (((content.drop startOfTagData).take tlv.tagLength).length + 1) 0, StringInside t))

def GoodElement (content : List UInt8) (stale : UInt8) (st : Scan) : Prop :=
  st.pos < content.length → 2 ≤ (readTag content stale st.pos).1 →
    (readTag content stale st.pos).2.tagType = tagHeader →
      ¬BadHeader content st (st.pos + (readTag content stale st.pos).1.toNat)
        (readTag content stale st.pos).2

/-- No header that is reached is such a one. -/
def ScanFits (content : List UInt8) (stale : UInt8) : Prop :=
  ∀ mbuf st, Buffer.new 1024 = some mbuf → ScanReaches content stale ⟨0, mbuf, []⟩ st →
    GoodElement content stale st

section
variable {content : List UInt8} {stale : UInt8} {st st' : Scan}

theorem readLength_le {longest : ℕ} {p : List UInt8} {r : ℕ × ℕ}
    (h : Tlv.readLength longest true p = some r) : 1 ≤ r.2 ∧ r.2 ≤ longest + 1 := by
  rw [Tlv.readLength] at h
  dsimp only at h
  rw [if_pos rfl] at h
  split_ifs at h
  all_goals
    obtain rfl := Option.some.inj h
    dsimp only
    omega

/-- What a tag header tells about the sizes. -/
theorem readTag_spec {pos : ℕ} (h : 0 ≤ (readTag content stale pos).1) :
    ∃ size j : ℕ, (readTag content stale pos).1 = size ∧ 2 ≤ size ∧ size ≤ 8 ∧
      (readTag content stale pos).2.tagLength = j % 2 ^ 32 ∧
      (readTag content stale pos).2.tagSize = (size + j) % 2 ^ 32 := by
  have hread : ∀ p : List UInt8, 0 ≤ (readHeader ⟨false, 0, 0, 0, 0, []⟩ p true).1 →
      ∃ size j : ℕ, (readHeader ⟨false, 0, 0, 0, 0, []⟩ p true).1 = size ∧ 2 ≤ size ∧ size ≤ 8 ∧
        (readHeader ⟨false, 0, 0, 0, 0, []⟩ p true).2.tagLength = j % 2 ^ 32 ∧
        (readHeader ⟨false, 0, 0, 0, 0, []⟩ p true).2.tagSize = (size + j) % 2 ^ 32 := by
    intro p hp
    have hbad : ¬(0 : ℤ) ≤ errorBadData := by decide
    have htype : 1 ≤ (Tlv.readType p true).2 ∧ (Tlv.readType p true).2 ≤ 2 := by
      rw [Tlv.readType, if_pos rfl]
      split_ifs <;> simp
    rw [readHeader] at hp ⊢
    by_cases h2 : p.length < 2
    · rw [if_pos h2] at hp
      exact absurd hp hbad
    rw [if_neg h2] at hp ⊢
    dsimp only at hp ⊢
    by_cases hlen : p.length ≤ (Tlv.readType p true).2
    · rw [if_pos hlen] at hp
      exact absurd hp hbad
    rw [if_neg hlen] at hp ⊢
    cases hl : Tlv.readLength 5 true (p.drop (Tlv.readType p true).2) with
    | none =>
        rw [hl] at hp
        exact absurd hp hbad
    | some r =>
        obtain ⟨h1, h6⟩ := readLength_le hl
        exact ⟨_, _, rfl, by omega, by omega, rfl, rfl⟩
  rw [readTag] at h ⊢
  split_ifs at h ⊢
  · exact hread _ h
  · exact hread _ h

theorem scanElement_next (h : scanElement content stale st = some (.inr st')) :
    st.pos < content.length ∧ st.pos + 2 ≤ st'.pos := by
  rw [scanElement] at h
  by_cases hend : content.length ≤ st.pos
  · simp [hend] at h
  rw [if_neg hend] at h
  dsimp only at h
  by_cases htag : (readTag content stale st.pos).1 < 2
  · simp [htag] at h
  rw [if_neg htag] at h
  refine ⟨by omega, ?_⟩
  have hmember : ∀ {pos : ℕ} {store : Member → Option Member},
      some (scanMember st pos store) = some (.inr st') → st'.pos = pos := by
    intro pos store hs
    rw [scanMember] at hs
    cases hfh : st.headers.head?.bind store with
    | none => simp [hfh] at hs
    | some fh =>
        rw [hfh, Option.elim_some, Option.some_inj, Sum.inr.injEq] at hs
        rw [← hs]
  by_cases hheader : (readTag content stale st.pos).2.tagType = tagHeader
  · rw [if_pos hheader, scanHeader] at h
    obtain ⟨r, -, h⟩ := Option.bind_eq_some_iff.mp h
    split_ifs at h
    · simp at h
    · obtain ⟨p, -, h⟩ := Option.map_eq_some_iff.mp h
      split_ifs at h
      rw [Sum.inr.injEq] at h
      rw [← h]
      dsimp only
      omega
  rw [if_neg hheader] at h
  by_cases hfile : (readTag content stale st.pos).2.tagType = tagFile
  · rw [if_pos hfile] at h
    rw [hmember h]
    omega
  rw [if_neg hfile] at h
  by_cases hhash : (readTag content stale st.pos).2.tagType = tagHash
  · rw [if_pos hhash] at h
    rw [hmember h]
    omega
  rw [if_neg hhash, Option.some_inj, Sum.inr.injEq] at h
  rw [← h]
  dsimp only
  omega

theorem scanLoop_end (hend : content.length ≤ st.pos) (k : ℕ) :
    scanLoop content stale k st = some (0, st.headers) := by
  cases k with
  | zero => rfl
  | succ k => rw [scanLoop, scanElement, if_pos hend, Option.bind_some, Sum.elim_inl]

theorem scanLoop_rounds {k m : ℕ} (hk : content.length < k + st.pos)
    (hm : content.length < m + st.pos) :
    scanLoop content stale k st = scanLoop content stale m st := by
  induction k generalizing m st with
  | zero => rw [scanLoop_end (by omega), scanLoop_end (by omega)]
  | succ k ih =>
      by_cases hend : content.length ≤ st.pos
      · rw [scanLoop_end hend, scanLoop_end hend]
      obtain ⟨m, rfl⟩ := Nat.exists_eq_add_one_of_ne_zero (n := m) (by omega)
      rw [scanLoop, scanLoop]
      apply Option.bind_congr
      intro r hr
      cases r with
      | inl rv => rfl
      | inr st' =>
          have hnext := scanElement_next hr
          exact ih (by omega) (by omega)

theorem scanLoop_of_reaches (h : ScanReaches content stale st st') :
    scanLoop content stale (content.length + 1) st =
      scanLoop content stale (content.length + 1) st' := by
  induction h with
  | refl => rfl
  | step h hnext ih =>
      have hpos := scanElement_next hnext
      rw [ih, scanLoop, hnext, Option.bind_some, Sum.elim_inr]
      exact scanLoop_rounds (by omega) (by omega)

/-- A header that is not a bad one is listed completely, or it ends the scan. -/
theorem scanHeader_good {start : ℕ} {tlv : Tlv} (hlt : tlv.tagLength < 2 ^ 32)
    (h : ¬BadHeader content st start tlv) : ∃ r, scanHeader content st start tlv = some r ∧
      ∀ st', r = .inr st' → start + tlv.tagLength ≤ content.length ∧ ∃ fh : Member,
        st'.headers = fh :: st.headers ∧ fh.headerStartPos = st.pos ∧
          fh.headerSize = tlv.tagSize := by
  rw [BadHeader, not_or] at h
  obtain ⟨hroom, hbad⟩ := h
  obtain ⟨r, hr⟩ := Option.ne_none_iff_exists'.mp hroom
  have hin : ¬r.2.block.length < min tlv.tagLength (content.length - start) :=
    fun hlow => hbad ⟨r, hr, Or.inl hlow⟩
  rw [scanHeader, hr, Option.bind_some, if_neg hin]
  by_cases hread : readForced content start tlv.tagLength < 0
  · rw [if_pos hread]
    refine ⟨_, rfl, fun st' hst => ?_⟩
    cases hst
  rw [if_neg hread]
  have hrest := fun hrest => hbad ⟨r, hr, Or.inr ⟨not_lt.mp hread, hrest⟩⟩
  rw [if_neg fun hfull => hrest (Or.inl hfull)]
  have htags := not_not.mp fun htags => hrest (Or.inr (Or.inr htags))
  obtain ⟨p, hp⟩ := (tlvToFileHeader_isSome _ _ 0 Member.new).mpr htags
  dsimp only
  rw [hp, Option.map_some]
  refine ⟨_, rfl, fun st' hst => ?_⟩
  by_cases hneg : p.1 < 0
  · rw [if_pos hneg] at hst
    cases hst
  rw [if_neg hneg, Sum.inr.injEq] at hst
  refine ⟨?_, { p.2 with headerStartPos := st.pos, headerSize := tlv.tagSize }, ?_, rfl, rfl⟩
  · have hcut : ¬content.length < start := fun hcut => hrest (Or.inr (Or.inl hcut))
    have hfits : tlv.tagLength % 2 ^ 32 = 0 ∨
        start + tlv.tagLength % 2 ^ 32 ≤ content.length := by
      by_contra hno
      rw [readForced, if_neg hno] at hread
      exact hread (by decide)
    rw [Nat.mod_eq_of_lt hlt] at hfits
    omega
  · rw [← hst]

/-- A bad header leaves the memory, or it is listed although its first bytes are cut off. -/
theorem scanHeader_bad {start : ℕ} {tlv : Tlv} (hlt : tlv.tagLength < 2 ^ 32)
    (h : BadHeader content st start tlv) : scanHeader content st start tlv = none ∨
      content.length < start ∧ tlv.tagLength = 0 ∧ ∃ st' : Scan,
        scanHeader content st start tlv = some (.inr st') ∧ st'.pos = start ∧ ∃ fh ∈ st'.headers,
          fh.headerStartPos = st.pos ∧ fh.headerSize = tlv.tagSize := by
  rw [scanHeader]
  rcases h with hnone | ⟨r, hr, hbad⟩
  · exact Or.inl (by rw [hnone]; rfl)
  rw [hr, Option.bind_some]
  by_cases hlow : r.2.block.length < min tlv.tagLength (content.length - start)
  · exact Or.inl (if_pos hlow)
  rw [if_neg hlow]
  obtain ⟨hread, hbad⟩ := hbad.resolve_left hlow
  rw [if_neg (not_lt.mpr hread)]
  by_cases hfull : r.2.block.length ≤ tlv.tagLength
  · exact Or.inl (if_pos hfull)
  rw [if_neg hfull]
  dsimp only
  rcases hbad.resolve_left hfull with hcut | htags
  · refine Or.inr ?_
    have hzero : tlv.tagLength = 0 := by
      by_contra hne
      rw [readForced, Nat.mod_eq_of_lt hlt, if_neg (by omega)] at hread
      exact absurd hread (by decide)
    refine ⟨hcut, hzero, ?_⟩
    simp only [hzero, List.take_zero, List.length_nil, tlvToFileHeader, le_refl,
      if_true, Option.map_some, lt_irrefl, if_false, Nat.add_zero]
    exact ⟨_, rfl, rfl, _, List.mem_cons_self, rfl, rfl⟩
  · refine Or.inl ?_
    rw [← tlvToFileHeader_isSome _ _ _ Member.new] at htags
    rw [Option.eq_none_iff_forall_ne_some.mpr fun p hp => htags ⟨p, hp⟩]
    rfl

theorem scanElement_good (hgood : GoodElement content stale st)
    (hpresent : ∀ fh ∈ st.headers, HeaderPresent content fh) :
    ∃ r, scanElement content stale st = some r ∧
      ∀ st', r = .inr st' → ∀ fh ∈ st'.headers, HeaderPresent content fh := by
  rw [scanElement]
  by_cases hend : content.length ≤ st.pos
  · rw [if_pos hend]
    refine ⟨_, rfl, fun st' hst => ?_⟩
    cases hst
  rw [if_neg hend]
  dsimp only
  by_cases htag : (readTag content stale st.pos).1 < 2
  · rw [if_pos htag]
    refine ⟨_, rfl, fun st' hst => ?_⟩
    cases hst
  rw [if_neg htag]
  have hmember : ∀ (pos : ℕ) (store : Member → Option Member),
      (∀ fh fh', store fh = some fh' →
        fh'.headerStartPos = fh.headerStartPos ∧ fh'.headerSize = fh.headerSize) →
      ∀ st', scanMember st pos store = .inr st' →
        ∀ fh ∈ st'.headers, HeaderPresent content fh := by
    intro pos store hstore st' hst
    rw [scanMember] at hst
    cases hfh : st.headers.head?.bind store with
    | none => simp [hfh] at hst
    | some fh' =>
        rw [hfh, Option.elim_some, Sum.inr.injEq] at hst
        obtain ⟨fh, hhead, heq⟩ := Option.bind_eq_some_iff.mp hfh
        obtain ⟨hstart, hsize⟩ := hstore fh fh' heq
        rw [← hst]
        refine List.forall_mem_cons.mpr ⟨?_, fun g hg => hpresent g (List.mem_of_mem_tail hg)⟩
        rw [HeaderPresent, hstart, hsize]
        exact hpresent fh (List.mem_of_mem_head? hhead)
  by_cases hheader : (readTag content stale st.pos).2.tagType = tagHeader
  · rw [if_pos hheader]
    obtain ⟨size, j, hsize, h2, -, hlength, htotal⟩ :=
      @readTag_spec content stale st.pos (by omega)
    obtain ⟨r, hr, hnext⟩ := scanHeader_good (by rw [hlength]; omega)
      (hgood (not_le.mp hend) (not_lt.mp htag) hheader)
    refine ⟨r, hr, fun st' hst => ?_⟩
    obtain ⟨hfits, fh, hheaders, hstart, hfh⟩ := hnext st' hst
    rw [hheaders]
    refine List.forall_mem_cons.mpr ⟨?_, hpresent⟩
    rw [HeaderPresent, hstart, hfh, htotal]
    rw [hsize, Int.toNat_natCast, hlength] at hfits
    omega
  rw [if_neg hheader]
  by_cases hfile : (readTag content stale st.pos).2.tagType = tagFile
  · rw [if_pos hfile]
    refine ⟨_, rfl, hmember _ _ fun fh fh' hstore => ?_⟩
    split_ifs at hstore
    obtain rfl := Option.some.inj hstore
    exact ⟨rfl, rfl⟩
  rw [if_neg hfile]
  by_cases hhash : (readTag content stale st.pos).2.tagType = tagHash
  · rw [if_pos hhash]
    refine ⟨_, rfl, hmember _ _ fun fh fh' hstore => ?_⟩
    obtain rfl := Option.some.inj hstore
    exact ⟨rfl, rfl⟩
  rw [if_neg hhash]
  refine ⟨_, rfl, fun st' hst => ?_⟩
  rw [Sum.inr.injEq] at hst
  rw [← hst]
  exact hpresent

theorem scanLoop_good (hgood : ∀ st', ScanReaches content stale st st' →
    GoodElement content stale st') (hreach : ScanReaches content stale st st')
    (hpresent' : ∀ fh ∈ st'.headers, HeaderPresent content fh) (k : ℕ) :
    ∃ rv headers, scanLoop content stale k st' = some (rv, headers) ∧
      ∀ fh ∈ headers, HeaderPresent content fh := by
  induction k generalizing st' with
  | zero => exact ⟨0, st'.headers, rfl, hpresent'⟩
  | succ k ih =>
      obtain ⟨r, hr, hnext⟩ := scanElement_good (hgood st' hreach) hpresent'
      rw [scanLoop, hr, Option.bind_some]
      cases r with
      | inl rv => exact ⟨rv, st'.headers, rfl, hpresent'⟩
      | inr st'' => exact ih (hreach.step hr) (hnext st'' rfl)

theorem scanLoop_bad (hbad : ¬GoodElement content stale st) :
    scanLoop content stale (content.length + 1) st = none ∨
      ∃ headers, scanLoop content stale (content.length + 1) st = some (0, headers) ∧
        ∃ fh ∈ headers, ¬HeaderPresent content fh := by
  rw [GoodElement] at hbad
  push Not at hbad
  obtain ⟨hpos, h2, htype, hbad⟩ := hbad
  obtain ⟨size, j, hsize, -, h8, hlength, htotal⟩ :=
    @readTag_spec content stale st.pos (by omega)
  have helement : scanElement content stale st = scanHeader content st
      (st.pos + (readTag content stale st.pos).1.toNat) (readTag content stale st.pos).2 := by
    rw [scanElement, if_neg (by omega)]
    dsimp only
    rw [if_neg (by omega), if_pos htype]
  rcases scanHeader_bad (by rw [hlength]; omega) hbad with
    hnone | ⟨hcut, hzero, st', hnext, hst', fh, hfh, hstart, hfhsize⟩
  · exact Or.inl (by rw [scanLoop, helement, hnone]; rfl)
  · refine Or.inr ⟨st'.headers, ?_, fh, hfh, ?_⟩
    · rw [scanLoop, helement, hnext, Option.bind_some, Sum.elim_inr, scanLoop_end (by omega)]
    · rw [HeaderPresent, hstart, hfhsize, htotal]
      rw [hsize, Int.toNat_natCast] at hcut
      omega

theorem scanSound_iff (content : List UInt8) (stale : UInt8) :
    ScanSound content stale ↔ ScanFits content stale := by
  have hstart : ∃ mbuf, Buffer.new 1024 = some mbuf := ⟨_, rfl⟩
  obtain ⟨mbuf, hmbuf⟩ := hstart
  have hscan : scan content stale = scanLoop content stale (content.length + 1) ⟨0, mbuf, []⟩ := by
    rw [scan, hmbuf, Option.bind_some]
  constructor
  · rintro ⟨rv, headers, hrun, hpresent⟩ mbuf' st hnew hreach
    obtain rfl := Option.some.inj (hmbuf.symm.trans hnew)
    by_contra hbad
    rw [hscan, scanLoop_of_reaches hreach] at hrun
    rcases scanLoop_bad hbad with hnone | ⟨headers', hsome, fh, hfh, hcut⟩
    · rw [hnone] at hrun
      cases hrun
    · rw [hsome] at hrun
      obtain ⟨rfl, rfl⟩ := Prod.mk.inj (Option.some.inj hrun)
      exact hcut (hpresent le_rfl fh hfh)
  · intro hfits
    obtain ⟨rv, headers, hrun, hpresent⟩ := scanLoop_good (fun st hreach => hfits mbuf st hmbuf hreach)
      (.refl ⟨0, mbuf, []⟩) (by simp) (content.length + 1)
    exact ⟨rv, headers, by rw [hscan, hrun], fun _ => hpresent⟩

end
end Gwenhywfar.Sar
