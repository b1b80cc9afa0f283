import Gwenhywfar.Base.Buffer
import Gwenhywfar.Msgio.Msg

/-! # Writing into a `GWEN_MSG`

* `writeTo`: `GWEN_Msg_WriteUint8At` and the like, and `GWEN_Msg_WriteBytesAt`.  When they make the
  block larger they clear the bytes behind the position instead of those behind the old block.
* `Op`: `GWEN_Msg_AddBytes` and the like.
* `writes_iff`: a write leaves the other bytes as they are exactly when none of them is cleared;
  at the end of a message calls append to it, and the numbers are read back. -/

namespace Gwenhywfar.Msg

/-! ### Writing at a position -/

/-- The data of a write. -/
inductive Data where
  | uint8 (v : UInt8)
  | uint16 (v : UInt16)
  | uint32 (v : UInt32)
  | uint64 (v : UInt64)
  | bytes (bs : List UInt8)
deriving DecidableEq

def Data.encoding : Data → List UInt8
  | .uint8 v => littleEndian 1 v.toNat
  | .uint16 v => littleEndian 2 v.toNat
  | .uint32 v => littleEndian 4 v.toNat
  | .uint64 v => littleEndian 8 v.toNat
  | .bytes bs => bs

/-- `_ensureWritePos` asks for a block of `newSize` bytes, which is none when the sum is too large;
`realloc` gives no block then, unless there was none before. -/
def NoBlock (msg : Msg) (newPos : ℕ) : Prop :=
  msg.maxSize ≠ 0 ∧ msg.maxSize ≤ newPos ∧ add32 newPos sizeStep / 4096 * 4096 = 0

instance (msg : Msg) (newPos : ℕ) : Decidable (NoBlock msg newPos) :=
  inferInstanceAs (Decidable (_ ∧ _ ∧ _))

/-- `GWEN_Msg_WriteUint8At`, `GWEN_Msg_WriteUint16At`, `GWEN_Msg_WriteUint32At`,
`GWEN_Msg_WriteUint64At` and `GWEN_Msg_WriteBytesAt`; without a result bytes outside of the block
are written. -/
def writeTo (msg : Msg) (pos : ℕ) (data : Data) : Option (ℤ × Msg) :=
  if data.encoding = [] then some (errorInvalid, msg)
  else if NoBlock msg (add32 pos data.encoding.length) then some (errorMemoryFull, msg)
  else (msg.writeAt pos data.encoding).map fun msg => (0, msg)

/-! ### Adding and reading -/

/-- The loop of `GWEN_Msg_AddString` that adds the filler. -/
def addFiller (filler : UInt8) : ℕ → Msg → Option Msg
  | 0, msg => some msg
  | n + 1, msg => (msg.addUint8 filler).bind (addFiller filler n)

/-- `GWEN_Msg_AddString`; nothing is added when the string is too long. -/
def addString (msg : Msg) (s : Option (List UInt8)) (maxSize : ℕ) (filler : UInt8) : Option Msg :=
  match s with
  | none => addFiller filler (Buffer.toInt maxSize).toNat msg
  | some s =>
      let len := s.length % 2 ^ 32
      if maxSize < len then some msg
      else
        (msg.addBytes (s.take len)).bind
          (addFiller filler (Buffer.toInt (maxSize - len)).toNat)

/-- The calls that add to a message. -/
inductive Op where
  | add (data : Data)
  | addString (s : Option (List UInt8)) (maxSize : ℕ) (filler : UInt8)
deriving DecidableEq

/-- A call: `GWEN_Msg_AddUint8` and the like for numbers, `GWEN_Msg_AddBytes` for bytes and
`GWEN_Msg_AddString`. -/
def step (msg : Msg) : Op → Option Msg
  | .add (.uint8 v) => msg.addUint8 v
  | .add (.uint16 v) => msg.addUint16 v
  | .add (.uint32 v) => msg.addUint32 v
  | .add (.uint64 v) => addUint 8 msg v.toNat
  | .add (.bytes bs) => msg.addBytes bs
  | .addString s maxSize filler => msg.addString s maxSize filler

/-- What a call appends. -/
def Op.encoding : Op → List UInt8
  | .add data => data.encoding
  | .addString s maxSize filler => s.getD [] ++ List.replicate (maxSize - (s.getD []).length) filler

/-- The number of bytes that a call appends is an `uint32_t`, and a string is not too long. -/
def Op.Proper : Op → Prop
  | .add data => data.encoding.length < 2 ^ 32
  | .addString s maxSize _ => (s.getD []).length ≤ maxSize ∧ maxSize < 2 ^ 32

/-- `GWEN_Msg_GetUint8At` and the like, for `k` bytes at an offset that is not negative. -/
def getUintAt (k : ℕ) (msg : Msg) (offs defaultValue : ℕ) : ℕ :=
  if offs + k ≤ msg.bytesInBuffer then ofLittleEndian ((msg.buffer.drop offs).take k)
  else defaultValue

/-- The number of a call is read back at this offset, which is an `int`. -/
def ReadsBack (msg : Msg) (offs : ℕ) : Op → Prop
  | .add (.uint8 v) => offs + 1 < 2 ^ 31 → ∀ d, getUintAt 1 msg offs d = v.toNat
  | .add (.uint16 v) => offs + 2 < 2 ^ 31 → ∀ d, getUintAt 2 msg offs d = v.toNat
  | .add (.uint32 v) => offs + 4 < 2 ^ 31 → ∀ d, getUintAt 4 msg offs d = v.toNat
  | .add (.uint64 v) => offs + 8 < 2 ^ 31 → ∀ d, getUintAt 8 msg offs d = v.toNat
  | _ => True

/-! ### What a write and a run have to do -/

/-- The position is one of a byte of the message or the end, and the bytes are in the block. -/
structure Valid (msg : Msg) : Prop where
  pos : msg.currentPos ≤ msg.bytesInBuffer
  fits : msg.bytesInBuffer ≤ msg.maxSize
  size : msg.buffer.length = msg.maxSize
  lt : msg.maxSize < 2 ^ 32

/-- A write stays inside of the block, and when it succeeds the other bytes are the same. -/
def KeepsRest (msg : Msg) (pos : ℕ) (data : Data) : Prop :=
  ∃ rv msg', writeTo msg pos data = some (rv, msg') ∧ (rv = 0 →
    ∀ i < msg.bytesInBuffer, ¬(pos ≤ i ∧ i < pos + data.encoding.length) →
      msg'.buffer[i]? = msg.buffer[i]?)

/-- When the block becomes larger, the bytes of the message that are cleared and not written are
zero already. -/
def ClearsNothing (msg : Msg) (pos len : ℕ) : Prop :=
  msg.maxSize ≤ pos + len → ∀ i, msg.currentPos ≤ i → i < msg.bytesInBuffer →
    i < msg.currentPos + ((pos + len + 4096) / 4096 * 4096 - msg.maxSize) →
      ¬(pos ≤ i ∧ i < pos + len) → msg.buffer[i]? = some 0

def Appends (msg : Msg) (ops : List Op) : Prop :=
  ∃ msg', exec step msg ops = some msg' ∧ msg'.bytes = msg.bytes ++ ops.flatMap Op.encoding ∧
    msg'.currentPos = msg'.bytesInBuffer ∧ ∀ pre o post, ops = pre ++ o :: post →
      ReadsBack msg' (msg.bytesInBuffer + (pre.flatMap Op.encoding).length) o

/-- There is room for the bytes of a call, or a larger block is fewer than 2^32 bytes long; a string
has fewer than 2^31 bytes to fill. -/
def HasRoom (msg : Msg) (o : Op) : Prop :=
  (msg.currentPos + o.encoding.length < msg.maxSize ∨
    msg.currentPos + o.encoding.length + 4096 < 2 ^ 32) ∧
  match o with
  | .addString s maxSize _ => maxSize - (s.getD []).length < 2 ^ 31
  | _ => True

instance (msg : Msg) : ∀ o, Decidable (HasRoom msg o)
  | .add _ => inferInstanceAs (Decidable ((_ ∨ _) ∧ True))
  | .addString _ _ _ => inferInstanceAs (Decidable ((_ ∨ _) ∧ _))

/-! ### Larger blocks -/

section
variable {msg : Msg} {pos newPos len : ℕ}

theorem newSize_eq (h : newPos + 4096 < 2 ^ 32) :
    add32 newPos sizeStep / 4096 * 4096 = (newPos + 4096) / 4096 * 4096 := by
  rw [sizeStep, add32_of_lt h]

theorem newSize_eq_zero (h : 2 ^ 32 ≤ newPos + 4096) (hpos : newPos < 2 ^ 32) :
    add32 newPos sizeStep / 4096 * 4096 = 0 := by
  rw [sizeStep, add32]
  omega

theorem noBlock_iff (hpos : newPos < 2 ^ 32) :
    NoBlock msg newPos ↔ msg.maxSize ≠ 0 ∧ msg.maxSize ≤ newPos ∧ 2 ^ 32 ≤ newPos + 4096 := by
  unfold NoBlock
  refine and_congr_right fun _ => and_congr_right fun _ =>
    ⟨fun h => ?_, fun h => newSize_eq_zero h hpos⟩
  by_contra hlt
  rw [newSize_eq (by omega)] at h
  omega

/-- A block that becomes larger: where it is cleared, and what it keeps. -/
theorem ensureWritePos_grow (h : Valid msg) (hgrow : msg.maxSize ≤ newPos)
    (hlt : newPos + 4096 < 2 ^ 32) : ∃ buffer, msg.ensureWritePos newPos =
        some { msg with buffer := buffer, maxSize := (newPos + 4096) / 4096 * 4096 } ∧
      buffer.length = (newPos + 4096) / 4096 * 4096 ∧ ∀ i < msg.bytesInBuffer,
        buffer[i]? = if msg.currentPos ≤ i ∧
          i < msg.currentPos + ((newPos + 4096) / 4096 * 4096 - msg.maxSize) then some 0
        else msg.buffer[i]? := by
  have hpos := h.pos
  have hfits := h.fits
  have hnew : newPos < (newPos + 4096) / 4096 * 4096 := by omega
  unfold ensureWritePos
  rw [if_pos hgrow]
  dsimp only
  rw [newSize_eq hlt]
  generalize (newPos + 4096) / 4096 * 4096 = newSize at hnew
  have hlen := Block.length_resize msg.buffer newSize (0 : UInt8)
  obtain ⟨buffer, hstore, hblen, hget⟩ := @Block.store_of_le _ (Block.resize msg.buffer newSize 0)
    (List.replicate (newSize - msg.maxSize) 0) msg.currentPos
    (by rw [List.length_replicate, hlen]; omega)
  refine ⟨buffer, by rw [hstore, Option.map_some], hblen.trans hlen, fun i hi => ?_⟩
  rw [hget, List.length_replicate]
  split
  · next hin => rw [List.getElem?_replicate, if_pos (by omega)]
  · exact Block.getElem?_resize _ (by rw [h.size]; omega) (by rw [h.size]; omega)

variable {bytes : List UInt8}

theorem writeAt_some {m : Msg}
    (hensure : msg.ensureWritePos (add32 pos bytes.length) = some m)
    (hroom : pos + bytes.length ≤ m.buffer.length) :
    ∃ buffer, msg.writeAt pos bytes = some { m with buffer := buffer } ∧ ∀ i,
      ¬(pos ≤ i ∧ i < pos + bytes.length) → buffer[i]? = m.buffer[i]? := by
  obtain ⟨buffer, hstore, -, hget⟩ := Block.store_of_le hroom
  refine ⟨buffer, ?_, fun i hi => by rw [hget, if_neg hi]⟩
  unfold writeAt
  simp only [hensure, hstore, Option.bind_eq_bind, Option.bind_some]

theorem writeAt_none {m : Msg}
    (hensure : msg.ensureWritePos (add32 pos bytes.length) = some m)
    (hroom : ¬pos + bytes.length ≤ m.buffer.length) : msg.writeAt pos bytes = none := by
  unfold writeAt
  simp only [hensure, Option.bind_eq_bind, Option.bind_some, Block.store, if_neg hroom,
    Option.bind_none]

/-- A message without a block gets one without bytes. -/
theorem writeAt_empty (h : Valid msg) (h0 : msg.maxSize = 0)
    (hpos : pos < 2 ^ 32) (hne : bytes ≠ []) (hwrap : 2 ^ 32 ≤ add32 pos bytes.length + 4096) :
    msg.writeAt pos bytes = none := by
  have hfits := h.pos.trans h.fits
  have hsize : (Block.resize msg.buffer 0 (0 : UInt8)).length = 0 := Block.length_resize _ _ _
  obtain ⟨buffer, hstore, hlen, -⟩ := @Block.store_of_le _ (Block.resize msg.buffer 0 0)
    (List.replicate (0 - msg.maxSize) 0) msg.currentPos (by
      rw [List.length_replicate, hsize]
      omega)
  have hensure : msg.ensureWritePos (add32 pos bytes.length) =
      some { msg with buffer := buffer, maxSize := 0 } := by
    unfold ensureWritePos
    rw [if_pos (by omega)]
    dsimp only
    rw [newSize_eq_zero hwrap (Nat.mod_lt _ (by decide)), hstore, Option.map_some]
  refine writeAt_none hensure ?_
  have hlt := List.length_pos_of_ne_nil hne
  dsimp only
  omega

theorem writeAt_wrap (h : Valid msg) (hpos : pos < 2 ^ 32)
    (hlen : bytes.length < 2 ^ 32) (hwrap : 2 ^ 32 ≤ pos + bytes.length)
    (hblock : ¬NoBlock msg (add32 pos bytes.length)) : msg.writeAt pos bytes = none := by
  have hsum : add32 pos bytes.length = pos + bytes.length - 2 ^ 32 := by
    rw [add32]
    omega
  have hlt : add32 pos bytes.length < 2 ^ 32 := by omega
  rw [noBlock_iff hlt] at hblock
  by_cases hnone : msg.maxSize = 0 ∧ 2 ^ 32 ≤ add32 pos bytes.length + 4096
  · exact writeAt_empty h hnone.1 hpos (List.ne_nil_of_length_pos (by omega)) hnone.2
  by_cases hgrow : msg.maxSize ≤ add32 pos bytes.length
  · obtain ⟨buffer, hensure, hsize, -⟩ := ensureWritePos_grow h hgrow (by omega)
    refine writeAt_none hensure ?_
    dsimp only
    omega
  · have hensure : msg.ensureWritePos (add32 pos bytes.length) = some msg := if_neg hgrow
    have hsize := h.size
    have hmax := h.lt
    exact writeAt_none hensure (by omega)

/-- What a write leaves as it is. -/
theorem keepsRest_iff (h : Valid msg) (data : Data) (hpos : pos < 2 ^ 32)
    (hlen : data.encoding.length < 2 ^ 32) :
    KeepsRest msg pos data ↔ data.encoding = [] ∨ NoBlock msg (add32 pos data.encoding.length) ∨
      pos + data.encoding.length < 2 ^ 32 ∧
        (msg.maxSize = 0 → pos + data.encoding.length + 4096 < 2 ^ 32) ∧
        ClearsNothing msg pos data.encoding.length := by
  unfold KeepsRest writeTo
  by_cases hnil : data.encoding = []
  · rw [if_pos hnil]
    exact iff_of_true ⟨_, _, rfl, fun h0 => absurd h0 (by decide)⟩ (Or.inl hnil)
  rw [if_neg hnil]
  by_cases hblock : NoBlock msg (add32 pos data.encoding.length)
  · rw [if_pos hblock]
    exact iff_of_true ⟨_, _, rfl, fun h0 => absurd h0 (by decide)⟩ (Or.inr (Or.inl hblock))
  rw [if_neg hblock, or_iff_right hnil, or_iff_right hblock]
  by_cases hwrap : 2 ^ 32 ≤ pos + data.encoding.length
  · rw [writeAt_wrap h hpos hlen hwrap hblock]
    refine iff_of_false ?_ fun hc => absurd hc.1 (Nat.not_lt.mpr hwrap)
    rintro ⟨rv, msg', hnone, -⟩
    cases hnone
  have hsum : add32 pos data.encoding.length = pos + data.encoding.length :=
    add32_of_lt (Nat.not_le.mp hwrap)
  rw [and_iff_right (Nat.not_le.mp hwrap)]
  by_cases hnone : msg.maxSize = 0 ∧ 2 ^ 32 ≤ pos + data.encoding.length + 4096
  · rw [writeAt_empty h hnone.1 hpos hnil (hsum ▸ hnone.2)]
    refine iff_of_false ?_ fun hc => absurd (hc.1 hnone.1) (Nat.not_lt.mpr hnone.2)
    rintro ⟨rv, msg', hnone, -⟩
    cases hnone
  rw [and_iff_right fun h0 => Nat.not_le.mp fun hle => hnone ⟨h0, hle⟩]
  unfold ClearsNothing
  by_cases hgrow : msg.maxSize ≤ pos + data.encoding.length
  · rw [noBlock_iff (hsum ▸ Nat.not_le.mp hwrap), hsum] at hblock
    obtain ⟨buffer, hensure, hsize, hget⟩ := ensureWritePos_grow h hgrow (by omega)
    obtain ⟨buffer', hwrite, hrest⟩ := writeAt_some (hsum.symm ▸ hensure)
      (by rw [hsize]; omega)
    rw [hwrite, Option.map_some]
    have hcell : ∀ i < msg.bytesInBuffer,
        ¬(pos ≤ i ∧ i < pos + data.encoding.length) → (buffer'[i]? = msg.buffer[i]? ↔
          (msg.currentPos ≤ i → i < msg.currentPos +
            ((pos + data.encoding.length + 4096) / 4096 * 4096 - msg.maxSize) →
              msg.buffer[i]? = some 0)) := by
      intro i hi hout
      rw [hrest i hout]
      dsimp only
      rw [hget i hi]
      split
      · next hin => exact ⟨fun heq _ _ => heq.symm, fun heq => (heq hin.1 hin.2).symm⟩
      · next hin => exact ⟨fun _ h1 h2 => absurd ⟨h1, h2⟩ hin, fun _ => rfl⟩
    constructor
    · rintro ⟨rv, msg', heq, hkeeps⟩
      obtain ⟨rfl, rfl⟩ := Prod.mk.inj (Option.some.inj heq)
      exact fun _ i h1 hi h2 hout => (hcell i hi hout).mp (hkeeps rfl i hi hout) h1 h2
    · intro hclear
      exact ⟨_, _, rfl, fun _ i hi hout =>
        (hcell i hi hout).mpr fun h1 h2 => hclear hgrow i h1 hi h2 hout⟩
  · have hensure : msg.ensureWritePos (add32 pos data.encoding.length) = some msg := by
      rw [hsum]
      exact if_neg hgrow
    have hsize := h.size
    obtain ⟨buffer', hwrite, hrest⟩ := writeAt_some hensure (by omega)
    rw [hwrite, Option.map_some]
    exact iff_of_true ⟨_, _, rfl, fun _ i _ hout => hrest i hout⟩ fun hge => absurd hge hgrow

/-! ### Adding to a message -/

/-- There is room for so many bytes behind the first ones, or a larger block can be had. -/
def Room (msg : Msg) (count n : ℕ) : Prop :=
  count + n < msg.maxSize ∨ count + n + 4096 < 2 ^ 32

theorem Holds.valid {p : List UInt8} (h : msg.Holds p) (hlt : msg.maxSize < 2 ^ 32) : Valid msg :=
  ⟨by rw [h.pos, h.count], by rw [h.count]; exact h.fits, h.size, hlt⟩

theorem Valid.holds (h : Valid msg) (heq : msg.currentPos = msg.bytesInBuffer) :
    msg.Holds msg.bytes := by
  have hlen : msg.bytes.length = msg.bytesInBuffer := by
    have hfits := h.fits
    have hsize := h.size
    unfold bytes
    rw [List.length_take]
    omega
  exact ⟨hlen.symm, heq.trans hlen.symm, h.size, hlen ▸ h.fits, rfl⟩

/-- A message that has been filled, and whose block is not smaller than before. -/
structure Grows (msg msg' : Msg) (p : List UInt8) : Prop where
  holds : msg'.Holds p
  le : msg.maxSize ≤ msg'.maxSize
  lt : msg'.maxSize < 2 ^ 32

theorem ensureWritePos_room {p : List UInt8} (h : msg.Holds p) (hlt : msg.maxSize < 2 ^ 32)
    {n : ℕ} (hroom : Room msg p.length n) :
    ∃ m, msg.ensureWritePos (p.length + n) = some m ∧ Grows msg m p ∧ p.length + n ≤ m.maxSize := by
  by_cases hgrow : msg.maxSize ≤ p.length + n
  · have hnew : p.length + n + 4096 < 2 ^ 32 := hroom.resolve_left (Nat.not_lt.mpr hgrow)
    obtain ⟨m, hm, hholds, hle, -⟩ := ensureWritePos_holds h (Nat.le_add_right p.length n) hnew
    obtain ⟨buffer, hensure, -⟩ := ensureWritePos_grow (h.valid hlt) hgrow hnew
    have hsize : m.maxSize = (p.length + n + 4096) / 4096 * 4096 := by
      rw [hm, Option.some.injEq] at hensure
      rw [hensure]
    exact ⟨m, hm, ⟨hholds, by omega, by omega⟩, hle⟩
  · exact ⟨msg, if_neg hgrow, ⟨h, le_rfl, hlt⟩, by omega⟩

theorem addBytes_room {p : List UInt8} (h : msg.Holds p) (hlt : msg.maxSize < 2 ^ 32)
    {bs : List UInt8} (hroom : Room msg p.length bs.length) :
    ∃ msg', msg.addBytes bs = some msg' ∧ Grows msg msg' (p ++ bs) := by
  obtain ⟨m, hm, hgrows, hle⟩ := ensureWritePos_room h hlt hroom
  obtain ⟨buffer, hb, hlen, htake⟩ := store_holds hgrows.holds hle
  have hadd : add32 p.length bs.length = p.length + bs.length := add32_of_lt (by
    rcases hroom with hroom | hroom <;> omega)
  refine ⟨{ m with
      buffer := buffer
      currentPos := add32 m.currentPos bs.length
      bytesInBuffer := add32 m.bytesInBuffer bs.length }, ?_, ⟨⟨?_, ?_, hlen, ?_, ?_⟩,
        hgrows.le, hgrows.lt⟩⟩
  · simp only [addBytes, h.pos, hadd, hm, hgrows.holds.pos, hb, Option.bind_eq_bind,
      Option.bind_some]
  · simp only [hgrows.holds.count, hadd, List.length_append]
  · simp only [hgrows.holds.pos, hadd, List.length_append]
  · rw [List.length_append]
    exact hle
  · simp only [Msg.bytes, hgrows.holds.count, hadd, htake]

theorem ensureWritePos_pos {m : Msg} (h : msg.ensureWritePos newPos = some m) :
    m.currentPos = msg.currentPos := by
  unfold ensureWritePos at h
  split at h
  · obtain ⟨buffer, -, rfl⟩ := Option.map_eq_some_iff.mp h
    rfl
  · cases h
    rfl

theorem addUint_eq (k v : ℕ) (msg : Msg) : addUint k msg v = msg.addBytes (littleEndian k v) := by
  unfold addUint writeAt addBytes
  rw [length_littleEndian]
  cases hensure : msg.ensureWritePos (add32 msg.currentPos k) with
  | none => rfl
  | some m =>
      simp only [Option.bind_eq_bind, Option.bind_some, ensureWritePos_pos hensure]
      cases Block.store m.buffer msg.currentPos (littleEndian k v) <;> rfl

theorem Room.of_le {count n n' : ℕ} (h : Room msg count n) (hle : n' ≤ n) : Room msg count n' := by
  unfold Room at h ⊢
  omega

theorem Room.after {msg' : Msg} {p bs : List UInt8} {n : ℕ}
    (h : Room msg p.length (bs.length + n)) (hgrows : Grows msg msg' (p ++ bs)) :
    Room msg' (p ++ bs).length n := by
  have hle := hgrows.le
  unfold Room at h ⊢
  rw [List.length_append]
  omega

theorem addFiller_room (filler : UInt8) : ∀ {n : ℕ} {msg : Msg} {p : List UInt8},
    msg.Holds p → msg.maxSize < 2 ^ 32 → Room msg p.length n →
      ∃ msg', addFiller filler n msg = some msg' ∧
        Grows msg msg' (p ++ List.replicate n filler)
  | 0, msg, p, h, hlt, _ => ⟨msg, rfl, by rwa [List.replicate_zero, List.append_nil], le_rfl, hlt⟩
  | n + 1, msg, p, h, hlt, hroom => by
      have hbyte : littleEndian 1 filler.toNat = [filler] := by
        simp [littleEndian]
      obtain ⟨m, hm, hgrows⟩ := @addBytes_room msg p h hlt [filler]
        (hroom.of_le (by simp))
      have hroom' : Room m (p ++ [filler]).length n := by
        refine Room.after ?_ hgrows
        rwa [List.length_singleton, Nat.add_comm]
      obtain ⟨msg', hm', hgrows'⟩ := addFiller_room filler hgrows.holds hgrows.lt hroom'
      refine ⟨msg', ?_, ?_, hgrows.le.trans hgrows'.le, hgrows'.lt⟩
      · rw [addFiller, addUint8, addUint_eq, hbyte, hm, Option.bind_some, hm']
      · have hh := hgrows'.holds
        rwa [List.append_assoc, List.singleton_append] at hh

theorem step_holds {p : List UInt8} (h : msg.Holds p) (hlt : msg.maxSize < 2 ^ 32) {o : Op}
    (hproper : o.Proper) (hfits : HasRoom msg o) :
    ∃ msg', step msg o = some msg' ∧ Grows msg msg' (p ++ o.encoding) := by
  have hroom : Room msg p.length o.encoding.length := h.pos ▸ hfits.1
  cases o with
  | add data =>
      have hstep : step msg (.add data) = msg.addBytes data.encoding := by
        cases data with
        | bytes bs => rfl
        | uint8 v | uint16 v | uint32 v | uint64 v => exact addUint_eq _ _ _
      rw [hstep]
      exact addBytes_room h hlt hroom
  | addString s maxSize filler =>
      obtain ⟨hle, hmax⟩ := hproper
      have hcount : maxSize - (s.getD []).length < 2 ^ 31 := hfits.2
      have hint : (Buffer.toInt (maxSize - (s.getD []).length)).toNat =
          maxSize - (s.getD []).length := by
        rw [Buffer.toInt, if_pos hcount, Int.toNat_natCast]
      change Room msg p.length (s.getD [] ++
        List.replicate (maxSize - (s.getD []).length) filler).length at hroom
      rw [List.length_append, List.length_replicate] at hroom
      cases s with
      | none =>
          change ∃ msg', addFiller filler (Buffer.toInt (maxSize - 0)).toNat msg = some msg' ∧
            Grows msg msg' (p ++ List.replicate (maxSize - 0) filler)
          change (Buffer.toInt (maxSize - 0)).toNat = maxSize - 0 at hint
          rw [hint]
          exact addFiller_room filler h hlt (hroom.of_le (Nat.le_add_left _ _))
      | some s =>
          rw [Option.getD_some] at hle hint hroom
          have hmod : s.length % 2 ^ 32 = s.length := Nat.mod_eq_of_lt (by omega)
          change ∃ msg', addString msg (some s) maxSize filler = some msg' ∧
            Grows msg msg' (p ++ (s ++ List.replicate (maxSize - s.length) filler))
          unfold addString
          dsimp only
          rw [hmod, if_neg (Nat.not_lt.mpr hle), List.take_length, hint]
          obtain ⟨m, hm, hgrows⟩ := @addBytes_room msg p h hlt s (hroom.of_le
            (Nat.le_add_right _ _))
          obtain ⟨msg', hm', hgrows'⟩ := addFiller_room filler hgrows.holds hgrows.lt
            (hroom.after hgrows)
          refine ⟨msg', by rw [hm, Option.bind_some, hm'], ?_, hgrows.le.trans hgrows'.le,
            hgrows'.lt⟩
          rw [← List.append_assoc]
          exact hgrows'.holds

theorem exec_holds : ∀ {ops : List Op} {msg : Msg} {p : List UInt8}, msg.Holds p →
    msg.maxSize < 2 ^ 32 → (∀ o ∈ ops, o.Proper) → Along step HasRoom msg ops →
      ∃ msg', exec step msg ops = some msg' ∧ msg'.Holds (p ++ ops.flatMap Op.encoding)
  | [], msg, p, h, _, _, _ => ⟨msg, rfl, by rwa [List.flatMap_nil, List.append_nil]⟩
  | o :: ops, msg, p, h, hlt, hproper, hfits => by
      obtain ⟨m, hm, hgrows⟩ := step_holds h hlt (hproper o List.mem_cons_self) hfits.1
      obtain ⟨msg', hm', hholds⟩ := exec_holds hgrows.holds hgrows.lt
        (fun p hp => hproper p (List.mem_cons_of_mem _ hp)) ((along_cons hm).mp hfits).2
      refine ⟨msg', by rw [exec_cons, hm, Option.bind_some, hm'], ?_⟩
      rwa [List.flatMap_cons, ← List.append_assoc]

theorem getUintAt_holds {a b : List UInt8} {k v : ℕ} (h : msg.Holds (a ++ (littleEndian k v ++ b)))
    (hv : v < 256 ^ k) (d : ℕ) : getUintAt k msg a.length d = v := by
  have hbytes := bytes_eq h
  have hcount := h.count
  rw [List.length_append, List.length_append, length_littleEndian] at hcount
  unfold getUintAt
  rw [if_pos (by omega)]
  have hcells : (msg.buffer.drop a.length).take k = littleEndian k v := by
    have htake := congrArg (fun l => (l.drop a.length).take k) hbytes
    rw [List.drop_left, List.take_left' (length_littleEndian k v), List.drop_take,
      List.take_take, min_eq_left (by simp [length_littleEndian])] at htake
    exact htake
  rw [hcells, ofLittleEndian_littleEndian k v hv]

theorem readsBack_holds {a b : List UInt8} {o : Op} (h : msg.Holds (a ++ (o.encoding ++ b))) :
    ReadsBack msg a.length o := by
  cases o with
  | addString s maxSize filler => trivial
  | add data =>
      cases data with
      | bytes bs => trivial
      | uint8 v => exact fun _ d => getUintAt_holds h v.toNat_lt d
      | uint16 v => exact fun _ d => getUintAt_holds h v.toNat_lt d
      | uint32 v => exact fun _ d => getUintAt_holds h v.toNat_lt d
      | uint64 v => exact fun _ d => getUintAt_holds h v.toNat_lt d

theorem appends {ops : List Op} (h : Valid msg) (heq : msg.currentPos = msg.bytesInBuffer)
    (hproper : ∀ o ∈ ops, o.Proper) (hfits : Along step HasRoom msg ops) : Appends msg ops := by
  have hholds := h.holds heq
  obtain ⟨msg', hexec, hholds'⟩ := exec_holds hholds h.lt hproper hfits
  refine ⟨msg', hexec, hholds'.cells, hholds'.pos.trans hholds'.count.symm, ?_⟩
  rintro pre o post rfl
  rw [hholds.count, ← List.length_append]
  refine @readsBack_holds msg' (msg.bytes ++ pre.flatMap Op.encoding)
    (post.flatMap Op.encoding) o ?_
  rwa [List.flatMap_append, List.flatMap_cons, ← List.append_assoc] at hholds'

end

/-- A write leaves the rest of a message as it is exactly when it clears nothing of it, and calls
at the end of a message that fit append to it. -/
theorem writes_iff (msg : Msg) (h : Valid msg) (pos : ℕ) (hpos : pos < 2 ^ 32) (data : Data)
    (hlen : data.encoding.length < 2 ^ 32) (ops : List Op) (hproper : ∀ o ∈ ops, o.Proper)
    (hfits : Along step HasRoom msg ops) : (KeepsRest msg pos data ↔
      data.encoding = [] ∨ NoBlock msg (add32 pos data.encoding.length) ∨
        pos + data.encoding.length < 2 ^ 32 ∧
          (msg.maxSize = 0 → pos + data.encoding.length + 4096 < 2 ^ 32) ∧
          ClearsNothing msg pos data.encoding.length) ∧
      (msg.currentPos = msg.bytesInBuffer → Appends msg ops) :=
  ⟨keepsRest_iff h data hpos hlen, fun heq => appends h heq hproper hfits⟩

/-- A message of one byte in a block of eight. -/
def sample : Msg := ⟨1, 1, 8, [7, 0, 0, 0, 0, 0, 0, 0], 0⟩

/-- A byte is replaced, and a number and a string are appended. -/
theorem writes_sample : KeepsRest sample 0 (.uint8 5) ∧
      Appends sample [.add (.uint16 258), .addString (some [65]) 3 32] := by
  have h := writes_iff sample ⟨by decide, by decide, by decide, by decide⟩ 0 (by decide)
    (.uint8 5) (by decide) [.add (.uint16 258), .addString (some [65]) 3 32]
    (by
      intro o ho
      rw [List.mem_cons, List.mem_singleton] at ho
      rcases ho with rfl | rfl
      · exact (by decide : (Data.uint16 258).encoding.length < 2 ^ 32)
      · exact ⟨by decide, by decide⟩)
    (by decide)
  exact ⟨h.1.mpr (Or.inr (Or.inr ⟨by decide, by decide, fun hgrow => absurd hgrow (by decide)⟩)),
    h.2 rfl⟩

/-- A message of two bytes that has been rewound. -/
def rewound : Msg := ⟨2, 0, 2, [1, 2], 0⟩

/-- A byte that is written behind the message clears the message. -/
theorem not_keepsRest_rewound : ¬∀ msg, Valid msg → ∀ pos data, pos < 2 ^ 32 →
    data.encoding.length < 2 ^ 32 → KeepsRest msg pos data := by
  intro h
  have hvalid : Valid rewound := ⟨by decide, by decide, by decide, by decide⟩
  have hkeeps := (keepsRest_iff hvalid (.uint8 3) (by decide) (by decide)).mp
    (h rewound hvalid 2 (.uint8 3) (by decide) (by decide))
  rcases hkeeps with hnil | hblock | ⟨-, -, hclear⟩
  · exact absurd hnil (by decide)
  · exact absurd hblock (by decide)
  · exact absurd (hclear (by decide) 0 (by decide) (by decide) (by decide) (by decide)) (by decide)
end Gwenhywfar.Msg
