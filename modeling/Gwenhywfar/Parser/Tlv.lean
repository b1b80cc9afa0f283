import Gwenhywfar.Base.Error
import Gwenhywfar.Base.Uint32
import Mathlib.Data.List.TakeDrop

/-! # `GWEN_TLV`

A TLV has a type, the length of its data and the data; with BER the first byte also has a mode.
A buffer is taken as its bytes, and what is written is the bytes that are appended.

* `fromBuffer`, `directlyToBuffer`: a TLV with its data.
* `readHeader`, `writeHeader`: only the type and the length, which may be larger here.
* `tlv_roundTrip_iff`: what was written is read back, unless the TLV is not BER and has 255 bytes,
  the length by which the reader knows a longer form that is never written. -/

namespace Gwenhywfar

/-- `GWEN_TLV`. -/
structure Tlv where
  isBerTlv : Bool
  tagMode : ℕ
  tagType : ℕ
  tagLength : ℕ
  tagSize : ℕ
  tagData : List UInt8
deriving DecidableEq

namespace Tlv

/-- `GWEN_TLV_create`, which aborts for a type or a length that is too large. -/
def create (tagType tagMode : ℕ) (p : List UInt8) (isBerTlv : Bool) : Option Tlv :=
  if 255 < tagType then none
  else if (if isBerTlv then 65535 else 255) < p.length then none
  else some ⟨isBerTlv, tagMode, tagType, p.length, 0, p⟩

/-! ### Writing -/

def typeBytes (tagType tagMode : ℕ) : List UInt8 :=
  if 0x1f ≤ tagType then [UInt8.ofNat (tagMode ||| 0x1f), UInt8.ofNat tagType]
  else [UInt8.ofNat (tagMode ||| tagType)]

/-- `GWEN_TLV_DirectlyToBuffer`. -/
def directlyToBuffer (tagType tagMode : ℕ) (tagData : List UInt8) (isBerTlv : Bool) : List UInt8 :=
  let tagLength := tagData.length
  if isBerTlv then
    typeBytes tagType tagMode ++
      (if 255 < tagLength then [0x82, UInt8.ofNat (tagLength >>> 8), UInt8.ofNat tagLength]
        else if 127 < tagLength then [0x81, UInt8.ofNat tagLength]
        else [UInt8.ofNat (tagLength &&& 0x7f)]) ++ tagData
  else [UInt8.ofNat tagType, UInt8.ofNat tagLength] ++ tagData

/-- `GWEN_TLV_toBuffer`. -/
def toBuffer (tlv : Tlv) : List UInt8 :=
  directlyToBuffer tlv.tagType tlv.tagMode tlv.tagData tlv.isBerTlv

def lengthBytes (tagLength : ℕ) : List UInt8 :=
  if 0xffffffff < tagLength then
    [0x85, UInt8.ofNat (tagLength >>> 32), UInt8.ofNat (tagLength >>> 24),
      UInt8.ofNat (tagLength >>> 16), UInt8.ofNat (tagLength >>> 8), UInt8.ofNat tagLength]
  else if 0xffffff < tagLength then
    [0x84, UInt8.ofNat (tagLength >>> 24), UInt8.ofNat (tagLength >>> 16),
      UInt8.ofNat (tagLength >>> 8), UInt8.ofNat tagLength]
  else if 0xffff < tagLength then
    [0x83, UInt8.ofNat (tagLength >>> 16), UInt8.ofNat (tagLength >>> 8), UInt8.ofNat tagLength]
  else if 0xff < tagLength then [0x82, UInt8.ofNat (tagLength >>> 8), UInt8.ofNat tagLength]
  else if 127 < tagLength then [0x81, UInt8.ofNat tagLength]
  else [UInt8.ofNat (tagLength &&& 0x7f)]

/-- `GWEN_TLV_WriteHeader`. -/
def writeHeader (tagType tagMode tagLength : ℕ) (isBerTlv : Bool) : List UInt8 :=
  if isBerTlv then typeBytes tagType tagMode ++ lengthBytes tagLength
  else [UInt8.ofNat tagType, UInt8.ofNat tagLength]

/-! ### Reading -/

/-- The byte at an index; behind the end it is taken as 0. -/
def byteAt (p : List UInt8) (i : ℕ) : ℕ := (p[i]?.getD 0).toNat

def readType (p : List UInt8) (isBerTlv : Bool) : ℕ × ℕ :=
  if isBerTlv then
    if byteAt p 0 &&& 0x1f = 0x1f then (byteAt p 1, 2) else (byteAt p 0 &&& 0x1f, 1)
  else (byteAt p 0, 1)

/-- The number in `n` bytes behind the first one, the high byte first. -/
def bigEndian (p : List UInt8) (n : ℕ) : ℕ :=
  (List.range n).foldl (fun v i => v * 256 + byteAt p (i + 1)) 0

/-- The length, and the number of its bytes.  `longest` is the longest form with BER; for a form of
more than one byte the end of the data is noticed one byte late. -/
def readLength (longest : ℕ) (isBerTlv : Bool) (p : List UInt8) : Option (ℕ × ℕ) :=
  let j := byteAt p 0
  if isBerTlv then
    if j &&& 0x80 ≠ 0 then
      let n := j - 0x80
      if n = 0 ∨ longest < n then none
      else if p.length ≤ (if n = 1 then 1 else n - 1) then none
      else some (bigEndian p n, n + 1)
    else some (j, 1)
  else if j = 255 then
    if p.length ≤ 2 then none else some (bigEndian p 2, 3)
  else some (j, 1)

/-- `GWEN_TLV_fromBuffer`: the TLV if there is one, and the new position. -/
def fromBuffer (mbuf : List UInt8) (startPos : ℕ) (isBerTlv : Bool) : Option Tlv × ℕ :=
  let p := mbuf.drop startPos
  if p.length < 2 then (none, startPos)
  else
    let tagType := readType p isBerTlv
    if p.length ≤ tagType.2 then (none, startPos)
    else
      ((readLength 2 isBerTlv (p.drop tagType.2)).map fun tagLength =>
        let pos := tagType.2 + tagLength.2
        if p.length < pos + tagLength.1 then (none, startPos + pos)
        else
          (some {
            isBerTlv := isBerTlv
            tagMode := byteAt p 0 &&& 0xe0
            tagType := tagType.1
            tagLength := tagLength.1
            tagSize := pos + tagLength.1
            tagData := (p.drop pos).take tagLength.1 }, startPos + pos + tagLength.1)).getD
      (none, startPos)

/-- `GWEN_TLV_ReadHeader`: the size of the header or an error, and the TLV, which is as it was
after an error. -/
def readHeader (tlv : Tlv) (p : List UInt8) (isBerTlv : Bool) : ℤ × Tlv :=
  if p.length < 2 then (errorBadData, tlv)
  else
    let tagType := readType p isBerTlv
    if p.length ≤ tagType.2 then (errorBadData, tlv)
    else
      ((readLength 5 isBerTlv (p.drop tagType.2)).map fun tagLength =>
        let pos := tagType.2 + tagLength.2
        -- the highest of four bytes is shifted as an `int`, the sign of which is extended
        let j := if isBerTlv ∧ tagLength.2 = 5 ∧ 2 ^ 31 ≤ tagLength.1
          then tagLength.1 + (2 ^ 64 - 2 ^ 32) else tagLength.1
        ((pos : ℤ), { tlv with
          isBerTlv := isBerTlv
          tagMode := byteAt p 0 &&& 0xe0
          tagType := tagType.1
          tagLength := j % 2 ^ 32
          tagSize := (pos + j) % 2 ^ 32 })).getD (errorBadData, tlv)

/-! ### The round trips -/

/-- A TLV is read from its bytes, whatever is in front of them and behind them, and the position is
behind them afterwards. -/
def RoundTrips (tlv : Tlv) : Prop :=
  ∀ front suffix : List UInt8, ∃ tlv' : Tlv,
    fromBuffer (front ++ (tlv.toBuffer ++ suffix)) front.length tlv.isBerTlv =
        (some tlv', front.length + tlv.toBuffer.length) ∧
      tlv'.isBerTlv = tlv.isBerTlv ∧ tlv'.tagType = tlv.tagType ∧ tlv'.tagData = tlv.tagData ∧
      (tlv.isBerTlv = true → tlv'.tagMode = tlv.tagMode)

def HeaderRoundTrips (tagType tagMode tagLength : ℕ) : Prop :=
  ∀ (tlv : Tlv) (suffix : List UInt8),
    readHeader tlv (writeHeader tagType tagMode tagLength true ++ suffix) true =
      (((writeHeader tagType tagMode tagLength true).length : ℤ), { tlv with
        isBerTlv := true, tagMode := tagMode, tagType := tagType, tagLength := tagLength
        tagSize := (writeHeader tagType tagMode tagLength true).length + tagLength })

/-- The modes of BER: what the first byte has besides the type. -/
def IsMode (tagMode : ℕ) : Prop := 0x20 ∣ tagMode ∧ tagMode < 0x100

/-! ### The type -/

section
variable {tagType tagMode tagLength longest : ℕ} {rest : List UInt8}

theorem firstByte : ∀ k < 8, ∀ t < 32,
    (32 * k ||| t) % 2 ^ 8 &&& 0xe0 = 32 * k ∧ (32 * k ||| t) % 2 ^ 8 &&& 0x1f = t := by decide

theorem readType_typeBytes (hmode : IsMode tagMode) (htype : tagType < 256) (rest : List UInt8) :
    readType (typeBytes tagType tagMode ++ rest) true =
        (tagType, (typeBytes tagType tagMode).length) ∧
      byteAt (typeBytes tagType tagMode ++ rest) 0 &&& 0xe0 = tagMode := by
  obtain ⟨⟨k, rfl⟩, hk⟩ := hmode
  by_cases h : 0x1f ≤ tagType
  · obtain ⟨h1, h2⟩ := firstByte k (by omega) 0x1f (by decide)
    have hfirst : ∀ r : List UInt8, byteAt (UInt8.ofNat (32 * k ||| 0x1f) :: r) 0 =
        (32 * k ||| 0x1f) % 2 ^ 8 := fun r => UInt8.toNat_ofNat'
    have hsecond : ∀ (c : UInt8) (r : List UInt8), byteAt (c :: UInt8.ofNat tagType :: r) 1 =
        tagType := by
      intro c r
      change (UInt8.ofNat tagType).toNat = tagType
      rw [UInt8.toNat_ofNat', Nat.mod_eq_of_lt htype]
    rw [typeBytes, if_pos h, List.cons_append, readType, if_pos rfl, hfirst, if_pos h2,
      List.cons_append, hsecond]
    exact ⟨rfl, h1⟩
  · obtain ⟨h1, h2⟩ := firstByte k (by omega) tagType (by omega)
    have hfirst : ∀ r : List UInt8, byteAt (UInt8.ofNat (32 * k ||| tagType) :: r) 0 =
        (32 * k ||| tagType) % 2 ^ 8 := fun r => UInt8.toNat_ofNat'
    rw [typeBytes, if_neg h, List.cons_append, readType, if_pos rfl, hfirst,
      if_neg (by rw [h2]; omega), h2]
    exact ⟨rfl, h1⟩

/-! ### The length -/

theorem readLength_long {n : ℕ} (bytes : List UInt8) (hn : bytes.length = n) (h0 : 0 < n)
    (hlongest : n ≤ longest) (h128 : n < 128) (rest : List UInt8) :
    readLength longest true (UInt8.ofNat (0x80 + n) :: bytes ++ rest) =
      some (bigEndian (UInt8.ofNat (0x80 + n) :: bytes ++ rest) n, n + 1) := by
  have hbits : ∀ m < 128, (128 + m) &&& 128 ≠ 0 := by decide
  have hj : byteAt (UInt8.ofNat (0x80 + n) :: bytes ++ rest) 0 = 128 + n := by
    change (UInt8.ofNat (0x80 + n)).toNat = _
    rw [UInt8.toNat_ofNat', Nat.mod_eq_of_lt (by omega)]
  rw [readLength, hj]
  dsimp only
  rw [if_pos rfl, if_pos (hbits n h128), Nat.add_sub_cancel_left, if_neg (by omega), if_neg]
  rw [List.length_append, List.length_cons, hn]
  split <;> omega

theorem readLength_short (h : tagLength < 128) (rest : List UInt8) :
    readLength longest true ([UInt8.ofNat (tagLength &&& 0x7f)] ++ rest) = some (tagLength, 1) := by
  have hbits : ∀ m < 128, m &&& 0x80 = 0 := by decide
  have hj : byteAt ([UInt8.ofNat (tagLength &&& 0x7f)] ++ rest) 0 = tagLength := by
    change (UInt8.ofNat (tagLength &&& 0x7f)).toNat = _
    rw [UInt8.toNat_ofNat', Nat.and_two_pow_sub_one_eq_mod tagLength 7]
    omega
  rw [readLength, hj, if_pos rfl, if_neg (not_not_intro (hbits tagLength h))]

/-- The lengths below `2 ^ 32` are read from their bytes. -/
theorem readLength_lengthBytes (hlt : tagLength < 2 ^ 32)
    (hlongest : (lengthBytes tagLength).length ≤ longest + 1) (rest : List UInt8) :
    readLength longest true (lengthBytes tagLength ++ rest) =
      some (tagLength, (lengthBytes tagLength).length) := by
  have hshift : ∀ k, (UInt8.ofNat (tagLength >>> k)).toNat = tagLength / 2 ^ k % 2 ^ 8 := by
    intro k
    rw [UInt8.toNat_ofNat', Nat.shiftRight_eq_div_pow]
  have hlow : (UInt8.ofNat tagLength).toNat = tagLength % 2 ^ 8 := UInt8.toNat_ofNat'
  rw [lengthBytes, if_neg (by omega)] at hlongest ⊢
  split at hlongest
  · next h =>
      rw [if_pos h]
      refine (readLength_long (n := 4) _ rfl (by decide)
        (Nat.le_of_succ_le_succ hlongest) (by decide) rest).trans ?_
      have hvalue : bigEndian ([0x84, UInt8.ofNat (tagLength >>> 24),
          UInt8.ofNat (tagLength >>> 16), UInt8.ofNat (tagLength >>> 8),
          UInt8.ofNat tagLength] ++ rest) 4 =
          (((0 * 256 + (UInt8.ofNat (tagLength >>> 24)).toNat) * 256 +
            (UInt8.ofNat (tagLength >>> 16)).toNat) * 256 +
            (UInt8.ofNat (tagLength >>> 8)).toNat) * 256 + (UInt8.ofNat tagLength).toNat := rfl
      rw [hshift, hshift, hshift, hlow] at hvalue
      exact congrArg some (Prod.ext (hvalue.trans (by omega)) rfl)
  · next h =>
      rw [if_neg h]
      split at hlongest
      · next h' =>
          rw [if_pos h']
          refine (readLength_long (n := 3) _ rfl (by decide)
            (Nat.le_of_succ_le_succ hlongest) (by decide) rest).trans ?_
          have hvalue : bigEndian ([0x83, UInt8.ofNat (tagLength >>> 16),
              UInt8.ofNat (tagLength >>> 8), UInt8.ofNat tagLength] ++ rest) 3 =
              ((0 * 256 + (UInt8.ofNat (tagLength >>> 16)).toNat) * 256 +
                (UInt8.ofNat (tagLength >>> 8)).toNat) * 256 + (UInt8.ofNat tagLength).toNat := rfl
          rw [hshift, hshift, hlow] at hvalue
          exact congrArg some (Prod.ext (hvalue.trans (by omega)) rfl)
      · next h' =>
          rw [if_neg h']
          split at hlongest
          · next h'' =>
              rw [if_pos h'']
              refine (readLength_long (n := 2) _ rfl (by decide)
                (Nat.le_of_succ_le_succ hlongest) (by decide) rest).trans ?_
              have hvalue : bigEndian ([0x82, UInt8.ofNat (tagLength >>> 8),
                  UInt8.ofNat tagLength] ++ rest) 2 =
                  (0 * 256 + (UInt8.ofNat (tagLength >>> 8)).toNat) * 256 +
                    (UInt8.ofNat tagLength).toNat := rfl
              rw [hshift, hlow] at hvalue
              exact congrArg some (Prod.ext (hvalue.trans (by omega)) rfl)
          · next h'' =>
              rw [if_neg h'']
              split at hlongest
              · next h3 =>
                  rw [if_pos h3]
                  refine (readLength_long (n := 1) _ rfl (by decide)
                    (Nat.le_of_succ_le_succ hlongest) (by decide) rest).trans ?_
                  have hvalue : bigEndian ([0x81, UInt8.ofNat tagLength] ++ rest) 1 =
                      0 * 256 + (UInt8.ofNat tagLength).toNat := rfl
                  rw [hlow] at hvalue
                  exact congrArg some (Prod.ext (hvalue.trans (by omega)) rfl)
              · next h3 =>
                  rw [if_neg h3]
                  exact readLength_short (by omega) rest

theorem directlyToBuffer_ber {tagData : List UInt8} (h : tagData.length ≤ 65535) :
    directlyToBuffer tagType tagMode tagData true =
      typeBytes tagType tagMode ++ lengthBytes tagData.length ++ tagData := by
  have hlength : lengthBytes tagData.length =
      if 0xff < tagData.length then
        [0x82, UInt8.ofNat (tagData.length >>> 8), UInt8.ofNat tagData.length]
      else if 127 < tagData.length then [0x81, UInt8.ofNat tagData.length]
      else [UInt8.ofNat (tagData.length &&& 0x7f)] := by
    rw [lengthBytes, if_neg (by omega), if_neg (by omega), if_neg (by omega)]
  rw [hlength]
  rfl

/-! ### The round trips of BER -/

theorem length_typeBytes_pos : 0 < (typeBytes tagType tagMode).length := by
  rw [typeBytes]
  split <;> exact Nat.succ_pos _

theorem length_lengthBytes_pos : 0 < (lengthBytes tagLength).length := by
  rw [lengthBytes]
  repeat' split
  all_goals exact Nat.succ_pos _

theorem length_lengthBytes_le (h : tagLength < 2 ^ 32) : (lengthBytes tagLength).length ≤ 5 := by
  rw [lengthBytes, if_neg (by omega)]
  repeat' split
  all_goals exact Nat.le_of_ble_eq_true rfl

theorem length_lengthBytes_data (h : tagLength ≤ 65535) : (lengthBytes tagLength).length ≤ 3 := by
  rw [lengthBytes, if_neg (by omega), if_neg (by omega), if_neg (by omega)]
  repeat' split
  all_goals exact Nat.le_of_ble_eq_true rfl

theorem header_roundTrips (htype : tagType < 256) (hmode : IsMode tagMode)
    (hlt : tagLength + (writeHeader tagType tagMode tagLength true).length < 2 ^ 32) :
    HeaderRoundTrips tagType tagMode tagLength := by
  intro tlv suffix
  obtain ⟨hread, hfirst⟩ := readType_typeBytes hmode htype (lengthBytes tagLength ++ suffix)
  have ht := @length_typeBytes_pos tagType tagMode
  have hl := @length_lengthBytes_pos tagLength
  have hlen : tagLength < 2 ^ 32 := by omega
  rw [writeHeader, if_pos rfl] at hlt ⊢
  rw [List.length_append] at hlt ⊢
  have hsize : ((typeBytes tagType tagMode) ++ (lengthBytes tagLength ++ suffix)).length =
      (typeBytes tagType tagMode).length + ((lengthBytes tagLength).length + suffix.length) := by
    rw [List.length_append, List.length_append]
  rw [List.append_assoc, readHeader, hread, hfirst, if_neg (by omega)]
  dsimp only
  rw [if_neg (by omega), List.drop_left,
    readLength_lengthBytes hlen ((length_lengthBytes_le hlen).trans (by decide)), Option.map_some,
    Option.getD_some]
  dsimp only
  generalize hj : (if true = true ∧ (lengthBytes tagLength).length = 5 ∧ 2 ^ 31 ≤ tagLength
    then tagLength + (2 ^ 64 - 2 ^ 32) else tagLength) = j
  have hmod : j % 2 ^ 32 = tagLength := by
    split at hj <;> omega
  rw [hmod, show
    ((typeBytes tagType tagMode).length + (lengthBytes tagLength).length + j) % 2 ^ 32 =
    (typeBytes tagType tagMode).length + (lengthBytes tagLength).length + tagLength by omega]

end

/-! ### The round trip of the data -/

variable {tagType tagMode : ℕ} {p : List UInt8} {isBerTlv : Bool} {tlv : Tlv}

theorem create_spec (h : create tagType tagMode p isBerTlv = some tlv) :
    tagType < 256 ∧ p.length ≤ (if isBerTlv then 65535 else 255) ∧
      tlv = ⟨isBerTlv, tagMode, tagType, p.length, 0, p⟩ := by
  rw [create] at h
  by_cases h1 : 255 < tagType
  · rw [if_pos h1] at h
    cases h
  · by_cases h2 : (if isBerTlv then 65535 else 255) < p.length
    · rw [if_neg h1, if_pos h2] at h
      cases h
    · rw [if_neg h1, if_neg h2] at h
      exact ⟨by omega, not_lt.mp h2, (Option.some.inj h).symm⟩

theorem roundTrips_ber (hmode : IsMode tagMode)
    (h : create tagType tagMode p true = some tlv) : RoundTrips tlv := by
  obtain ⟨htype, hp, rfl⟩ := create_spec h
  rw [if_pos rfl] at hp
  intro front suffix
  obtain ⟨hread, hfirst⟩ := readType_typeBytes hmode htype (lengthBytes p.length ++ (p ++ suffix))
  have ht := @length_typeBytes_pos tagType tagMode
  have hl := @length_lengthBytes_pos p.length
  have hsize : ((typeBytes tagType tagMode) ++ (lengthBytes p.length ++ (p ++ suffix))).length =
      (typeBytes tagType tagMode).length +
        ((lengthBytes p.length).length + (p.length + suffix.length)) := by
    rw [List.length_append, List.length_append, List.length_append]
  have hdrop : ((typeBytes tagType tagMode) ++ (lengthBytes p.length ++ (p ++ suffix))).drop
      ((typeBytes tagType tagMode).length + (lengthBytes p.length).length) = p ++ suffix := by
    rw [← List.append_assoc, ← List.length_append, List.drop_left]
  rw [toBuffer, directlyToBuffer_ber hp, List.append_assoc, List.append_assoc, fromBuffer,
    List.drop_left]
  dsimp only
  rw [hread, hfirst, if_neg (by omega)]
  dsimp only
  rw [if_neg (by omega), List.drop_left,
    readLength_lengthBytes (by omega) (length_lengthBytes_data hp), Option.map_some,
    Option.getD_some]
  dsimp only
  rw [if_neg (by omega), hdrop, List.take_left]
  refine ⟨_, Prod.ext rfl ?_, rfl, rfl, rfl, fun _ => rfl⟩
  rw [List.length_append, List.length_append]
  dsimp only
  omega

/-- What is read of a TLV that is not BER, if its length is read as `v` from `n` bytes. -/
theorem fromBuffer_plain (htype : tagType < 256) {v n : ℕ} (front suffix : List UInt8)
    (hread : readLength 2 false (UInt8.ofNat p.length :: (p ++ suffix)) = some (v, n)) :
    fromBuffer (front ++ (directlyToBuffer tagType tagMode p false ++ suffix)) front.length false =
      if p.length + suffix.length + 2 < 1 + n + v then (none, front.length + (1 + n))
      else (some {
        isBerTlv := false, tagMode := tagType &&& 0xe0, tagType := tagType, tagLength := v
        tagSize := 1 + n + v
        tagData := ((UInt8.ofNat tagType :: UInt8.ofNat p.length :: (p ++ suffix)).drop (1 + n)).take
          v }, front.length + (1 + n) + v) := by
  have hbytes : directlyToBuffer tagType tagMode p false ++ suffix =
      UInt8.ofNat tagType :: UInt8.ofNat p.length :: (p ++ suffix) := rfl
  have hsize : (UInt8.ofNat tagType :: UInt8.ofNat p.length :: (p ++ suffix)).length =
      p.length + suffix.length + 2 := by
    rw [List.length_cons, List.length_cons, List.length_append]
  have hfirst : byteAt (UInt8.ofNat tagType :: UInt8.ofNat p.length :: (p ++ suffix)) 0 =
      tagType := by
    change (UInt8.ofNat tagType).toNat = tagType
    rw [UInt8.toNat_ofNat', Nat.mod_eq_of_lt htype]
  rw [fromBuffer, List.drop_left, hbytes]
  dsimp only
  rw [readType, if_neg Bool.false_ne_true, hfirst, hsize, if_neg (by omega)]
  dsimp only
  rw [if_neg (by omega), List.drop_succ_cons, List.drop_zero, hread, Option.map_some,
    Option.getD_some]

/-- Without BER the length 255 is read as the mark of a longer form. -/
theorem roundTrips_plain (h : create tagType tagMode p false = some tlv) :
    RoundTrips tlv ↔ p.length ≠ 255 := by
  obtain ⟨htype, hp, rfl⟩ := create_spec h
  rw [if_neg Bool.false_ne_true] at hp
  have hj : ∀ rest : List UInt8, byteAt (UInt8.ofNat p.length :: rest) 0 = p.length := by
    intro rest
    change (UInt8.ofNat p.length).toNat = p.length
    rw [UInt8.toNat_ofNat', Nat.mod_eq_of_lt (by omega)]
  constructor
  · intro hround h255
    obtain ⟨tlv', hread, -, -, hdata, -⟩ := hround [] []
    have hlength : readLength 2 false (UInt8.ofNat p.length :: (p ++ [])) =
        some (bigEndian (UInt8.ofNat p.length :: (p ++ [])) 2, 3) := by
      rw [readLength, hj, if_neg Bool.false_ne_true, if_pos h255, if_neg]
      rw [List.length_cons, List.length_append]
      omega
    rw [toBuffer, fromBuffer_plain htype [] [] hlength] at hread
    generalize bigEndian (UInt8.ofNat p.length :: (p ++ [])) 2 = v at hread
    split at hread
    · cases hread
    · obtain ⟨h1, h2⟩ := Prod.mk.inj hread
      obtain rfl := Option.some.inj h1
      -- the position and the data cannot both be right
      have hpos : 4 + v = 2 + p.length := by
        have hlen : (directlyToBuffer tagType tagMode p false).length = 2 + p.length := by
          change ([UInt8.ofNat tagType, UInt8.ofNat p.length] ++ p).length = _
          rw [List.length_append]
          rfl
        rw [hlen, List.length_nil] at h2
        omega
      have htake := congrArg List.length hdata
      rw [List.length_take] at htake
      dsimp only at htake
      omega
  · intro hne front suffix
    have hlength : readLength 2 false (UInt8.ofNat p.length :: (p ++ suffix)) =
        some (p.length, 1) := by
      rw [readLength, hj, if_neg Bool.false_ne_true, if_neg hne]
    rw [toBuffer, fromBuffer_plain htype front suffix hlength, if_neg (by omega),
      List.drop_succ_cons, List.drop_succ_cons, List.drop_zero, List.take_left]
    refine ⟨_, Prod.ext rfl ?_, rfl, rfl, rfl, nofun⟩
    have hlen : (directlyToBuffer tagType tagMode p false).length = 2 + p.length := by
      change ([UInt8.ofNat tagType, UInt8.ofNat p.length] ++ p).length = _
      rw [List.length_append]
      rfl
    rw [hlen]
    dsimp only
    omega

/-- A TLV is read back if and only if it is BER or has not 255 bytes; headers of BER are. -/
theorem tlv_roundTrip_iff (hmode : isBerTlv = true → IsMode tagMode)
    (h : create tagType tagMode p isBerTlv = some tlv) :
    (RoundTrips tlv ↔ isBerTlv = true ∨ p.length ≠ 255) ∧ ∀ mode tagLength, IsMode mode →
        tagLength + (writeHeader tagType mode tagLength true).length < 2 ^ 32 →
        HeaderRoundTrips tagType mode tagLength := by
  refine ⟨?_, fun mode tagLength hm hlt => header_roundTrips (create_spec h).1 hm hlt⟩
  cases isBerTlv with
  | false =>
      rw [roundTrips_plain h]
      exact (or_iff_right Bool.false_ne_true).symm
  | true => exact iff_of_true (roundTrips_ber (hmode rfl) h) (Or.inl rfl)

/-- A constructed tag with a long type, and one that is not BER. -/
theorem roundTrips_two :
    RoundTrips ⟨true, 0x20, 0x7f, 2, 0, [1, 2]⟩ ∧ RoundTrips ⟨false, 0, 0x80, 1, 0, [3]⟩ := by
  have hber : create 0x7f 0x20 [1, 2] true = some ⟨true, 0x20, 0x7f, 2, 0, [1, 2]⟩ := by decide
  have hplain : create 0x80 0 [3] false = some ⟨false, 0, 0x80, 1, 0, [3]⟩ := by decide
  exact ⟨(tlv_roundTrip_iff (fun _ => ⟨by decide, by decide⟩) hber).1.mpr (Or.inl rfl),
    (tlv_roundTrip_iff (fun h => by cases h) hplain).1.mpr (Or.inr (by decide))⟩

/-- A TLV that is not BER is not read back when it has 255 bytes. -/
theorem not_roundTrips_255 : ¬ RoundTrips ⟨false, 0, 1, 255, 0, List.replicate 255 0⟩ := by
  have hcreate : create 1 0 (List.replicate 255 0) false =
      some ⟨false, 0, 1, 255, 0, List.replicate 255 0⟩ := by
    rw [create, List.length_replicate]
    rfl
  intro h
  exact (roundTrips_plain hcreate).mp h List.length_replicate

end Tlv
end Gwenhywfar
