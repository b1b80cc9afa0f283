import Gwenhywfar.Parser.Tlv
import Mathlib.Data.List.Induction

/-! # What `GWEN_TLV` reads

* `TypeField`, `LengthField`: the bytes of a type and of a length.  `Encodes`: the bytes of a TLV.
* `reads_iff`: a TLV is read from its complete encoding.  When the data is cut off the position
  is moved all the same, and when only the last byte of the length is missing it is taken from
  behind the end. -/

namespace Gwenhywfar

set_option maxRecDepth 4000

namespace Tlv

/-! ### Encodings -/

/-- The bytes of a type, the mode and the type. -/
inductive TypeField : Bool → List UInt8 → ℕ → ℕ → Prop
  | plain (c : UInt8) : TypeField false [c] (c.toNat &&& 0xe0) c.toNat
  | short (c : UInt8) (h : c.toNat &&& 0x1f ≠ 0x1f) :
      TypeField true [c] (c.toNat &&& 0xe0) (c.toNat &&& 0x1f)
  | long (c d : UInt8) (h : c.toNat &&& 0x1f = 0x1f) :
      TypeField true [c, d] (c.toNat &&& 0xe0) d.toNat

/-- The number that some bytes denote, the high byte first. -/
def valueOf (bytes : List UInt8) : ℕ := bytes.foldl (fun v b => v * 256 + b.toNat) 0

/-- The bytes of a length, with up to `longest` bytes behind the first one for BER. -/
inductive LengthField (longest : ℕ) : Bool → List UInt8 → ℕ → Prop
  | plain (c : UInt8) (h : c ≠ 255) : LengthField longest false [c] c.toNat
  | plainLong (a b : UInt8) : LengthField longest false [255, a, b] (valueOf [a, b])
  | short (c : UInt8) (h : c.toNat < 0x80) : LengthField longest true [c] c.toNat
  | long (bytes : List UInt8) (hpos : 0 < bytes.length) (hle : bytes.length ≤ longest)
      (h128 : bytes.length < 0x80) :
      LengthField longest true (UInt8.ofNat (0x80 + bytes.length) :: bytes) (valueOf bytes)

def Encodes (bytes : List UInt8) (tlv : Tlv) : Prop :=
  ∃ typeField lengthField, bytes = typeField ++ (lengthField ++ tlv.tagData) ∧
    TypeField tlv.isBerTlv typeField tlv.tagMode tlv.tagType ∧
    LengthField 2 tlv.isBerTlv lengthField tlv.tagLength ∧ tlv.tagLength = tlv.tagData.length ∧
    tlv.tagSize = bytes.length

/-- A TLV is returned for its complete encoding at the position, which is behind it afterwards;
without a TLV the position is as it was. -/
def ReadsAtomically (mbuf : List UInt8) (startPos : ℕ) (isBerTlv : Bool) : Prop :=
  ∀ r pos, fromBuffer mbuf startPos isBerTlv = (r, pos) →
    (∀ tlv, r = some tlv → tlv.isBerTlv = isBerTlv ∧ pos = startPos + tlv.tagSize ∧
      pos ≤ mbuf.length ∧ Encodes ((mbuf.drop startPos).take tlv.tagSize) tlv) ∧
    (r = none → pos = startPos)

/-- The result is the size of a header in the data, or an error. -/
def HeaderInside (p : List UInt8) (isBerTlv : Bool) : Prop :=
  ∀ tlv : Tlv, 0 < (readHeader tlv p isBerTlv).1 ∧ (readHeader tlv p isBerTlv).1 ≤ p.length ∨
    (readHeader tlv p isBerTlv).1 < 0

/-- The data ends with a length of BER, the last byte of which is missing. -/
def CutLength (longest : ℕ) (p : List UInt8) (isBerTlv : Bool) : Prop :=
  isBerTlv = true ∧ ∃ typeField bytes tagMode tagType, TypeField true typeField tagMode tagType ∧
    p = typeField ++ UInt8.ofNat (0x80 + (bytes.length + 1)) :: bytes ∧ 0 < bytes.length ∧
    bytes.length + 1 ≤ longest ∧ bytes.length + 1 < 0x80

/-- There are less bytes than the length says. -/
def CutData (p : List UInt8) (isBerTlv : Bool) : Prop :=
  ∃ typeField lengthField data tagMode tagType tagLength,
    TypeField isBerTlv typeField tagMode tagType ∧ LengthField 2 isBerTlv lengthField tagLength ∧
    p = typeField ++ (lengthField ++ data) ∧ data.length < tagLength

section
variable {p rest bytes mbuf typeField lengthField : List UInt8} {isBerTlv : Bool}
  {longest tagMode tagType tagLength n startPos : ℕ} {c : UInt8}

/-! ### Types -/

theorem readType_typeField (h : TypeField isBerTlv typeField tagMode tagType)
    (rest : List UInt8) : readType (typeField ++ rest) isBerTlv = (tagType, typeField.length) ∧
      byteAt (typeField ++ rest) 0 &&& 0xe0 = tagMode := by
  cases h with
  | plain c => exact ⟨rfl, rfl⟩
  | short c h =>
      refine ⟨?_, rfl⟩
      rw [readType, if_pos rfl]
      exact if_neg h
  | long c d h =>
      refine ⟨?_, rfl⟩
      rw [readType, if_pos rfl]
      exact if_pos h

theorem exists_cons_cons : ∀ {l : List UInt8}, 2 ≤ l.length → ∃ a b rest, l = a :: b :: rest
  | a :: b :: rest, _ => ⟨a, b, rest, rfl⟩

theorem exists_typeField (h2 : 2 ≤ p.length) (h : (readType p isBerTlv).2 < p.length) :
    ∃ typeField c rest tagMode tagType, p = typeField ++ c :: rest ∧
      TypeField isBerTlv typeField tagMode tagType := by
  obtain ⟨a, b, rest, rfl⟩ := exists_cons_cons h2
  cases isBerTlv with
  | false => exact ⟨[a], b, rest, _, _, rfl, .plain a⟩
  | true =>
      by_cases hlong : a.toNat &&& 0x1f = 0x1f
      · have htype : (readType (a :: b :: rest) true).2 = 2 := by
          rw [readType, if_pos rfl]
          exact congrArg Prod.snd (if_pos hlong)
        rw [htype] at h
        obtain ⟨d, rest, rfl⟩ := List.exists_cons_of_ne_nil
          (fun hnil => by simp [hnil] at h : rest ≠ [])
        exact ⟨[a, b], d, rest, _, _, rfl, .long a b hlong⟩
      · exact ⟨[a], b, rest, _, _, rfl, .short a hlong⟩

/-! ### Lengths -/

theorem valueOf_concat (bytes : List UInt8) (c : UInt8) :
    valueOf (bytes ++ [c]) = valueOf bytes * 256 + c.toNat := by
  rw [valueOf, List.foldl_append]
  rfl

theorem bigEndian_eq (c : UInt8) (bytes rest : List UInt8) :
    bigEndian (c :: (bytes ++ rest)) bytes.length = valueOf bytes := by
  induction bytes using List.reverseRecOn generalizing rest with
  | nil => rfl
  | append_singleton bytes d ih =>
      have hlast : byteAt (c :: (bytes ++ [d] ++ rest)) (bytes.length + 1) = d.toNat := by
        rw [byteAt, List.getElem?_cons_succ, List.append_assoc,
          List.getElem?_append_right (Nat.le_refl _), Nat.sub_self]
        rfl
      have hfront : (List.range bytes.length).foldl
          (fun v i => v * 256 + byteAt (c :: (bytes ++ ([d] ++ rest))) (i + 1)) 0 =
            valueOf bytes := ih _
      rw [List.length_append, List.length_singleton, bigEndian, List.range_succ,
        List.foldl_append, List.foldl_cons, List.foldl_nil, hlast, valueOf_concat,
        List.append_assoc, hfront]

theorem mark_of_long : ∀ c : UInt8, c.toNat &&& 0x80 ≠ 0 ↔ 0x80 ≤ c.toNat := by
  have hall : ∀ n < 256, n &&& 0x80 ≠ 0 ↔ 0x80 ≤ n := by decide
  exact fun c => hall c.toNat c.toNat_lt

theorem ofNat_toNat_mark (n : ℕ) (h : n < 0x80) : (UInt8.ofNat (0x80 + n)).toNat = 0x80 + n := by
  rw [UInt8.toNat_ofNat', Nat.mod_eq_of_lt (by omega)]

theorem readLength_mark (c : UInt8) (rest : List UInt8) (h : 0x80 ≤ c.toNat) :
    readLength longest true (c :: rest) =
      if c.toNat - 0x80 = 0 ∨ longest < c.toNat - 0x80 then none
      else if rest.length + 1 ≤ (if c.toNat - 0x80 = 1 then 1 else c.toNat - 0x80 - 1) then none
      else some (bigEndian (c :: rest) (c.toNat - 0x80), c.toNat - 0x80 + 1) := by
  have hj : byteAt (c :: rest) 0 = c.toNat := rfl
  rw [readLength, hj]
  dsimp only
  rw [if_pos rfl, if_pos ((mark_of_long c).mpr h), List.length_cons]

theorem readLength_lengthField (h : LengthField longest isBerTlv lengthField tagLength)
    (rest : List UInt8) : readLength longest isBerTlv (lengthField ++ rest) =
      some (tagLength, lengthField.length) := by
  cases h with
  | plain c h =>
      have hj : byteAt ([c] ++ rest) 0 = c.toNat := rfl
      have hne : c.toNat ≠ 255 := fun h255 => h (UInt8.toNat_inj.mp h255)
      rw [readLength, hj, if_neg Bool.false_ne_true, if_neg hne]
      rfl
  | plainLong a b =>
      have hj : byteAt ([255, a, b] ++ rest) 0 = 255 := rfl
      rw [readLength, hj, if_neg Bool.false_ne_true, if_pos rfl, if_neg (by simp)]
      exact congrArg some (Prod.ext (bigEndian_eq 255 [a, b] rest) rfl)
  | short c h =>
      have hj : byteAt ([c] ++ rest) 0 = c.toNat := rfl
      have hzero : ¬c.toNat &&& 0x80 ≠ 0 := fun hne => by
        have := (mark_of_long c).mp hne
        omega
      rw [readLength, hj, if_pos rfl, if_neg hzero]
      rfl
  | long bytes hpos hle h128 =>
      have hc := ofNat_toNat_mark bytes.length h128
      rw [List.cons_append, readLength_mark _ _ (by omega), hc, Nat.add_sub_cancel_left,
        if_neg (by omega), if_neg, bigEndian_eq]
      · rfl
      · rw [List.length_append]
        split <;> omega

/-- What is read is a length, or the last byte of one is missing. -/
theorem readLength_eq_some {v : ℕ} (h : readLength longest isBerTlv (c :: rest) = some (v, n)) :
    (∃ lengthField data, c :: rest = lengthField ++ data ∧
      LengthField longest isBerTlv lengthField v ∧ n = lengthField.length) ∨
    isBerTlv = true ∧ c = UInt8.ofNat (0x80 + (rest.length + 1)) ∧ 0 < rest.length ∧
      rest.length + 1 ≤ longest ∧ rest.length + 1 < 0x80 ∧ n = rest.length + 2 := by
  have hj : byteAt (c :: rest) 0 = c.toNat := rfl
  have hlt := c.toNat_lt
  cases isBerTlv with
  | false =>
      rw [readLength, hj, if_neg Bool.false_ne_true] at h
      by_cases h255 : c.toNat = 255
      · rw [if_pos h255] at h
        split at h
        · cases h
        · next hlen =>
            obtain ⟨rfl, rfl⟩ := Prod.mk.inj (Option.some.inj h)
            rw [List.length_cons] at hlen
            obtain ⟨a, b, data, rfl⟩ := @exists_cons_cons rest (by omega)
            have hmax : (255 : ℕ) = (255 : UInt8).toNat := by decide
            obtain rfl : c = 255 := UInt8.toNat_inj.mp (h255.trans hmax)
            refine Or.inl ⟨[255, a, b], data, rfl, ?_, rfl⟩
            have hvalue : bigEndian (255 :: a :: b :: data) 2 = valueOf [a, b] :=
              bigEndian_eq 255 [a, b] data
            rw [hvalue]
            exact .plainLong a b
      · rw [if_neg h255] at h
        obtain ⟨rfl, rfl⟩ := Prod.mk.inj (Option.some.inj h)
        exact Or.inl ⟨[c], rest, rfl, .plain c fun hc => h255 (by rw [hc]; rfl), rfl⟩
  | true =>
      by_cases hmark : 0x80 ≤ c.toNat
      · have hc : c = UInt8.ofNat (0x80 + (c.toNat - 0x80)) := by
          rw [Nat.add_sub_cancel' hmark, UInt8.ofNat_toNat]
        rw [readLength_mark c rest hmark] at h
        have hk : c.toNat - 0x80 < 0x80 := by omega
        generalize c.toNat - 0x80 = k at h hc hk
        obtain ⟨m, hm, hcase⟩ : ∃ m, (if k = 1 then 1 else k - 1) = m ∧
            (k = 1 ∧ m = 1 ∨ k ≠ 1 ∧ m = k - 1) := by
          refine ⟨_, rfl, ?_⟩
          by_cases h1 : k = 1
          · exact Or.inl ⟨h1, if_pos h1⟩
          · exact Or.inr ⟨h1, if_neg h1⟩
        rw [hm] at h
        split at h
        · cases h
        · next hrange =>
            split at h
            · cases h
            · next hlen =>
                obtain ⟨rfl, rfl⟩ := Prod.mk.inj (Option.some.inj h)
                by_cases hinside : k ≤ rest.length
                · have htake : (rest.take k).length = k := List.length_take_of_le hinside
                  refine Or.inl ⟨c :: rest.take k, rest.drop k, ?_, ?_, ?_⟩
                  · rw [List.cons_append, List.take_append_drop]
                  · have hvalue := bigEndian_eq c (rest.take k) (rest.drop k)
                    rw [List.take_append_drop, htake] at hvalue
                    have hfield := @LengthField.long longest (rest.take k) (by omega)
                      (by omega) (by omega)
                    rw [htake, ← hc] at hfield
                    rwa [hvalue]
                  · rw [List.length_cons, htake]
                · have hlast : k = rest.length + 1 := by omega
                  rw [hlast] at hc
                  exact Or.inr ⟨rfl, hc, by omega, by omega, by omega, by omega⟩
      · rw [readLength, hj, if_pos rfl, if_neg (fun hne => hmark ((mark_of_long c).mp hne))] at h
        obtain ⟨rfl, rfl⟩ := Prod.mk.inj (Option.some.inj h)
        exact Or.inl ⟨[c], rest, rfl, .short c (by omega), rfl⟩

/-! ### TLVs -/

theorem typeField_ne_nil (h : TypeField isBerTlv typeField tagMode tagType) : typeField ≠ [] := by
  cases h <;> exact List.cons_ne_nil _ _

theorem lengthField_ne_nil (h : LengthField longest isBerTlv lengthField tagLength) :
    lengthField ≠ [] := by
  cases h <;> exact List.cons_ne_nil _ _

/-- The bytes behind the type are a length and some data, a length without its last byte, or there
is an error. -/
theorem header_cases (longest : ℕ) (isBerTlv : Bool) (p : List UInt8) :
    (p.length < 2 ∨ p.length ≤ (readType p isBerTlv).2 ∨
      readLength longest isBerTlv (p.drop (readType p isBerTlv).2) = none) ∨
    (∃ typeField lengthField data tagMode tagType tagLength,
      TypeField isBerTlv typeField tagMode tagType ∧
      LengthField longest isBerTlv lengthField tagLength ∧ p = typeField ++ (lengthField ++ data)) ∨
    CutLength longest p isBerTlv := by
  by_cases h2 : p.length < 2
  · exact Or.inl (Or.inl h2)
  by_cases htype : p.length ≤ (readType p isBerTlv).2
  · exact Or.inl (Or.inr (Or.inl htype))
  obtain ⟨typeField, c, rest, tagMode, tagType, rfl, hfield⟩ :=
    exists_typeField (by omega) (Nat.lt_of_not_le htype)
  rw [(readType_typeField hfield (c :: rest)).1, List.drop_left]
  cases hread : readLength longest isBerTlv (c :: rest) with
  | none => exact Or.inl (Or.inr (Or.inr rfl))
  | some r =>
      rcases readLength_eq_some hread with ⟨lengthField, data, hrest, hlength, -⟩ |
        ⟨hber, hc, hpos, hle, h128, -⟩
      · rw [hrest]
        exact Or.inr (Or.inl ⟨typeField, lengthField, data, tagMode, tagType, _, hfield, hlength,
          rfl⟩)
      · subst hber
        exact Or.inr (Or.inr ⟨rfl, typeField, rest, tagMode, tagType, hfield, by rw [hc], hpos, hle,
          h128⟩)

theorem length_header (ht : TypeField isBerTlv typeField tagMode tagType)
    (hl : LengthField longest isBerTlv lengthField tagLength) (data : List UInt8) :
    2 ≤ (typeField ++ (lengthField ++ data)).length ∧
      typeField.length < (typeField ++ (lengthField ++ data)).length := by
  have h1 := List.length_pos_iff.mpr (typeField_ne_nil ht)
  have h2 := List.length_pos_iff.mpr (lengthField_ne_nil hl)
  rw [List.length_append, List.length_append]
  omega

/-- What is read at a complete header. -/
theorem fromBuffer_header (ht : TypeField isBerTlv typeField tagMode tagType)
    (hl : LengthField 2 isBerTlv lengthField tagLength) {data : List UInt8}
    (hp : mbuf.drop startPos = typeField ++ (lengthField ++ data)) :
    fromBuffer mbuf startPos isBerTlv =
      if data.length < tagLength then
        (none, startPos + (typeField.length + lengthField.length))
      else (some {
        isBerTlv := isBerTlv, tagMode := tagMode, tagType := tagType, tagLength := tagLength
        tagSize := typeField.length + lengthField.length + tagLength
        tagData := data.take tagLength },
        startPos + (typeField.length + lengthField.length) + tagLength) := by
  obtain ⟨h2, hlt⟩ := length_header ht hl data
  obtain ⟨htype, hmode⟩ := readType_typeField ht (lengthField ++ data)
  have hdrop : (typeField ++ (lengthField ++ data)).drop
      (typeField.length + lengthField.length) = data := by
    rw [List.drop_length_add_append, List.drop_left]
  have hlen : (typeField ++ (lengthField ++ data)).length =
      typeField.length + lengthField.length + data.length := by
    rw [List.length_append, List.length_append, Nat.add_assoc]
  rw [fromBuffer, hp]
  dsimp only
  rw [if_neg (by omega), htype, if_neg (by omega), List.drop_left,
    readLength_lengthField hl data, Option.map_some, Option.getD_some, hmode, hdrop, hlen]
  dsimp only
  by_cases hcut : data.length < tagLength
  · rw [if_pos (by omega), if_pos hcut]
  · rw [if_neg (by omega), if_neg hcut]

theorem readLength_cut (hpos : 0 < bytes.length) (hle : bytes.length + 1 ≤ longest)
    (h128 : bytes.length + 1 < 0x80) :
    readLength longest true (UInt8.ofNat (0x80 + (bytes.length + 1)) :: bytes) =
      some (bigEndian (UInt8.ofNat (0x80 + (bytes.length + 1)) :: bytes) (bytes.length + 1),
        bytes.length + 2) := by
  have hc := ofNat_toNat_mark (bytes.length + 1) h128
  rw [readLength_mark _ _ (by omega), hc, Nat.add_sub_cancel_left, if_neg (by omega),
    if_neg (by rw [if_neg (by omega)]; omega)]

theorem fromBuffer_none (h : (mbuf.drop startPos).length < 2 ∨
      (mbuf.drop startPos).length ≤ (readType (mbuf.drop startPos) isBerTlv).2 ∨
      readLength 2 isBerTlv ((mbuf.drop startPos).drop (readType (mbuf.drop startPos) isBerTlv).2) =
        none) : fromBuffer mbuf startPos isBerTlv = (none, startPos) := by
  rw [fromBuffer]
  dsimp only
  by_cases h2 : (mbuf.drop startPos).length < 2
  · rw [if_pos h2]
  · rw [if_neg h2]
    by_cases htype : (mbuf.drop startPos).length ≤ (readType (mbuf.drop startPos) isBerTlv).2
    · rw [if_pos htype]
    · rw [if_neg htype, (h.resolve_left h2).resolve_left htype]
      rfl

theorem length_cut : (typeField ++ UInt8.ofNat (0x80 + (bytes.length + 1)) :: bytes).length =
    typeField.length + (bytes.length + 1) := by
  rw [List.length_append, List.length_cons]

theorem fromBuffer_cut (ht : TypeField true typeField tagMode tagType)
    (hp : mbuf.drop startPos = typeField ++ UInt8.ofNat (0x80 + (bytes.length + 1)) :: bytes)
    (hpos : 0 < bytes.length) (hle : bytes.length + 1 ≤ 2) (h128 : bytes.length + 1 < 0x80) :
    fromBuffer mbuf startPos true = (none, startPos + (typeField.length + (bytes.length + 2))) := by
  obtain ⟨htype, -⟩ := readType_typeField ht (UInt8.ofNat (0x80 + (bytes.length + 1)) :: bytes)
  have hne := List.length_pos_iff.mpr (typeField_ne_nil ht)
  rw [fromBuffer, hp]
  dsimp only
  rw [length_cut, if_neg (by omega), htype, if_neg (by omega), List.drop_left,
    readLength_cut hpos hle h128, Option.map_some, Option.getD_some]
  dsimp only
  rw [if_pos (by omega)]

theorem readsAtomically_iff (mbuf : List UInt8) (startPos : ℕ) (isBerTlv : Bool) :
    ReadsAtomically mbuf startPos isBerTlv ↔ ¬CutData (mbuf.drop startPos) isBerTlv ∧
        ¬CutLength 2 (mbuf.drop startPos) isBerTlv := by
  constructor
  · refine fun h => ⟨?_, ?_⟩
    · rintro ⟨typeField, lengthField, data, tagMode, tagType, tagLength, ht, hl, hp, hcut⟩
      have hread := fromBuffer_header ht hl hp
      rw [if_pos hcut] at hread
      have hpos := (h _ _ hread).2 rfl
      have hne := List.length_pos_iff.mpr (typeField_ne_nil ht)
      omega
    · rintro ⟨rfl, typeField, bytes, tagMode, tagType, ht, hp, hpos, hle, h128⟩
      have hsame := (h _ _ (fromBuffer_cut ht hp hpos hle h128)).2 rfl
      omega
  · rintro ⟨hdata, hlength⟩ r pos hread
    rcases header_cases 2 isBerTlv (mbuf.drop startPos) with hnone |
      ⟨typeField, lengthField, data, tagMode, tagType, tagLength, ht, hl, hp⟩ | hcut
    · obtain ⟨rfl, rfl⟩ := Prod.mk.inj ((fromBuffer_none hnone).symm.trans hread)
      exact ⟨nofun, fun _ => rfl⟩
    · rw [fromBuffer_header ht hl hp] at hread
      by_cases hcut : data.length < tagLength
      · exact absurd ⟨_, _, _, _, _, _, ht, hl, hp, hcut⟩ hdata
      · rw [if_neg hcut] at hread
        obtain ⟨rfl, rfl⟩ := Prod.mk.inj hread
        have hlen := congrArg List.length hp
        rw [List.length_drop, List.length_append, List.length_append] at hlen
        have hne := List.length_pos_iff.mpr (typeField_ne_nil ht)
        have htake : (data.take tagLength).length = tagLength := List.length_take_of_le (by omega)
        refine ⟨?_, fun h => by cases h⟩
        rintro tlv h
        obtain rfl := Option.some.inj h
        have hbytes : (mbuf.drop startPos).take
            (typeField.length + lengthField.length + tagLength) =
              typeField ++ (lengthField ++ data.take tagLength) := by
          rw [hp, Nat.add_assoc, List.take_length_add_append, List.take_length_add_append]
        refine ⟨rfl, by dsimp only; omega, by omega, typeField, lengthField, hbytes, ht, hl,
          htake.symm, ?_⟩
        dsimp only
        rw [hbytes, List.length_append, List.length_append, htake]
        omega
    · exact absurd hcut hlength

theorem readHeader_none (tlv : Tlv) (h : p.length < 2 ∨ p.length ≤ (readType p isBerTlv).2 ∨
      readLength 5 isBerTlv (p.drop (readType p isBerTlv).2) = none) :
    (readHeader tlv p isBerTlv).1 = errorBadData := by
  rw [readHeader]
  by_cases h2 : p.length < 2
  · rw [if_pos h2]
  · rw [if_neg h2]
    dsimp only
    by_cases htype : p.length ≤ (readType p isBerTlv).2
    · rw [if_pos htype]
    · rw [if_neg htype, (h.resolve_left h2).resolve_left htype]
      rfl

theorem readHeader_header (tlv : Tlv) (ht : TypeField isBerTlv typeField tagMode tagType)
    (hl : LengthField 5 isBerTlv lengthField tagLength) (data : List UInt8) :
    (readHeader tlv (typeField ++ (lengthField ++ data)) isBerTlv).1 =
      (typeField.length + lengthField.length : ℕ) := by
  obtain ⟨h2, hlt⟩ := length_header ht hl data
  obtain ⟨htype, -⟩ := readType_typeField ht (lengthField ++ data)
  rw [readHeader, if_neg (by omega), htype]
  dsimp only
  rw [if_neg (by omega), List.drop_left, readLength_lengthField hl data, Option.map_some,
    Option.getD_some]

theorem readHeader_cut (tlv : Tlv) (ht : TypeField true typeField tagMode tagType)
    (hpos : 0 < bytes.length) (hle : bytes.length + 1 ≤ 5) (h128 : bytes.length + 1 < 0x80) :
    (readHeader tlv (typeField ++ UInt8.ofNat (0x80 + (bytes.length + 1)) :: bytes) true).1 =
      (typeField.length + (bytes.length + 2) : ℕ) := by
  obtain ⟨htype, -⟩ := readType_typeField ht (UInt8.ofNat (0x80 + (bytes.length + 1)) :: bytes)
  have hne := List.length_pos_iff.mpr (typeField_ne_nil ht)
  rw [readHeader, length_cut, if_neg (by omega), htype]
  dsimp only
  rw [if_neg (by omega), List.drop_left, readLength_cut hpos hle h128, Option.map_some,
    Option.getD_some]

theorem headerInside_iff (p : List UInt8) (isBerTlv : Bool) :
    HeaderInside p isBerTlv ↔ ¬CutLength 5 p isBerTlv := by
  constructor
  · rintro h ⟨rfl, typeField, bytes, tagMode, tagType, ht, rfl, hpos, hle, h128⟩
    have hinside := h ⟨true, 0, 0, 0, 0, []⟩
    rw [readHeader_cut _ ht hpos hle h128, length_cut] at hinside
    omega
  · intro hlength tlv
    rcases header_cases 5 isBerTlv p with hnone |
      ⟨typeField, lengthField, data, tagMode, tagType, tagLength, ht, hl, rfl⟩ | hcut
    · rw [readHeader_none tlv hnone]
      exact Or.inr (by decide)
    · have hne := List.length_pos_iff.mpr (typeField_ne_nil ht)
      rw [readHeader_header tlv ht hl data, List.length_append, List.length_append]
      exact Or.inl ⟨by omega, by omega⟩
    · exact absurd hcut hlength

/-- TLVs are read completely or not at all, unless data or the last byte of a length is missing;
headers are read from inside the data, unless the last byte of the length is missing. -/
theorem reads_iff (mbuf p : List UInt8) (startPos : ℕ) (isBerTlv : Bool) :
    (ReadsAtomically mbuf startPos isBerTlv ↔
      ¬CutData (mbuf.drop startPos) isBerTlv ∧ ¬CutLength 2 (mbuf.drop startPos) isBerTlv) ∧
    (HeaderInside p isBerTlv ↔ ¬CutLength 5 p isBerTlv) :=
  ⟨readsAtomically_iff mbuf startPos isBerTlv, headerInside_iff p isBerTlv⟩

end

/-- The data is cut off; the position is behind the header afterwards. -/
theorem not_reads_cut : ¬((∀ mbuf startPos isBerTlv, ReadsAtomically mbuf startPos isBerTlv) ∧
      ∀ p isBerTlv, HeaderInside p isBerTlv) := by
  rintro ⟨h, -⟩
  have hread : fromBuffer [4, 5, 1] 0 true = (none, 2) := by decide
  exact absurd ((h _ _ _ _ _ hread).2 rfl) (by decide)

end Tlv
end Gwenhywfar
