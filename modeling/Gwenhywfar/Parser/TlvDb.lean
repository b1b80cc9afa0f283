import Gwenhywfar.Parser.Text
import Gwenhywfar.Parser.TlvTotal

/-! # BER-TLV objects in a database

A buffer is taken as the bytes from its position on.  A call has no outcome when an assertion
fails, when it reads bytes behind the used ones or writes behind an array, or when it does not
return.

* `toDb`: the parser, in which the code for the end of the buffer is one more byte.
* `Objects`: byte strings that are objects one after the other, with the groups for them.
* `copes_iff`: the parser returns if and only if there are such objects, up to the length given. -/

namespace Gwenhywfar.Tlv

open Text (toHex)

/-- A group for an object, with its name and its variables. -/
inductive DbGroup where
  | primitive (name : List UInt8) (length : ℤ) (data dataBin : List UInt8)
  | constructed (name : List UInt8) (length : ℤ) (children : List DbGroup)

/-! ### The parser -/

/-- `GWEN_Buffer_ReadByte`, whose result is stored in a byte. -/
def readByte : List UInt8 → UInt8 × List UInt8
  | [] => (UInt8.ofInt errorEof, [])
  | c :: src => (c, src)

/-- The text that `hex2char` leaves for these bytes: each one overwrites the second digit of the
byte before. -/
def tagText (tag : List UInt8) : List UInt8 :=
  (tag.map fun c : UInt8 => hexDigit ((c >>> 4) &&& 0x0f)) ++ [hexDigit (tag.getLastD 0 &&& 0x0f)]

/-- The bytes of a tag behind the first one.  More than 125 of them leave no room for the NUL in
`tag[128]`. -/
def moreTag : ℕ → List UInt8 → List UInt8 → Option (List UInt8 × List UInt8)
  | 0, _, _ => none
  | room + 1, tag, mbuf =>
      let r := readByte mbuf
      if r.1 > 127 then moreTag room (tag ++ [r.1]) r.2 else some (tag ++ [r.1], r.2)

def readTag (mbuf : List UInt8) : Option (List UInt8 × List UInt8) :=
  let r := readByte mbuf
  if r.1 &&& 0x1f = 0x1f then moreTag 125 [r.1] r.2 else some ([r.1], r.2)

/-- The loop over the bytes of a length. -/
def readNumber : ℕ → ℕ → List UInt8 → ℕ × List UInt8
  | 0, dataLen, mbuf => (dataLen, mbuf)
  | n + 1, dataLen, mbuf =>
      let r := readByte mbuf
      readNumber n ((dataLen <<< 8) % 2 ^ 32 + r.1.toNat) r.2

def readDataLen (mbuf : List UInt8) : Option (ℕ × ℕ × List UInt8) :=
  let r := readByte mbuf
  if 0x81 ≤ r.1 then
    -- assert(byte!=0xFF)
    if r.1 = 0xff then none
    else
      let numLengthBytes := (r.1 - 128).toNat
      let s := readNumber numLengthBytes 0 r.2
      some (s.1, numLengthBytes + 1, s.2)
  else some (r.1.toNat, 1, r.2)

/-- A `uint32_t` as an `int`. -/
def toInt (n : ℕ) : ℤ := if n < 2 ^ 31 then n else n - 2 ^ 32

/-- The data of an object that is not constructed; a buffer for twice its length is needed. -/
def readData (dataLen : ℕ) (mbuf : List UInt8) : Option (List UInt8 × List UInt8) :=
  if mbuf.length < dataLen ∨ 2 ^ 31 ≤ dataLen then none
  else some (mbuf.take dataLen, mbuf.drop dataLen)

/-- The loop of `GWEN_TLV_Buffer_To_DB` from `tlvLen` on: the groups that are added, the bytes
that follow, and `tlvLen` at the end. -/
def toDb : ℕ → List UInt8 → ℤ → ℕ → Option (List DbGroup × List UInt8 × ℕ)
  | 0, _, _, _ => none
  | fuel + 1, mbuf, len, tlvLen =>
      if (tlvLen : ℤ) < len then
        (readTag mbuf).bind fun tag =>
        (readDataLen tag.2).bind fun dataLen =>
        (if tag.1.headD 0 &&& 0x20 ≠ 0 then
          (toDb fuel dataLen.2.2 (toInt dataLen.1) 0).map fun r =>
            (DbGroup.constructed (tagText tag.1) (toInt dataLen.1) r.1, r.2.1, r.2.2)
        else
          (readData dataLen.1 dataLen.2.2).map fun r =>
            (DbGroup.primitive (tagText tag.1) (toInt dataLen.1) (toHex r.1) r.1, r.2,
              dataLen.1)).bind fun dbTLV =>
        (toDb fuel dbTLV.2.1 len (tlvLen + tag.1.length + dataLen.2.1 + dbTLV.2.2)).map fun r =>
          (dbTLV.1 :: r.1, r.2)
      else
        -- assert(len==tlv_len)
        if len = tlvLen then some ([], mbuf, tlvLen) else none

/-- `GWEN_TLV_Buffer_To_DB`. -/
def bufferToDb (mbuf : List UInt8) (len : ℤ) : Option (List DbGroup × List UInt8 × ℕ) :=
  toDb (mbuf.length + 1) mbuf len 0

/-! ### Objects -/

/-- The bytes of a tag: the first one tells whether others follow, and they whether more do. -/
inductive Tag : List UInt8 → Prop
  | short (c : UInt8) (h : c &&& 0x1f ≠ 0x1f) : Tag [c]
  | long (c : UInt8) (more : List UInt8) (d : UInt8) (h : c &&& 0x1f = 0x1f)
      (hmore : ∀ b ∈ more, b > 127) (hd : ¬d > 127) : Tag (c :: (more ++ [d]))

def DefiniteLength (field : List UInt8) (n : ℕ) : Prop :=
  (∃ c : UInt8, field = [c] ∧ c < 0x80 ∧ n = c.toNat) ∨
    ∃ (c : UInt8) (bytes : List UInt8), field = c :: bytes ∧ 0x80 < c ∧ c < 0xff ∧
      bytes.length = c.toNat - 128 ∧ n = valueOf bytes

/-- The bytes of a length as they are taken: `0x80` is a length of its own, and only 32 bits count
of a longer one. -/
def TakenLength (field : List UInt8) (n : ℕ) : Prop :=
  (∃ c : UInt8, field = [c] ∧ c ≤ 0x80 ∧ n = c.toNat) ∨
    ∃ (c : UInt8) (bytes : List UInt8), field = c :: bytes ∧ 0x80 < c ∧ c < 0xff ∧
      bytes.length = c.toNat - 128 ∧ n = valueOf bytes % 2 ^ 32

/-- Objects one after the other, and the groups for them; the bytes of a tag and the lengths are
limited. -/
inductive Objects (longest : ℕ) (Length : List UInt8 → ℕ → Prop) :
    List UInt8 → List DbGroup → Prop
  | nil : Objects longest Length [] []
  | primitive {tag field content rest : List UInt8} {groups : List DbGroup} (ht : Tag tag)
      (hlong : tag.length ≤ longest) (hl : Length field content.length)
      (hp : tag.headD 0 &&& 0x20 = 0) (hrest : Objects longest Length rest groups) :
      Objects longest Length (tag ++ (field ++ (content ++ rest)))
        (.primitive (tagText tag) content.length (toHex content) content :: groups)
  | constructed {tag field content rest : List UInt8} {groups children : List DbGroup}
      (ht : Tag tag) (hlong : tag.length ≤ longest) (hl : Length field content.length)
      (hc : tag.headD 0 &&& 0x20 ≠ 0) (hcontent : Objects longest Length content children)
      (hrest : Objects longest Length rest groups) :
      Objects longest Length (tag ++ (field ++ (content ++ rest)))
        (.constructed (tagText tag) content.length children :: groups)

def WellFormed : List UInt8 → List DbGroup → Prop := Objects 60 DefiniteLength

def Taken : List UInt8 → List DbGroup → Prop := Objects 126 TakenLength

/-- The call returns, and for well-formed objects it consumes the length and adds their groups. -/
def Copes (mbuf : List UInt8) (len : ℤ) : Prop :=
  ∃ groups rest tlvLen, bufferToDb mbuf len = some (groups, rest, tlvLen) ∧
    ∀ groups', WellFormed (mbuf.take len.toNat) groups' →
      groups = groups' ∧ rest = mbuf.drop len.toNat ∧ tlvLen = len

/-! ### Objects are read -/

section
variable {tag field content rest mbuf bytes : List UInt8} {n : ℕ}

theorem readTag_append (ht : Tag tag) (hlong : tag.length ≤ 126) (rest : List UInt8) :
    readTag (tag ++ rest) = some (tag, rest) := by
  have hmore : ∀ (more pre : List UInt8) (d : UInt8) (room : ℕ), (∀ b ∈ more, b > 127) →
      ¬d > 127 → more.length < room →
      moreTag room pre (more ++ (d :: rest)) = some (pre ++ (more ++ [d]), rest) := by
    intro more
    induction more with
    | nil =>
        intro pre d room _ hd hroom
        obtain ⟨room, rfl⟩ := Nat.exists_eq_succ_of_ne_zero (Nat.ne_zero_of_lt hroom)
        exact if_neg hd
    | cons b more ih =>
        intro pre d room hmore hd hroom
        obtain ⟨hb, hmore⟩ := List.forall_mem_cons.mp hmore
        obtain ⟨room, rfl⟩ := Nat.exists_eq_succ_of_ne_zero (Nat.ne_zero_of_lt hroom)
        have hstep : moreTag (room + 1) pre (b :: (more ++ (d :: rest))) =
            moreTag room (pre ++ [b]) (more ++ (d :: rest)) := if_pos hb
        rw [List.cons_append, hstep, ih (pre ++ [b]) d room hmore hd (Nat.lt_of_succ_lt_succ hroom),
          List.append_assoc]
        rfl
  cases ht with
  | short c h => exact if_neg h
  | long c more d h hm hd =>
      rw [List.length_cons, List.length_append, List.length_singleton] at hlong
      have hstep : readTag (c :: (more ++ [d]) ++ rest) = moreTag 125 [c] (more ++ (d :: rest)) := by
        rw [List.cons_append, List.append_assoc]
        exact if_pos h
      rw [hstep, hmore more [c] d 125 hm hd (by omega)]
      rfl

theorem readNumber_append (n v : ℕ) (h : bytes.length = n) (rest : List UInt8) :
    readNumber n v (bytes ++ rest) =
      (bytes.foldl (fun v b => (v <<< 8) % 2 ^ 32 + b.toNat) v, rest) := by
  induction bytes generalizing n v with
  | nil =>
      obtain rfl : n = 0 := h.symm
      rfl
  | cons b bytes ih =>
      obtain rfl : n = bytes.length + 1 := h.symm
      rw [List.cons_append, readNumber]
      exact ih bytes.length _ rfl

theorem foldl_mod (bytes : List UInt8) :
    bytes.foldl (fun v b => (v <<< 8) % 2 ^ 32 + b.toNat) 0 = valueOf bytes % 2 ^ 32 := by
  induction bytes using List.reverseRecOn with
  | nil => rfl
  | append_singleton bytes b ih =>
      have hb := b.toNat_lt
      rw [List.foldl_append, List.foldl_cons, List.foldl_nil, ih, valueOf_concat, Nat.shiftLeft_eq]
      omega

theorem readDataLen_cons (c : UInt8) (mbuf : List UInt8) : readDataLen (c :: mbuf) =
    if 0x81 ≤ c then
      if c = 0xff then none
      else some ((readNumber (c - 128).toNat 0 mbuf).1, (c - 128).toNat + 1,
        (readNumber (c - 128).toNat 0 mbuf).2)
    else some (c.toNat, 1, mbuf) := rfl

theorem readDataLen_append (hl : TakenLength field n) (rest : List UInt8) :
    readDataLen (field ++ rest) = some (n, field.length, rest) := by
  rcases hl with ⟨c, rfl, hc, rfl⟩ | ⟨c, bytes, rfl, hlow, hhigh, hlen, rfl⟩
  · have hneg : ¬(0x81 : UInt8) ≤ c := by
      rw [UInt8.le_iff_toNat_le] at hc ⊢
      exact Nat.not_le_of_lt (Nat.lt_succ_of_le hc)
    exact (readDataLen_cons c rest).trans (if_neg hneg)
  · have hpos : (0x81 : UInt8) ≤ c := by
      rw [UInt8.lt_iff_toNat_lt] at hlow
      rw [UInt8.le_iff_toNat_le]
      exact hlow
    have hne : c ≠ 0xff := by
      rintro rfl
      exact UInt8.lt_irrefl _ hhigh
    have hsub : (c - 128).toNat = bytes.length := by
      rw [UInt8.toNat_sub_of_le _ _ (UInt8.le_of_lt hlow), hlen]
      rfl
    have hread := readNumber_append (c - 128).toNat 0 hsub.symm rest
    rw [foldl_mod] at hread
    rw [List.cons_append, readDataLen_cons, if_pos hpos, if_neg hne, hread, hsub, List.length_cons]

theorem toInt_of_lt (h : n < 2 ^ 31) : toInt n = n := if_pos h

theorem Tag.length_pos (ht : Tag tag) : 0 < tag.length := by
  cases ht with
  | short c h => exact Nat.zero_lt_one
  | long c more d h hm hd => exact Nat.zero_lt_succ _

theorem toDb_step {fuel tlvLen k : ℕ} {len : ℤ} {tail : List UInt8} (hlt : (tlvLen : ℤ) < len)
    (ht : readTag mbuf = some (tag, content)) (hl : readDataLen content = some (n, k, tail)) :
    toDb (fuel + 1) mbuf len tlvLen =
      (if tag.headD 0 &&& 0x20 ≠ 0 then
        (toDb fuel tail (toInt n) 0).map fun r =>
          (DbGroup.constructed (tagText tag) (toInt n) r.1, r.2.1, r.2.2)
      else
        (readData n tail).map fun r =>
          (DbGroup.primitive (tagText tag) (toInt n) (toHex r.1) r.1, r.2, n)).bind fun dbTLV =>
      (toDb fuel dbTLV.2.1 len (tlvLen + tag.length + k + dbTLV.2.2)).map fun r =>
        (dbTLV.1 :: r.1, r.2) := by
  rw [toDb, if_pos hlt, ht, Option.bind_some]
  dsimp only
  rw [hl, Option.bind_some]

variable {groups : List DbGroup}

theorem toDb_of_objects (h : Taken content groups) {fuel : ℕ}
    (hfuel : content.length < fuel) (tlvLen : ℕ) (hint : content.length < 2 ^ 31)
    (rest : List UInt8) : toDb fuel (content ++ rest) (tlvLen + content.length : ℕ) tlvLen =
      some (groups, rest, tlvLen + content.length) := by
  induction h generalizing fuel tlvLen rest with
  | nil =>
      obtain ⟨fuel, rfl⟩ := Nat.exists_eq_succ_of_ne_zero (Nat.ne_zero_of_lt hfuel)
      rw [toDb, if_neg (by simp), if_pos (by simp)]
      simp
  | @primitive tag field content tail groups ht hlong hl hp _ ih =>
      have htag := ht.length_pos
      simp only [List.length_append] at hfuel hint ⊢
      obtain ⟨fuel, rfl⟩ := Nat.exists_eq_succ_of_ne_zero (Nat.ne_zero_of_lt hfuel)
      have hread := readTag_append ht hlong (field ++ (content ++ (tail ++ rest)))
      have hlen := readDataLen_append hl (content ++ (tail ++ rest))
      have hdata : readData content.length (content ++ (tail ++ rest)) =
          some (content, tail ++ rest) := by
        rw [readData, if_neg (by simp only [List.length_append]; omega), List.take_left,
          List.drop_left]
      have hsum : tlvLen + (tag.length + (field.length + (content.length + tail.length))) =
          tlvLen + tag.length + field.length + content.length + tail.length := by omega
      rw [List.append_assoc, List.append_assoc, List.append_assoc,
        toDb_step (by omega) hread hlen, if_neg (not_not.mpr hp), hdata, Option.map_some,
        Option.bind_some, toInt_of_lt (by omega), hsum]
      dsimp only
      rw [ih (by omega) _ (by omega) rest]
      rfl
  | @constructed tag field content tail groups children ht hlong hl hc _ _ ih' ih =>
      have htag := ht.length_pos
      simp only [List.length_append] at hfuel hint ⊢
      obtain ⟨fuel, rfl⟩ := Nat.exists_eq_succ_of_ne_zero (Nat.ne_zero_of_lt hfuel)
      have hread := readTag_append ht hlong (field ++ (content ++ (tail ++ rest)))
      have hlen := readDataLen_append hl (content ++ (tail ++ rest))
      have hnested := @ih' fuel (by omega) 0 (by omega) (tail ++ rest)
      rw [Nat.zero_add] at hnested
      have hsum : tlvLen + (tag.length + (field.length + (content.length + tail.length))) =
          tlvLen + tag.length + field.length + content.length + tail.length := by omega
      rw [List.append_assoc, List.append_assoc, List.append_assoc,
        toDb_step (by omega) hread hlen, if_pos hc, toInt_of_lt (by omega), hnested,
        Option.map_some, Option.bind_some, hsum]
      dsimp only
      rw [ih (by omega) _ (by omega) rest]
      rfl

/-! ### Only objects are read -/

theorem moreTag_nil (room : ℕ) (pre : List UInt8) : moreTag room pre [] = none := by
  induction room generalizing pre with
  | zero => rfl
  | succ room ih =>
      have hstep : moreTag (room + 1) pre [] = moreTag room (pre ++ [199]) [] := rfl
      rw [hstep, ih]

theorem moreTag_cons (room : ℕ) (pre : List UInt8) (c : UInt8) (mbuf : List UInt8) :
    moreTag (room + 1) pre (c :: mbuf) =
      if c > 127 then moreTag room (pre ++ [c]) mbuf else some (pre ++ [c], mbuf) := rfl

theorem readTag_cons (c : UInt8) (mbuf : List UInt8) : readTag (c :: mbuf) =
    if c &&& 0x1f = 0x1f then moreTag 125 [c] mbuf else some ([c], mbuf) := rfl

theorem moreTag_eq_some {room : ℕ} {pre : List UInt8} (h : moreTag room pre mbuf = some (tag, rest)) :
    ∃ more d, tag = pre ++ (more ++ [d]) ∧ mbuf = more ++ (d :: rest) ∧ (∀ b ∈ more, b > 127) ∧
      ¬d > 127 ∧ more.length < room := by
  induction room generalizing pre mbuf with
  | zero => cases h
  | succ room ih =>
      cases mbuf with
      | nil =>
          rw [moreTag_nil] at h
          cases h
      | cons c mbuf =>
          rw [moreTag_cons] at h
          by_cases hc : c > 127
          · rw [if_pos hc] at h
            obtain ⟨more, d, rfl, rfl, hmore, hd, hlen⟩ := ih h
            exact ⟨c :: more, d, List.append_assoc _ _ _, rfl, List.forall_mem_cons.mpr ⟨hc, hmore⟩,
              hd, Nat.succ_lt_succ hlen⟩
          · rw [if_neg hc] at h
            obtain ⟨rfl, rfl⟩ := Prod.mk.inj (Option.some.inj h)
            exact ⟨[], c, rfl, rfl, fun b hb => absurd hb List.not_mem_nil, hc, Nat.zero_lt_succ _⟩

theorem readTag_eq_some {c : UInt8} (h : readTag (c :: mbuf) = some (tag, rest)) :
    Tag tag ∧ tag.length ≤ 126 ∧ c :: mbuf = tag ++ rest := by
  rw [readTag_cons] at h
  by_cases hc : c &&& 0x1f = 0x1f
  · rw [if_pos hc] at h
    obtain ⟨more, d, rfl, rfl, hmore, hd, hlen⟩ := moreTag_eq_some h
    refine ⟨.long c more d hc hmore hd, ?_, ?_⟩
    · rw [List.length_append, List.length_append, List.length_singleton, List.length_singleton]
      omega
    · rw [List.append_assoc, List.append_assoc]
      rfl
  · rw [if_neg hc] at h
    obtain ⟨rfl, rfl⟩ := Prod.mk.inj (Option.some.inj h)
    exact ⟨.short c hc, Nat.succ_le_succ (Nat.zero_le _), rfl⟩

/-- The code for the end of the buffer is the last byte of the number. -/
theorem readNumber_cut (n v : ℕ) (h : mbuf.length < n) :
    (readNumber n v mbuf).1 % 256 = 199 ∧ (readNumber n v mbuf).2 = [] := by
  have hend : ∀ n v, (readNumber (n + 1) v []).1 % 256 = 199 ∧
      (readNumber (n + 1) v []).2 = [] := by
    intro n
    induction n with
    | zero =>
        intro v
        refine ⟨?_, rfl⟩
        show ((v <<< 8) % 2 ^ 32 + 199) % 256 = 199
        rw [Nat.shiftLeft_eq]
        omega
    | succ n ih => exact fun v => ih _
  induction n generalizing v mbuf with
  | zero => exact absurd h (Nat.not_lt_zero _)
  | succ n ih =>
      cases mbuf with
      | nil => exact hend n v
      | cons c mbuf => exact ih _ (Nat.lt_of_succ_lt_succ h)

theorem readDataLen_eq_some {k : ℕ} (h : readDataLen mbuf = some (n, k, rest)) :
    (∃ field, TakenLength field n ∧ k = field.length ∧ mbuf = field ++ rest) ∨
      n % 256 = 199 ∧ rest = [] := by
  cases mbuf with
  | nil =>
      have hend : readDataLen [] = some ((readNumber 71 0 []).1, 72, (readNumber 71 0 []).2) := rfl
      rw [hend] at h
      obtain ⟨rfl, hk⟩ := Prod.mk.inj (Option.some.inj h)
      obtain ⟨-, rfl⟩ := Prod.mk.inj hk
      exact Or.inr (readNumber_cut 71 0 (by decide))
  | cons c mbuf =>
      rw [readDataLen_cons] at h
      by_cases hc : (0x81 : UInt8) ≤ c
      · rw [if_pos hc] at h
        by_cases hff : c = 0xff
        · rw [if_pos hff] at h
          cases h
        · rw [if_neg hff] at h
          obtain ⟨rfl, hk⟩ := Prod.mk.inj (Option.some.inj h)
          obtain ⟨rfl, rfl⟩ := Prod.mk.inj hk
          have hlow : (0x80 : UInt8) < c := by
            rw [UInt8.le_iff_toNat_le] at hc
            rw [UInt8.lt_iff_toNat_lt]
            exact hc
          have hhigh : c < 0xff := UInt8.lt_of_le_of_ne (UInt8.le_iff_toNat_le.mpr
            (Nat.le_of_lt_succ c.toNat_lt)) hff
          have hsub : (c - 128).toNat = c.toNat - 128 :=
            UInt8.toNat_sub_of_le _ _ (UInt8.le_of_lt hlow)
          by_cases hlen : (c - 128).toNat ≤ mbuf.length
          · have htake := List.length_take_of_le hlen
            have hread := readNumber_append (c - 128).toNat 0 htake (mbuf.drop (c - 128).toNat)
            rw [List.take_append_drop, foldl_mod] at hread
            rw [hread]
            refine Or.inl ⟨c :: mbuf.take (c - 128).toNat, Or.inr ⟨c, _, rfl, hlow, hhigh,
              htake.trans hsub, rfl⟩, ?_, ?_⟩
            · rw [List.length_cons, htake]
            · rw [List.cons_append, List.take_append_drop]
          · exact Or.inr (readNumber_cut _ 0 (Nat.lt_of_not_le hlen))
      · rw [if_neg hc] at h
        obtain ⟨rfl, hk⟩ := Prod.mk.inj (Option.some.inj h)
        obtain ⟨rfl, rfl⟩ := Prod.mk.inj hk
        refine Or.inl ⟨[c], Or.inl ⟨c, rfl, ?_, rfl⟩, rfl, rfl⟩
        rw [UInt8.le_iff_toNat_le] at hc ⊢
        exact Nat.le_of_lt_succ (Nat.lt_of_not_le hc)

theorem toDb_nil {fuel tlvLen : ℕ} {len : ℤ} (hlt : (tlvLen : ℤ) < len) :
    toDb fuel [] len tlvLen = none := by
  cases fuel with
  | zero => rfl
  | succ fuel =>
      have hread : readTag [] = some ([199], []) := by decide
      have hlen : readDataLen [] = some ((readNumber 71 0 []).1, 72, (readNumber 71 0 []).2) := rfl
      obtain ⟨hn, hnil⟩ := @readNumber_cut [] 71 0 (by decide)
      have hdata : readData (readNumber 71 0 []).1 (readNumber 71 0 []).2 = none := by
        rw [readData, hnil]
        refine if_pos (Or.inl (Nat.pos_of_ne_zero fun hz => ?_))
        rw [hz] at hn
        exact absurd hn (by decide)
      rw [toDb_step hlt hread hlen, if_neg (by decide), hdata]
      rfl

theorem TakenLength.lt (h : TakenLength field n) : n < 2 ^ 32 := by
  rcases h with ⟨c, -, -, rfl⟩ | ⟨c, bytes, -, -, -, -, rfl⟩
  · exact Nat.lt_trans c.toNat_lt (by decide)
  · exact Nat.mod_lt _ (by decide)

/-- What there is when an object is read, and the ones behind it. -/
theorem toDb_eq_some {fuel tlvLen t : ℕ} {len : ℤ}
    (hlt : (tlvLen : ℤ) < len) (h : toDb (fuel + 1) mbuf len tlvLen = some (groups, rest, t)) :
    ∃ tag n k n' m1 m2 m3 group groups', readTag mbuf = some (tag, m1) ∧
      readDataLen m1 = some (n, k, m2) ∧ groups = group :: groups' ∧
      toDb fuel m3 len (tlvLen + tag.length + k + n') = some (groups', rest, t) ∧
      ((tag.headD 0 &&& 0x20 ≠ 0 ∧ ∃ children, toDb fuel m2 (toInt n) 0 = some (children, m3, n') ∧
          group = .constructed (tagText tag) (toInt n) children) ∨
        (tag.headD 0 &&& 0x20 = 0 ∧ n' = n ∧ ∃ data, readData n m2 = some (data, m3) ∧
          group = .primitive (tagText tag) (toInt n) (toHex data) data)) := by
  obtain ⟨⟨tag, m1⟩, htag⟩ : ∃ r, readTag mbuf = some r := by
    by_contra hno
    rw [toDb, if_pos hlt, Option.eq_none_iff_forall_ne_some.mpr fun r hr => hno ⟨r, hr⟩] at h
    cases h
  obtain ⟨⟨n, k, m2⟩, hlen⟩ : ∃ r, readDataLen m1 = some r := by
    by_contra hno
    rw [toDb, if_pos hlt, htag, Option.bind_some,
      Option.eq_none_iff_forall_ne_some.mpr fun r hr => hno ⟨r, hr⟩] at h
    cases h
  rw [toDb_step hlt htag hlen, Option.bind_eq_some_iff] at h
  obtain ⟨⟨group, m3, n'⟩, hbody, h⟩ := h
  obtain ⟨⟨groups', rest', t'⟩, hrest, heq⟩ := Option.map_eq_some_iff.mp h
  cases heq
  refine ⟨tag, n, k, n', m1, m2, m3, group, groups', htag, hlen, rfl, hrest, ?_⟩
  by_cases hc : tag.headD 0 &&& 0x20 ≠ 0
  · rw [if_pos hc] at hbody
    obtain ⟨⟨children, m, s⟩, hnested, heq⟩ := Option.map_eq_some_iff.mp hbody
    cases heq
    exact Or.inl ⟨hc, children, hnested, rfl⟩
  · rw [if_neg hc] at hbody
    obtain ⟨⟨data, m⟩, hdata, heq⟩ := Option.map_eq_some_iff.mp hbody
    cases heq
    exact Or.inr ⟨not_not.mp hc, rfl, data, hdata, rfl⟩

theorem readData_eq_some {data : List UInt8} (h : readData n mbuf = some (data, rest)) :
    mbuf = data ++ rest ∧ data.length = n ∧ n < 2 ^ 31 := by
  rw [readData] at h
  by_cases hfit : mbuf.length < n ∨ 2 ^ 31 ≤ n
  · rw [if_pos hfit] at h
    cases h
  · rw [if_neg hfit] at h
    obtain ⟨rfl, rfl⟩ := Prod.mk.inj (Option.some.inj h)
    obtain ⟨hfit, hint⟩ := not_or.mp hfit
    exact ⟨(List.take_append_drop n mbuf).symm, List.length_take_of_le (Nat.le_of_not_lt hfit),
      Nat.lt_of_not_le hint⟩

/-- What is read are objects. -/
theorem objects_of_toDb {fuel tlvLen t : ℕ} {len : ℤ}
    (h : toDb fuel mbuf len tlvLen = some (groups, rest, t)) :
    ∃ content, mbuf = content ++ rest ∧ Taken content groups ∧ t = tlvLen + content.length ∧
      len = t := by
  induction fuel generalizing mbuf len tlvLen groups rest t with
  | zero => cases h
  | succ fuel ih =>
      by_cases hlt : (tlvLen : ℤ) < len
      · cases mbuf with
        | nil =>
            rw [toDb_nil hlt] at h
            cases h
        | cons c mbuf =>
            obtain ⟨tag, n, k, n', m1, m2, m3, group, groups', htag, hlen, rfl, hrest, hbody⟩ :=
              toDb_eq_some hlt h
            obtain ⟨ht, hlong, hmbuf⟩ := readTag_eq_some htag
            obtain ⟨tail, rfl, htail, rfl, hend⟩ := ih hrest
            rw [hmbuf]
            rcases hbody with ⟨hc, children, hnested, rfl⟩ | ⟨hp, rfl, data, hdata, rfl⟩
            · obtain ⟨content, rfl, hcontent, rfl, hint⟩ := ih hnested
              rw [Nat.zero_add] at hint
              rcases readDataLen_eq_some hlen with ⟨field, hl, rfl, rfl⟩ | ⟨hn, hnil⟩
              · have hlt := hl.lt
                have hn : n = content.length := by
                  unfold toInt at hint
                  split at hint <;> omega
                subst hn
                rw [hint]
                refine ⟨tag ++ (field ++ (content ++ tail)), by simp only [List.append_assoc],
                  .constructed ht hlong hl hc hcontent htail, ?_, hend⟩
                simp only [List.length_append]
                omega
              · obtain ⟨rfl, -⟩ := List.append_eq_nil_iff.mp hnil
                unfold toInt at hint
                rw [List.length_nil] at hint
                split at hint <;> omega
            · obtain ⟨rfl, rfl, hint⟩ := readData_eq_some hdata
              rcases readDataLen_eq_some hlen with ⟨field, hl, rfl, rfl⟩ | ⟨hn, hnil⟩
              · rw [toInt_of_lt hint]
                refine ⟨tag ++ (field ++ (data ++ tail)), by simp only [List.append_assoc],
                  .primitive ht hlong hl hp htail, ?_, hend⟩
                simp only [List.length_append]
                omega
              · obtain ⟨rfl, -⟩ := List.append_eq_nil_iff.mp hnil
                rw [List.length_nil] at hn
                omega
      · rw [toDb, if_neg hlt] at h
        split at h
        · next heq =>
            obtain ⟨rfl, hpair⟩ := Prod.mk.inj (Option.some.inj h)
            obtain ⟨rfl, rfl⟩ := Prod.mk.inj hpair
            exact ⟨[], rfl, .nil, rfl, heq⟩
        · cases h

/-! ### Card data -/

theorem DefiniteLength.taken (h : DefiniteLength field n) (hn : n < 2 ^ 32) :
    TakenLength field n := by
  rcases h with ⟨c, hfield, hc, hval⟩ | ⟨c, bytes, hfield, hlow, hhigh, hlen, rfl⟩
  · exact Or.inl ⟨c, hfield, UInt8.le_of_lt hc, hval⟩
  · exact Or.inr ⟨c, bytes, hfield, hlow, hhigh, hlen, (Nat.mod_eq_of_lt hn).symm⟩

theorem WellFormed.taken (h : WellFormed content groups)
    (hint : content.length < 2 ^ 31) : Taken content groups := by
  induction h with
  | nil => exact .nil
  | primitive ht hlong hl hp _ ih =>
      simp only [List.length_append] at hint
      exact .primitive ht (Nat.le_trans hlong (by decide)) (hl.taken (by omega)) hp (ih (by omega))
  | constructed ht hlong hl hc _ _ ih' ih =>
      simp only [List.length_append] at hint
      exact .constructed ht (Nat.le_trans hlong (by decide)) (hl.taken (by omega)) hc
        (ih' (by omega)) (ih (by omega))

theorem bufferToDb_of_objects (h : Taken content groups)
    (hint : content.length < 2 ^ 31) (rest : List UInt8) :
    bufferToDb (content ++ rest) content.length = some (groups, rest, content.length) := by
  have hfuel : content.length < (content ++ rest).length + 1 := by
    rw [List.length_append]
    omega
  have hread := toDb_of_objects h hfuel 0 hint rest
  rw [Nat.zero_add] at hread
  exact hread

end

/-- The call copes with the data if and only if it is made of objects as they are taken: tags of at
most 126 bytes, lengths that do not start with `0xff` and do not pass the end, and in a constructed
object again objects up to its end. -/
theorem copes_iff (mbuf : List UInt8) (len : ℤ) (hle : len ≤ mbuf.length) (hint : len < 2 ^ 31) :
    Copes mbuf len ↔ 0 ≤ len ∧ ∃ groups, Taken (mbuf.take len.toNat) groups := by
  constructor
  · rintro ⟨groups, rest, t, hread, -⟩
    obtain ⟨content, rfl, hcontent, ht, rfl⟩ := objects_of_toDb hread
    rw [Nat.zero_add] at ht
    subst ht
    refine ⟨Int.natCast_nonneg _, groups, ?_⟩
    rw [Int.toNat_natCast, List.take_left]
    exact hcontent
  · rintro ⟨hpos, groups, hgroups⟩
    obtain ⟨n, rfl⟩ := Int.eq_ofNat_of_zero_le hpos
    rw [Int.toNat_natCast] at hgroups
    have hlen : (mbuf.take n).length = n := List.length_take_of_le (by omega)
    have hread {groups : List DbGroup} (h : Taken (mbuf.take n) groups) :
        bufferToDb mbuf n = some (groups, mbuf.drop n, n) := by
      have hobj := bufferToDb_of_objects h (by omega) (mbuf.drop n)
      rw [List.take_append_drop, hlen] at hobj
      exact hobj
    refine ⟨groups, mbuf.drop n, n, hread hgroups, fun groups' hwell => ?_⟩
    rw [Int.toNat_natCast] at hwell ⊢
    have hother := (hread hgroups).symm.trans (hread (WellFormed.taken hwell (by omega)))
    exact ⟨(Prod.mk.inj (Option.some.inj hother)).1, rfl, rfl⟩

theorem Taken.byte {tag b : UInt8} {rest : List UInt8} {groups : List DbGroup}
    (h : tag &&& 0x1f ≠ 0x1f) (hp : tag &&& 0x20 = 0) (hrest : Taken rest groups) :
    Taken (tag :: 1 :: b :: rest) (.primitive (tagText [tag]) 1 (toHex [b]) [b] :: groups) :=
  @Objects.primitive 126 TakenLength [tag] [1] [b] rest groups (.short tag h) (Nat.le_add_left 1 125)
    (Or.inl ⟨1, rfl, by decide, rfl⟩) hp hrest

/-- A constructed object around two primitive ones. -/
theorem copes_three : Copes [0x30, 6, 4, 1, 7, 5, 1, 8] 8 :=
  (copes_iff _ 8 (by decide) (by decide)).mpr ⟨by decide, _,
    @Objects.constructed 126 TakenLength [0x30] [6] [4, 1, 7, 5, 1, 8] [] _ _
      (.short 0x30 (by decide)) (by decide) (Or.inl ⟨6, rfl, by decide, rfl⟩) (by decide)
      (Taken.byte (by decide) (by decide) (Taken.byte (by decide) (by decide) .nil)) .nil⟩

/-- The second byte is one that the assertion does not allow. -/
theorem not_copes_assert : ¬∀ (mbuf : List UInt8) (len : ℤ), len ≤ mbuf.length → len < 2 ^ 31 →
    Copes mbuf len := by
  intro h
  obtain ⟨groups, rest, t, hread, -⟩ := h [4, 255] 2 (by decide) (by decide)
  have hnone : (bufferToDb [4, 255] 2).isNone := by decide
  rw [hread] at hnone
  cases hnone
end Gwenhywfar.Tlv
