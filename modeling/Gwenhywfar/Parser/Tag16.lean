import Gwenhywfar.Base.Error
import Gwenhywfar.Base.Uint32

/-! # `GWEN_TAG16`

A tag has a byte for its type, two for the length of its data (the low one first), and the data.
A buffer is taken as its bytes, with the position at their end; it is far smaller than the largest
`int`, as its hard limit is 16 MiB.

* `write`: a caller writes tags, and containers between `GWEN_Tag16_StartTagInBuffer` and
  `GWEN_Tag16_EndTagInBuffer`.
* `items_roundTrip_iff`: what was written is read back exactly when all payloads fit their length
  fields, which `GWEN_Tag16_EndTagInBuffer` does not check. -/

namespace Gwenhywfar

/-- `GWEN_TAG16`; its length is that of the data. -/
structure Tag16 where
  tagType : ℕ
  tagData : List UInt8
deriving DecidableEq

namespace Tag16

/-! ### Reading -/

def tagSize (tag : Tag16) : ℕ := tag.tagData.length + 3

/-- `GWEN_Tag16_fromBuffer2`. -/
def fromBuffer2 : List UInt8 → Option Tag16
  | t :: l0 :: l1 :: data =>
      let tagLength := l0.toNat + l1.toNat <<< 8
      if data.length < tagLength then none else some ⟨t.toNat, data.take tagLength⟩
  | _ => none

/-- The loop of `GWEN_Tag16_List_fromBuffer`; each round takes a tag. -/
def listLoop : ℕ → List UInt8 → Option (List Tag16)
  | _, [] => some []
  | 0, _ :: _ => none
  | k + 1, c :: p =>
      (fromBuffer2 (c :: p)).bind fun tag =>
        if (c :: p).length < tag.tagSize then none
        else (listLoop k ((c :: p).drop tag.tagSize)).map fun tagList => tag :: tagList

/-- `GWEN_Tag16_List_fromBuffer`. -/
def listFromBuffer (p : List UInt8) : Option (List Tag16) :=
  (listLoop p.length p).bind fun tagList => if tagList.length < 1 then none else some tagList

/-! ### Writing -/

/-- `GWEN_Tag16_WriteTagToBuffer`. -/
def writeTagToBuffer (tagType : ℕ) (p : List UInt8) (buf : List UInt8) : List UInt8 :=
  buf ++ (UInt8.ofNat tagType :: UInt8.ofNat p.length :: UInt8.ofNat (p.length >>> 8) :: p)

/-- `GWEN_Tag16_StartTagInBuffer`. -/
def startTagInBuffer (tagType : ℕ) (buf : List UInt8) : ℕ × List UInt8 :=
  (buf.length, buf ++ [UInt8.ofNat tagType, 0, 0])

/-- `GWEN_Tag16_EndTagInBuffer`. -/
def endTagInBuffer (startPos : ℕ) (buf : List UInt8) : ℤ × List UInt8 :=
  let payloadSize : ℤ := buf.length - startPos - 3
  if payloadSize < 0 then (errorGeneric, buf)
  else
    (0, (buf.set (startPos + 1) (UInt8.ofNat payloadSize.toNat)).set (startPos + 2)
      (UInt8.ofNat (payloadSize.toNat >>> 8)))

/-! ### Nested tags -/

/-- What a caller writes: tags one after the other, some of which contain tags. -/
inductive Items where
  | nil
  | tag (tagType : UInt8) (data : List UInt8) (next : Items)
  | container (tagType : UInt8) (content next : Items)
deriving DecidableEq

def write : Items → List UInt8 → Option (List UInt8)
  | .nil, buf => some buf
  | .tag tagType data next, buf => write next (writeTagToBuffer tagType.toNat data buf)
  | .container tagType content next, buf =>
      let start := startTagInBuffer tagType.toNat buf
      (write content start.2).bind fun buf =>
        let rv := endTagInBuffer start.1 buf
        if rv.1 < 0 then none else write next rv.2

/-- The tags are those of the items.  An empty payload is that of no tags, although the function
that reads a list returns NULL for it. -/
def Decodes : Items → List Tag16 → Prop
  | .nil, tags => tags = []
  | .tag tagType data next, tags => ∃ rest, tags = ⟨tagType.toNat, data⟩ :: rest ∧ Decodes next rest
  | .container tagType content next, tags =>
      ∃ data rest, tags = ⟨tagType.toNat, data⟩ :: rest ∧
        (content = .nil ∧ data = [] ∨
          ∃ inner, listFromBuffer data = some inner ∧ Decodes content inner) ∧
        Decodes next rest

def DataFits : Items → Prop
  | .nil => True
  | .tag _ data next => data.length ≤ 65535 ∧ DataFits next
  | .container _ content next => DataFits content ∧ DataFits next

/-- The bytes of the items. -/
def size : Items → ℕ
  | .nil => 0
  | .tag _ data next => 3 + data.length + size next
  | .container _ content next => 3 + size content + size next

/-- The payload of every container fits its length field. -/
def PayloadsFit : Items → Prop
  | .nil => True
  | .tag _ _ next => PayloadsFit next
  | .container _ content next => size content ≤ 65535 ∧ PayloadsFit content ∧ PayloadsFit next

/-- Items whose payloads fit can be written, and what could be written is read back. -/
def RoundTrips (items : Items) : Prop :=
  (PayloadsFit items → ∃ buf, write items [] = some buf) ∧
    ∀ buf, write items [] = some buf → ∃ tags, listFromBuffer buf = some tags ∧ Decodes items tags

/-! ### What is written -/

/-- The bytes in front of so many bytes of data. -/
def header (tagType : UInt8) (n : ℕ) : List UInt8 :=
  [tagType, UInt8.ofNat n, UInt8.ofNat (n >>> 8)]

/-- The bytes that are written for the items. -/
def encode : Items → List UInt8
  | .nil => []
  | .tag tagType data next => header tagType data.length ++ data ++ encode next
  | .container tagType content next =>
      header tagType (size content) ++ encode content ++ encode next

theorem length_header (tagType : UInt8) (n : ℕ) : (header tagType n).length = 3 := rfl

theorem length_encode (items : Items) : (encode items).length = size items := by
  induction items with
  | nil => rfl
  | tag tagType data next ih =>
      rw [encode, size, List.length_append, List.length_append, length_header, ih]
  | container tagType content next ihc ih =>
      rw [encode, size, List.length_append, List.length_append, length_header, ihc, ih]

theorem writeTagToBuffer_eq (tagType : UInt8) (data buf : List UInt8) :
    writeTagToBuffer tagType.toNat data buf = buf ++ (header tagType data.length ++ data) := by
  rw [writeTagToBuffer, UInt8.ofNat_toNat]
  rfl

theorem endTagInBuffer_eq (tagType : UInt8) (buf payload : List UInt8) :
    endTagInBuffer buf.length (buf ++ [tagType, 0, 0] ++ payload) =
      (0, buf ++ (header tagType payload.length ++ payload)) := by
  have hsize : ((buf ++ [tagType, 0, 0] ++ payload).length : ℤ) - buf.length - 3 =
      payload.length := by
    simp only [List.length_append, List.length_cons, List.length_nil]
    omega
  have hset : ∀ (a b : UInt8), ((buf ++ [tagType, 0, 0] ++ payload).set (buf.length + 1) a).set
      (buf.length + 2) b = buf ++ ([tagType, a, b] ++ payload) := by
    intro a b
    rw [List.append_assoc, List.set_append_right _ _ (Nat.le_add_right ..), Nat.add_sub_cancel_left,
      List.set_append_right _ _ (Nat.le_add_right ..), Nat.add_sub_cancel_left]
    rfl
  rw [endTagInBuffer, hsize, if_neg (by omega), Int.toNat_natCast, hset]
  rfl

theorem write_eq (items : Items) (buf : List UInt8) :
    write items buf = some (buf ++ encode items) := by
  induction items generalizing buf with
  | nil => rw [write, encode, List.append_nil]
  | tag tagType data next ih =>
      rw [write, ih, writeTagToBuffer_eq, encode, List.append_assoc]
  | container tagType content next ihc ih =>
      rw [write]
      dsimp only
      rw [ihc, Option.bind_some, startTagInBuffer, UInt8.ofNat_toNat, endTagInBuffer_eq,
        if_neg (lt_irrefl _), ih, length_encode, encode, List.append_assoc]

/-! ### What is read -/

variable {tagType : UInt8} {data rest : List UInt8} {tags : List Tag16}

theorem fromBuffer2_header (h : data.length ≤ 65535) (rest : List UInt8) :
    fromBuffer2 (header tagType data.length ++ data ++ rest) = some ⟨tagType.toNat, data⟩ := by
  have hlen : (UInt8.ofNat data.length).toNat + (UInt8.ofNat (data.length >>> 8)).toNat <<< 8 =
      data.length := by
    rw [UInt8.toNat_ofNat', UInt8.toNat_ofNat', Nat.shiftRight_eq_div_pow, Nat.shiftLeft_eq]
    omega
  rw [List.append_assoc, header, List.cons_append, List.cons_append, List.cons_append,
    List.nil_append, fromBuffer2, hlen, if_neg (by rw [List.length_append]; omega), List.take_left]

theorem listLoop_header (h : data.length ≤ 65535) {k : ℕ} (rest : List UInt8) :
    listLoop (k + 1) (header tagType data.length ++ data ++ rest) =
      (listLoop k rest).map fun tagList => ⟨tagType.toNat, data⟩ :: tagList := by
  have hhead := @fromBuffer2_header tagType data h rest
  have hdrop : (header tagType data.length ++ data ++ rest).drop (data.length + 3) = rest := by
    rw [← length_header tagType data.length, Nat.add_comm, ← List.length_append, List.drop_left]
  rw [header] at hhead hdrop ⊢
  rw [List.cons_append, List.cons_append, listLoop, ← List.cons_append, ← List.cons_append, hhead,
    Option.bind_some, tagSize]
  dsimp only
  rw [hdrop, if_neg]
  simp only [List.length_append, List.length_cons]
  omega

theorem fromBuffer2_fits : ∀ {p : List UInt8} {tag : Tag16}, fromBuffer2 p = some tag →
    tag.tagData.length ≤ 65535
  | t :: l0 :: l1 :: data, tag, h => by
      rw [fromBuffer2] at h
      split at h
      · cases h
      · obtain rfl := Option.some.inj h
        have h0 := l0.toNat_lt
        have h1 := l1.toNat_lt
        rw [List.length_take, Nat.shiftLeft_eq]
        omega
  | [], _, h => by cases h
  | [_], _, h => by cases h
  | [_, _], _, h => by cases h

/-- The bytes of tags that are read one after the other. -/
def sizes (tags : List Tag16) : ℕ := (tags.map tagSize).sum

/-- The tags that are read take all bytes. -/
theorem listLoop_spec : ∀ {k : ℕ} {p : List UInt8} {tags : List Tag16}, listLoop k p = some tags →
    sizes tags = p.length ∧ ∀ tag ∈ tags, tag.tagData.length ≤ 65535
  | _, [], tags, h => by
      rw [listLoop] at h
      obtain rfl := Option.some.inj h
      exact ⟨rfl, fun _ ht => by cases ht⟩
  | 0, _ :: _, _, h => by
      rw [listLoop] at h
      cases h
  | k + 1, c :: p, tags, h => by
      rw [listLoop, Option.bind_eq_some_iff] at h
      obtain ⟨tag, htag, h⟩ := h
      split at h
      · cases h
      · next hle =>
          rw [Option.map_eq_some_iff] at h
          obtain ⟨rest, hrest, rfl⟩ := h
          obtain ⟨hsize, hfits⟩ := listLoop_spec hrest
          rw [List.length_drop] at hsize
          rw [not_lt] at hle
          refine ⟨?_, List.forall_mem_cons.mpr ⟨fromBuffer2_fits htag, hfits⟩⟩
          rw [sizes, List.map_cons, List.sum_cons, ← sizes, hsize]
          omega

theorem listFromBuffer_spec {p : List UInt8} (h : listFromBuffer p = some tags) :
    sizes tags = p.length ∧ ∀ tag ∈ tags, tag.tagData.length ≤ 65535 := by
  rw [listFromBuffer, Option.bind_eq_some_iff] at h
  obtain ⟨tags', htags, h⟩ := h
  split at h
  · cases h
  · obtain rfl := Option.some.inj h
    exact listLoop_spec htags

/-! ### The round trip -/

variable {items : Items}

theorem Decodes.ne_nil (h : Decodes items tags) (hne : items ≠ .nil) : tags ≠ [] := by
  cases items with
  | nil => exact absurd rfl hne
  | tag tagType data next =>
      obtain ⟨rest, rfl, -⟩ := h
      exact List.cons_ne_nil _ _
  | container tagType content next =>
      obtain ⟨data, rest, rfl, -⟩ := h
      exact List.cons_ne_nil _ _

theorem listFromBuffer_of_loop {p : List UInt8} (h : listLoop p.length p = some tags)
    (hne : tags ≠ []) : listFromBuffer p = some tags := by
  have hpos := List.length_pos_iff.mpr hne
  rw [listFromBuffer, h, Option.bind_some, if_neg (by omega)]

theorem listLoop_encode : ∀ {items : Items} {k : ℕ}, DataFits items → PayloadsFit items →
    size items ≤ k → ∃ tags, listLoop k (encode items) = some tags ∧ Decodes items tags
  | .nil, k, _, _, _ => ⟨[], by rw [encode, listLoop], rfl⟩
  | .tag tagType data next, k, hd, hp, hk => by
      rw [size] at hk
      obtain ⟨k, rfl⟩ := Nat.exists_eq_add_of_lt (show 0 < k by omega)
      obtain ⟨tags, htags, hdec⟩ := listLoop_encode (k := 0 + k) hd.2 hp (by omega)
      refine ⟨⟨tagType.toNat, data⟩ :: tags, ?_, tags, rfl, hdec⟩
      rw [encode, listLoop_header hd.1, htags, Option.map_some]
  | .container tagType content next, k, hd, hp, hk => by
      rw [size] at hk
      obtain ⟨k, rfl⟩ := Nat.exists_eq_add_of_lt (show 0 < k by omega)
      obtain ⟨tags, htags, hdec⟩ := listLoop_encode (k := 0 + k) hd.2 hp.2.2 (by omega)
      obtain ⟨inner, hinner, hdeci⟩ := listLoop_encode (k := (encode content).length) hd.1 hp.2.1
        (length_encode content).ge
      refine ⟨⟨tagType.toNat, encode content⟩ :: tags, ?_, encode content, tags, rfl, ?_, hdec⟩
      · rw [encode, ← length_encode content,
          listLoop_header ((length_encode content).le.trans hp.1), htags, Option.map_some]
      · by_cases hnil : content = .nil
        · subst hnil
          exact Or.inl ⟨rfl, rfl⟩
        · exact Or.inr ⟨inner, listFromBuffer_of_loop hinner (hdeci.ne_nil hnil), hdeci⟩

/-- Tags that fit their length fields can only be those of items whose payloads fit. -/
theorem Decodes.fits : ∀ {items : Items} {tags : List Tag16}, Decodes items tags →
    (∀ tag ∈ tags, tag.tagData.length ≤ 65535) → PayloadsFit items ∧ sizes tags = size items
  | .nil, tags, h, _ => by
      obtain rfl : tags = [] := h
      exact ⟨trivial, rfl⟩
  | .tag tagType data next, tags, h, hfits => by
      obtain ⟨rest, rfl, hdec⟩ := h
      obtain ⟨hnext, hsize⟩ := hdec.fits (List.forall_mem_cons.mp hfits).2
      refine ⟨hnext, ?_⟩
      rw [sizes, List.map_cons, List.sum_cons, ← sizes, hsize, tagSize, size]
      dsimp only
      omega
  | .container tagType content next, tags, h, hfits => by
      obtain ⟨data, rest, rfl, hpayload, hdec⟩ := h
      obtain ⟨hhead, htail⟩ := List.forall_mem_cons.mp hfits
      obtain ⟨hnext, hsize⟩ := hdec.fits htail
      have hcontent : PayloadsFit content ∧ data.length = size content := by
        rcases hpayload with ⟨rfl, rfl⟩ | ⟨inner, hinner, hdeci⟩
        · exact ⟨trivial, rfl⟩
        · obtain ⟨hlen, hall⟩ := listFromBuffer_spec hinner
          obtain ⟨hp, hs⟩ := hdeci.fits hall
          exact ⟨hp, hlen.symm.trans hs⟩
      refine ⟨⟨hcontent.2 ▸ hhead, hcontent.1, hnext⟩, ?_⟩
      rw [sizes, List.map_cons, List.sum_cons, ← sizes, hsize, tagSize, size, hcontent.2]
      omega

theorem RoundTrips.fits (h : RoundTrips items) : PayloadsFit items := by
  obtain ⟨tags, htags, hdec⟩ := h.2 _ (write_eq items [])
  exact (hdec.fits (listFromBuffer_spec htags).2).1

/-- Written items are read back if and only if the payload of every container fits its length
field. -/
theorem items_roundTrip_iff (items : Items) (hne : items ≠ .nil) (hdata : DataFits items) :
    RoundTrips items ↔ PayloadsFit items := by
  refine ⟨RoundTrips.fits, fun h => ⟨fun _ => ⟨_, write_eq items []⟩, fun buf hbuf => ?_⟩⟩
  rw [write_eq, List.nil_append] at hbuf
  obtain rfl := Option.some.inj hbuf
  obtain ⟨tags, htags, hdec⟩ := listLoop_encode hdata h (length_encode items).ge
  exact ⟨tags, listFromBuffer_of_loop htags (hdec.ne_nil hne), hdec⟩

/-- A container with a tag and an empty container. -/
theorem roundTrips_nested :
    RoundTrips (.container 1 (.tag 2 [7, 8] (.container 3 .nil .nil)) (.tag 4 [] .nil)) := by
  rw [items_roundTrip_iff
    (.container 1 (.tag 2 [7, 8] (.container 3 .nil .nil)) (.tag 4 [] .nil)) nofun
    ⟨⟨by decide, trivial, trivial⟩, by decide, trivial⟩]
  exact ⟨by decide, ⟨by decide, trivial, trivial⟩, trivial⟩

/-- A container around a tag with 65535 bytes is stored with a wrong length. -/
theorem not_roundTrips_large :
    ¬ RoundTrips (.container 1 (.tag 2 (List.replicate 65535 0) .nil) .nil) := by
  intro h
  have hle := h.fits.1
  rw [size, size, List.length_replicate] at hle
  omega

end Tag16
end Gwenhywfar
