import Gwenhywfar.Base.CString
import Gwenhywfar.Parser.Tag16

/-! # Heads and tails of signed and encrypted objects

A head or a tail is a tag that contains tags.  What is read is the memory from a pointer on, with
the number of bytes that belong to the object: a number is read by `sscanf`, which does not stop at
the end of its tag.

* `readSubTags`: the loop over the tags of an object, with what is stored for each.
* `SigHead.fromBuffer_toBuffer`, `SigTail.fromBuffer_toBuffer`, `CryptHead.fromBuffer_toBuffer`: an
  object whose tags fit their length fields is read as it was written, but for an empty name. -/

namespace Gwenhywfar.CryptMsg

open Tag16

/-! ### Times -/

/-- A time that is broken down in UTC, with the month from 0 on. -/
structure BrokenDown where
  year : ℕ
  month : ℕ
  day : ℕ
  hour : ℕ
  min : ℕ
  sec : ℕ
deriving DecidableEq

/-- The last digits of a number that is printed with leading zeros. -/
def tmplDigits (count v : ℕ) : List UInt8 :=
  (List.range count).reverse.map fun i => code '0' + UInt8.ofNat (v / 10 ^ i % 10)

def timeTemplate : List Char :=
  ['Y', 'Y', 'Y', 'Y', 'M', 'M', 'D', 'D', '-', 'h', 'h', ':', 'm', 'm', ':', 's', 's']

/-- `GWEN_Time_toUtcString` with this template. -/
def toUtcString (t : BrokenDown) : List UInt8 :=
  tmplDigits 4 t.year ++ tmplDigits 2 (t.month + 1) ++ tmplDigits 2 t.day ++ [code '-'] ++
    tmplDigits 2 t.hour ++ [code ':'] ++ tmplDigits 2 t.min ++ [code ':'] ++ tmplDigits 2 t.sec

/-- A digit is put behind those of the field for a character of the template. -/
def BrokenDown.addDigit (t : BrokenDown) (f : Char) (i : ℕ) : BrokenDown :=
  match f with
  | 'Y' => { t with year := t.year * 10 + i }
  | 'M' => { t with month := t.month * 10 + i }
  | 'D' => { t with day := t.day * 10 + i }
  | 'h' => { t with hour := t.hour * 10 + i }
  | 'm' => { t with min := t.min * 10 + i }
  | 's' => { t with sec := t.sec * 10 + i }
  | _ => t

/-- The loop of `GWEN_Time__fromString`; a character of the template without a digit is skipped. -/
def fromStringLoop : List Char → List UInt8 → BrokenDown → BrokenDown
  | f :: tmpl, c :: p, t =>
      if f ∈ ['Y', 'M', 'D', 'h', 'm', 's'] then
        if isDigit c then fromStringLoop tmpl p (t.addDigit f (c - code '0').toNat)
        else fromStringLoop tmpl (c :: p) t
      else fromStringLoop tmpl p t
  | _, _, t => t

/-- `GWEN_Time_fromUtcString` with this template, which makes a time of every text. -/
def fromUtcString (s : List UInt8) : BrokenDown :=
  let t := fromStringLoop timeTemplate s ⟨0, 0, 0, 0, 0, 0⟩
  { t with
    year := if t.year < 100 then t.year + 2000 else t.year
    month := t.month - 1
    day := if t.day = 0 then 1 else t.day }

theorem length_tmplDigits (count v : ℕ) : (tmplDigits count v).length = count := by
  rw [tmplDigits, List.length_map, List.length_reverse, List.length_range]

theorem length_toUtcString (t : BrokenDown) : (toUtcString t).length = 17 := by
  simp only [toUtcString, List.length_append, length_tmplDigits, List.length_singleton]

/-! ### Tags in memory -/

/-- The loop over the tags in the next `sl` bytes; nothing is stored for an empty tag. -/
def readSubTags {σ : Type} (store : σ → ℕ → List UInt8 → ℕ → Option σ) :
    ℕ → σ → List UInt8 → ℕ → Option σ
  | _, s, _, 0 => some s
  | 0, _, _, _ + 1 => none
  | k + 1, s, sp, sl + 1 =>
      (fromBuffer2 (sp.take (sl + 1))).bind fun subtag =>
        (if subtag.tagData = [] then some s
          else store s subtag.tagType (sp.drop 3) subtag.tagData.length).bind fun s =>
            readSubTags store k s (sp.drop subtag.tagSize) (sl + 1 - subtag.tagSize)

/-- The length of what was written behind `pos` and two more bytes is patched in there. -/
def writeSize (pos : ℕ) (buf : List UInt8) : List UInt8 :=
  let l := buf.length - pos - 2
  (buf.set pos (UInt8.ofNat l)).set (pos + 1) (UInt8.ofNat (l >>> 8))

/-! ### Signature heads -/

/-- `GWEN_SIGHEAD`. -/
structure SigHead where
  keyName : Option CString
  keyNumber : Int32
  keyVersion : Int32
  dateTime : Option BrokenDown
  signatureProfile : Int32
  signatureNumber : Int32
deriving DecidableEq

/-- `GWEN_SigHead_new`. -/
def SigHead.new : SigHead := ⟨none, 0, 0, none, 0, 0⟩

/-- The `switch` of `GWEN_SigHead_fromBuffer`. -/
def SigHead.store (sh : SigHead) (tagType : ℕ) (subtagPtr : List UInt8) (subtagLen : ℕ) :
    Option SigHead :=
  match tagType with
  | 0x01 => some { sh with keyName := some (CString.ofBytes (subtagPtr.take subtagLen)) }
  | 0x02 => some { sh with keyNumber := (scanInt subtagPtr).getD sh.keyNumber }
  | 0x03 => some { sh with keyVersion := (scanInt subtagPtr).getD sh.keyVersion }
  | 0x04 =>
      if subtagLen < 128 then
        let dt := (subtagPtr.take 127).takeWhile (· != 0)
        some { sh with dateTime := some (fromUtcString dt) }
      else none
  | 0x05 => some { sh with signatureProfile := (scanInt subtagPtr).getD sh.signatureProfile }
  | 0x06 => some { sh with signatureNumber := (scanInt subtagPtr).getD sh.signatureNumber }
  | _ => some sh

/-- `GWEN_SigHead_fromBuffer`. -/
def SigHead.fromBuffer (p : List UInt8) (l : ℕ) : Option SigHead :=
  if l < 1 then none else readSubTags SigHead.store l SigHead.new p l

/-- `GWEN_SigHead_toBuffer`. -/
def SigHead.toBuffer (sh : SigHead) (buf : List UInt8) (tagType : UInt8) : List UInt8 :=
  let pos := buf.length + 1
  let buf := buf ++ [tagType, 0, 0]
  let buf :=
    match sh.keyName with
    | some keyName => writeTagToBuffer 0x01 keyName.bytes buf
    | none => buf
  let buf := writeTagToBuffer 0x02 (printInt sh.keyNumber) buf
  let buf := writeTagToBuffer 0x03 (printInt sh.keyVersion) buf
  let buf :=
    match sh.dateTime with
    | some dateTime => writeTagToBuffer 0x04 (toUtcString dateTime) buf
    | none => buf
  let buf := writeTagToBuffer 0x05 (printInt sh.signatureProfile) buf
  let buf := writeTagToBuffer 0x06 (printInt sh.signatureNumber) buf
  writeSize pos buf

/-! ### Signature tails -/

/-- `GWEN_SIGTAIL`; a signature of no bytes is none. -/
structure SigTail where
  signature : List UInt8
  signatureNumber : Int32
deriving DecidableEq

/-- `GWEN_SigTail_new`. -/
def SigTail.new : SigTail := ⟨[], 0⟩

/-- The `switch` of `GWEN_SigTail_fromBuffer`. -/
def SigTail.store (st : SigTail) (tagType : ℕ) (subtagPtr : List UInt8) (subtagLen : ℕ) :
    Option SigTail :=
  match tagType with
  | 0x02 => some { st with signature := subtagPtr.take subtagLen }
  | 0x01 => some { st with signatureNumber := (scanInt subtagPtr).getD st.signatureNumber }
  | _ => some st

/-- `GWEN_SigTail_fromBuffer`. -/
def SigTail.fromBuffer (p : List UInt8) (l : ℕ) : Option SigTail :=
  if l < 1 then none else readSubTags SigTail.store l SigTail.new p l

/-- `GWEN_SigTail_toBuffer`. -/
def SigTail.toBuffer (st : SigTail) (buf : List UInt8) (tagType : UInt8) : List UInt8 :=
  let pos := buf.length + 1
  let buf := buf ++ [tagType, 0, 0]
  let buf := if st.signature ≠ [] then writeTagToBuffer 0x02 st.signature buf else buf
  let buf := writeTagToBuffer 0x01 (printInt st.signatureNumber) buf
  writeSize pos buf

/-! ### Heads of encrypted objects -/

/-- `GWEN_CRYPTHEAD`; a key of no bytes is none. -/
structure CryptHead where
  keyName : Option CString
  keyNumber : Int32
  keyVersion : Int32
  cryptProfile : Int32
  key : List UInt8
deriving DecidableEq

/-- `GWEN_CryptHead_new`. -/
def CryptHead.new : CryptHead := ⟨none, 0, 0, 0, []⟩

/-- The `switch` of `GWEN_CryptHead_fromBuffer`. -/
def CryptHead.store (ch : CryptHead) (tagType : ℕ) (subtagPtr : List UInt8) (subtagLen : ℕ) :
    Option CryptHead :=
  match tagType with
  | 0x01 => some { ch with keyName := some (CString.ofBytes (subtagPtr.take subtagLen)) }
  | 0x02 => some { ch with keyNumber := (scanInt subtagPtr).getD ch.keyNumber }
  | 0x03 => some { ch with keyVersion := (scanInt subtagPtr).getD ch.keyVersion }
  | 0x06 => some { ch with key := subtagPtr.take subtagLen }
  | 0x05 => some { ch with cryptProfile := (scanInt subtagPtr).getD ch.cryptProfile }
  | _ => some ch

/-- `GWEN_CryptHead_fromBuffer`. -/
def CryptHead.fromBuffer (p : List UInt8) (l : ℕ) : Option CryptHead :=
  if l < 1 then none else readSubTags CryptHead.store l CryptHead.new p l

/-- `GWEN_CryptHead_toBuffer`. -/
def CryptHead.toBuffer (ch : CryptHead) (buf : List UInt8) (tagType : UInt8) : List UInt8 :=
  let pos := buf.length + 1
  let buf := buf ++ [tagType, 0, 0]
  let buf :=
    match ch.keyName with
    | some keyName => writeTagToBuffer 0x01 keyName.bytes buf
    | none => buf
  let buf := writeTagToBuffer 0x02 (printInt ch.keyNumber) buf
  let buf := writeTagToBuffer 0x03 (printInt ch.keyVersion) buf
  let buf := if ch.key ≠ [] then writeTagToBuffer 0x06 ch.key buf else buf
  let buf := writeTagToBuffer 0x05 (printInt ch.cryptProfile) buf
  writeSize pos buf

/-! ### Written tags -/

/-- Tags in the order in which they are written. -/
abbrev TagList := List (UInt8 × List UInt8)

def tagBytes (tags : TagList) : List UInt8 :=
  tags.flatMap fun tag => header tag.1 tag.2.length ++ tag.2

def objectBytes (tagType : UInt8) (tags : TagList) : List UInt8 :=
  header tagType (tagBytes tags).length ++ tagBytes tags

def storedName (keyName : Option CString) : Option CString :=
  keyName.filter fun keyName => keyName.bytes != []

def SigHead.tags (sh : SigHead) : TagList :=
  (sh.keyName.map fun keyName => (0x01, keyName.bytes)).toList ++
    (0x02, printInt sh.keyNumber) :: (0x03, printInt sh.keyVersion) ::
      ((sh.dateTime.map fun dateTime => (0x04, toUtcString dateTime)).toList ++
        [(0x05, printInt sh.signatureProfile), (0x06, printInt sh.signatureNumber)])

def SigTail.tags (st : SigTail) : TagList :=
  (if st.signature ≠ [] then [(0x02, st.signature)] else []) ++
    [(0x01, printInt st.signatureNumber)]

def CryptHead.tags (ch : CryptHead) : TagList :=
  (ch.keyName.map fun keyName => (0x01, keyName.bytes)).toList ++
    (0x02, printInt ch.keyNumber) :: (0x03, printInt ch.keyVersion) ::
      ((if ch.key ≠ [] then [(0x06, ch.key)] else []) ++ [(0x05, printInt ch.cryptProfile)])

/-! ### What is written -/

variable {σ : Type} {store : σ → ℕ → List UInt8 → ℕ → Option σ} {tags : TagList}
  {behind : List UInt8}

theorem tagBytes_append (xs ys : TagList) : tagBytes (xs ++ ys) = tagBytes xs ++ tagBytes ys :=
  List.flatMap_append

theorem tagBytes_cons (tag : UInt8 × List UInt8) (tags : TagList) :
    tagBytes (tag :: tags) = header tag.1 tag.2.length ++ tag.2 ++ tagBytes tags :=
  List.flatMap_cons

theorem length_tagBytes_cons (tag : UInt8 × List UInt8) (tags : TagList) :
    (tagBytes (tag :: tags)).length = tag.2.length + 3 + (tagBytes tags).length := by
  rw [tagBytes_cons, List.length_append, List.length_append, length_header]
  omega

theorem length_le_tagBytes {tag : UInt8 × List UInt8} (h : tag ∈ tags) :
    tag.2.length ≤ (tagBytes tags).length := by
  induction tags with
  | nil => cases h
  | cons other tags ih =>
      rw [length_tagBytes_cons]
      rcases List.mem_cons.mp h with rfl | h
      · omega
      · have := ih h
        omega

theorem writeTag_eq (tagType : ℕ) (data buf : List UInt8) :
    writeTagToBuffer tagType data buf = buf ++ tagBytes [(UInt8.ofNat tagType, data)] := by
  rw [tagBytes, List.flatMap_singleton]
  rfl

theorem writeSize_eq (tagType : UInt8) (buf payload : List UInt8) :
    writeSize (buf.length + 1) (buf ++ ([tagType, 0, 0] ++ payload)) =
      buf ++ (header tagType payload.length ++ payload) := by
  have hint : ((buf ++ [tagType, 0, 0] ++ payload).length : ℤ) - buf.length - 3 =
      payload.length := by
    simp only [List.length_append, List.length_cons, List.length_nil]
    omega
  have hnat : (buf ++ [tagType, 0, 0] ++ payload).length - (buf.length + 1) - 2 =
      payload.length := by
    simp only [List.length_append, List.length_cons, List.length_nil]
    omega
  have h := congrArg Prod.snd (endTagInBuffer_eq tagType buf payload)
  rw [endTagInBuffer, hint, if_neg (by omega), Int.toNat_natCast] at h
  rw [← List.append_assoc, writeSize, hnat]
  exact h

theorem SigHead.toBuffer_eq (sh : SigHead) (buf : List UInt8) (tagType : UInt8) :
    sh.toBuffer buf tagType = buf ++ objectBytes tagType sh.tags := by
  obtain ⟨keyName, keyNumber, keyVersion, dateTime, signatureProfile, signatureNumber⟩ := sh
  rw [SigHead.toBuffer]
  cases keyName <;> cases dateTime <;>
    · simp only [writeTag_eq, List.append_assoc, ← tagBytes_append]
      rw [writeSize_eq]
      rfl

theorem SigTail.toBuffer_eq (st : SigTail) (buf : List UInt8) (tagType : UInt8) :
    st.toBuffer buf tagType = buf ++ objectBytes tagType st.tags := by
  rw [SigTail.toBuffer, SigTail.tags]
  split <;>
    · simp only [writeTag_eq, List.append_assoc, ← tagBytes_append]
      rw [writeSize_eq]
      rfl

theorem CryptHead.toBuffer_eq (ch : CryptHead) (buf : List UInt8) (tagType : UInt8) :
    ch.toBuffer buf tagType = buf ++ objectBytes tagType ch.tags := by
  obtain ⟨keyName, keyNumber, keyVersion, cryptProfile, key⟩ := ch
  rw [CryptHead.toBuffer, CryptHead.tags]
  dsimp only
  cases keyName <;> split <;>
    · simp only [writeTag_eq, List.append_assoc, ← tagBytes_append]
      rw [writeSize_eq]
      rfl

/-! ### What is read -/

/-- A number ends here: at the end of the memory, or in front of a byte that is no digit. -/
def StopsNumber (p : List UInt8) : Prop := ∀ c ∈ p.head?, isDigit c = false

def storeAll (store : σ → ℕ → List UInt8 → ℕ → Option σ) (behind : List UInt8) :
    TagList → σ → Option σ
  | [], s => some s
  | tag :: tags, s =>
      (if tag.2 = [] then some s
        else store s tag.1.toNat (tag.2 ++ (tagBytes tags ++ behind)) tag.2.length).bind
          (storeAll store behind tags)

theorem readSubTags_tagBytes : ∀ {tags : TagList} {k : ℕ} {s : σ},
    (∀ tag ∈ tags, tag.2.length ≤ 65535) → (tagBytes tags).length ≤ k →
    readSubTags store k s (tagBytes tags ++ behind) (tagBytes tags).length =
      storeAll store behind tags s
  | [], k, s, _, _ => by cases k <;> rfl
  | tag :: tags, k, s, hfits, hk => by
      obtain ⟨hhead, htail⟩ := List.forall_mem_cons.mp hfits
      have hlen := length_tagBytes_cons tag tags
      have hsucc : (tagBytes (tag :: tags)).length =
          tag.2.length + 2 + (tagBytes tags).length + 1 := by omega
      obtain ⟨k, rfl⟩ := Nat.exists_eq_add_of_lt (show 0 < k by omega)
      have htag := @fromBuffer2_header tag.1 tag.2 hhead (tagBytes tags)
      have hdrop : (tagBytes (tag :: tags) ++ behind).drop (tag.2.length + 3) =
          tagBytes tags ++ behind := by
        rw [tagBytes_cons, List.append_assoc, ← length_header tag.1 tag.2.length, Nat.add_comm,
          ← List.length_append, List.drop_left]
      have hptr : (tagBytes (tag :: tags) ++ behind).drop 3 =
          tag.2 ++ (tagBytes tags ++ behind) := by
        rw [tagBytes_cons, List.append_assoc, List.append_assoc]
        rfl
      have htake : (tagBytes (tag :: tags) ++ behind).take (tagBytes (tag :: tags)).length =
          tagBytes (tag :: tags) := List.take_left
      rw [hsucc, readSubTags, ← hsucc, htake]
      nth_rewrite 1 [tagBytes_cons]
      rw [htag, Option.bind_some, storeAll]
      dsimp only
      rw [hptr, tagSize, hdrop, hlen, Nat.add_sub_cancel_left]
      congr 1
      funext s
      exact readSubTags_tagBytes htail (by omega)

theorem printInt_ne_nil (i : Int32) : printInt i ≠ [] := by
  intro h
  have hscan := scanInt_printInt i
  rw [h] at hscan
  cases hscan

theorem scanInt_printInt_append (i : Int32) {p : List UInt8} (hp : StopsNumber p) :
    scanInt (printInt i ++ p) = some i := by
  have htake : ∀ ds : List UInt8, (∀ c ∈ ds, isDigit c = true) →
      (ds ++ p).takeWhile isDigit = ds.takeWhile isDigit := by
    intro ds hds
    rw [List.takeWhile_append_of_pos hds, List.takeWhile_eq_self_iff.mpr hds]
    cases p with
    | nil => rw [List.takeWhile_nil, List.append_nil]
    | cons c p =>
        rw [List.takeWhile_cons_of_neg (by simp [hp c rfl]), List.append_nil]
  have hdigits : ∀ negative n, scanDigits negative (decimalDigits n ++ p) =
      scanDigits negative (decimalDigits n) := by
    intro negative n
    rw [scanDigits, htake _ fun c hc => isDigit_of_mem_decimalDigits hc, scanDigits]
  have hscan := scanInt_printInt i
  rw [printInt] at hscan ⊢
  by_cases h0 : i.toInt = 0
  · rw [if_pos h0] at hscan ⊢
    have hzero : isDigit (code '0') = true := by decide
    rw [List.singleton_append, scanInt_of_digit hzero, ← List.singleton_append, scanDigits,
      htake [code '0'] (by simpa using hzero), ← scanDigits, ← scanInt_of_digit hzero, hscan]
  · rw [if_neg h0] at hscan ⊢
    by_cases hneg : i.toInt < 0
    · rw [if_pos hneg] at hscan ⊢
      have hsign : ∀ s, scanInt (code '-' :: s) = scanDigits true s := by
        intro s
        rw [scanInt, List.dropWhile_cons_of_neg (by decide), scanSigned, if_pos rfl]
      rw [List.cons_append, hsign, hdigits, ← hsign, hscan]
    · rw [if_neg hneg] at hscan ⊢
      obtain ⟨c, s, hs⟩ := List.exists_cons_of_ne_nil
        (decimalDigits_ne_nil (Int.natAbs_ne_zero.mpr h0))
      have hc : isDigit c = true := isDigit_of_mem_decimalDigits (hs ▸ List.mem_cons_self)
      have hd := hdigits false i.toInt.natAbs
      rw [hs] at hscan hd ⊢
      rw [List.cons_append] at hd ⊢
      rw [scanInt_of_digit hc, hd, ← scanInt_of_digit hc, hscan]

theorem stopsNumber_tagBytes {tag : UInt8 × List UInt8} (h : isDigit tag.1 = false) :
    StopsNumber (tagBytes (tag :: tags) ++ behind) := by
  intro c hc
  rw [tagBytes_cons] at hc
  obtain rfl := Option.some.inj hc
  exact h

/-! ### Round trips -/

theorem storeAll_nil (s : σ) : storeAll store behind [] s = some s := rfl

theorem storeAll_cons {tag : UInt8 × List UInt8} {s s' : σ} (hne : tag.2 ≠ [])
    (hs : store s tag.1.toNat (tag.2 ++ (tagBytes tags ++ behind)) tag.2.length = some s') :
    storeAll store behind (tag :: tags) s = storeAll store behind tags s' := by
  rw [storeAll, if_neg hne, hs, Option.bind_some]

theorem storeAll_empty {t : UInt8} {s : σ} :
    storeAll store behind ((t, []) :: tags) s = storeAll store behind tags s := by
  rw [storeAll, if_pos rfl, Option.bind_some]

theorem fits_of_tagBytes (h : (tagBytes tags).length ≤ 65535) :
    ∀ tag ∈ tags, tag.2.length ≤ 65535 := fun _ htag => (length_le_tagBytes htag).trans h

theorem length_tagBytes_pos (h : tags ≠ []) : ¬ (tagBytes tags).length < 1 := by
  obtain ⟨tag, rest, rfl⟩ := List.exists_cons_of_ne_nil h
  rw [length_tagBytes_cons]
  omega

theorem ofBytes_take (keyName : CString) (p : List UInt8) :
    CString.ofBytes ((keyName.bytes ++ p).take keyName.bytes.length) = keyName := by
  rw [List.take_left, CString.ofBytes_eq]

theorem storeAll_number {t : UInt8} {i d : Int32} {s : σ} (f : Int32 → σ)
    (hstore : ∀ p n, store s t.toNat p n = some (f ((scanInt p).getD d)))
    (hstop : StopsNumber (tagBytes tags ++ behind)) :
    storeAll store behind ((t, printInt i) :: tags) s = storeAll store behind tags (f i) := by
  refine storeAll_cons (printInt_ne_nil i) ?_
  rw [hstore, scanInt_printInt_append i hstop, Option.getD_some]

theorem storeAll_name {s : σ} (keyName : Option CString) (f : Option CString → σ) (hs : s = f none)
    (hstore : ∀ p n, store s 0x01 p n = some (f (some (CString.ofBytes (p.take n))))) :
    storeAll store behind ((keyName.map fun keyName => (0x01, keyName.bytes)).toList ++ tags) s =
      storeAll store behind tags (f (storedName keyName)) := by
  cases keyName with
  | none => exact congrArg (storeAll store behind tags) hs
  | some keyName =>
      by_cases hempty : keyName.bytes = []
      · have hstored : storedName (some keyName) = none := by simp [storedName, hempty]
        rw [hstored, ← hs, Option.map_some, hempty]
        exact storeAll_empty
      · have hstored : storedName (some keyName) = some keyName := by simp [storedName, hempty]
        rw [hstored]
        refine storeAll_cons hempty ((hstore _ _).trans ?_)
        rw [ofBytes_take]

/-- A signature head is read as it was written, but for an empty name and the time. -/
theorem SigHead.fromBuffer_toBuffer (sh : SigHead) (hfits : (tagBytes sh.tags).length ≤ 65535)
    (hbehind : StopsNumber behind) :
    ∃ dt, SigHead.fromBuffer (tagBytes sh.tags ++ behind) (tagBytes sh.tags).length =
      some { sh with keyName := storedName sh.keyName, dateTime := dt } := by
  have hne : sh.tags ≠ [] := by simp [SigHead.tags]
  have hnumber : ∀ s tags, StopsNumber (tagBytes tags ++ behind) →
      storeAll SigHead.store behind ((0x02, printInt sh.keyNumber) :: tags) s =
        storeAll SigHead.store behind tags { s with keyNumber := sh.keyNumber } := fun s _ =>
    storeAll_number (fun i => { s with keyNumber := i }) fun _ _ => rfl
  have hversion : ∀ s tags, StopsNumber (tagBytes tags ++ behind) →
      storeAll SigHead.store behind ((0x03, printInt sh.keyVersion) :: tags) s =
        storeAll SigHead.store behind tags { s with keyVersion := sh.keyVersion } := fun s _ =>
    storeAll_number (fun i => { s with keyVersion := i }) fun _ _ => rfl
  have hprofile : ∀ s tags, StopsNumber (tagBytes tags ++ behind) →
      storeAll SigHead.store behind ((0x05, printInt sh.signatureProfile) :: tags) s =
        storeAll SigHead.store behind tags { s with signatureProfile := sh.signatureProfile } :=
    fun s _ => storeAll_number (fun i => { s with signatureProfile := i }) fun _ _ => rfl
  have hsignum : ∀ s tags, StopsNumber (tagBytes tags ++ behind) →
      storeAll SigHead.store behind ((0x06, printInt sh.signatureNumber) :: tags) s =
        storeAll SigHead.store behind tags { s with signatureNumber := sh.signatureNumber } :=
    fun s _ => storeAll_number (fun i => { s with signatureNumber := i }) fun _ _ => rfl
  have htime : ∀ (s : SigHead) tags, ∃ dt, storeAll SigHead.store behind
      ((sh.dateTime.map fun dateTime => (0x04, toUtcString dateTime)).toList ++ tags) s =
      storeAll SigHead.store behind tags { s with dateTime := dt } := by
    intro s tags
    cases sh.dateTime with
    | none => exact ⟨s.dateTime, rfl⟩
    | some dateTime =>
        have hlen := length_toUtcString dateTime
        have hne : toUtcString dateTime ≠ [] := List.ne_nil_of_length_pos (by omega)
        have hstore : ∀ p, s.store 0x04 p (toUtcString dateTime).length =
            some { s with dateTime := some (fromUtcString ((p.take 127).takeWhile (· != 0))) } :=
          fun p => by
            rw [SigHead.store, if_pos (by omega)]
        exact ⟨_, storeAll_cons hne (hstore _)⟩
  have hstop : StopsNumber (tagBytes ((sh.dateTime.map fun dateTime =>
      (0x04, toUtcString dateTime)).toList ++
      [(0x05, printInt sh.signatureProfile), (0x06, printInt sh.signatureNumber)]) ++ behind) := by
    cases sh.dateTime <;> exact stopsNumber_tagBytes rfl
  obtain ⟨dt, hdt⟩ := htime ⟨storedName sh.keyName, sh.keyNumber, sh.keyVersion, none, 0, 0⟩
    [(0x05, printInt sh.signatureProfile), (0x06, printInt sh.signatureNumber)]
  refine ⟨dt, ?_⟩
  rw [SigHead.fromBuffer, if_neg (length_tagBytes_pos hne),
    readSubTags_tagBytes (fits_of_tagBytes hfits) le_rfl, SigHead.tags,
    storeAll_name (s := SigHead.new) sh.keyName (fun name => ⟨name, 0, 0, none, 0, 0⟩) rfl
      fun _ _ => rfl, hnumber _ _ (stopsNumber_tagBytes rfl), hversion _ _ hstop, hdt,
    hprofile _ _ (stopsNumber_tagBytes rfl), hsignum _ [] hbehind, storeAll_nil]

theorem SigTail.fromBuffer_toBuffer (st : SigTail) (hfits : (tagBytes st.tags).length ≤ 65535)
    (hbehind : StopsNumber behind) :
    SigTail.fromBuffer (tagBytes st.tags ++ behind) (tagBytes st.tags).length = some st := by
  have hne : st.tags ≠ [] := by simp [SigTail.tags]
  have hsignature : storeAll SigTail.store behind st.tags SigTail.new =
      storeAll SigTail.store behind [(0x01, printInt st.signatureNumber)] ⟨st.signature, 0⟩ := by
    rw [SigTail.tags]
    by_cases hempty : st.signature = []
    · rw [if_neg (not_not.mpr hempty), hempty]
      rfl
    · rw [if_pos hempty]
      refine storeAll_cons hempty ?_
      exact congrArg (fun signature => some (⟨signature, 0⟩ : SigTail)) List.take_left
  have hstop : StopsNumber (tagBytes [] ++ behind) := hbehind
  rw [SigTail.fromBuffer, if_neg (length_tagBytes_pos hne),
    readSubTags_tagBytes (fits_of_tagBytes hfits) le_rfl, hsignature,
    storeAll_number (fun i => (⟨st.signature, i⟩ : SigTail)) (fun _ _ => rfl) hstop, storeAll_nil]

/-- The head of an encrypted object is read as it was written, but for an empty name. -/
theorem CryptHead.fromBuffer_toBuffer (ch : CryptHead) (hfits : (tagBytes ch.tags).length ≤ 65535)
    (hbehind : StopsNumber behind) :
    CryptHead.fromBuffer (tagBytes ch.tags ++ behind) (tagBytes ch.tags).length =
      some { ch with keyName := storedName ch.keyName } := by
  have hne : ch.tags ≠ [] := by simp [CryptHead.tags]
  have hnumber : ∀ s tags, StopsNumber (tagBytes tags ++ behind) →
      storeAll CryptHead.store behind ((0x02, printInt ch.keyNumber) :: tags) s =
        storeAll CryptHead.store behind tags { s with keyNumber := ch.keyNumber } := fun s _ =>
    storeAll_number (fun i => { s with keyNumber := i }) fun _ _ => rfl
  have hversion : ∀ s tags, StopsNumber (tagBytes tags ++ behind) →
      storeAll CryptHead.store behind ((0x03, printInt ch.keyVersion) :: tags) s =
        storeAll CryptHead.store behind tags { s with keyVersion := ch.keyVersion } := fun s _ =>
    storeAll_number (fun i => { s with keyVersion := i }) fun _ _ => rfl
  have hprofile : ∀ s tags, StopsNumber (tagBytes tags ++ behind) →
      storeAll CryptHead.store behind ((0x05, printInt ch.cryptProfile) :: tags) s =
        storeAll CryptHead.store behind tags { s with cryptProfile := ch.cryptProfile } :=
    fun s _ => storeAll_number (fun i => { s with cryptProfile := i }) fun _ _ => rfl
  have hkey : ∀ (s : CryptHead) tags, s.key = [] → storeAll CryptHead.store behind
      ((if ch.key ≠ [] then [(0x06, ch.key)] else []) ++ tags) s =
      storeAll CryptHead.store behind tags { s with key := ch.key } := by
    intro s tags hs
    by_cases hempty : ch.key = []
    · rw [if_neg (not_not.mpr hempty), hempty, ← hs]
      rfl
    · rw [if_pos hempty]
      refine storeAll_cons hempty ?_
      exact congrArg (fun key => some { s with key := key }) List.take_left
  have hstop : StopsNumber (tagBytes ((if ch.key ≠ [] then [(0x06, ch.key)] else []) ++
      [(0x05, printInt ch.cryptProfile)]) ++ behind) := by
    split <;> exact stopsNumber_tagBytes rfl
  rw [CryptHead.fromBuffer, if_neg (length_tagBytes_pos hne),
    readSubTags_tagBytes (fits_of_tagBytes hfits) le_rfl, CryptHead.tags,
    storeAll_name (s := CryptHead.new) ch.keyName (fun name => ⟨name, 0, 0, 0, []⟩) rfl
      fun _ _ => rfl, hnumber _ _ (stopsNumber_tagBytes rfl), hversion _ _ hstop, hkey _ _ rfl,
    hprofile _ [] hbehind, storeAll_nil]
end Gwenhywfar.CryptMsg
