import Gwenhywfar.Crypt3.Padd
import Gwenhywfar.Cryptmsg.SigHead

/-! # Signing and encrypting messages

A signed object has a head, the data and a tail with the signature over the bytes of both; an
encrypted object has a head with the key of the message and the data, which is padded and
enciphered with that key.  The lengths are patched in afterwards, and no check precedes.

* `CryptMgr`: the manager with the functions of its callbacks.
* `MessageCipher`: Blowfish with the key of a message, for which the laws hold that deciphering
  undoes enciphering and that both keep the length.
* `SignFits.roundTrips`, `EncryptFits.roundTrips`, `EncodeFits.roundTrips`: a message whose payloads
  fit is read back. -/

namespace Gwenhywfar.CryptMsg

open Tag16 Padd

/-- `GWEN_ERROR_NOT_IMPLEMENTED`. -/
abbrev errorNotImplemented : ℤ := -67

/-! ### Managers -/

/-- `GWEN_CRYPTMGR`.  A callback has a result and appends bytes; NULL is none. -/
structure CryptMgr where
  localKeyName : Option CString
  localKeyNumber : Int32
  localKeyVersion : Int32
  peerKeyName : Option CString
  peerKeyNumber : Int32
  peerKeyVersion : Int32
  signatureProfile : Int32
  signDataFn : Option (List UInt8 → ℤ × List UInt8)
  verifyDataFn : Option (List UInt8 → List UInt8 → ℤ)
  encryptKeyFn : Option (List UInt8 → ℤ × List UInt8)
  decryptKeyFn : Option (List UInt8 → ℤ × List UInt8)

namespace CryptMgr

def callback (f : Option (List UInt8 → ℤ × List UInt8)) (pData : List UInt8) : ℤ × List UInt8 :=
  match f with
  | some f => f pData
  | none => (errorNotImplemented, [])

/-- `GWEN_CryptMgr_SignData`. -/
def signData (cm : CryptMgr) : List UInt8 → ℤ × List UInt8 := callback cm.signDataFn

/-- `GWEN_CryptMgr_EncryptKey`. -/
def encryptKey (cm : CryptMgr) : List UInt8 → ℤ × List UInt8 := callback cm.encryptKeyFn

/-- `GWEN_CryptMgr_DecryptKey`. -/
def decryptKey (cm : CryptMgr) : List UInt8 → ℤ × List UInt8 := callback cm.decryptKeyFn

/-- `GWEN_CryptMgr_VerifyData`. -/
def verifyData (cm : CryptMgr) (pData pSignature : List UInt8) : ℤ :=
  match cm.verifyDataFn with
  | some f => f pData pSignature
  | none => errorNotImplemented

end CryptMgr

/-! ### The cipher -/

/-- The functions of the cryptographic library for Blowfish keys; an error is a code. -/
structure MessageCipher where
  setkey : (key : List UInt8) → Bool
  encipher : (key : List UInt8) → (src : List UInt8) → Except ℤ (List UInt8)
  decipher : (key : List UInt8) → (src : List UInt8) → Except ℤ (List UInt8)
  length_encipher : ∀ {key src dst}, encipher key src = .ok dst → dst.length = src.length
  length_decipher : ∀ {key src dst}, decipher key src = .ok dst → dst.length = src.length
  decipher_encipher : ∀ {key src dst}, encipher key src = .ok dst → decipher key dst = .ok src
  error_neg : ∀ {key src rv}, encipher key src = .error rv → rv < 0

/-- A key as `GWEN_Crypt_KeyBlowFish_Generate` makes it. -/
structure MessageKey (cipher : MessageCipher) where
  bytes : List UInt8
  length_eq : bytes.length = 32
  accepted : cipher.setkey bytes = true

/-- `GWEN_Crypt_KeyBlowFish_fromData` makes a key. -/
def MessageCipher.fromData (cipher : MessageCipher) (keyData : List UInt8) : Bool :=
  keyData != [] && cipher.setkey keyData

/-! ### Writing -/

/-- The head that `GWEN_CryptMgr_Sign` prepares. -/
def signHead (cm : CryptMgr) (now : Option BrokenDown) : SigHead :=
  ⟨cm.localKeyName, cm.localKeyNumber, cm.localKeyVersion, now, cm.signatureProfile, 1⟩

/-- `GWEN_CryptMgr_Sign`; the current time may not be available. -/
def sign (cm : CryptMgr) (now : Option BrokenDown) (pData dbuf : List UInt8) : ℤ × List UInt8 :=
  let pos := dbuf.length + 1
  let dbuf := dbuf ++ [0x21, 0, 0]
  let shPos := dbuf.length
  let dbuf := (signHead cm now).toBuffer dbuf 0x21
  let dbuf := if pData ≠ [] then writeTagToBuffer 0x23 pData dbuf else dbuf
  let sigbuf := cm.signData (dbuf.drop shPos)
  if sigbuf.1 < 0 then (sigbuf.1, dbuf)
  else
    let st : SigTail := ⟨sigbuf.2, 1⟩
    (0, writeSize pos (st.toBuffer dbuf 0x22))

/-- The head that `GWEN_CryptMgr_Encrypt` prepares. -/
def encryptHead (cm : CryptMgr) (key : List UInt8) : CryptHead :=
  ⟨cm.peerKeyName, cm.peerKeyNumber, cm.peerKeyVersion, cm.signatureProfile, key⟩

/-- `GWEN_CryptMgr_Encrypt`; the key may not be available. -/
def encrypt (cm : CryptMgr) (cipher : MessageCipher) (mkey : Option (MessageKey cipher))
    (pData dbuf : List UInt8) : ℤ × List UInt8 :=
  match mkey with
  | none => (errorGeneric, dbuf)
  | some mkey =>
      let pos := dbuf.length + 1
      let dbuf := dbuf ++ [0x22, 0, 0]
      let cryptbuf := cm.encryptKey mkey.bytes
      if cryptbuf.1 < 0 then (cryptbuf.1, dbuf)
      else
        let dbuf := (encryptHead cm cryptbuf.2).toBuffer dbuf 0x21
        let tbuf := (paddWithAnsiX9_23ToMultipleOf pData 8).2
        match cipher.encipher mkey.bytes tbuf with
        | .error rv => (rv, dbuf)
        | .ok cryptbuf => (0, writeSize pos (writeTagToBuffer 0x22 cryptbuf dbuf))

/-- `GWEN_CryptMgr_Encode`. -/
def encode (cm : CryptMgr) (cipher : MessageCipher) (now : Option BrokenDown)
    (mkey : Option (MessageKey cipher)) (pData dbuf : List UInt8) : ℤ × List UInt8 :=
  let tbuf := sign cm now pData []
  if tbuf.1 < 0 then (tbuf.1, dbuf) else encrypt cm cipher mkey tbuf.2 dbuf

/-! ### Reading -/

/-- The next of the tags in `l` bytes, if there is one. -/
def subTag (p : List UInt8) (l off : ℕ) : Option Tag16 :=
  if l ≤ off then none else fromBuffer2 ((p.take l).drop off)

def subTagSize (subtag : Option Tag16) : ℕ := (subtag.map tagSize).getD 0

def ofType (tagType : ℕ) (subtag : Option Tag16) : Option Tag16 :=
  subtag.filter fun subtag => subtag.tagType = tagType

/-- Names are compared by `strcasecmp`, and numbers and versions are equal. -/
def sameKey (name : Option CString) (number version : Int32) (keyName : Option CString)
    (keyNumber keyVersion : Int32) : Bool :=
  match name, keyName with
  | some name, some keyName =>
      strcaseEq name keyName && number == keyNumber && version == keyVersion
  | _, _ => false

def storeOrCheckPeer (cm : CryptMgr) (sh : SigHead) : Option CryptMgr :=
  if cm.peerKeyName = none then
    some { cm with
      peerKeyName := sh.keyName
      peerKeyNumber := sh.keyNumber
      peerKeyVersion := sh.keyVersion }
  else if sameKey cm.peerKeyName cm.peerKeyNumber cm.peerKeyVersion sh.keyName sh.keyNumber
      sh.keyVersion then some cm
  else none

/-- The end of `GWEN_CryptMgr_Verify`, when the tags have been read. -/
def verifySigned (cm : CryptMgr) (sh : Option SigHead) (st : Option SigTail)
    (signedData dbuf : List UInt8) : ℤ × CryptMgr × List UInt8 :=
  match sh, st with
  | some sh, some st =>
      if signedData = [] ∨ sh.signatureNumber ≠ st.signatureNumber then (errorBadData, cm, dbuf)
      else
        match storeOrCheckPeer cm sh with
        | none => (errorBadData, cm, dbuf)
        | some cm =>
            let rv := cm.verifyData signedData st.signature
            if rv < 0 then (rv, cm, dbuf) else (0, cm, dbuf)
  | _, _ => (errorBadData, cm, dbuf)

/-- `GWEN_CryptMgr_Verify` of the next `lData` bytes in memory. -/
def verify (cm : CryptMgr) (pData : List UInt8) (lData : ℕ) (dbuf : List UInt8) :
    ℤ × CryptMgr × List UInt8 :=
  if lData < 3 then (errorBadData, cm, dbuf)
  else
    match ofType 0x21 (fromBuffer2 (pData.take lData)) with
    | none => (errorBadData, cm, dbuf)
    | some tag =>
        let p := pData.drop 3
        let l := tag.tagData.length
        let subtag := subTag p l 0
        let sh := (ofType 0x21 subtag).bind fun subtag =>
          SigHead.fromBuffer (p.drop 3) subtag.tagData.length
        let off := subTagSize subtag
        let lSignedData := if sh.isSome then off else 0
        let subtag := subTag p l off
        let sigData := ofType 0x23 subtag
        let dbuf := dbuf ++ (sigData.map Tag16.tagData).getD []
        if sigData.isSome ∧ ¬ (sh.isSome ∧ lSignedData = off) then (errorBadData, cm, dbuf)
        else
          let lSignedData := lSignedData + subTagSize sigData
          let off := off + subTagSize subtag
          let st := (ofType 0x22 (subTag p l off)).bind fun subtag =>
            SigTail.fromBuffer (p.drop (off + 3)) subtag.tagData.length
          verifySigned cm sh st (p.take lSignedData) dbuf

/-- The end of `GWEN_CryptMgr_Decrypt`, when the tags have been read. -/
def decryptData (cm : CryptMgr) (cipher : MessageCipher) (ch : CryptHead)
    (encryptedData dbuf : List UInt8) : Option (ℤ × List UInt8) :=
  if cm.localKeyName ≠ none ∧ sameKey cm.localKeyName cm.localKeyNumber cm.localKeyVersion
      ch.keyName ch.keyNumber ch.keyVersion = false then some (errorBadData, dbuf)
  else
    let tbuf := cm.decryptKey ch.key
    if tbuf.1 < 0 then some (tbuf.1, dbuf)
    else if cipher.fromData tbuf.2 = false then some (errorBadData, dbuf)
    else
      match cipher.decipher tbuf.2 encryptedData with
      | .error rv => some (rv, dbuf)
      | .ok tbuf =>
          (unpaddWithAnsiX9_23FromMultipleOf tbuf 8).map fun tbuf =>
            if tbuf.1 < 0 then (tbuf.1, dbuf) else (0, dbuf ++ tbuf.2)

/-- `GWEN_CryptMgr_Decrypt` of the next `lData` bytes in memory. -/
def decrypt (cm : CryptMgr) (cipher : MessageCipher) (pData : List UInt8) (lData : ℕ)
    (dbuf : List UInt8) : Option (ℤ × List UInt8) :=
  if lData < 3 then some (errorBadData, dbuf)
  else
    match ofType 0x22 (fromBuffer2 (pData.take lData)) with
    | none => some (errorBadData, dbuf)
    | some tag =>
        let p := pData.drop 3
        let l := tag.tagData.length
        let subtag := subTag p l 0
        let ch := (ofType 0x21 subtag).bind fun subtag =>
          CryptHead.fromBuffer (p.drop 3) subtag.tagData.length
        match ch, ofType 0x22 (subTag p l (subTagSize subtag)) with
        | some ch, some subtag =>
            if subtag.tagData = [] then some (errorBadData, dbuf)
            else decryptData cm cipher ch subtag.tagData dbuf
        | _, _ => some (errorBadData, dbuf)

/-- `GWEN_CryptMgr_Decode`; the buffer keeps a NUL behind the bytes that were decrypted. -/
def decode (cm : CryptMgr) (cipher : MessageCipher) (pData : List UInt8) (lData : ℕ)
    (dbuf : List UInt8) : Option (ℤ × CryptMgr × List UInt8) :=
  (decrypt cm cipher pData lData []).map fun tbuf =>
    if tbuf.1 < 0 then (tbuf.1, cm, dbuf) else verify cm (tbuf.2 ++ [0]) tbuf.2.length dbuf

/-! ### What is written -/

def signedTags (cm : CryptMgr) (now : Option BrokenDown) (pData : List UInt8) : TagList :=
  (0x21, tagBytes (signHead cm now).tags) :: if pData ≠ [] then [(0x23, pData)] else []

def signTail (cm : CryptMgr) (now : Option BrokenDown) (pData : List UInt8) : SigTail :=
  ⟨(cm.signData (tagBytes (signedTags cm now pData))).2, 1⟩

def signPayload (cm : CryptMgr) (now : Option BrokenDown) (pData : List UInt8) : TagList :=
  signedTags cm now pData ++ [(0x22, tagBytes (signTail cm now pData).tags)]

def encryptPayload (cm : CryptMgr) (key cryptbuf : List UInt8) : TagList :=
  [(0x21, tagBytes (encryptHead cm (cm.encryptKey key).2).tags), (0x22, cryptbuf)]

variable {snd rcv cm : CryptMgr} {cipher : MessageCipher} {now : Option BrokenDown}
  {mkey : Option (MessageKey cipher)} {pData dbuf buf' behind out : List UInt8}

theorem objectBytes_eq (tagType : UInt8) (tags : TagList) :
    objectBytes tagType tags = tagBytes [(tagType, tagBytes tags)] := by
  rw [tagBytes_cons]
  exact (List.append_nil _).symm

/-- A message is signed, unless the callback reports an error. -/
theorem sign_eq (cm : CryptMgr) (now : Option BrokenDown) (pData dbuf : List UInt8) :
    sign cm now pData dbuf =
      if (cm.signData (tagBytes (signedTags cm now pData))).1 < 0 then
        ((cm.signData (tagBytes (signedTags cm now pData))).1,
          dbuf ++ [0x21, 0, 0] ++ tagBytes (signedTags cm now pData))
      else (0, dbuf ++ objectBytes 0x21 (signPayload cm now pData)) := by
  have hsigned : (if pData ≠ [] then writeTagToBuffer 0x23 pData
        ((signHead cm now).toBuffer (dbuf ++ [0x21, 0, 0]) 0x21)
      else (signHead cm now).toBuffer (dbuf ++ [0x21, 0, 0]) 0x21) =
      dbuf ++ [0x21, 0, 0] ++ tagBytes (signedTags cm now pData) := by
    rw [signedTags]
    split
    · rw [writeTag_eq, SigHead.toBuffer_eq, objectBytes_eq, List.append_assoc, ← tagBytes_append]
      rfl
    · rw [SigHead.toBuffer_eq, objectBytes_eq]
  have htail : writeSize (dbuf.length + 1) ((signTail cm now pData).toBuffer
      (dbuf ++ [0x21, 0, 0] ++ tagBytes (signedTags cm now pData)) 0x22) =
      dbuf ++ objectBytes 0x21 (signPayload cm now pData) := by
    rw [SigTail.toBuffer_eq, objectBytes_eq, List.append_assoc, ← tagBytes_append,
      List.append_assoc, writeSize_eq]
    rfl
  rw [sign]
  dsimp only
  rw [hsigned, List.drop_left]
  exact congrArg (fun buf => if _ < (0 : ℤ) then (_, _) else ((0 : ℤ), buf)) htail

theorem sign_zero (h : ¬ (sign cm now pData dbuf).1 < 0) :
    0 ≤ (cm.signData (tagBytes (signedTags cm now pData))).1 ∧
      sign cm now pData dbuf = (0, dbuf ++ objectBytes 0x21 (signPayload cm now pData)) := by
  rw [sign_eq] at h ⊢
  split at h
  · next hneg => exact absurd hneg h
  · next hneg => exact ⟨not_lt.mp hneg, if_neg hneg⟩

theorem encrypt_zero (h : encrypt cm cipher mkey pData dbuf = (0, buf')) :
    ∃ key cryptbuf, mkey = some key ∧ 0 ≤ (cm.encryptKey key.bytes).1 ∧
      cipher.encipher key.bytes (paddWithAnsiX9_23ToMultipleOf pData 8).2 = .ok cryptbuf ∧
      buf' = dbuf ++ objectBytes 0x22 (encryptPayload cm key.bytes cryptbuf) := by
  cases mkey with
  | none => exact absurd (Prod.mk.inj h).1 (by decide)
  | some key =>
      unfold encrypt at h
      dsimp only at h
      split at h
      · next hneg =>
          rw [(Prod.mk.inj h).1] at hneg
          exact absurd hneg (by omega)
      · next hneg =>
          cases hc : cipher.encipher key.bytes (paddWithAnsiX9_23ToMultipleOf pData 8).2 with
          | error rv =>
              rw [hc] at h
              have hrv := cipher.error_neg hc
              rw [(Prod.mk.inj h).1] at hrv
              exact absurd hrv (by omega)
          | ok cryptbuf =>
              rw [hc] at h
              refine ⟨key, cryptbuf, rfl, not_lt.mp hneg, hc, ?_⟩
              have hbuf := (Prod.mk.inj h).2
              rw [writeTag_eq, CryptHead.toBuffer_eq, objectBytes_eq, List.append_assoc,
                ← tagBytes_append, List.append_assoc, writeSize_eq] at hbuf
              exact hbuf.symm

/-! ### What is read -/

variable {tags : TagList}

theorem subTag_tagBytes (xs : TagList) (tag : UInt8 × List UInt8) (ys : TagList)
    (htags : tags = xs ++ tag :: ys) (hfits : tag.2.length ≤ 65535) :
    subTag (tagBytes tags ++ behind) (tagBytes tags).length (tagBytes xs).length =
      some ⟨tag.1.toNat, tag.2⟩ := by
  have hlen : (tagBytes tags).length =
      (tagBytes xs).length + (tag.2.length + 3 + (tagBytes ys).length) := by
    rw [htags, tagBytes_append, List.length_append, length_tagBytes_cons]
  rw [subTag, if_neg (by omega), List.take_left, htags, tagBytes_append, List.drop_left,
    tagBytes_cons]
  exact fromBuffer2_header hfits _

theorem drop_tagBytes (xs : TagList) (tag : UInt8 × List UInt8) (ys : TagList)
    (htags : tags = xs ++ tag :: ys) : (tagBytes tags ++ behind).drop ((tagBytes xs).length + 3) =
      tag.2 ++ (tagBytes ys ++ behind) := by
  rw [htags, tagBytes_append, List.append_assoc, ← List.drop_drop, List.drop_left, tagBytes_cons,
    List.append_assoc, List.append_assoc]
  rfl

theorem ofType_object {tagType : UInt8} (hsize : (tagBytes tags).length ≤ 65535) :
    ofType tagType.toNat (fromBuffer2 ((objectBytes tagType tags ++ behind).take
      (objectBytes tagType tags).length)) = some ⟨tagType.toNat, tagBytes tags⟩ := by
  have htag := @fromBuffer2_header tagType (tagBytes tags) hsize []
  rw [List.append_nil] at htag
  rw [List.take_left, objectBytes, htag, ofType, Option.filter_some, if_pos (by simp)]

theorem three_le_length_object {tagType : UInt8} :
    ¬ (objectBytes tagType tags).length < 3 := by
  rw [objectBytes, List.length_append, length_header]
  omega

theorem drop_object {tagType : UInt8} :
    (objectBytes tagType tags ++ behind).drop 3 = tagBytes tags ++ behind := by
  rw [objectBytes, List.append_assoc]
  rfl

theorem length_tagBytes_one (t : UInt8) (p : List UInt8) :
    (tagBytes [(t, p)]).length = p.length + 3 := by
  rw [length_tagBytes_cons]
  rfl

theorem length_tagBytes_two (t u : UInt8) (p q : List UInt8) :
    (tagBytes [(t, p), (u, q)]).length = p.length + 3 + (q.length + 3) := by
  rw [length_tagBytes_cons, length_tagBytes_one]

theorem verify_tags {hd tl : List UInt8} {sh : SigHead} {st : SigTail}
    (hsize : (tagBytes [(0x21, hd), (0x23, pData), (0x22, tl)]).length ≤ 65535)
    (hsh : SigHead.fromBuffer (hd ++ (tagBytes [(0x23, pData), (0x22, tl)] ++ behind)) hd.length =
      some sh) (hst : SigTail.fromBuffer (tl ++ behind) tl.length = some st) :
    verify rcv (objectBytes 0x21 [(0x21, hd), (0x23, pData), (0x22, tl)] ++ behind)
        (objectBytes 0x21 [(0x21, hd), (0x23, pData), (0x22, tl)]).length out =
      verifySigned rcv (some sh) (some st) (tagBytes [(0x21, hd), (0x23, pData)])
        (out ++ pData) := by
  have hfits := fits_of_tagBytes hsize
  have houter : ofType 0x21 (fromBuffer2 ((objectBytes 0x21 [(0x21, hd), (0x23, pData),
      (0x22, tl)] ++ behind).take (objectBytes 0x21 [(0x21, hd), (0x23, pData),
      (0x22, tl)]).length)) = some ⟨0x21, tagBytes [(0x21, hd), (0x23, pData), (0x22, tl)]⟩ :=
    ofType_object hsize
  have htag1 : subTag (tagBytes [(0x21, hd), (0x23, pData), (0x22, tl)] ++ behind)
      (tagBytes [(0x21, hd), (0x23, pData), (0x22, tl)]).length 0 = some ⟨0x21, hd⟩ :=
    subTag_tagBytes [] (0x21, hd) _ rfl (hfits (0x21, hd) (by simp))
  have hptr1 : (tagBytes [(0x21, hd), (0x23, pData), (0x22, tl)] ++ behind).drop 3 =
      hd ++ (tagBytes [(0x23, pData), (0x22, tl)] ++ behind) :=
    drop_tagBytes [] (0x21, hd) _ rfl
  have htag2 : subTag (tagBytes [(0x21, hd), (0x23, pData), (0x22, tl)] ++ behind)
      (tagBytes [(0x21, hd), (0x23, pData), (0x22, tl)]).length (hd.length + 3) =
      some ⟨0x23, pData⟩ := by
    have h := @subTag_tagBytes behind _ [(0x21, hd)] (0x23, pData) [(0x22, tl)] rfl
      (hfits (0x23, pData) (by simp))
    rwa [length_tagBytes_one] at h
  have htag3 : subTag (tagBytes [(0x21, hd), (0x23, pData), (0x22, tl)] ++ behind)
      (tagBytes [(0x21, hd), (0x23, pData), (0x22, tl)]).length
      (hd.length + 3 + (pData.length + 3)) = some ⟨0x22, tl⟩ := by
    have h := @subTag_tagBytes behind _ [(0x21, hd), (0x23, pData)] (0x22, tl) [] rfl
      (hfits (0x22, tl) (by simp))
    rwa [length_tagBytes_two] at h
  have hptr3 : (tagBytes [(0x21, hd), (0x23, pData), (0x22, tl)] ++ behind).drop
      (hd.length + 3 + (pData.length + 3) + 3) = tl ++ behind := by
    have h := @drop_tagBytes behind _ [(0x21, hd), (0x23, pData)] (0x22, tl) [] rfl
    rwa [length_tagBytes_two] at h
  have hsigned : (tagBytes [(0x21, hd), (0x23, pData), (0x22, tl)] ++ behind).take
      (hd.length + 3 + (pData.length + 3)) = tagBytes [(0x21, hd), (0x23, pData)] := by
    have h := tagBytes_append [(0x21, hd), (0x23, pData)] [(0x22, tl)]
    rw [List.cons_append, List.cons_append, List.nil_append] at h
    rw [← length_tagBytes_two 0x21 0x23 hd pData, h, List.append_assoc, List.take_left]
  have h21 : ∀ p, ofType 0x21 (some ⟨0x21, p⟩) = some ⟨0x21, p⟩ := fun _ => rfl
  have h22 : ∀ p, ofType 0x22 (some ⟨0x22, p⟩) = some ⟨0x22, p⟩ := fun _ => rfl
  have h23 : ∀ p, ofType 0x23 (some ⟨0x23, p⟩) = some ⟨0x23, p⟩ := fun _ => rfl
  have hsz : ∀ t p, subTagSize (some ⟨t, p⟩) = p.length + 3 := fun _ _ => rfl
  rw [verify, if_neg three_le_length_object, houter]
  simp only [drop_object, htag1, h21, hptr1, hsz, htag2, h23, htag3, h22, hptr3, hsh, hst,
    hsigned, Option.bind_some, Option.map_some, Option.getD_some, Option.isSome_some, if_true,
    and_self, not_true_eq_false, and_false, if_false]

theorem decrypt_tags {hd : List UInt8} {ch : CryptHead}
    (hsize : (tagBytes [(0x21, hd), (0x22, pData)]).length ≤ 65535)
    (hch : CryptHead.fromBuffer (hd ++ (tagBytes [(0x22, pData)] ++ behind)) hd.length = some ch)
    (hne : pData ≠ []) : decrypt rcv cipher (objectBytes 0x22 [(0x21, hd), (0x22, pData)] ++ behind)
        (objectBytes 0x22 [(0x21, hd), (0x22, pData)]).length out =
      decryptData rcv cipher ch pData out := by
  have hfits := fits_of_tagBytes hsize
  have houter : ofType 0x22 (fromBuffer2 ((objectBytes 0x22 [(0x21, hd), (0x22, pData)] ++
      behind).take (objectBytes 0x22 [(0x21, hd), (0x22, pData)]).length)) =
      some ⟨0x22, tagBytes [(0x21, hd), (0x22, pData)]⟩ := ofType_object hsize
  have htag1 : subTag (tagBytes [(0x21, hd), (0x22, pData)] ++ behind)
      (tagBytes [(0x21, hd), (0x22, pData)]).length 0 = some ⟨0x21, hd⟩ :=
    subTag_tagBytes [] (0x21, hd) _ rfl (hfits (0x21, hd) (by simp))
  have hptr1 : (tagBytes [(0x21, hd), (0x22, pData)] ++ behind).drop 3 =
      hd ++ (tagBytes [(0x22, pData)] ++ behind) := drop_tagBytes [] (0x21, hd) _ rfl
  have htag2 : subTag (tagBytes [(0x21, hd), (0x22, pData)] ++ behind)
      (tagBytes [(0x21, hd), (0x22, pData)]).length (hd.length + 3) = some ⟨0x22, pData⟩ := by
    have h := @subTag_tagBytes behind _ [(0x21, hd)] (0x22, pData) [] rfl
      (hfits (0x22, pData) (by simp))
    rwa [length_tagBytes_one] at h
  have h21 : ∀ p, ofType 0x21 (some ⟨0x21, p⟩) = some ⟨0x21, p⟩ := fun _ => rfl
  have h22 : ∀ p, ofType 0x22 (some ⟨0x22, p⟩) = some ⟨0x22, p⟩ := fun _ => rfl
  have hsz : ∀ t p, subTagSize (some ⟨t, p⟩) = p.length + 3 := fun _ _ => rfl
  rw [decrypt, if_neg three_le_length_object, houter]
  simp only [drop_object, htag1, h21, hptr1, hsz, htag2, h22, hch, Option.bind_some, if_neg hne]

/-! ### Round trips -/

/-- The callbacks of the receiver match those of the sender. -/
structure Matches (snd rcv : CryptMgr) : Prop where
  verifies : ∀ data, 0 ≤ (snd.signData data).1 → 0 ≤ rcv.verifyData data (snd.signData data).2
  decrypts : ∀ key, 0 ≤ (snd.encryptKey key).1 →
    0 ≤ (rcv.decryptKey (snd.encryptKey key).2).1 ∧
      (rcv.decryptKey (snd.encryptKey key).2).2 = key

/-- The key of the sender is expected by the receiver, or none is set yet. -/
def ExpectsSigner (snd rcv : CryptMgr) : Prop :=
  rcv.peerKeyName = none ∨ rcv.peerKeyName = snd.localKeyName ∧
    rcv.peerKeyNumber = snd.localKeyNumber ∧ rcv.peerKeyVersion = snd.localKeyVersion

def ExpectsReceiver (snd rcv : CryptMgr) : Prop :=
  rcv.localKeyName = snd.peerKeyName ∧ rcv.localKeyNumber = snd.peerKeyNumber ∧
    rcv.localKeyVersion = snd.peerKeyVersion

/-- What `GWEN_CryptMgr_Sign` appends without an error is verified, and the data is appended. -/
def SignRoundTrips (snd rcv : CryptMgr) (now : Option BrokenDown) (pData : List UInt8) : Prop :=
  ∀ dbuf buf', sign snd now pData dbuf = (0, buf') → ∃ message, buf' = dbuf ++ message ∧
    ∀ behind out, ∃ rcv', verify rcv (message ++ 0 :: behind) message.length out =
      (0, rcv', out ++ pData)

/-- What `GWEN_CryptMgr_Encrypt` appends without an error is decrypted to the data. -/
def EncryptRoundTrips (snd rcv : CryptMgr) (cipher : MessageCipher)
    (mkey : Option (MessageKey cipher)) (pData : List UInt8) : Prop :=
  ∀ dbuf buf', encrypt snd cipher mkey pData dbuf = (0, buf') → ∃ message, buf' = dbuf ++ message ∧
    ∀ behind out, decrypt rcv cipher (message ++ 0 :: behind) message.length out =
      some (0, out ++ pData)

/-- What `GWEN_CryptMgr_Encode` appends without an error is decoded to the data. -/
def EncodeRoundTrips (snd rcv : CryptMgr) (cipher : MessageCipher) (now : Option BrokenDown)
    (mkey : Option (MessageKey cipher)) (pData : List UInt8) : Prop :=
  ∀ dbuf buf', encode snd cipher now mkey pData dbuf = (0, buf') →
    ∃ message, buf' = dbuf ++ message ∧ ∀ behind out, ∃ rcv',
      decode rcv cipher (message ++ 0 :: behind) message.length out = some (0, rcv', out ++ pData)

def NotEmpty (keyName : Option CString) : Prop := ∀ name ∈ keyName, name.bytes ≠ []

def SignFits (snd rcv : CryptMgr) (now : Option BrokenDown) (pData : List UInt8) : Prop :=
  pData ≠ [] ∧ NotEmpty rcv.peerKeyName ∧ (tagBytes (signPayload snd now pData)).length ≤ 65535

/-- The payload with so many bytes, which are padded, fits its length field. -/
def EncryptFits (snd rcv : CryptMgr) {cipher : MessageCipher} (mkey : Option (MessageKey cipher))
    (n : ℕ) : Prop :=
  NotEmpty rcv.localKeyName ∧ ∀ key ∈ mkey,
    (tagBytes (encryptHead snd (snd.encryptKey key.bytes).2).tags).length + 3 +
      ((n / 8 + 1) * 8 + 3) ≤ 65535

/-- Both payloads fit. -/
def EncodeFits (snd rcv : CryptMgr) {cipher : MessageCipher} (now : Option BrokenDown)
    (mkey : Option (MessageKey cipher)) (pData : List UInt8) : Prop :=
  SignFits snd rcv now pData ∧
    EncryptFits snd rcv mkey ((tagBytes (signPayload snd now pData)).length + 3)

theorem storedName_of_notEmpty {keyName : Option CString} (h : NotEmpty keyName) :
    storedName keyName = keyName := by
  cases keyName with
  | none => rfl
  | some name => simp [storedName, h name rfl]

theorem sameKey_self (name : CString) (number version : Int32) :
    sameKey (some name) number version (some name) number version = true := by
  simp [sameKey, strcaseEq]

theorem storeOrCheckPeer_signer (he : ExpectsSigner snd rcv) (hname : NotEmpty rcv.peerKeyName)
    (dt : Option BrokenDown) : ∃ rcv', storeOrCheckPeer rcv
        { signHead snd now with keyName := storedName snd.localKeyName, dateTime := dt } =
      some rcv' ∧ rcv'.verifyData = rcv.verifyData := by
  rw [storeOrCheckPeer]
  by_cases hnone : rcv.peerKeyName = none
  · rw [if_pos hnone]
    exact ⟨_, rfl, rfl⟩
  · obtain ⟨hkey, hnumber, hversion⟩ := he.resolve_left hnone
    obtain ⟨name, hsome⟩ := Option.ne_none_iff_exists'.mp hnone
    have hsame : sameKey rcv.peerKeyName rcv.peerKeyNumber rcv.peerKeyVersion
        (storedName snd.localKeyName) snd.localKeyNumber snd.localKeyVersion = true := by
      rw [← hkey, storedName_of_notEmpty hname, hnumber, hversion, hsome, sameKey_self]
    rw [if_neg hnone]
    exact ⟨rcv, if_pos hsame, rfl⟩

theorem verifySigned_accepts {sh : SigHead} {st : SigTail} {rcv' : CryptMgr} (hne : pData ≠ [])
    (hnum : sh.signatureNumber = st.signatureNumber) (hpeer : storeOrCheckPeer rcv sh = some rcv')
    (hrv : 0 ≤ rcv'.verifyData pData st.signature) :
    verifySigned rcv (some sh) (some st) pData out = (0, rcv', out) := by
  rw [verifySigned, if_neg (not_or.mpr ⟨hne, not_not.mpr hnum⟩), hpeer]
  exact if_neg (not_lt.mpr hrv)

theorem stopsNumber_nul : StopsNumber (0 :: behind) := fun c hc => by
  obtain rfl := Option.some.inj hc
  rfl

theorem signedTags_eq (hne : pData ≠ []) : signedTags snd now pData =
    [(0x21, tagBytes (signHead snd now).tags), (0x23, pData)] := by
  rw [signedTags, if_pos hne]

theorem signPayload_eq (hne : pData ≠ []) : signPayload snd now pData =
    [(0x21, tagBytes (signHead snd now).tags), (0x23, pData),
      (0x22, tagBytes (signTail snd now pData).tags)] := by
  rw [signPayload, signedTags_eq hne]
  rfl

/-- The parts of a signed object whose payload fits are read as they were written, but for an empty
name and the time. -/
theorem verify_object (hne : pData ≠ [])
    (hsize : (tagBytes (signPayload snd now pData)).length ≤ 65535) (behind out : List UInt8) :
    ∃ dt, verify rcv (objectBytes 0x21 (signPayload snd now pData) ++ 0 :: behind)
        (objectBytes 0x21 (signPayload snd now pData)).length out = verifySigned rcv
        (some { signHead snd now with keyName := storedName snd.localKeyName, dateTime := dt })
        (some (signTail snd now pData)) (tagBytes (signedTags snd now pData)) (out ++ pData) := by
  rw [signPayload_eq hne] at hsize ⊢
  rw [signedTags_eq hne]
  have hfits := fits_of_tagBytes hsize
  have hstop : StopsNumber (tagBytes [(0x23, pData),
      (0x22, tagBytes (signTail snd now pData).tags)] ++ 0 :: behind) := stopsNumber_tagBytes rfl
  obtain ⟨dt, hhead⟩ := SigHead.fromBuffer_toBuffer (signHead snd now)
    (hfits _ List.mem_cons_self) hstop
  have htail := SigTail.fromBuffer_toBuffer (signTail snd now pData)
    (hfits _ (List.mem_cons_of_mem _ (List.mem_cons_of_mem _ List.mem_cons_self)))
    (@stopsNumber_nul behind)
  exact ⟨dt, verify_tags hsize hhead htail⟩

theorem SignFits.roundTrips (hf : SignFits snd rcv now pData) (hm : Matches snd rcv)
    (he : ExpectsSigner snd rcv) : SignRoundTrips snd rcv now pData := by
  intro dbuf buf' h
  obtain ⟨hne, hname, hsize⟩ := hf
  obtain ⟨hrv, hsign⟩ := sign_zero (by rw [h]; exact lt_irrefl _)
  obtain rfl := (Prod.mk.inj (h.symm.trans hsign)).2
  refine ⟨_, rfl, fun behind out => ?_⟩
  obtain ⟨dt, hverify⟩ := @verify_object snd rcv now pData hne hsize behind out
  obtain ⟨rcv', hpeer, hsame⟩ := @storeOrCheckPeer_signer snd rcv now he hname dt
  have hdata : tagBytes (signedTags snd now pData) ≠ [] := by
    rw [signedTags, tagBytes_cons]
    exact List.cons_ne_nil _ _
  have haccepted := hm.verifies _ hrv
  rw [← hsame] at haccepted
  exact ⟨rcv', hverify.trans (verifySigned_accepts hdata rfl hpeer haccepted)⟩

theorem decrypt_object {key cryptbuf : List UInt8} (hne : cryptbuf ≠ [])
    (hsize : (tagBytes (encryptPayload snd key cryptbuf)).length ≤ 65535)
    (behind out : List UInt8) :
    decrypt rcv cipher (objectBytes 0x22 (encryptPayload snd key cryptbuf) ++ 0 :: behind)
        (objectBytes 0x22 (encryptPayload snd key cryptbuf)).length out =
      decryptData rcv cipher { encryptHead snd (snd.encryptKey key).2 with
        keyName := storedName snd.peerKeyName } cryptbuf out := by
  rw [encryptPayload] at hsize ⊢
  have hhead := CryptHead.fromBuffer_toBuffer (encryptHead snd (snd.encryptKey key).2)
    (fits_of_tagBytes hsize _ List.mem_cons_self)
    (show StopsNumber (tagBytes [(0x22, cryptbuf)] ++ 0 :: behind) from stopsNumber_tagBytes rfl)
  exact decrypt_tags hsize hhead hne

theorem decryptData_accepts {ch : CryptHead} {key cryptbuf padded : List UInt8}
    (hkey : rcv.localKeyName ≠ none → sameKey rcv.localKeyName rcv.localKeyNumber
      rcv.localKeyVersion ch.keyName ch.keyNumber ch.keyVersion = true)
    (hrv : 0 ≤ (rcv.decryptKey ch.key).1) (hplain : (rcv.decryptKey ch.key).2 = key)
    (hfrom : cipher.fromData key = true) (hdecipher : cipher.decipher key cryptbuf = .ok padded)
    (hunpadd : unpaddWithAnsiX9_23FromMultipleOf padded 8 = some (0, pData)) :
    decryptData rcv cipher ch cryptbuf out = some (0, out ++ pData) := by
  have hexpected : ¬ (rcv.localKeyName ≠ none ∧ sameKey rcv.localKeyName rcv.localKeyNumber
      rcv.localKeyVersion ch.keyName ch.keyNumber ch.keyVersion = false) := by
    rintro ⟨hname, hsame⟩
    rw [hkey hname] at hsame
    cases hsame
  rw [decryptData, if_neg hexpected]
  dsimp only
  rw [hplain, if_neg (not_lt.mpr hrv), if_neg (by rw [hfrom]; exact Bool.noConfusion), hdecipher]
  dsimp only
  rw [hunpadd]
  rfl

theorem MessageKey.fromData (key : MessageKey cipher) : cipher.fromData key.bytes = true := by
  have hne : key.bytes ≠ [] := List.ne_nil_of_length_pos (by rw [key.length_eq]; omega)
  rw [MessageCipher.fromData, key.accepted, Bool.and_true]
  exact bne_iff_ne.mpr hne

/-- An encrypted object whose payload fits is decrypted. -/
theorem EncryptFits.roundTrips (hf : EncryptFits snd rcv mkey pData.length) (hm : Matches snd rcv)
    (he : ExpectsReceiver snd rcv) : EncryptRoundTrips snd rcv cipher mkey pData := by
  intro dbuf buf' h
  obtain ⟨hname, hsize⟩ := hf
  obtain ⟨hkey, hnumber, hversion⟩ := he
  obtain ⟨key, cryptbuf, rfl, hrv, hc, rfl⟩ := encrypt_zero h
  refine ⟨_, rfl, fun behind out => ?_⟩
  have hpadd : paddWithAnsiX9_23ToMultipleOf pData 8 =
      (0, (paddWithAnsiX9_23ToMultipleOf pData 8).2) := rfl
  obtain ⟨hlen, hunpadd⟩ := ansiX9_23_restores (by decide) (by decide) hpadd
  have hcrypt : cryptbuf.length = (pData.length / 8 + 1) * 8 :=
    (cipher.length_encipher hc).trans hlen
  have hne : cryptbuf ≠ [] := List.ne_nil_of_length_pos (by omega)
  have hfit : (tagBytes (encryptPayload snd key.bytes cryptbuf)).length ≤ 65535 := by
    rw [encryptPayload, length_tagBytes_two, hcrypt]
    exact hsize key rfl
  obtain ⟨hdrv, hdkey⟩ := hm.decrypts key.bytes hrv
  rw [decrypt_object hne hfit]
  refine decryptData_accepts (fun hsome => ?_) hdrv hdkey key.fromData
    (cipher.decipher_encipher hc) hunpadd
  obtain ⟨name, hexpected⟩ := Option.ne_none_iff_exists'.mp hsome
  have hstored : storedName snd.peerKeyName = rcv.localKeyName := by
    rw [← hkey, storedName_of_notEmpty hname]
  change sameKey rcv.localKeyName rcv.localKeyNumber rcv.localKeyVersion
    (storedName snd.peerKeyName) snd.peerKeyNumber snd.peerKeyVersion = true
  rw [hstored, hnumber, hversion, hexpected, sameKey_self]

theorem EncodeFits.roundTrips (hf : EncodeFits snd rcv now mkey pData) (hm : Matches snd rcv)
    (hs : ExpectsSigner snd rcv) (he : ExpectsReceiver snd rcv) :
    EncodeRoundTrips snd rcv cipher now mkey pData := by
  intro dbuf buf' h
  rw [encode] at h
  split at h
  · next hneg =>
      rw [(Prod.mk.inj h).1] at hneg
      exact absurd hneg (by omega)
  · next hneg =>
      have hsign := (sign_zero hneg).2
      obtain ⟨signed, hsigned, hverify⟩ := hf.1.roundTrips hm hs _ _ hsign
      rw [List.nil_append, List.nil_append] at hsigned
      have hlen : signed.length = (tagBytes (signPayload snd now pData)).length + 3 := by
        rw [← hsigned, objectBytes, List.length_append, length_header, Nat.add_comm]
      have hfits : EncryptFits snd rcv mkey signed.length := hlen ▸ hf.2
      rw [hsign, List.nil_append, hsigned] at h
      obtain ⟨message, hmessage, hdecrypt⟩ := hfits.roundTrips hm he _ _ h
      refine ⟨message, hmessage, fun behind out => ?_⟩
      obtain ⟨rcv', hrcv⟩ := hverify [] out
      refine ⟨rcv', ?_⟩
      rw [decode, hdecrypt, Option.map_some, List.nil_append, if_neg (lt_irrefl _), hrcv]

end Gwenhywfar.CryptMsg
