import Gwenhywfar.Cryptmsg.CryptMgr

/-! # Messages that are not read back

A length field has 16 bits, and the reader takes the parts of an object by their places.  A payload
that is too long is read up to the length modulo 65536; without data the tail is read in the place
of the data.

* `fits_of_verify`, `encryptFits_of_decrypt`: what is read back fits.
* `roundTrips_iff_fits`: an object is read back if its payloads fit, and only then if its heads and
  its tail are of a usual size. -/

namespace Gwenhywfar.CryptMsg

open Tag16 Padd

variable {snd rcv cm : CryptMgr} {cipher : MessageCipher} {now : Option BrokenDown}
  {mkey : Option (MessageKey cipher)} {pData behind out : List UInt8}
/-! ### Payloads that do not fit -/

theorem fromBuffer2_take {t : UInt8} {d : List UInt8} (hd : d.length ≤ 65535) (rest : List UInt8)
    (n : ℕ) : fromBuffer2 ((header t d.length ++ d ++ rest).take n) =
      if d.length + 3 ≤ n then some ⟨t.toNat, d⟩ else none := by
  have hlen : (header t d.length ++ d).length = d.length + 3 := by
    rw [List.length_append, length_header, Nat.add_comm]
  split
  · next hle =>
      rw [List.take_append, List.take_of_length_le (hlen.trans_le hle)]
      exact fromBuffer2_header hd _
  · next hlt =>
      match n with
      | 0 => rfl
      | 1 => rfl
      | 2 => rfl
      | n + 3 =>
          have hvalue : (UInt8.ofNat d.length).toNat + (UInt8.ofNat (d.length >>> 8)).toNat <<< 8 =
              d.length := by
            rw [UInt8.toNat_ofNat', UInt8.toNat_ofNat', Nat.shiftRight_eq_div_pow, Nat.shiftLeft_eq]
            omega
          rw [List.append_assoc, header]
          simp only [List.cons_append, List.nil_append, List.take_succ_cons, fromBuffer2, hvalue]
          rw [if_pos]
          rw [List.length_take]
          omega

theorem subTag_take {tags : TagList} (xs : TagList) (tag : UInt8 × List UInt8) (ys : TagList)
    (htags : tags = xs ++ tag :: ys) (hfits : tag.2.length ≤ 65535) {l : ℕ}
    (hl : l ≤ (tagBytes tags).length) :
    subTag (tagBytes tags ++ behind) l (tagBytes xs).length =
      if (tagBytes xs).length + (tag.2.length + 3) ≤ l then some ⟨tag.1.toNat, tag.2⟩
      else none := by
  rw [subTag]
  by_cases hoff : l ≤ (tagBytes xs).length
  · rw [if_pos hoff, if_neg (by omega)]
  · have hdrop : ((tagBytes tags ++ behind).take l).drop (tagBytes xs).length =
        (tagBytes (tag :: ys)).take (l - (tagBytes xs).length) := by
      rw [List.take_append_of_le_length hl, List.drop_take, htags, tagBytes_append, List.drop_left]
    rw [if_neg hoff, hdrop, tagBytes_cons, fromBuffer2_take hfits]
    congr 1
    exact propext (by omega)

theorem subTag_end {p : List UInt8} {l off : ℕ} (h : l ≤ off) : subTag p l off = none := if_pos h

theorem ofType_object_mod (tagType : UInt8) (tags : TagList) :
    ofType tagType.toNat (fromBuffer2 ((objectBytes tagType tags ++ behind).take
      (objectBytes tagType tags).length)) =
      some ⟨tagType.toNat, (tagBytes tags).take ((tagBytes tags).length % 65536)⟩ := by
  have hvalue : ∀ n, (UInt8.ofNat n).toNat + (UInt8.ofNat (n >>> 8)).toNat <<< 8 = n % 65536 := by
    intro n
    rw [UInt8.toNat_ofNat', UInt8.toNat_ofNat', Nat.shiftRight_eq_div_pow, Nat.shiftLeft_eq]
    omega
  have hle := Nat.mod_le (tagBytes tags).length 65536
  rw [List.take_left, objectBytes, header]
  simp only [List.cons_append, List.nil_append, fromBuffer2, hvalue]
  rw [if_neg (by omega), ofType, Option.filter_some, if_pos (by simp)]

theorem verifySigned_none (cm : CryptMgr) (sh : Option SigHead) (signedData dbuf : List UInt8) :
    verifySigned cm sh none signedData dbuf = (errorBadData, cm, dbuf) := by
  cases sh <;> rfl

theorem verify_of_no_tail {pData : List UInt8} {lData : ℕ} {tag : Tag16}
    (houter : ofType 0x21 (fromBuffer2 (pData.take lData)) = some tag)
    (htail : ∀ off, off = subTagSize (subTag (pData.drop 3) tag.tagData.length 0) →
      ofType 0x22 (subTag (pData.drop 3) tag.tagData.length
        (off + subTagSize (subTag (pData.drop 3) tag.tagData.length off))) = none) :
    (verify rcv pData lData out).1 = errorBadData := by
  rw [verify]
  split
  · rfl
  · rw [houter]
    dsimp only
    rw [htail _ rfl, Option.bind_none, verifySigned_none]
    split <;> split <;> rfl

variable {hd tl : List UInt8}

/-- A signed object without data is refused: its tail is taken for the data. -/
theorem verify_no_data (hhd : hd.length ≤ 65535) (htl : tl.length ≤ 65535) :
    (verify rcv (objectBytes 0x21 [(0x21, hd), (0x22, tl)] ++ behind)
      (objectBytes 0x21 [(0x21, hd), (0x22, tl)]).length out).1 = errorBadData := by
  have hle := Nat.mod_le (tagBytes [(0x21, hd), (0x22, tl)]).length 65536
  have hlen := length_tagBytes_two 0x21 0x22 hd tl
  refine verify_of_no_tail (ofType_object_mod 0x21 [(0x21, hd), (0x22, tl)]) ?_
  dsimp only
  rw [drop_object, List.length_take, min_eq_left hle]
  generalize (tagBytes [(0x21, hd), (0x22, tl)]).length % 65536 = l at *
  have h1 : subTag (tagBytes [(0x21, hd), (0x22, tl)] ++ behind) l 0 =
      if 0 + (hd.length + 3) ≤ l then some ⟨0x21, hd⟩ else none :=
    subTag_take [] (0x21, hd) _ rfl hhd hle
  have h2 : subTag (tagBytes [(0x21, hd), (0x22, tl)] ++ behind) l (hd.length + 3) =
      if hd.length + 3 + (tl.length + 3) ≤ l then some ⟨0x22, tl⟩ else none := by
    have h := @subTag_take behind _ [(0x21, hd)] (0x22, tl) [] rfl htl l hle
    rwa [length_tagBytes_one] at h
  rintro off rfl
  by_cases hc1 : 0 + (hd.length + 3) ≤ l
  · rw [h1, if_pos hc1]
    change ofType 0x22 (subTag _ l (hd.length + 3 + subTagSize (subTag _ l (hd.length + 3)))) = none
    by_cases hc2 : hd.length + 3 + (tl.length + 3) ≤ l
    · rw [h2, if_pos hc2]
      exact congrArg (ofType 0x22) (subTag_end (hle.trans hlen.le))
    · rw [h2, if_neg hc2]
      exact congrArg (ofType 0x22) (h2.trans (if_neg hc2))
  · rw [h1, if_neg hc1]
    change ofType 0x22 (subTag _ l (0 + subTagSize (subTag _ l 0))) = none
    rw [h1, if_neg hc1]
    exact congrArg (ofType 0x22) (h1.trans (if_neg hc1))

theorem verify_large (hhd : hd.length ≤ 65535) (hdata : pData.length ≤ 65535)
    (htl : tl.length ≤ 65535)
    (hlarge : 65535 < (tagBytes [(0x21, hd), (0x23, pData), (0x22, tl)]).length) :
    (verify rcv (objectBytes 0x21 [(0x21, hd), (0x23, pData), (0x22, tl)] ++ behind)
      (objectBytes 0x21 [(0x21, hd), (0x23, pData), (0x22, tl)]).length out).1 = errorBadData := by
  have hlen : (tagBytes [(0x21, hd), (0x23, pData), (0x22, tl)]).length =
      hd.length + 3 + (pData.length + 3 + (tl.length + 3)) := by
    rw [length_tagBytes_cons, length_tagBytes_two]
  have hlt : (tagBytes [(0x21, hd), (0x23, pData), (0x22, tl)]).length % 65536 <
      (tagBytes [(0x21, hd), (0x23, pData), (0x22, tl)]).length := by
    omega
  refine verify_of_no_tail (ofType_object_mod 0x21 [(0x21, hd), (0x23, pData), (0x22, tl)]) ?_
  dsimp only
  rw [drop_object, List.length_take, min_eq_left hlt.le]
  generalize (tagBytes [(0x21, hd), (0x23, pData), (0x22, tl)]).length % 65536 = l at *
  have h1 : subTag (tagBytes [(0x21, hd), (0x23, pData), (0x22, tl)] ++ behind) l 0 =
      if 0 + (hd.length + 3) ≤ l then some ⟨0x21, hd⟩ else none :=
    subTag_take [] (0x21, hd) _ rfl hhd hlt.le
  have h2 : subTag (tagBytes [(0x21, hd), (0x23, pData), (0x22, tl)] ++ behind) l (hd.length + 3) =
      if hd.length + 3 + (pData.length + 3) ≤ l then some ⟨0x23, pData⟩ else none := by
    have h := @subTag_take behind _ [(0x21, hd)] (0x23, pData) [(0x22, tl)] rfl hdata l hlt.le
    rwa [length_tagBytes_one] at h
  have h3 : subTag (tagBytes [(0x21, hd), (0x23, pData), (0x22, tl)] ++ behind) l
      (hd.length + 3 + (pData.length + 3)) = none := by
    have h := @subTag_take behind _ [(0x21, hd), (0x23, pData)] (0x22, tl) [] rfl htl l hlt.le
    rw [length_tagBytes_two] at h
    exact h.trans (if_neg (by dsimp only; omega))
  rintro off rfl
  by_cases hc1 : 0 + (hd.length + 3) ≤ l
  · rw [h1, if_pos hc1]
    change ofType 0x22 (subTag _ l (hd.length + 3 + subTagSize (subTag _ l (hd.length + 3)))) = none
    by_cases hc2 : hd.length + 3 + (pData.length + 3) ≤ l
    · rw [h2, if_pos hc2]
      exact congrArg (ofType 0x22) h3
    · rw [h2, if_neg hc2]
      exact congrArg (ofType 0x22) (h2.trans (if_neg hc2))
  · rw [h1, if_neg hc1]
    change ofType 0x22 (subTag _ l (0 + subTagSize (subTag _ l 0))) = none
    rw [h1, if_neg hc1]
    exact congrArg (ofType 0x22) (h1.trans (if_neg hc1))

theorem fromBuffer2_length : ∀ {p : List UInt8} {tag : Tag16}, fromBuffer2 p = some tag →
    tag.tagData.length + 3 ≤ p.length
  | t :: l0 :: l1 :: data, tag, h => by
      rw [fromBuffer2] at h
      split at h
      · cases h
      · obtain rfl := Option.some.inj h
        rw [List.length_take, List.length_cons, List.length_cons, List.length_cons]
        omega
  | [], _, h => by cases h
  | [_], _, h => by cases h
  | [_, _], _, h => by cases h

theorem subTag_length {p : List UInt8} {l off : ℕ} {tag : Tag16} (h : subTag p l off = some tag) :
    off + (tag.tagData.length + 3) ≤ l := by
  rw [subTag] at h
  split at h
  · cases h
  · have hlen := fromBuffer2_length h
    rw [List.length_drop, List.length_take] at hlen
    omega

theorem ofType_some {t : ℕ} {subtag : Option Tag16} {tag : Tag16} (h : ofType t subtag = some tag) :
    subtag = some tag := by
  rw [ofType, Option.filter_eq_some_iff] at h
  exact h.1

/-- What is appended was the data of a tag inside of the object. -/
theorem verify_appends (cm : CryptMgr) (p : List UInt8) (lData : ℕ) (out : List UInt8) :
    ∃ d, (verify cm p lData out).2.2 = out ++ d ∧ d.length ≤ 65535 ∧ d.length ≤ lData := by
  have hsigned : ∀ sh st signedData dbuf, (verifySigned cm sh st signedData dbuf).2.2 = dbuf := by
    intro sh st signedData dbuf
    cases sh with
    | none => rfl
    | some sh =>
        cases st with
        | none => rfl
        | some st =>
            rw [verifySigned]
            split
            · rfl
            · split
              · rfl
              · dsimp only
                split <;> rfl
  have hdata : ∀ l off, (((ofType 0x23 (subTag (p.drop 3) l off)).map Tag16.tagData).getD
      []).length ≤ l := by
    intro l off
    cases hs : ofType 0x23 (subTag (p.drop 3) l off) with
    | none => exact Nat.zero_le _
    | some tag =>
        have hlen := subTag_length (ofType_some hs)
        rw [Option.map_some, Option.getD_some]
        omega
  rw [verify]
  split
  · exact ⟨[], (List.append_nil _).symm, Nat.zero_le _, Nat.zero_le _⟩
  · split
    · exact ⟨[], (List.append_nil _).symm, Nat.zero_le _, Nat.zero_le _⟩
    · next tag htag =>
        have htag := ofType_some htag
        have hlen := fromBuffer2_length htag
        rw [List.length_take] at hlen
        have hle := hdata tag.tagData.length (subTagSize (subTag (p.drop 3) tag.tagData.length 0))
        refine ⟨_, ?_, hle.trans (fromBuffer2_fits htag), hle.trans (by omega)⟩
        simp only [apply_ite Prod.snd, hsigned, ite_self]
theorem fits_of_verify (he : ExpectsSigner snd rcv)
    (hhd : (tagBytes (signHead snd now).tags).length ≤ 65535)
    (htl : (tagBytes (signTail snd now pData).tags).length ≤ 65535) {rcv' : CryptMgr}
    (hrcv : verify rcv (objectBytes 0x21 (signPayload snd now pData) ++ [0])
      (objectBytes 0x21 (signPayload snd now pData)).length [] = (0, rcv', [] ++ pData)) :
    SignFits snd rcv now pData := by
  have hzero : (verify rcv (objectBytes 0x21 (signPayload snd now pData) ++ [0])
      (objectBytes 0x21 (signPayload snd now pData)).length []).1 = 0 := congrArg Prod.fst hrcv
  have hnotBad : ∀ rv : ℤ, rv = errorBadData → rv ≠ 0 := by
    rintro _ rfl
    decide
  have hne : pData ≠ [] := by
    rintro rfl
    exact hnotBad _ (verify_no_data hhd htl) hzero
  have hdata : pData.length ≤ 65535 := by
    obtain ⟨d, hd, hfit, -⟩ := verify_appends rcv
      (objectBytes 0x21 (signPayload snd now pData) ++ [0])
      (objectBytes 0x21 (signPayload snd now pData)).length []
    rw [hrcv] at hd
    rw [List.append_cancel_left hd]
    exact hfit
  have hsize : (tagBytes (signPayload snd now pData)).length ≤ 65535 := by
    rw [signPayload_eq hne] at hzero ⊢
    by_contra hlarge
    exact hnotBad _ (verify_large hhd hdata htl (not_le.mp hlarge)) hzero
  refine ⟨hne, ?_, hsize⟩
  rintro name hname hempty
  obtain ⟨dt, hobject⟩ := @verify_object snd rcv now pData hne hsize [] []
  have hsome : rcv.peerKeyName ≠ none := by
    rw [hname]
    exact Option.some_ne_none name
  have hkey := (he.resolve_left hsome).1
  have hstored : storedName snd.localKeyName = none := by
    rw [← hkey, hname]
    simp [storedName, hempty]
  have hpeer : storeOrCheckPeer rcv
      { signHead snd now with keyName := storedName snd.localKeyName, dateTime := dt } = none := by
    rw [storeOrCheckPeer, if_neg hsome, hstored, hname]
    rfl
  have hbad : (verifySigned rcv
      (some { signHead snd now with keyName := storedName snd.localKeyName, dateTime := dt })
      (some (signTail snd now pData)) (tagBytes (signedTags snd now pData)) ([] ++ pData)).1 =
      errorBadData := by
    rw [verifySigned, hpeer]
    split <;> rfl
  exact hnotBad _ ((congrArg Prod.fst hobject).trans hbad) hzero

/-! ### Encrypted payloads that do not fit -/

variable {rv : ℤ}

theorem length_unpadd {padded buf : List UInt8}
    (h : unpaddWithAnsiX9_23FromMultipleOf padded 8 = some (rv, buf)) :
    buf.length ≤ padded.length := by
  rw [unpaddWithAnsiX9_23FromMultipleOf] at h
  split at h
  · rw [← (Prod.mk.inj (Option.some.inj h)).2]
  · rw [Option.bind_eq_some_iff] at h
    obtain ⟨paddLength, -, h⟩ := h
    split at h
    · rw [← (Prod.mk.inj (Option.some.inj h)).2]
    · rw [Option.map_eq_some_iff] at h
      obtain ⟨cropped, hcrop, h⟩ := h
      rw [crop, if_pos (Nat.zero_le _), Nat.sub_zero, if_neg (by omega), if_neg (by omega),
        List.drop_zero] at hcrop
      rw [← (Prod.mk.inj h).2, ← Option.some.inj hcrop, List.length_take]
      exact min_le_right _ _

theorem decryptData_length {ch : CryptHead} {enc d : List UInt8}
    (h : decryptData rcv cipher ch enc [] = some (rv, d)) : d.length ≤ enc.length := by
  have hnil : ∀ {code : ℤ}, some (code, []) = some (rv, d) → d.length ≤ enc.length := by
    intro code heq
    rw [← (Prod.mk.inj (Option.some.inj heq)).2]
    exact Nat.zero_le _
  rw [decryptData] at h
  split at h
  · exact hnil h
  · dsimp only at h
    split at h
    · exact hnil h
    · split at h
      · exact hnil h
      · split at h
        · exact hnil h
        · next padded hpadded =>
            rw [Option.map_eq_some_iff] at h
            obtain ⟨⟨code, buf⟩, hbuf, h⟩ := h
            rw [← cipher.length_decipher hpadded]
            refine le_trans ?_ (length_unpadd hbuf)
            split at h
            · rw [← (Prod.mk.inj h).2]
              exact Nat.zero_le _
            · rw [← (Prod.mk.inj h).2, List.nil_append]

/-- What is decrypted without an error lies behind the head, inside of the object. -/
theorem decrypt_length {p d : List UInt8} {n : ℕ} {tag : Tag16}
    (houter : ofType 0x22 (fromBuffer2 (p.take n)) = some tag)
    (h : decrypt rcv cipher p n [] = some (rv, d)) (hrv : ¬ rv < 0) :
    ∃ head, subTag (p.drop 3) tag.tagData.length 0 = some head ∧
      head.tagSize + (d.length + 3) ≤ tag.tagData.length := by
  have hbad : some (errorBadData, []) ≠ some (rv, d) := by
    intro heq
    rw [← (Prod.mk.inj (Option.some.inj heq)).1] at hrv
    exact hrv (by decide)
  rw [decrypt] at h
  split at h
  · exact absurd h hbad
  · rw [houter] at h
    dsimp only at h
    split at h
    · next ch subtag hch hsub =>
        split at h
        · exact absurd h hbad
        · rw [Option.bind_eq_some_iff] at hch
          obtain ⟨head, hhead, -⟩ := hch
          have hhead := ofType_some hhead
          refine ⟨head, hhead, ?_⟩
          have hsize : subTagSize (subTag (p.drop 3) tag.tagData.length 0) = head.tagSize := by
            rw [hhead]
            rfl
          have hlen := subTag_length (ofType_some hsub)
          have hd := decryptData_length h
          rw [hsize] at hlen
          omega
    · exact absurd h hbad

/-- An encrypted object that is decrypted to so much data fits, if the head does. -/
theorem size_of_decrypt {key cryptbuf d : List UInt8} {n : ℕ}
    (hhd : (tagBytes (encryptHead snd (snd.encryptKey key).2).tags).length ≤ 65535)
    (hn : cryptbuf.length < n + 65536)
    (h : decrypt rcv cipher (objectBytes 0x22 (encryptPayload snd key cryptbuf) ++ 0 :: behind)
      (objectBytes 0x22 (encryptPayload snd key cryptbuf)).length [] = some (rv, d))
    (hrv : ¬ rv < 0) (hd : n ≤ d.length) :
    (tagBytes (encryptPayload snd key cryptbuf)).length ≤ 65535 := by
  by_contra hlarge
  obtain ⟨head, hhead, hlen⟩ := decrypt_length (ofType_object_mod 0x22 _) h hrv
  have hle := Nat.mod_le (tagBytes (encryptPayload snd key cryptbuf)).length 65536
  dsimp only at hhead hlen
  rw [drop_object, List.length_take, min_eq_left hle] at hhead
  rw [List.length_take, min_eq_left hle] at hlen
  have hsub : subTag (tagBytes (encryptPayload snd key cryptbuf) ++ 0 :: behind)
      ((tagBytes (encryptPayload snd key cryptbuf)).length % 65536) 0 = if 0 +
        ((tagBytes (encryptHead snd (snd.encryptKey key).2).tags).length + 3) ≤
          (tagBytes (encryptPayload snd key cryptbuf)).length % 65536 then
        some ⟨0x21, tagBytes (encryptHead snd (snd.encryptKey key).2).tags⟩ else none :=
    subTag_take [] (0x21, _) _ rfl hhd hle
  rw [hsub] at hhead
  split at hhead
  · have hsize : head.tagSize =
        (tagBytes (encryptHead snd (snd.encryptKey key).2).tags).length + 3 := by
      rw [← Option.some.inj hhead]
      rfl
    have htotal : (tagBytes (encryptPayload snd key cryptbuf)).length =
        (tagBytes (encryptHead snd (snd.encryptKey key).2).tags).length + 3 +
          (cryptbuf.length + 3) := length_tagBytes_two _ _ _ _
    omega
  · cases hhead

theorem notEmpty_of_decrypt {key cryptbuf d : List UInt8} (he : ExpectsReceiver snd rcv)
    (hne : cryptbuf ≠ []) (hsize : (tagBytes (encryptPayload snd key cryptbuf)).length ≤ 65535)
    (h : decrypt rcv cipher (objectBytes 0x22 (encryptPayload snd key cryptbuf) ++ 0 :: behind)
      (objectBytes 0x22 (encryptPayload snd key cryptbuf)).length [] = some (rv, d))
    (hrv : ¬ rv < 0) : NotEmpty rcv.localKeyName := by
  intro name hname hempty
  have hstored : storedName snd.peerKeyName = none := by
    rw [← he.1, hname]
    simp [storedName, hempty]
  have hrefused : rcv.localKeyName ≠ none ∧ sameKey rcv.localKeyName rcv.localKeyNumber
      rcv.localKeyVersion (storedName snd.peerKeyName) snd.peerKeyNumber snd.peerKeyVersion =
        false := by
    rw [hstored, hname]
    exact ⟨Option.some_ne_none name, rfl⟩
  have hbad : decryptData rcv cipher { encryptHead snd (snd.encryptKey key).2 with
      keyName := storedName snd.peerKeyName } cryptbuf [] = some (errorBadData, []) :=
    if_pos hrefused
  have hcode := h.symm.trans ((decrypt_object hne hsize behind []).trans hbad)
  rw [(Prod.mk.inj (Option.some.inj hcode)).1] at hrv
  exact hrv (by decide)

theorem encryptFits_of_decrypt {key : MessageKey cipher} {cryptbuf d : List UInt8} {n : ℕ} (he : ExpectsReceiver snd rcv)
    (hc : cipher.encipher key.bytes (paddWithAnsiX9_23ToMultipleOf pData 8).2 = .ok cryptbuf)
    (hhd : (tagBytes (encryptHead snd (snd.encryptKey key.bytes).2).tags).length ≤ 65535)
    (hn : pData.length + 8 < n + 65536) (h : decrypt rcv cipher
      (objectBytes 0x22 (encryptPayload snd key.bytes cryptbuf) ++ 0 :: behind)
      (objectBytes 0x22 (encryptPayload snd key.bytes cryptbuf)).length [] = some (rv, d))
    (hrv : ¬ rv < 0) (hd : n ≤ d.length) : EncryptFits snd rcv (some key) pData.length := by
  have hpadd : paddWithAnsiX9_23ToMultipleOf pData 8 =
      (0, (paddWithAnsiX9_23ToMultipleOf pData 8).2) := rfl
  have hcrypt : cryptbuf.length = (pData.length / 8 + 1) * 8 :=
    (cipher.length_encipher hc).trans (ansiX9_23_restores (by decide) (by decide) hpadd).1
  have hne : cryptbuf ≠ [] := List.ne_nil_of_length_pos (by omega)
  have hsize := size_of_decrypt hhd (by omega) h hrv hd
  refine ⟨notEmpty_of_decrypt he hne hsize h hrv, fun other hother => ?_⟩
  obtain rfl := Option.some.inj hother
  rw [encryptPayload, length_tagBytes_two, hcrypt] at hsize
  exact hsize

/-- The heads and the tail take less than a quarter of what a length field can count. -/
structure HeadsFit (snd : CryptMgr) {cipher : MessageCipher} (now : Option BrokenDown)
    (mkey : Option (MessageKey cipher)) (pData : List UInt8) : Prop where
  signHead : (tagBytes (signHead snd now).tags).length < 16384
  signTail : (tagBytes (signTail snd now pData).tags).length < 16384
  encryptHead : ∀ key ∈ mkey,
    (tagBytes (encryptHead snd (snd.encryptKey key.bytes).2).tags).length < 16384

theorem SignRoundTrips.fits (h : SignRoundTrips snd rcv now pData) (he : ExpectsSigner snd rcv)
    (hheads : HeadsFit snd now mkey pData) (hzero : (sign snd now pData []).1 = 0) :
    SignFits snd rcv now pData := by
  have hsign := (sign_zero (by rw [hzero]; exact lt_irrefl _)).2
  obtain ⟨message, hmessage, hverify⟩ := h _ _ hsign
  rw [List.nil_append, List.nil_append] at hmessage
  subst hmessage
  obtain ⟨rcv', hrcv⟩ := hverify [] []
  have h1 := hheads.signHead
  have h2 := hheads.signTail
  exact fits_of_verify he (by omega) (by omega) hrcv

theorem EncryptRoundTrips.fits (h : EncryptRoundTrips snd rcv cipher mkey pData)
    (he : ExpectsReceiver snd rcv) (hheads : HeadsFit snd now mkey pData)
    (hzero : (encrypt snd cipher mkey pData []).1 = 0) : EncryptFits snd rcv mkey pData.length := by
  have hencrypt : encrypt snd cipher mkey pData [] =
      (0, (encrypt snd cipher mkey pData []).2) := Prod.ext hzero rfl
  obtain ⟨message, hmessage, hdecrypt⟩ := h _ _ hencrypt
  obtain ⟨key, cryptbuf, rfl, -, hc, hbuf⟩ := encrypt_zero hencrypt
  rw [hmessage, List.nil_append, List.nil_append] at hbuf
  subst hbuf
  have h1 := hheads.encryptHead key rfl
  exact encryptFits_of_decrypt he hc (by omega) (by omega) (hdecrypt [] []) (lt_irrefl _)
    (show pData.length ≤ ([] ++ pData).length from le_rfl)

theorem length_object (tagType : UInt8) (tags : TagList) :
    (objectBytes tagType tags).length = (tagBytes tags).length + 3 := by
  rw [objectBytes, List.length_append, length_header, Nat.add_comm]

theorem length_signPayload (snd : CryptMgr) (now : Option BrokenDown) (pData : List UInt8) :
    (tagBytes (signPayload snd now pData)).length ≤ (tagBytes (signHead snd now).tags).length +
      pData.length + (tagBytes (signTail snd now pData).tags).length + 9 := by
  rw [signPayload, signedTags, tagBytes_append, List.length_append, length_tagBytes_one]
  split
  · rw [length_tagBytes_two]
    omega
  · rw [length_tagBytes_one]
    omega

/-- A message that is decoded fits, if the heads and the tail do. -/
theorem EncodeRoundTrips.fits (h : EncodeRoundTrips snd rcv cipher now mkey pData)
    (hm : Matches snd rcv) (hs : ExpectsSigner snd rcv) (he : ExpectsReceiver snd rcv)
    (hheads : HeadsFit snd now mkey pData) (hzero : (encode snd cipher now mkey pData []).1 = 0) :
    EncodeFits snd rcv now mkey pData := by
  have hencode : encode snd cipher now mkey pData [] =
      (0, (encode snd cipher now mkey pData []).2) := Prod.ext hzero rfl
  obtain ⟨message, hmessage, hdecode⟩ := h _ _ hencode
  obtain ⟨rcv', hrcv⟩ := hdecode [] []
  have hneg : ¬ (sign snd now pData []).1 < 0 := by
    intro hneg
    rw [encode, if_pos hneg] at hzero
    exact absurd hneg (by rw [hzero]; exact lt_irrefl _)
  have hsign := (sign_zero hneg).2
  rw [List.nil_append] at hsign
  rw [hmessage, encode, if_neg hneg, hsign] at hencode
  obtain ⟨key, cryptbuf, rfl, hkey, hc, hbuf⟩ := encrypt_zero hencode
  rw [List.nil_append, List.nil_append] at hbuf
  subst hbuf
  -- what was decrypted is at least as long as the data that was verified
  rw [decode, Option.map_eq_some_iff] at hrcv
  obtain ⟨⟨rv, d⟩, hdecrypt, hverify⟩ := hrcv
  dsimp only at hverify
  split at hverify
  · next hneg =>
      rw [(Prod.mk.inj hverify).1] at hneg
      exact absurd hneg (lt_irrefl _)
  · next hrv =>
      have hlen : pData.length ≤ d.length := by
        obtain ⟨v, hv, -, hle⟩ := verify_appends rcv (d ++ [0]) d.length []
        rw [hverify] at hv
        rw [List.append_cancel_left hv]
        exact hle
      have h1 := hheads.signHead
      have h2 := hheads.signTail
      have h3 := hheads.encryptHead key rfl
      have hsigned : (objectBytes 0x21 (signPayload snd now pData)).length + 8 <
          pData.length + 65536 := by
        have hle := length_signPayload snd now pData
        rw [length_object]
        omega
      have hfits := encryptFits_of_decrypt he hc (by omega) hsigned hdecrypt hrv hlen
      obtain ⟨message, hmessage, hplain⟩ := hfits.roundTrips hm he _ _ hencode
      rw [List.nil_append, List.nil_append] at hmessage
      subst hmessage
      have hsame := hdecrypt.symm.trans (hplain [] [])
      rw [(Prod.mk.inj (Option.some.inj hsame)).2, List.nil_append] at hverify
      rw [length_object] at hfits
      exact ⟨fits_of_verify hs (by omega) (by omega) hverify, hfits⟩

/-- The condition is exact when an object is made without an error and its heads and tail fit. -/
theorem roundTrips_iff_fits (hm : Matches snd rcv) (hs : ExpectsSigner snd rcv)
    (he : ExpectsReceiver snd rcv) :
    (SignFits snd rcv now pData → SignRoundTrips snd rcv now pData) ∧
      (EncryptFits snd rcv mkey pData.length → EncryptRoundTrips snd rcv cipher mkey pData) ∧
      (EncodeFits snd rcv now mkey pData → EncodeRoundTrips snd rcv cipher now mkey pData) ∧
      (HeadsFit snd now mkey pData → ((sign snd now pData []).1 = 0 →
          (SignRoundTrips snd rcv now pData ↔ SignFits snd rcv now pData)) ∧
        ((encrypt snd cipher mkey pData []).1 = 0 → (EncryptRoundTrips snd rcv cipher mkey pData ↔
            EncryptFits snd rcv mkey pData.length)) ∧ ((encode snd cipher now mkey pData []).1 = 0 →
          (EncodeRoundTrips snd rcv cipher now mkey pData ↔
            EncodeFits snd rcv now mkey pData))) := by
  refine ⟨fun hf => hf.roundTrips hm hs, fun hf => hf.roundTrips hm he,
    fun hf => hf.roundTrips hm hs he, fun hheads => ⟨fun hzero => ?_, fun hzero => ?_,
      fun hzero => ?_⟩⟩
  · exact ⟨fun h => h.fits hs hheads hzero, fun hf => hf.roundTrips hm hs⟩
  · exact ⟨fun h => h.fits he hheads hzero, fun hf => hf.roundTrips hm he⟩
  · exact ⟨fun h => h.fits hm hs he hheads hzero, fun hf => hf.roundTrips hm hs he⟩

/-! ### Two managers -/

/-- A cipher that adds a byte of the key to every byte. -/
def xorCipher : MessageCipher where
  setkey _ := true
  encipher key src := .ok (src.map fun c => c ^^^ key.headD 0)
  decipher key src := .ok (src.map fun c => c ^^^ key.headD 0)
  length_encipher h := by
    rw [← Except.ok.inj h, List.length_map]
  length_decipher h := by
    rw [← Except.ok.inj h, List.length_map]
  decipher_encipher h := by
    rw [← Except.ok.inj h, List.map_map]
    simp [Function.comp_def, UInt8.xor_assoc]
  error_neg h := by cases h

def sender : CryptMgr where
  localKeyName := some ⟨[code 'A'], by decide⟩
  localKeyNumber := 1
  localKeyVersion := 2
  peerKeyName := some ⟨[code 'B'], by decide⟩
  peerKeyNumber := 3
  peerKeyVersion := 4
  signatureProfile := 1
  signDataFn := some fun data => (0, [UInt8.ofNat data.length])
  verifyDataFn := none
  encryptKeyFn := some fun key => (0, key)
  decryptKeyFn := none

/-- The manager that receives its messages and knows no key of a peer yet. -/
def receiver : CryptMgr where
  localKeyName := some ⟨[code 'B'], by decide⟩
  localKeyNumber := 3
  localKeyVersion := 4
  peerKeyName := none
  peerKeyNumber := 0
  peerKeyVersion := 0
  signatureProfile := 0
  signDataFn := none
  verifyDataFn := some fun data sig => if sig = [UInt8.ofNat data.length] then 0 else errorBadData
  encryptKeyFn := none
  decryptKeyFn := some fun key => (0, key)

theorem matches_sender : Matches sender receiver where
  verifies data _ := by
    change 0 ≤ if [UInt8.ofNat data.length] = [UInt8.ofNat data.length] then 0 else errorBadData
    rw [if_pos rfl]
  decrypts _ _ := ⟨le_rfl, rfl⟩

def xorKey : MessageKey xorCipher := ⟨List.replicate 32 5, rfl, rfl⟩

/-- Three bytes are signed, encrypted and encoded. -/
theorem roundTrips_three : SignRoundTrips sender receiver none [1, 2, 3] ∧
      EncryptRoundTrips sender receiver xorCipher (some xorKey) [1, 2, 3] ∧
      EncodeRoundTrips sender receiver xorCipher none (some xorKey) [1, 2, 3] := by
  have h := @roundTrips_iff_fits sender receiver xorCipher none (some xorKey) [1, 2, 3]
    matches_sender (Or.inl rfl) ⟨rfl, rfl, rfl⟩
  have hsign : SignFits sender receiver none [1, 2, 3] :=
    ⟨by decide, nofun, by decide⟩
  have hname : NotEmpty receiver.localKeyName := by
    intro name hname
    obtain rfl := Option.some.inj hname
    decide
  have hencrypt : EncryptFits sender receiver (some xorKey) 3 := by
    refine ⟨hname, ?_⟩
    intro key hkey
    obtain rfl := Option.some.inj hkey
    decide
  have hencode : EncodeFits sender receiver none (some xorKey) [1, 2, 3] := by
    refine ⟨hsign, hname, ?_⟩
    intro key hkey
    obtain rfl := Option.some.inj hkey
    decide
  exact ⟨h.1 hsign, h.2.1 hencrypt, h.2.2.1 hencode⟩

/-- Without data the tail is taken for the data, and the object is refused. -/
theorem not_roundTrips_empty : ¬ ∀ (snd rcv : CryptMgr) (cipher : MessageCipher)
    (now : Option BrokenDown) (mkey : Option (MessageKey cipher)) (pData : List UInt8),
    Matches snd rcv → ExpectsSigner snd rcv → ExpectsReceiver snd rcv →
    SignRoundTrips snd rcv now pData ∧ EncryptRoundTrips snd rcv cipher mkey pData ∧
      EncodeRoundTrips snd rcv cipher now mkey pData := by
  intro h
  have hsign := (h sender receiver xorCipher none (some xorKey) [] matches_sender (Or.inl rfl)
    ⟨rfl, rfl, rfl⟩).1
  have hheads : HeadsFit sender none (some xorKey) [] := by
    refine ⟨by decide, by decide, ?_⟩
    intro key hkey
    obtain rfl := Option.some.inj hkey
    decide
  have hzero : (sign sender none [] []).1 = 0 := by
    rw [sign_eq]
    rfl
  exact (hsign.fits (Or.inl rfl) hheads hzero).1 rfl
end Gwenhywfar.CryptMsg
