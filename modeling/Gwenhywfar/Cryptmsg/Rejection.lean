import Gwenhywfar.Cryptmsg.CryptMgr
import Gwenhywfar.Parser.Tag16Buffer

/-! # Signed objects that are rejected

* `readParts`: what `GWEN_CryptMgr_Verify` finds in an object before it looks at the signature; the
  data is appended to the output and the key of the peer is stored on the way.
* `VerifyRejects`, `DecodeRejects`: an error leaves the output and the key of the peer as they were,
  and without an error the callback has accepted the head and the data that was output.
* `rejects_iff`: that holds if the callback accepts the signature, or there is no data to output and
  no key to store. -/

namespace Gwenhywfar.CryptMsg

open Tag16

/-- What is found in a signed object: the data tag and the bytes that are signed, too. -/
structure SignedParts where
  head : Option SigHead
  data : Option Tag16
  tail : Option SigTail
  signed : List UInt8

/-- The parts that `GWEN_CryptMgr_Verify` reads of the next `lData` bytes in memory. -/
def readParts (pData : List UInt8) (lData : ℕ) : Option SignedParts :=
  if lData < 3 then none
  else
    (ofType 0x21 (fromBuffer2 (pData.take lData))).map fun tag =>
      let p := pData.drop 3
      let l := tag.tagData.length
      let first := subTag p l 0
      let sh := (ofType 0x21 first).bind fun subtag =>
        SigHead.fromBuffer (p.drop 3) subtag.tagData.length
      let off := subTagSize first
      let second := subTag p l off
      let sigData := ofType 0x23 second
      let off' := off + subTagSize second
      let st := (ofType 0x22 (subTag p l off')).bind fun subtag =>
        SigTail.fromBuffer (p.drop (off' + 3)) subtag.tagData.length
      ⟨sh, sigData, st, p.take ((if sh.isSome then off else 0) + subTagSize sigData)⟩

namespace SignedParts

def output (s : SignedParts) : List UInt8 := (s.data.map tagData).getD []

/-- The head and the tail belong together, and the key is the one that is expected, if any. -/
def Complete (cm : CryptMgr) (s : SignedParts) (sh : SigHead) (st : SigTail) : Prop :=
  s.head = some sh ∧ s.tail = some st ∧ sh.signatureNumber = st.signatureNumber ∧
    (cm.peerKeyName = none ∨ sameKey cm.peerKeyName cm.peerKeyNumber cm.peerKeyVersion sh.keyName
      sh.keyNumber sh.keyVersion = true)

def Accepted (cm : CryptMgr) (s : SignedParts) : Prop :=
  ∃ sh st, s.Complete cm sh st ∧ 0 ≤ cm.verifyData s.signed st.signature

/-- There is no other key to store than the one that is there. -/
def Keeps (cm : CryptMgr) (s : SignedParts) : Prop :=
  cm.peerKeyName = none → ∀ sh st, s.Complete cm sh st →
    sh.keyName = none ∧ sh.keyNumber = cm.peerKeyNumber ∧ sh.keyVersion = cm.peerKeyVersion

/-- There is nothing to output, and no other key to store. -/
def Quiet (cm : CryptMgr) (s : SignedParts) : Prop := s.output = [] ∧ s.Keeps cm

/-- The end of `GWEN_CryptMgr_Verify`, when the parts have been read. -/
def finish (cm : CryptMgr) (s : SignedParts) (dbuf : List UInt8) : ℤ × CryptMgr × List UInt8 :=
  if s.data.isSome ∧ ¬ s.head.isSome then (errorBadData, cm, dbuf ++ s.output)
  else verifySigned cm s.head s.tail s.signed (dbuf ++ s.output)

end SignedParts

/-! ### What is claimed -/

def SamePeer (cm cm' : CryptMgr) : Prop :=
  cm'.peerKeyName = cm.peerKeyName ∧ cm'.peerKeyNumber = cm.peerKeyNumber ∧
    cm'.peerKeyVersion = cm.peerKeyVersion

/-- An error has no effect. -/
def Untouched (cm : CryptMgr) (dbuf : List UInt8) (r : ℤ × CryptMgr × List UInt8) : Prop :=
  r.1 < 0 → r.2.2 = dbuf ∧ SamePeer cm r.2.1

/-- Without an error the callback has accepted a head with the data behind it that was output. -/
def SoundlyAccepted (cm : CryptMgr) (pData : List UInt8) (lData : ℕ) (dbuf : List UInt8)
    (r : ℤ × CryptMgr × List UInt8) : Prop :=
  r.1 = 0 → ∃ (hd : List UInt8) (data : Option (List UInt8)) (signature : List UInt8),
    let signed := tagBytes ((0x21, hd) :: (data.map fun d => (0x23, d)).toList)
    signed <+: (pData.take lData).drop 3 ∧ r.2.2 = dbuf ++ data.getD [] ∧
      0 ≤ cm.verifyData signed signature

/-- `GWEN_CryptMgr_Verify` rejects without effect, and accepts what is signed. -/
def VerifyRejects (cm : CryptMgr) (pData : List UInt8) (lData : ℕ) (dbuf : List UInt8) : Prop :=
  Untouched cm dbuf (verify cm pData lData dbuf) ∧
    SoundlyAccepted cm pData lData dbuf (verify cm pData lData dbuf)

/-- `GWEN_CryptMgr_Decode` rejects without effect. -/
def DecodeRejects (cm : CryptMgr) (cipher : MessageCipher) (pData : List UInt8) (lData : ℕ)
    (dbuf : List UInt8) : Prop :=
  ∃ r, decode cm cipher pData lData dbuf = some r ∧ Untouched cm dbuf r

/-- The callback accepts the signature, or nothing would be output or stored. -/
def Harmless (cm : CryptMgr) (pData : List UInt8) (lData : ℕ) : Prop :=
  ∀ s ∈ readParts pData lData, s.Accepted cm ∨ s.Quiet cm

/-! ### The parts -/

variable {cm : CryptMgr} {pData dbuf : List UInt8} {lData : ℕ} {s : SignedParts}

theorem verify_eq (cm : CryptMgr) (pData : List UInt8) (lData : ℕ) (dbuf : List UInt8) :
    verify cm pData lData dbuf =
      match readParts pData lData with
      | none => (errorBadData, cm, dbuf)
      | some s => s.finish cm dbuf := by
  unfold verify readParts
  by_cases hl : lData < 3
  · rw [if_pos hl, if_pos hl]
  · rw [if_neg hl, if_neg hl]
    cases ofType 0x21 (fromBuffer2 (pData.take lData)) with
    | none => rfl
    | some tag =>
        exact if_congr (and_congr_right fun _ => not_congr
          ⟨fun h => h.1, fun h => ⟨h, if_pos h⟩⟩) rfl rfl

theorem tagBytes_of_begins {p : List UInt8} {tag : Tag16} (h : fromBuffer2 p = some tag)
    {tagType : UInt8} (htype : tag.tagType = tagType.toNat) :
    ∃ rest, p = tagBytes [(tagType, tag.tagData)] ++ rest := by
  obtain ⟨t, rest, ht, -, rfl⟩ := begins_of_fromBuffer2 h
  rw [ht] at htype
  obtain rfl := UInt8.toNat_inj.mp htype
  refine ⟨rest, ?_⟩
  rw [tagBytes_cons]
  exact congrArg (· ++ rest) (List.append_nil _).symm

theorem ofType_eq_some {tagType : ℕ} {subtag : Option Tag16} {tag : Tag16}
    (h : ofType tagType subtag = some tag) : subtag = some tag ∧ tag.tagType = tagType := by
  obtain ⟨hs, ht⟩ := Option.filter_eq_some_iff.mp h
  exact ⟨hs, by simpa using ht⟩

theorem fromBuffer2_of_subTag {p : List UInt8} {l off : ℕ} {tag : Tag16}
    (h : subTag p l off = some tag) : fromBuffer2 ((p.take l).drop off) = some tag := by
  unfold subTag at h
  split at h
  · cases h
  · exact h

theorem readParts_signed (h : readParts pData lData = some s) {sh : SigHead}
    (hsh : s.head = some sh) :
    ∃ hd, s.signed = tagBytes ((0x21, hd) :: (s.data.map fun d => (0x23, d.tagData)).toList) ∧
      s.signed <+: (pData.take lData).drop 3 := by
  unfold readParts at h
  split at h
  · cases h
  obtain ⟨tag, htag, rfl⟩ := Option.map_eq_some_iff.mp h
  dsimp only at hsh ⊢
  obtain ⟨houter, htype⟩ := ofType_eq_some htag
  obtain ⟨rest, hrest⟩ := @tagBytes_of_begins _ _ houter 0x21 htype
  have hdrop : (pData.take lData).drop 3 = tag.tagData ++ rest := by
    rw [hrest, tagBytes_cons, List.append_assoc, List.append_assoc]
    rfl
  have htake : ∀ n, n ≤ tag.tagData.length → (pData.drop 3).take n = tag.tagData.take n := by
    intro n hn
    have hle : n ≤ lData - 3 := by
      have := congrArg List.length hdrop
      simp only [List.length_drop, List.length_take, List.length_append] at this
      omega
    rw [← List.take_append_of_le_length hn, ← hdrop, List.drop_take, List.take_take,
      Nat.min_eq_left hle]
  obtain ⟨first, hfirst, -⟩ := Option.bind_eq_some_iff.mp hsh
  obtain ⟨hfirst, hftype⟩ := ofType_eq_some hfirst
  obtain ⟨rest1, hrest1⟩ := @tagBytes_of_begins _ _ (fromBuffer2_of_subTag hfirst) 0x21 hftype
  rw [htake _ le_rfl, List.take_length, List.drop_zero] at hrest1
  have hoff : subTagSize (subTag (pData.drop 3) tag.tagData.length 0) =
      (tagBytes [(0x21, first.tagData)]).length := by
    rw [hfirst, length_tagBytes_one]
    rfl
  rw [hsh, Option.isSome_some, if_pos rfl, hoff]
  generalize hsecond : subTag (pData.drop 3) tag.tagData.length
    (tagBytes [(0x21, first.tagData)]).length = second
  refine ⟨first.tagData, ?_⟩
  have htags : ∃ rest2, tag.tagData = tagBytes ((0x21, first.tagData) ::
      ((ofType 0x23 second).map fun d => (0x23, d.tagData)).toList) ++ rest2 ∧
      (tagBytes [(0x21, first.tagData)]).length + subTagSize (ofType 0x23 second) =
        (tagBytes ((0x21, first.tagData) ::
          ((ofType 0x23 second).map fun d => (0x23, d.tagData)).toList)).length := by
    cases hdata : ofType 0x23 second with
    | none => exact ⟨rest1, hrest1, rfl⟩
    | some d =>
        obtain ⟨rfl, hdtype⟩ := ofType_eq_some hdata
        obtain ⟨rest2, hrest2⟩ := @tagBytes_of_begins _ _ (fromBuffer2_of_subTag hsecond) 0x23 hdtype
        rw [htake _ le_rfl, List.take_length, hrest1, List.drop_left] at hrest2
        refine ⟨rest2, ?_, ?_⟩
        · rw [hrest1, hrest2, ← List.append_assoc, ← tagBytes_append]
          rfl
        · rw [Option.map_some, Option.toList_some, length_tagBytes_two, length_tagBytes_one]
          rfl
  obtain ⟨rest2, hrest2, hlen⟩ := htags
  have hle := congrArg List.length hrest2
  rw [List.length_append] at hle
  have hsigned := htake _ (hlen.trans_le (by omega))
  rw [hsigned, hlen, hdrop, hrest2, List.take_left, List.append_assoc]
  exact ⟨rfl, List.prefix_append _ _⟩

/-! ### The end of the verification -/

theorem samePeer_refl (cm : CryptMgr) : SamePeer cm cm := ⟨rfl, rfl, rfl⟩

theorem storeOrCheckPeer_eq {sh : SigHead} {cm' : CryptMgr}
    (h : storeOrCheckPeer cm sh = some cm') : cm'.verifyDataFn = cm.verifyDataFn ∧
      (SamePeer cm cm' ↔ (cm.peerKeyName = none →
        sh.keyName = none ∧ sh.keyNumber = cm.peerKeyNumber ∧ sh.keyVersion = cm.peerKeyVersion)) ∧
      (cm.peerKeyName = none ∨ sameKey cm.peerKeyName cm.peerKeyNumber cm.peerKeyVersion sh.keyName
        sh.keyNumber sh.keyVersion = true) := by
  unfold storeOrCheckPeer at h
  by_cases hnone : cm.peerKeyName = none
  · rw [if_pos hnone] at h
    obtain rfl := Option.some.inj h
    refine ⟨rfl, ?_, Or.inl hnone⟩
    simp only [SamePeer, hnone, forall_const]
  · rw [if_neg hnone] at h
    split at h
    · next hsame =>
        obtain rfl := Option.some.inj h
        exact ⟨rfl, iff_of_true (samePeer_refl cm) fun hn => absurd hn hnone, Or.inr hsame⟩
    · cases h

theorem storeOrCheckPeer_eq_none {sh : SigHead} (h : storeOrCheckPeer cm sh = none) :
    cm.peerKeyName ≠ none ∧ sameKey cm.peerKeyName cm.peerKeyNumber cm.peerKeyVersion sh.keyName
      sh.keyNumber sh.keyVersion ≠ true := by
  unfold storeOrCheckPeer at h
  by_cases hnone : cm.peerKeyName = none
  · rw [if_pos hnone] at h
    cases h
  · rw [if_neg hnone] at h
    refine ⟨hnone, fun hsame => ?_⟩
    rw [if_pos hsame] at h
    cases h

namespace SignedParts

/-- The verification ends without an error exactly if the callback accepts the signature. -/
theorem finish_cases (hsigned : ∀ sh ∈ s.head, s.signed ≠ []) (cm : CryptMgr) (dbuf : List UInt8) :
    (s.Accepted cm ∧ ∃ cm', s.finish cm dbuf = (0, cm', dbuf ++ s.output)) ∨
      (¬ s.Accepted cm ∧ ∃ rv cm', rv < 0 ∧ s.finish cm dbuf = (rv, cm', dbuf ++ s.output) ∧
        (SamePeer cm cm' ↔ s.Keeps cm)) := by
  have hbad : errorBadData < 0 := by decide
  have hrefused : (∀ sh st, ¬ s.Complete cm sh st) →
      s.finish cm dbuf = (errorBadData, cm, dbuf ++ s.output) →
      ¬ s.Accepted cm ∧ ∃ rv cm', rv < 0 ∧ s.finish cm dbuf = (rv, cm', dbuf ++ s.output) ∧
        (SamePeer cm cm' ↔ s.Keeps cm) := fun hno hfin =>
    ⟨fun ⟨sh, st, hc, _⟩ => hno sh st hc, _, _, hbad, hfin,
      iff_of_true (samePeer_refl cm) fun _ sh st hc => absurd hc (hno sh st)⟩
  cases hhead : s.head with
  | none =>
      refine Or.inr (hrefused (fun sh st hc => absurd (hhead.symm.trans hc.1) (by simp)) ?_)
      unfold finish
      rw [hhead]
      split <;> rfl
  | some sh =>
      have hfin : s.finish cm dbuf =
          verifySigned cm (some sh) s.tail s.signed (dbuf ++ s.output) := by
        unfold finish
        rw [hhead]
        exact if_neg fun h => h.2 rfl
      cases htail : s.tail with
      | none =>
          refine Or.inr (hrefused (fun sh st hc => absurd (htail.symm.trans hc.2.1) (by simp)) ?_)
          rw [hfin, htail]
          rfl
      | some st =>
          rw [htail, verifySigned] at hfin
          have hparts : ∀ sh' st', s.Complete cm sh' st' → sh' = sh ∧ st' = st := fun sh' st' hc =>
            ⟨Option.some.inj (hc.1.symm.trans hhead), Option.some.inj (hc.2.1.symm.trans htail)⟩
          by_cases hnum : sh.signatureNumber = st.signatureNumber
          · rw [if_neg (not_or.mpr ⟨hsigned sh hhead, not_not.mpr hnum⟩)] at hfin
            cases hpeer : storeOrCheckPeer cm sh with
            | none =>
                rw [hpeer] at hfin
                refine Or.inr (hrefused (fun sh' st' hc => ?_) hfin)
                obtain ⟨rfl, rfl⟩ := hparts sh' st' hc
                obtain ⟨hne, hother⟩ := storeOrCheckPeer_eq_none hpeer
                exact hc.2.2.2.elim hne hother
            | some cm' =>
                rw [hpeer] at hfin
                obtain ⟨hfn, hsame, hkey⟩ := storeOrCheckPeer_eq hpeer
                have hcomplete : s.Complete cm sh st := ⟨hhead, htail, hnum, hkey⟩
                have hcall : cm'.verifyData s.signed st.signature =
                    cm.verifyData s.signed st.signature := by
                  rw [CryptMgr.verifyData, CryptMgr.verifyData, hfn]
                dsimp only at hfin
                rw [hcall] at hfin
                by_cases hrv : cm.verifyData s.signed st.signature < 0
                · rw [if_pos hrv] at hfin
                  refine Or.inr ⟨?_, _, _, hrv, hfin, hsame.trans ?_⟩
                  · rintro ⟨sh', st', hc, hok⟩
                    obtain ⟨rfl, rfl⟩ := hparts sh' st' hc
                    exact absurd hok (not_le.mpr hrv)
                  · refine forall_congr' fun _ => ⟨fun h sh' st' hc => ?_, fun h => h sh st hcomplete⟩
                    obtain ⟨rfl, rfl⟩ := hparts sh' st' hc
                    exact h
                · rw [if_neg hrv] at hfin
                  exact Or.inl ⟨⟨sh, st, hcomplete, not_lt.mp hrv⟩, _, hfin⟩
          · rw [if_pos (Or.inr hnum)] at hfin
            refine Or.inr (hrefused (fun sh' st' hc => ?_) hfin)
            obtain ⟨rfl, rfl⟩ := hparts sh' st' hc
            exact hnum hc.2.2.1

end SignedParts

theorem signed_ne_nil (hparts : readParts pData lData = some s) : ∀ sh ∈ s.head, s.signed ≠ [] := by
  intro sh hsh
  obtain ⟨hd, hs, -⟩ := readParts_signed hparts hsh
  rw [hs, tagBytes_cons]
  exact List.cons_ne_nil _ _

/-- What is accepted is signed. -/
theorem verify_soundlyAccepted :
    SoundlyAccepted cm pData lData dbuf (verify cm pData lData dbuf) := by
  rw [verify_eq]
  intro h
  cases hparts : readParts pData lData with
  | none =>
      rw [hparts] at h
      exact absurd h (show errorBadData ≠ 0 by decide)
  | some s =>
      rw [hparts] at h
      dsimp only at h ⊢
      rcases s.finish_cases (signed_ne_nil hparts) cm dbuf with
        ⟨⟨sh, st, hc, hok⟩, cm', hfin⟩ | ⟨-, rv, cm', hrv, hfin, -⟩
      · obtain ⟨hd, hs, hstart⟩ := readParts_signed hparts hc.1
        refine ⟨hd, s.data.map tagData, st.signature, ?_⟩
        rw [Option.map_map, hfin]
        rw [hs] at hstart hok
        exact ⟨hstart, rfl, hok⟩
      · rw [hfin] at h
        exact absurd h hrv.ne

/-- The parts of an object have no effect unless they are accepted. -/
theorem untouched_iff : Untouched cm dbuf (verify cm pData lData dbuf) ↔
    Harmless cm pData lData := by
  unfold Harmless
  rw [verify_eq]
  cases hparts : readParts pData lData with
  | none => exact iff_of_true (fun _ => ⟨rfl, samePeer_refl cm⟩) (by simp)
  | some s =>
      simp only [Option.mem_some_iff, forall_eq']
      rcases s.finish_cases (signed_ne_nil hparts) cm dbuf with
        ⟨hacc, cm', hfin⟩ | ⟨hacc, rv, cm', hrv, hfin, hsame⟩
      · rw [hfin]
        exact iff_of_true (fun h => absurd h (lt_irrefl _)) (Or.inl hacc)
      · rw [hfin, or_iff_right hacc]
        constructor
        · intro hun
          obtain ⟨hbuf, hpeer⟩ := hun hrv
          exact ⟨List.append_right_eq_self.mp hbuf, hsame.mp hpeer⟩
        · exact fun h _ => ⟨by rw [h.1, List.append_nil], hsame.mpr h.2⟩

/-! ### Decoding -/

theorem unpadd_isSome (src : List UInt8) :
    (Padd.unpaddWithAnsiX9_23FromMultipleOf src 8).isSome := by
  unfold Padd.unpaddWithAnsiX9_23FromMultipleOf
  split
  · rfl
  · next hlen =>
      have hne : src ≠ [] := List.ne_nil_of_length_pos (by omega)
      rw [List.getLast?_eq_getLast_of_ne_nil hne, Option.bind_some]
      split
      · rfl
      · rw [Padd.crop, if_pos (Nat.zero_le _), if_neg (by omega), if_neg (by omega)]
        rfl

theorem decrypt_isSome (cm : CryptMgr) (cipher : MessageCipher) (pData : List UInt8) (lData : ℕ)
    (dbuf : List UInt8) : (decrypt cm cipher pData lData dbuf).isSome := by
  unfold decrypt
  split
  · rfl
  · split
    · rfl
    · dsimp only
      split
      · split
        · rfl
        · unfold decryptData
          dsimp only
          split
          · rfl
          · split
            · rfl
            · split
              · rfl
              · split
                · rfl
                · rw [Option.isSome_map]
                  exact unpadd_isSome _
      · rfl

/-- An object is rejected without effect if and only if nothing of it would have one. -/
theorem rejects_iff (cm : CryptMgr) (cipher : MessageCipher) (pData : List UInt8) (lData : ℕ)
    (dbuf : List UInt8) : (VerifyRejects cm pData lData dbuf ↔ Harmless cm pData lData) ∧
      (DecodeRejects cm cipher pData lData dbuf ↔ ∀ plain,
        decrypt cm cipher pData lData [] = some plain → 0 ≤ plain.1 →
          Harmless cm (plain.2 ++ [0]) plain.2.length) := by
  refine ⟨(and_iff_left verify_soundlyAccepted).trans untouched_iff, ?_⟩
  obtain ⟨plain, hplain⟩ := Option.isSome_iff_exists.mp (decrypt_isSome cm cipher pData lData [])
  unfold DecodeRejects decode
  rw [hplain, Option.map_some]
  simp only [Option.some.injEq, exists_eq_left', forall_eq']
  by_cases hrv : plain.1 < 0
  · rw [if_pos hrv]
    exact iff_of_true (fun _ => ⟨rfl, samePeer_refl cm⟩) fun h => absurd h (not_le.mpr hrv)
  · rw [if_neg hrv, untouched_iff, forall_prop_of_true (not_lt.mp hrv)]

/-- An object without a head is refused after its data has been output. -/
theorem not_rejects_headless :
    ¬ ∀ (cm : CryptMgr) (cipher : MessageCipher) (pData : List UInt8) (lData : ℕ)
      (dbuf : List UInt8), VerifyRejects cm pData lData dbuf ∧
        DecodeRejects cm cipher pData lData dbuf := by
  intro h
  have hun := (h ⟨none, 0, 0, none, 0, 0, 0, none, none, none, none⟩
    ⟨fun _ => true, fun _ src => .ok src, fun _ src => .ok src, by simp, by simp, by simp, by simp⟩
    [0x21, 7, 0, 0, 0, 0, 0x23, 1, 0, 0x61] 10 []).1.1
  exact absurd (hun (by decide)).1 (by decide)
end Gwenhywfar.CryptMsg
