import Gwenhywfar.Base.Error
import Mathlib.Data.List.TakeWhile
import Mathlib.Data.Nat.Bitwise
import Mathlib.Tactic.Ring

/-! # RSA-PSS

A message digest is a function on byte strings whose values have one length.  A function has no
outcome when it does not return or leaves its buffers.

* `addPkcs1Pss`: the block for a salt, as it is written to the buffer.
* `verifyPkcs1Pss`: whether a block is accepted for a hash.
* `pssMatches_iff`: what was written is accepted; what is accepted could have been written if and
  only if the bytes agree that are not looked at. -/

namespace Gwenhywfar

set_option maxRecDepth 4000

namespace Pss

/-- `GWEN_ERROR_VERIFY`. -/
abbrev errorVerify : ℤ := -65

/-- `GWEN_MDIGEST`. -/
structure MDigest where
  digest : List UInt8 → List UInt8
  size : ℕ
  length_digest : ∀ msg, (digest msg).length = size

/-- `counter`. -/
def counter (i : ℕ) : List UInt8 :=
  [UInt8.ofNat ((i >>> 24) &&& 0xff), UInt8.ofNat ((i >>> 16) &&& 0xff),
    UInt8.ofNat ((i >>> 8) &&& 0xff), UInt8.ofNat (i &&& 0xff)]

/-- The loop of `GWEN_Padd_MGF1`. -/
def mgf1Loop (md : MDigest) (pSeed : List UInt8) : ℕ → ℕ → ℕ → Option (List UInt8)
  | _, _, 0 => some []
  | 0, _, _ + 1 => none
  | fuel + 1, i, bytesLeft + 1 =>
      let l := min md.size (bytesLeft + 1)
      (mgf1Loop md pSeed fuel (i + 1) (bytesLeft + 1 - l)).map
        ((md.digest (pSeed ++ counter i)).take l ++ ·)

/-- `GWEN_Padd_MGF1`: as many rounds as there are bytes to write are enough, unless the loop never
ends. -/
def mgf1 (md : MDigest) (lDestBuffer : ℕ) (pSeed : List UInt8) : Option (List UInt8) :=
  mgf1Loop md pSeed lDestBuffer 0 lDestBuffer

/-- `numberOfBitsInByte0`. -/
def numberOfBitsInByte0 (nbits : UInt32) : ℕ := ((nbits - 1) &&& 0x07).toNat

/-- `emLen`, adjusted to one bit less than the modulus. -/
def emLen (nbits : UInt32) : ℕ :=
  let emLen := nbits.toNat / 8 + if nbits.toNat % 8 ≠ 0 then 1 else 0
  if numberOfBitsInByte0 nbits = 0 then emLen - 1 else emLen

/-- The first byte of these without its leading bits. -/
def adjust (bits : ℕ) (bytes : List UInt8) : List UInt8 :=
  if bits ≠ 0 then bytes.modifyHead (· &&& UInt8.ofNat (0xff >>> (8 - bits))) else bytes

/-- `M'`: eight zeros, the hash and the salt. -/
def mBar (pHash pSalt : List UInt8) : List UInt8 := List.replicate 8 0 ++ pHash ++ pSalt

/-- `GWEN_Padd_AddPkcs1Pss` with the random salt: what it returns and what it writes. -/
def addPkcs1Pss (md : MDigest) (nbits : UInt32) (pHash pSalt : List UInt8) :
    Option (ℤ × List UInt8) :=
  let bits := numberOfBitsInByte0 nbits
  if 64 < md.size ∨ emLen nbits < md.size + pSalt.length + 2 then none
  else
    let hashMBar := md.digest (mBar pHash pSalt)
    let pDB := List.replicate (emLen nbits - md.size - pSalt.length - 2) 0 ++ 0x01 :: pSalt
    (mgf1 md (emLen nbits - md.size - 1) hashMBar).map fun pDbMask =>
      (emLen nbits, (if bits = 0 then [0] else []) ++
        adjust bits (List.zipWith (· ^^^ ·) pDB pDbMask ++ hashMBar ++ [0xbc]))

/-- The end of `GWEN_Padd_VerifyPkcs1Pss`: the salt is recovered from `pDB` and hashed. -/
def checkSalt (md : MDigest) (pHash : List UInt8) (lSalt : ℕ) (hashMBar pDB : List UInt8) : ℤ :=
  let i := ((pDB.take (pDB.length - 1)).takeWhile (· == 0)).length
  if pDB.getD i 0 ≠ 0x01 then errorBadData
  else if pDB.length - (i + 1) ≠ lSalt then errorBadData
  else if hashMBar ≠ md.digest (mBar pHash (pDB.drop (i + 1))) then errorVerify
  else 0

/-- `GWEN_Padd_VerifyPkcs1Pss`. -/
def verifyPkcs1Pss (md : MDigest) (pSrcBuffer : List UInt8) (nbits : UInt32) (pHash : List UInt8)
    (lSalt : ℕ) : Option ℤ :=
  let bits := numberOfBitsInByte0 nbits
  let em := if bits = 0 then pSrcBuffer.drop 1 else pSrcBuffer
  if bits ≠ 0 ∧ em = [] then none
  else if bits ≠ 0 ∧ (em.headD 0).toNat &&& (0xff <<< bits) ≠ 0 then some errorBadData
  else if emLen nbits < (md.size + lSalt + 2) % 2 ^ 32 then some errorBadData
  else if pSrcBuffer.length < emLen nbits then some errorBadData
  else if emLen nbits < md.size + 2 ∨ em.length < emLen nbits - 1 then none
  else
    let x := emLen nbits - md.size - 1
    let hashMBar := (em.drop x).take md.size
    (mgf1 md x hashMBar).map fun mask =>
      checkSalt md pHash lSalt hashMBar
        (adjust bits (List.zipWith (· ^^^ ·) mask (em.take x)))

/-! ### The mask -/

section
variable {md : MDigest} {seed : List UInt8}

theorem mgf1Loop_spec (hsize : md.size ≠ 0) (fuel i left : ℕ) (h : left ≤ fuel) :
    ∃ mask, mgf1Loop md seed fuel i left = some mask ∧ mask.length = left := by
  induction fuel generalizing i left with
  | zero =>
      obtain rfl := Nat.le_zero.mp h
      exact ⟨[], rfl, rfl⟩
  | succ fuel ih =>
      cases left with
      | zero => exact ⟨[], rfl, rfl⟩
      | succ left =>
          obtain ⟨mask, hmask, hlen⟩ := ih (i + 1) (left + 1 - min md.size (left + 1)) (by omega)
          refine ⟨_, by rw [mgf1Loop, hmask]; rfl, ?_⟩
          rw [List.length_append, List.length_take, md.length_digest, hlen]
          omega

theorem mgf1_spec (seed : List UInt8) (hsize : md.size ≠ 0) (n : ℕ) :
    ∃ mask, mgf1 md n seed = some mask ∧ mask.length = n :=
  mgf1Loop_spec hsize n 0 n (Nat.le_refl n)

theorem mgf1_of_size (hsize : md.size = 0) {n : ℕ} (hn : n ≠ 0) : mgf1 md n seed = none := by
  have hloop : ∀ fuel i, mgf1Loop md seed fuel i n = none := by
    obtain ⟨n, rfl⟩ := Nat.exists_eq_succ_of_ne_zero hn
    intro fuel
    induction fuel with
    | zero => exact fun i => rfl
    | succ fuel ih =>
        intro i
        rw [mgf1Loop, hsize, Nat.zero_min, Nat.sub_zero, ih]
        rfl
  exact hloop n 0

theorem length_of_mgf1 {n : ℕ} {mask : List UInt8} (hn : n ≠ 0) (h : mgf1 md n seed = some mask) :
    mask.length = n ∧ md.size ≠ 0 := by
  by_cases hsize : md.size = 0
  · rw [mgf1_of_size hsize hn] at h
    cases h
  · obtain ⟨mask', hmask', hlen⟩ := mgf1_spec seed hsize n
    obtain rfl := Option.some.inj (hmask'.symm.trans h)
    exact ⟨hlen, hsize⟩

end

/-! ### The bits of the first byte -/

/-- A byte without the leading bits. -/
def keep (bits : ℕ) (c : UInt8) : UInt8 := c &&& UInt8.ofNat (0xff >>> (8 - bits))

theorem keep_spec {bits : ℕ} (h0 : bits ≠ 0) (h8 : bits < 8) (c : UInt8) :
    (c.toNat &&& (0xff <<< bits) = 0 ↔ keep bits c = c) ∧ keep bits 0 = 0 ∧ keep bits 1 = 1 := by
  have hall : ∀ bits : Fin 8, (bits : ℕ) ≠ 0 → ∀ c : Fin 256,
      ((UInt8.ofNat c).toNat &&& (0xff <<< (bits : ℕ)) = 0 ↔
        keep bits (UInt8.ofNat c) = UInt8.ofNat c) ∧
        keep bits 0 = 0 ∧ keep bits 1 = 1 := by
    decide
  have hc : UInt8.ofNat c.toNat = c := UInt8.ofNat_toNat
  have hself := hall ⟨bits, h8⟩ h0 ⟨c.toNat, c.toNat_lt⟩
  rwa [hc] at hself

theorem keep_keep (bits : ℕ) (c : UInt8) : keep bits (keep bits c) = keep bits c := by
  rw [keep, keep, UInt8.and_assoc, UInt8.and_self]

theorem keep_xor (bits : ℕ) (c d : UInt8) : keep bits (c ^^^ keep bits (c ^^^ d)) = keep bits d := by
  have hand : ∀ a b m : UInt8, (a ^^^ b) &&& m = (a &&& m) ^^^ (b &&& m) := by
    intro a b m
    apply UInt8.toBitVec_inj.mp
    ext i hi
    simp [Bool.and_xor_distrib_right]
  rw [keep, keep, keep, hand, UInt8.and_assoc, UInt8.and_self, hand, ← UInt8.xor_assoc,
    UInt8.xor_self, UInt8.zero_xor]

theorem adjust_cons {bits : ℕ} (h : bits ≠ 0) (c : UInt8) (cs : List UInt8) :
    adjust bits (c :: cs) = keep bits c :: cs := if_pos h

theorem adjust_zero (cs : List UInt8) : adjust 0 cs = cs := if_neg (not_not.mpr rfl)

section
variable {bits : ℕ} {k d cs : List UInt8}

theorem length_adjust : (adjust bits cs).length = cs.length := by
  rw [adjust]
  split
  · exact List.length_modifyHead
  · rfl

theorem adjust_append (h : cs ≠ []) : adjust bits (cs ++ d) = adjust bits cs ++ d := by
  obtain ⟨c, cs, rfl⟩ := List.exists_cons_of_ne_nil h
  by_cases h0 : bits = 0
  · rw [h0, adjust_zero, adjust_zero]
  · rw [List.cons_append, adjust_cons h0, adjust_cons h0, List.cons_append]

theorem zipWith_xor_self (h : k.length = d.length) :
    List.zipWith (· ^^^ ·) k (List.zipWith (· ^^^ ·) k d) = d := by
  induction k generalizing d with
  | nil => exact (List.length_eq_zero_iff.mp h.symm).symm
  | cons c k ih =>
      obtain ⟨e, d, rfl⟩ := List.exists_cons_of_length_eq_add_one h.symm
      rw [List.zipWith_cons_cons, List.zipWith_cons_cons, ih (Nat.succ.inj h), ← UInt8.xor_assoc,
        UInt8.xor_self, UInt8.zero_xor]

theorem adjust_xor (h : k.length = d.length) :
    adjust bits (List.zipWith (· ^^^ ·) k (adjust bits (List.zipWith (· ^^^ ·) k d))) =
      adjust bits d := by
  by_cases h0 : bits = 0
  · rw [h0, adjust_zero, adjust_zero, adjust_zero, zipWith_xor_self h]
  · rcases k with _ | ⟨c, k⟩
    · rw [List.length_eq_zero_iff.mp h.symm]
      rfl
    · obtain ⟨e, d, rfl⟩ := List.exists_cons_of_length_eq_add_one h.symm
      rw [List.zipWith_cons_cons, adjust_cons h0, List.zipWith_cons_cons, adjust_cons h0,
        adjust_cons h0, keep_xor, zipWith_xor_self (Nat.succ.inj h)]

theorem adjust_adjust : adjust bits (adjust bits cs) = adjust bits cs := by
  by_cases h0 : bits = 0
  · rw [h0, adjust_zero, adjust_zero]
  · cases cs with
    | nil => rw [adjust, adjust]; split <;> rfl
    | cons c cs => rw [adjust_cons h0, adjust_cons h0, keep_keep]

theorem xor_comm (k d : List UInt8) : List.zipWith (· ^^^ ·) k d = List.zipWith (· ^^^ ·) d k :=
  List.zipWith_comm_of_comm UInt8.xor_comm

theorem adjust_eq_self (hbits : bits < 8) (h : cs ≠ []) :
    ¬(bits ≠ 0 ∧ (cs.headD 0).toNat &&& (0xff <<< bits) ≠ 0) ↔ adjust bits cs = cs := by
  obtain ⟨c, cs, rfl⟩ := List.exists_cons_of_ne_nil h
  by_cases h0 : bits = 0
  · rw [h0, adjust_zero]
    exact iff_of_true (fun hn => hn.1 rfl) rfl
  · rw [adjust_cons h0, not_and, imp_iff_right h0, not_not, List.headD_cons,
      (keep_spec h0 hbits c).1]
    exact ⟨congrArg (· :: cs), fun he => (List.cons.inj he).1⟩

theorem adjust_padding (hbits : bits < 8) (n : ℕ) (salt : List UInt8) :
    adjust bits (List.replicate n 0 ++ 0x01 :: salt) = List.replicate n 0 ++ 0x01 :: salt := by
  by_cases h0 : bits = 0
  · rw [h0, adjust_zero]
  · obtain ⟨-, hzero, hone⟩ := keep_spec h0 hbits 0
    cases n with
    | zero =>
        rw [List.replicate_zero, List.nil_append, adjust_cons h0, hone]
    | succ n =>
        rw [List.replicate_succ, List.cons_append, adjust_cons h0, hzero]

end

/-! ### The salt -/

section
variable {md : MDigest} {pHash hashMBar db : List UInt8} {lSalt : ℕ}

theorem skip_zeros (n : ℕ) (salt : List UInt8) :
    (((List.replicate n (0 : UInt8) ++ 0x01 :: salt).take (n + salt.length)).takeWhile
      (· == 0)).length = n := by
  rw [List.take_append, List.length_replicate, Nat.add_sub_cancel_left, List.take_replicate,
    Nat.min_eq_right (Nat.le_add_right n _), List.takeWhile_append_of_pos]
  · have hnil : ((0x01 :: salt).take salt.length).takeWhile (· == (0 : UInt8)) = [] := by
      cases salt.length <;> rfl
    rw [hnil, List.append_nil, List.length_replicate]
  · intro c hc
    exact beq_iff_eq.mpr (List.eq_of_mem_replicate hc)

/-- What `pDB` is when its salt is accepted. -/
theorem checkSalt_eq_zero_iff (hdb : lSalt < db.length) : checkSalt md pHash lSalt hashMBar db = 0 ↔
    ∃ salt, db = List.replicate (db.length - lSalt - 1) 0 ++ 0x01 :: salt ∧
      salt.length = lSalt ∧ md.digest (mBar pHash salt) = hashMBar := by
  constructor
  · intro h
    rw [checkSalt] at h
    set zeros := (db.take (db.length - 1)).takeWhile (· == 0) with hzeros
    have hone : db.getD zeros.length 0 = 0x01 := by
      by_contra hne
      rw [if_pos hne] at h
      exact absurd h (by decide)
    rw [if_neg (not_not.mpr hone)] at h
    have hlen : db.length - (zeros.length + 1) = lSalt := by
      by_contra hne
      rw [if_pos hne] at h
      exact absurd h (by decide)
    rw [if_neg (not_not.mpr hlen)] at h
    have hhash : hashMBar = md.digest (mBar pHash (db.drop (zeros.length + 1))) := by
      by_contra hne
      rw [if_pos hne] at h
      exact absurd h (by decide)
    have hprefix : zeros <+: db :=
      (List.takeWhile_prefix _).trans (List.take_prefix _ _)
    have htake : db.take zeros.length = List.replicate zeros.length 0 := by
      rw [← List.prefix_iff_eq_take.mp hprefix]
      exact List.eq_replicate_iff.mpr ⟨rfl, fun c hc =>
        beq_iff_eq.mp (List.mem_takeWhile_imp (p := (· == 0)) hc)⟩
    have hlt : zeros.length < db.length := by
      by_contra hge
      rw [List.getD_eq_default _ _ (Nat.le_of_not_lt hge)] at hone
      exact absurd hone (by decide)
    have hget : db[zeros.length] = 0x01 := by
      rw [List.getD_eq_getElem _ _ hlt] at hone
      exact hone
    refine ⟨db.drop (zeros.length + 1), ?_, ?_, hhash.symm⟩
    · have hcount : db.length - lSalt - 1 = zeros.length := by omega
      rw [hcount, ← htake, ← hget, List.getElem_cons_drop, List.take_append_drop]
    · rw [List.length_drop, hlen]
  · rintro ⟨salt, hsplit, hlen, hhash⟩
    obtain ⟨n, hn⟩ : ∃ n, db.length - lSalt - 1 = n := ⟨_, rfl⟩
    rw [hn] at hsplit
    have hlength : db.length - 1 = n + salt.length := by omega
    have hskip : ((db.take (db.length - 1)).takeWhile (· == 0)).length = n := by
      rw [hlength, hsplit]
      exact skip_zeros n salt
    have hget : db.getD n 0 = 0x01 := by
      rw [hsplit, List.getD_append_right _ _ _ _ (List.length_replicate.le),
        List.length_replicate, Nat.sub_self]
      rfl
    have hdrop : db.drop (n + 1) = salt := by
      rw [hsplit, List.drop_append, List.length_replicate, Nat.add_sub_cancel_left,
        List.drop_of_length_le (List.length_replicate.trans_le (Nat.le_succ n))]
      rfl
    rw [checkSalt, hskip, if_neg (not_not.mpr hget), if_neg (by omega), hdrop,
      if_neg (not_not.mpr hhash.symm)]

end

/-! ### Blocks -/

theorem numberOfBitsInByte0_lt (nbits : UInt32) : numberOfBitsInByte0 nbits < 8 := by
  have hle := UInt32.and_le_right (a := nbits - 1) (b := 0x07)
  exact Nat.lt_succ_of_le (UInt32.le_iff_toNat_le.mp hle)

theorem length_spec {nbits : UInt32} (h : nbits ≠ 0) :
    numberOfBitsInByte0 nbits = (nbits.toNat - 1) % 8 ∧ emLen nbits = (nbits.toNat - 1 + 7) / 8 ∧
      (nbits.toNat + 7) / 8 = emLen nbits + if numberOfBitsInByte0 nbits = 0 then 1 else 0 := by
  have hpos : nbits.toNat ≠ 0 := fun hz => h (UInt32.toNat_inj.mp hz)
  have hle : (1 : UInt32) ≤ nbits := UInt32.le_iff_toNat_le.mpr (Nat.one_le_iff_ne_zero.mpr hpos)
  have hbits : numberOfBitsInByte0 nbits = (nbits.toNat - 1) % 8 := by
    rw [numberOfBitsInByte0, UInt32.toNat_and, UInt32.toNat_sub_of_le _ _ hle]
    exact Nat.and_two_pow_sub_one_eq_mod _ 3
  refine ⟨hbits, ?_, ?_⟩
  · rw [emLen, hbits]
    split_ifs <;> omega
  · rw [emLen, hbits]
    split_ifs <;> omega

section
variable {md : MDigest} {nbits : UInt32} {pHash : List UInt8} {lSalt : ℕ}

/-- The first byte that only fills the buffer. -/
def leading (nbits : UInt32) (lead : List UInt8) : Prop :=
  lead.length = if numberOfBitsInByte0 nbits = 0 then 1 else 0

/-- A block is accepted if its first byte has no leading bits and a salt can be recovered that has
the hash. -/
theorem verifyPkcs1Pss_eq_zero_iff {lead maskedDB hashMBar : List UInt8} {trailer : UInt8}
    (hlt : md.size + lSalt + 2 < 2 ^ 32) (hlead : leading nbits lead)
    (hlen : maskedDB.length + md.size + 1 = emLen nbits) (hsalt : lSalt < maskedDB.length)
    (hhash : hashMBar.length = md.size) :
    verifyPkcs1Pss md (lead ++ (maskedDB ++ (hashMBar ++ [trailer]))) nbits pHash lSalt = some 0 ↔
      adjust (numberOfBitsInByte0 nbits) maskedDB = maskedDB ∧
        ∃ mask, mgf1 md maskedDB.length hashMBar = some mask ∧ mask.length = maskedDB.length ∧
          ∃ salt, adjust (numberOfBitsInByte0 nbits) (List.zipWith (· ^^^ ·) mask maskedDB) =
              List.replicate (maskedDB.length - lSalt - 1) 0 ++ 0x01 :: salt ∧
            salt.length = lSalt ∧ md.digest (mBar pHash salt) = hashMBar := by
  have hne : maskedDB ≠ [] := List.ne_nil_of_length_pos (Nat.lt_of_le_of_lt (Nat.zero_le _) hsalt)
  have hem : (if numberOfBitsInByte0 nbits = 0 then
      (lead ++ (maskedDB ++ (hashMBar ++ [trailer]))).drop 1
      else lead ++ (maskedDB ++ (hashMBar ++ [trailer]))) =
        maskedDB ++ (hashMBar ++ [trailer]) := by
    rw [leading] at hlead
    split at hlead
    · next h0 => rw [if_pos h0, ← hlead, List.drop_left]
    · next h0 => rw [if_neg h0, List.length_eq_zero_iff.mp hlead, List.nil_append]
  have hhead : (maskedDB ++ (hashMBar ++ [trailer])).headD 0 = maskedDB.headD 0 := by
    obtain ⟨c, cs, rfl⟩ := List.exists_cons_of_ne_nil hne
    rfl
  have hempty : maskedDB ++ (hashMBar ++ [trailer]) ≠ [] :=
    List.append_ne_nil_of_left_ne_nil hne _
  have hlength : (maskedDB ++ (hashMBar ++ [trailer])).length = emLen nbits := by
    rw [List.length_append, List.length_append, List.length_singleton, hhash, ← hlen]
    exact (Nat.add_assoc _ _ _).symm
  have hx : emLen nbits - md.size - 1 = maskedDB.length := by omega
  rw [verifyPkcs1Pss, hem, hhead, if_neg fun h => hempty h.2]
  by_cases hbits : numberOfBitsInByte0 nbits ≠ 0 ∧
      (maskedDB.headD 0).toNat &&& (0xff <<< numberOfBitsInByte0 nbits) ≠ 0
  · rw [if_pos hbits]
    refine iff_of_false (by decide) fun h => ?_
    exact (adjust_eq_self (numberOfBitsInByte0_lt nbits) hne).mpr h.1 hbits
  · have hself := (adjust_eq_self (numberOfBitsInByte0_lt nbits) hne).mp hbits
    have hlong : ¬(lead ++ (maskedDB ++ (hashMBar ++ [trailer]))).length < emLen nbits := by
      rw [List.length_append, hlength]
      omega
    have htake : (hashMBar ++ [trailer]).take md.size = hashMBar := by
      rw [← hhash, List.take_left]
    have hcheck : ∀ mask, mask.length = maskedDB.length →
        (checkSalt md pHash lSalt hashMBar
          (adjust (numberOfBitsInByte0 nbits) (List.zipWith (· ^^^ ·) mask maskedDB)) = 0 ↔
        ∃ salt, adjust (numberOfBitsInByte0 nbits) (List.zipWith (· ^^^ ·) mask maskedDB) =
            List.replicate (maskedDB.length - lSalt - 1) 0 ++ 0x01 :: salt ∧
          salt.length = lSalt ∧ md.digest (mBar pHash salt) = hashMBar) := by
      intro mask hmask
      have hdb : (adjust (numberOfBitsInByte0 nbits)
          (List.zipWith (· ^^^ ·) mask maskedDB)).length = maskedDB.length := by
        rw [length_adjust, List.length_zipWith, hmask, Nat.min_self]
      rw [checkSalt_eq_zero_iff (hdb.symm ▸ hsalt), hdb]
    rw [if_neg hbits, Nat.mod_eq_of_lt hlt, if_neg (by omega), if_neg hlong,
      if_neg (by rw [hlength]; omega), hx]
    dsimp only
    rw [List.drop_left, List.take_left, htake, and_iff_right hself, Option.map_eq_some_iff]
    constructor
    · rintro ⟨mask, hmask, hzero⟩
      have hlmask := (length_of_mgf1 (List.length_pos_iff.mpr hne).ne' hmask).1
      exact ⟨mask, hmask, hlmask, (hcheck mask hlmask).mp hzero⟩
    · rintro ⟨mask, hmask, hlmask, hsalt'⟩
      exact ⟨mask, hmask, (hcheck mask hlmask).mpr hsalt'⟩

theorem addPkcs1Pss_eq {pSalt mask : List UInt8} (hsize : md.size ≤ 64)
    (hlen : md.size + pSalt.length + 2 ≤ emLen nbits)
    (hmask : mgf1 md (emLen nbits - md.size - 1) (md.digest (mBar pHash pSalt)) = some mask)
    (hne : mask ≠ []) : addPkcs1Pss md nbits pHash pSalt =
      some ((emLen nbits : ℤ), (if numberOfBitsInByte0 nbits = 0 then [0] else []) ++
        (adjust (numberOfBitsInByte0 nbits) (List.zipWith (· ^^^ ·)
          (List.replicate (emLen nbits - md.size - pSalt.length - 2) 0 ++ 0x01 :: pSalt) mask) ++
          (md.digest (mBar pHash pSalt) ++ [0xbc]))) := by
  have hdb : List.zipWith (· ^^^ ·)
      (List.replicate (emLen nbits - md.size - pSalt.length - 2) 0 ++ 0x01 :: pSalt) mask ≠ [] := by
    rw [Ne, List.zipWith_eq_nil_iff]
    rintro (h | h)
    · exact List.append_ne_nil_of_right_ne_nil _ (List.cons_ne_nil _ _) h
    · exact hne h
  rw [addPkcs1Pss, if_neg (by omega)]
  dsimp only
  rw [hmask, Option.map_some, List.append_assoc, adjust_append hdb]

theorem exists_parts {block : List UInt8} {x : ℕ} (hx : x + md.size + 1 = emLen nbits)
    (hblock : block.length = emLen nbits + if numberOfBitsInByte0 nbits = 0 then 1 else 0) :
    ∃ lead maskedDB hashMBar trailer, block = lead ++ (maskedDB ++ (hashMBar ++ [trailer])) ∧
      leading nbits lead ∧ maskedDB.length = x ∧ hashMBar.length = md.size := by
  obtain ⟨l, hl⟩ : ∃ l, l = if numberOfBitsInByte0 nbits = 0 then 1 else 0 := ⟨_, rfl⟩
  rw [← hl] at hblock
  have hlast : (((block.drop l).drop x).drop md.size).length = 1 := by
    rw [List.length_drop, List.length_drop, List.length_drop]
    omega
  obtain ⟨trailer, htrailer⟩ := List.length_eq_one_iff.mp hlast
  refine ⟨block.take l, (block.drop l).take x, ((block.drop l).drop x).take md.size, trailer,
    ?_, ?_, ?_, ?_⟩
  · rw [← htrailer, List.take_append_drop, List.take_append_drop, List.take_append_drop]
  · rw [leading, ← hl, List.length_take]
    omega
  · rw [List.length_take, List.length_drop]
    omega
  · rw [List.length_take, List.length_drop, List.length_drop]
    omega

theorem size_ne_zero_of_add {pSalt : List UInt8} {r : ℤ × List UInt8}
    (hlen : md.size + pSalt.length + 2 ≤ emLen nbits)
    (h : addPkcs1Pss md nbits pHash pSalt = some r) : md.size ≠ 0 := by
  intro h0
  rw [addPkcs1Pss] at h
  split at h
  · cases h
  · dsimp only at h
    rw [mgf1_of_size h0 (by omega)] at h
    cases h

theorem add_fixed {pSalt block : List UInt8} {rv : ℤ} (hsize : md.size ≤ 64)
    (hlen : md.size + pSalt.length + 2 ≤ emLen nbits)
    (h : addPkcs1Pss md nbits pHash pSalt = some (rv, block)) :
    block.getLast? = some 0xbc ∧ (numberOfBitsInByte0 nbits = 0 → block.head? = some 0) := by
  obtain ⟨mask, hmask, hlmask⟩ := mgf1_spec (md.digest (mBar pHash pSalt))
    (size_ne_zero_of_add hlen h) (emLen nbits - md.size - 1)
  have hne : mask ≠ [] := List.ne_nil_of_length_pos (by omega)
  rw [addPkcs1Pss_eq hsize hlen hmask hne] at h
  obtain ⟨-, rfl⟩ := Prod.mk.inj (Option.some.inj h)
  constructor
  · rw [← List.append_assoc, ← List.append_assoc, List.getLast?_concat]
  · intro h0
    rw [if_pos h0]
    rfl

theorem verify_add (pHash : List UInt8) {pSalt : List UInt8} (hsize : md.size ≤ 64) (h0 : md.size ≠ 0)
    (hnbits : nbits ≠ 0) (hlt : md.size + pSalt.length + 2 < 2 ^ 32)
    (hlen : md.size + pSalt.length + 2 ≤ emLen nbits) :
    ∃ rv block, addPkcs1Pss md nbits pHash pSalt = some (rv, block) ∧
      block.length = (nbits.toNat + 7) / 8 ∧
      verifyPkcs1Pss md block nbits pHash pSalt.length = some 0 := by
  obtain ⟨-, -, hbytes⟩ := length_spec hnbits
  obtain ⟨mask, hmask, hlmask⟩ := mgf1_spec (md.digest (mBar pHash pSalt)) h0
    (emLen nbits - md.size - 1)
  have hne : mask ≠ [] := List.ne_nil_of_length_pos (by omega)
  obtain ⟨n, hn⟩ : ∃ n, n = emLen nbits - md.size - pSalt.length - 2 := ⟨_, rfl⟩
  have hdb : (List.replicate n (0 : UInt8) ++ 0x01 :: pSalt).length = mask.length := by
    rw [List.length_append, List.length_replicate, List.length_cons]
    omega
  have hmasked : (adjust (numberOfBitsInByte0 nbits) (List.zipWith (· ^^^ ·)
      (List.replicate n 0 ++ 0x01 :: pSalt) mask)).length = mask.length := by
    rw [length_adjust, List.length_zipWith, hdb, Nat.min_self]
  have hlead : leading nbits (if numberOfBitsInByte0 nbits = 0 then [0] else []) := by
    rw [leading]
    split <;> rfl
  refine ⟨_, _, addPkcs1Pss_eq hsize hlen hmask hne, ?_, ?_⟩
  · rw [← hn, List.length_append, List.length_append, List.length_append, hmasked,
      md.length_digest, List.length_singleton, hlead, hbytes, hlmask]
    omega
  · have hx : mask.length = emLen nbits - md.size - 1 := hlmask
    rw [← hn, verifyPkcs1Pss_eq_zero_iff hlt hlead (by rw [hmasked]; omega) (by rw [hmasked]; omega)
      (md.length_digest _), hmasked]
    have hbits := numberOfBitsInByte0_lt nbits
    refine ⟨adjust_adjust, mask, hx ▸ hmask, rfl, pSalt, ?_, rfl, rfl⟩
    have hcount : mask.length - pSalt.length - 1 = n := by omega
    rw [hcount, xor_comm (List.replicate n 0 ++ _), adjust_xor hdb.symm, adjust_padding hbits]

theorem add_of_verify {lead maskedDB hashMBar : List UInt8} {trailer : UInt8}
    (hsize : md.size ≤ 64) (hlt : md.size + lSalt + 2 < 2 ^ 32) (hlead : leading nbits lead)
    (hlen : maskedDB.length + md.size + 1 = emLen nbits) (hsalt : lSalt < maskedDB.length)
    (hhash : hashMBar.length = md.size)
    (h : verifyPkcs1Pss md (lead ++ (maskedDB ++ (hashMBar ++ [trailer]))) nbits pHash lSalt =
      some 0) :
    ∃ pSalt, pSalt.length = lSalt ∧ addPkcs1Pss md nbits pHash pSalt =
      some ((emLen nbits : ℤ), (if numberOfBitsInByte0 nbits = 0 then [0] else []) ++
        (maskedDB ++ (hashMBar ++ [0xbc]))) := by
  rw [verifyPkcs1Pss_eq_zero_iff hlt hlead hlen hsalt hhash] at h
  obtain ⟨hself, mask, hmask, hlmask, pSalt, hdb, hlsalt, hdigest⟩ := h
  have hx : emLen nbits - md.size - 1 = maskedDB.length := by omega
  have hcount : emLen nbits - md.size - pSalt.length - 2 = maskedDB.length - lSalt - 1 := by omega
  have hne : mask ≠ [] := List.ne_nil_of_length_pos (by omega)
  refine ⟨pSalt, hlsalt, ?_⟩
  rw [addPkcs1Pss_eq hsize (by omega) (by rw [hx, hdigest]; exact hmask) hne, hcount, ← hdb,
    xor_comm _ mask, adjust_xor hlmask, hself, hdigest]

end

/-- What was written for a salt is accepted, if the digest is not empty.  A block that is accepted
was written for a salt if and only if it ends in `0xbc` and the byte that only fills the buffer
is 0. -/
theorem pssMatches_iff (md : MDigest) (nbits : UInt32) (pHash : List UInt8) (lSalt : ℕ)
    (hsize : md.size ≤ 64) (hlen : md.size + lSalt + 2 ≤ (nbits.toNat - 1 + 7) / 8) :
    (∀ pSalt, pSalt.length = lSalt → ((∃ rv block,
        addPkcs1Pss md nbits pHash pSalt = some (rv, block) ∧ block.length = (nbits.toNat + 7) / 8 ∧
        verifyPkcs1Pss md block nbits pHash lSalt = some 0) ↔ md.size ≠ 0)) ∧
    ∀ block, block.length = (nbits.toNat + 7) / 8 →
      verifyPkcs1Pss md block nbits pHash lSalt = some 0 →
      ((∃ pSalt rv, pSalt.length = lSalt ∧ addPkcs1Pss md nbits pHash pSalt = some (rv, block)) ↔
        block.getLast? = some 0xbc ∧ ((nbits.toNat - 1) % 8 = 0 → block.head? = some 0)) := by
  have hnbits : nbits ≠ 0 := by
    rintro rfl
    exact absurd hlen (by rw [UInt32.toNat_zero]; omega)
  obtain ⟨hbits, hem, hbytes⟩ := length_spec hnbits
  have hlt : md.size + lSalt + 2 < 2 ^ 32 := by
    have := nbits.toNat_lt
    omega
  rw [← hem] at hlen
  rw [← hbits, hbytes]
  constructor
  · rintro pSalt rfl
    constructor
    · rintro ⟨rv, block, hadd, -, -⟩
      exact size_ne_zero_of_add hlen hadd
    · intro h0
      obtain ⟨rv, block, hadd, hlength, hverify⟩ :=
        verify_add pHash hsize h0 hnbits hlt hlen
      exact ⟨rv, block, hadd, hlength.trans hbytes, hverify⟩
  · intro block hblock hverify
    have hx : emLen nbits - md.size - 1 + md.size + 1 = emLen nbits := by omega
    obtain ⟨lead, maskedDB, hashMBar, trailer, rfl, hlead, hx, hhash⟩ := exists_parts hx hblock
    have hsum : maskedDB.length + md.size + 1 = emLen nbits := by omega
    obtain ⟨pSalt, hlsalt, hadd⟩ :=
      add_of_verify hsize hlt hlead hsum (by omega) hhash hverify
    constructor
    · rintro ⟨pSalt', rv, rfl, hadd'⟩
      exact add_fixed hsize hlen hadd'
    · rintro ⟨hlast, hhead⟩
      refine ⟨pSalt, emLen nbits, hlsalt, ?_⟩
      rw [← List.append_assoc, ← List.append_assoc, List.getLast?_concat] at hlast
      have hfill : lead = if numberOfBitsInByte0 nbits = 0 then [0] else [] := by
        rw [leading] at hlead
        split at hlead
        · next h0 =>
            obtain ⟨c, rfl⟩ := List.length_eq_one_iff.mp hlead
            rw [if_pos h0, Option.some.inj (hhead h0)]
        · next h0 => rw [if_neg h0, List.length_eq_zero_iff.mp hlead]
      rw [hadd, hfill, Option.some.inj hlast]

def lengthDigest : MDigest := ⟨fun msg => [UInt8.ofNat msg.length], 1, fun _ => rfl⟩

/-- A modulus of 33 bits and a salt of one byte: the block has a byte that only fills the buffer. -/
theorem pssMatches_lengthDigest :
    (∃ rv block, addPkcs1Pss lengthDigest 33 [7] [5] = some (rv, block) ∧
      block.length = ((33 : UInt32).toNat + 7) / 8 ∧
      verifyPkcs1Pss lengthDigest block 33 [7] 1 = some 0) ∧ ∃ pSalt rv, pSalt.length = 1 ∧
      addPkcs1Pss lengthDigest 33 [7] pSalt = some (rv, [0, 4, 0, 10, 0xbc]) := by
  have hiff := pssMatches_iff lengthDigest 33 [7] 1 (by decide) (by decide)
  exact ⟨(hiff.1 [5] rfl).mpr (by decide),
    (hiff.2 [0, 4, 0, 10, 0xbc] rfl (by decide)).mpr (by decide)⟩

/-- A block with another last byte is accepted. -/
theorem not_pssMatches_trailer : ¬∀ (md : MDigest) (nbits : UInt32) (pHash : List UInt8)
    (lSalt : ℕ), md.size ≤ 64 → md.size + lSalt + 2 ≤ (nbits.toNat - 1 + 7) / 8 →
    ∀ block, block.length = (nbits.toNat + 7) / 8 →
      verifyPkcs1Pss md block nbits pHash lSalt = some 0 →
      ∃ pSalt rv, pSalt.length = lSalt ∧ addPkcs1Pss md nbits pHash pSalt = some (rv, block) := by
  intro h
  obtain ⟨pSalt, rv, hlen, hadd⟩ :=
    h lengthDigest 25 [7] 0 (by decide) (by decide) [0, 4, 9, 0] rfl (by decide)
  obtain rfl := List.length_eq_zero_iff.mp hlen
  have hblock : addPkcs1Pss lengthDigest 25 [7] [] = some (3, [0, 4, 9, 0xbc]) := by decide
  rw [hblock] at hadd
  exact absurd (Prod.mk.inj (Option.some.inj hadd)).2 (by decide)

end Pss
end Gwenhywfar
