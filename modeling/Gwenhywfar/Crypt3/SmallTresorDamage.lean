import Gwenhywfar.Crypt3.SmallTresor
import Gwenhywfar.Crypt3.Unpadd

/-! # Damaged tresors

* `decryptIn`: `GWEN_SmallTresor_Decrypt` over a cipher of which only the lengths are known; there
  is no outcome where a byte outside of the contents is read or a product of two `int` overflows.
* `decryptsInside_iff`: what happens after the rounds depends on the text that they leave: the scan
  of the unpadding needs a byte that is not zero and the padding its bytes, and each of the two
  lengths needs its two bytes, for which `len-2` is no test. -/

namespace Gwenhywfar.SmallTresor

open Buffer (wsub wsub_of_le)
open Padd

/-- The functions of the cryptographic library: deciphering keeps the length, whatever is
deciphered, and errors are negative. -/
structure LengthCipher extends BlockCipher where
  length_decipher : ∀ {key src dst}, decipher key src = .ok dst → dst.length = src.length
  decipher_neg : ∀ {key src rv}, decipher key src = .error rv → rv < 0
  pbkdf2_neg : ∀ {password salt iterations rv},
    pbkdf2 password salt iterations = .error rv → rv < 0

/-! ### Deciphering -/

/-- `(p[0]<<8)+p[1]`, if there are two bytes. -/
def readWord (p : List UInt8) : Option ℕ := if p.length < 2 then none else some (word p)

/-- The loop of `_decode`; the key is read from the last bytes. -/
def decodeIn (cipher : LengthCipher) : ℕ → List UInt8 → Option (Except ℤ (List UInt8))
  | 0, p => some (.ok p)
  | k + 1, p =>
      if p.length < keySize then none
      else
        let len := p.length - keySize
        match cipher.decipher (p.drop len) (p.take len) with
        | .error rv => some (.error rv)
        | .ok dst => decodeIn cipher k dst

/-- The first part of `GWEN_SmallTresor_Decrypt`: what all rounds leave. -/
def decipherIn (cipher : LengthCipher) (p : List UInt8) (password : CString)
    (passwordIterations : ℤ) (cryptIterations : ℕ) : Option (Except ℤ (List UInt8)) :=
  if p.length < 2 then some (.error errorInvalid)
  else if wsub p.length 2 < word p then some (.error errorBadData)
  else
    match cipher.pbkdf2 password ((p.drop 2).take (word p)) passwordIterations with
    | .error rv => some (.error rv)
    | .ok key =>
        let rest := p.drop (2 + word p)
        if 2 ^ 31 ≤ keySize * cryptIterations then none
        else if rest.length < keySize * cryptIterations then some (.error errorInvalid)
        else
          match cipher.decipher key rest with
          | .error rv => some (.error rv)
          | .ok dst =>
              if cryptIterations = 0 then some (.ok [])
              else decodeIn cipher cryptIterations dst

/-- The last part of `GWEN_SmallTresor_Decrypt`: the result and the bytes that are appended. -/
def extractIn (p : List UInt8) : Option (ℤ × List UInt8) :=
  (readWord p).bind fun lRandom =>
    if wsub p.length 2 < lRandom then some (errorBadData, [])
    else
      let p := p.drop (2 + lRandom)
      (readWord p).bind fun lDest =>
        if wsub p.length 2 < lDest then some (errorBadData, [])
        else some (0, (p.drop 2).take lDest)

/-- `GWEN_SmallTresor_Decrypt`: the result and the bytes that are appended. -/
def decryptIn (cipher : LengthCipher) (p : List UInt8) (password : CString)
    (passwordIterations : ℤ) (cryptIterations : ℕ) : Option (ℤ × List UInt8) :=
  match decipherIn cipher p password passwordIterations cryptIterations with
  | none => none
  | some (.error rv) => some (rv, [])
  | some (.ok tbuf2) =>
      (unpaddWithIso9796_2 tbuf2).bind fun r =>
        if r.1 < 0 then some (r.1, []) else extractIn r.2

/-! ### The rounds -/

section
variable {cipher : LengthCipher}

theorem decodeIn_inside {k : ℕ} {p : List UInt8} (h : keySize * k ≤ p.length) :
    (∃ rv < 0, decodeIn cipher k p = some (.error rv)) ∨
      ∃ t, decodeIn cipher k p = some (.ok t) ∧ t.length ≤ p.length := by
  induction k generalizing p with
  | zero => exact Or.inr ⟨p, rfl, le_rfl⟩
  | succ k ih =>
      rw [Nat.mul_succ] at h
      rw [decodeIn, if_neg (by omega)]
      cases hd : cipher.decipher (p.drop (p.length - keySize)) (p.take (p.length - keySize)) with
      | error rv => exact Or.inl ⟨rv, cipher.decipher_neg hd, by simp [hd]⟩
      | ok dst =>
          have hlen := cipher.length_decipher hd
          rw [List.length_take] at hlen
          rcases ih (p := dst) (by omega) with ⟨rv, hrv, hrun⟩ | ⟨t, hrun, ht⟩
          · exact Or.inl ⟨rv, hrv, by simp [hd, hrun]⟩
          · exact Or.inr ⟨t, by simp [hd, hrun], by omega⟩

def KeyDerived (cipher : LengthCipher) (p : List UInt8) (password : CString)
    (passwordIterations : ℤ) : Prop :=
  2 ≤ p.length ∧ word p ≤ p.length - 2 ∧
    ∃ key, cipher.pbkdf2 password ((p.drop 2).take (word p)) passwordIterations = .ok key

theorem decipherIn_cases {p : List UInt8} (hlt : p.length < 2 ^ 32) (password : CString)
    (passwordIterations : ℤ) (cryptIterations : ℕ) :
    (KeyDerived cipher p password passwordIterations ∧ 2 ^ 31 ≤ keySize * cryptIterations ∧
      decipherIn cipher p password passwordIterations cryptIterations = none) ∨
    (¬(KeyDerived cipher p password passwordIterations ∧ 2 ^ 31 ≤ keySize * cryptIterations) ∧
      ((∃ rv < 0, decipherIn cipher p password passwordIterations cryptIterations =
          some (.error rv)) ∨
        ∃ t, decipherIn cipher p password passwordIterations cryptIterations = some (.ok t) ∧
          t.length < 2 ^ 32)) := by
  by_cases h2 : p.length < 2
  · refine Or.inr ⟨fun h => by have := h.1.1; omega, Or.inl ⟨errorInvalid, by decide, ?_⟩⟩
    rw [decipherIn, if_pos h2]
  by_cases hsalt : p.length - 2 < word p
  · refine Or.inr ⟨fun h => by have := h.1.2.1; omega, Or.inl ⟨errorBadData, by decide, ?_⟩⟩
    rw [decipherIn, if_neg h2, wsub_of_le (by omega) hlt, if_pos hsalt]
  rw [decipherIn, if_neg h2, wsub_of_le (by omega) hlt, if_neg hsalt]
  cases hkey : cipher.pbkdf2 password ((p.drop 2).take (word p)) passwordIterations with
  | error rv =>
      refine Or.inr ⟨?_, Or.inl ⟨rv, cipher.pbkdf2_neg hkey, rfl⟩⟩
      rintro ⟨⟨-, -, key, hok⟩, -⟩
      simp [hkey] at hok
  | ok key =>
      have hderived : KeyDerived cipher p password passwordIterations :=
        ⟨by omega, by omega, key, hkey⟩
      dsimp only
      by_cases hover : 2 ^ 31 ≤ keySize * cryptIterations
      · exact Or.inl ⟨hderived, hover, by rw [if_pos hover]⟩
      refine Or.inr ⟨fun h => hover h.2, ?_⟩
      rw [if_neg hover]
      by_cases hsmall : (p.drop (2 + word p)).length < keySize * cryptIterations
      · exact Or.inl ⟨errorInvalid, by decide, by rw [if_pos hsmall]⟩
      rw [if_neg hsmall]
      cases hd : cipher.decipher key (p.drop (2 + word p)) with
      | error rv => exact Or.inl ⟨rv, cipher.decipher_neg hd, rfl⟩
      | ok dst =>
          have hlen := cipher.length_decipher hd
          dsimp only
          by_cases hzero : cryptIterations = 0
          · exact Or.inr ⟨[], by rw [if_pos hzero], by simp⟩
          rw [if_neg hzero]
          rcases @decodeIn_inside cipher cryptIterations dst (by omega) with
            ⟨rv, hrv, hrun⟩ | ⟨t, hrun, ht⟩
          · exact Or.inl ⟨rv, hrv, hrun⟩
          · refine Or.inr ⟨t, hrun, ?_⟩
            rw [List.length_drop] at hlen
            omega

end

/-! ### The padding -/

/-- The mark is there, but fewer than the eight bytes behind it. -/
def CutShort (b : List UInt8) : Prop :=
  ∃ n rest, b = 0x60 :: (List.replicate n 0 ++ 0x01 :: rest) ∧ 11 ≤ b.length ∧ rest.length < 8

/-- What the unpadding leaves of a block: the data in front of the trailer, or everything where
only the trailer is missing. -/
def Leaves (b u : List UInt8) : Prop :=
  (∃ (n : ℕ) (random trailer : List UInt8), random.length = 8 ∧ trailer.length = 1 ∧
      b = 0x60 :: (List.replicate n 0 ++ 0x01 :: (random ++ u ++ trailer))) ∨
    ∃ (n : ℕ) (random : List UInt8), random.length = 8 ∧ 1 ≤ n ∧
      b = 0x60 :: (List.replicate n 0 ++ 0x01 :: random) ∧ u = b

section
variable {b u : List UInt8}

theorem unpadd_noMark (h : NoMark b) : unpaddWithIso9796_2 b = none := by
  obtain ⟨n, hn, rfl⟩ := h
  have hscan : (List.replicate n (0 : UInt8)).takeWhile (· == 0) = List.replicate n 0 := by
    simp
  rw [unpaddWithIso9796_2, List.length_cons, List.length_replicate, if_neg (by omega)]
  simp [hscan]

theorem unpadd_mark {n : ℕ} {rest : List UInt8} (h : 9 ≤ n + rest.length) :
    unpaddWithIso9796_2 (0x60 :: (List.replicate n 0 ++ 0x01 :: rest)) =
      (crop (0x60 :: (List.replicate n 0 ++ 0x01 :: rest)) (10 + n)
        (wsub (wsub (n + rest.length + 2) 11) n)).map fun b => (0, b) := by
  rw [unpaddIso_mark (by decide), if_neg (by omega), if_neg (not_not_intro rfl)]

theorem length_mark (n : ℕ) (rest : List UInt8) :
    (0x60 :: (List.replicate n (0 : UInt8) ++ 0x01 :: rest)).length = n + rest.length + 2 := by
  simp
  omega

theorem unpadd_cutShort (hlt : b.length < 2 ^ 32) (h : CutShort b) :
    unpaddWithIso9796_2 b = none := by
  obtain ⟨n, rest, rfl, h11, h8⟩ := h
  rw [length_mark] at hlt h11
  rw [unpadd_mark (by omega), crop, length_mark,
    if_neg (show ¬10 + n ≤ n + rest.length + 2 by omega)]
  have hsize : wsub (wsub (n + rest.length + 2) 11) n = 2 ^ 32 + rest.length - 9 := by
    unfold Buffer.wsub
    omega
  rw [hsize, if_neg (by omega), if_pos (by omega), Option.map_none]

theorem unpadd_of_leaves (hlt : b.length < 2 ^ 32) (h : Leaves b u) :
    unpaddWithIso9796_2 b = some (0, u) := by
  rcases h with ⟨n, random, trailer, hrandom, htrailer, rfl⟩ | ⟨n, random, hrandom, hn, rfl, rfl⟩
  · have hlen : (random ++ u ++ trailer).length = u.length + 9 := by
      rw [List.length_append, List.length_append]
      omega
    rw [length_mark, hlen] at hlt
    have hsize : wsub (wsub (n + (random ++ u ++ trailer).length + 2) 11) n = u.length := by
      rw [hlen]
      unfold Buffer.wsub
      omega
    rw [unpadd_mark (by omega), hsize]
    have hsplit : (0x60 : UInt8) :: (List.replicate n 0 ++ 0x01 :: (random ++ u ++ trailer)) =
        (0x60 :: (List.replicate n 0 ++ 0x01 :: random)) ++ (u ++ trailer) := by
      simp
    have hfront : (0x60 :: (List.replicate n (0 : UInt8) ++ 0x01 :: random)).length = 10 + n := by
      rw [length_mark]
      omega
    rw [hsplit, ← hfront, crop_append, Option.map_some]
  · rw [length_mark] at hlt
    rw [unpadd_mark (by omega), crop, length_mark,
      if_pos (show 10 + n ≤ n + random.length + 2 by omega)]
    have hsize : wsub (wsub (n + random.length + 2) 11) n = 2 ^ 32 - 1 := by
      unfold Buffer.wsub
      omega
    rw [hsize, if_pos (by omega), Option.map_some]

theorem unpadd_result {rv : ℤ} (h : unpaddWithIso9796_2 b = some (rv, u)) : rv ≤ 0 := by
  rw [unpaddWithIso9796_2] at h
  by_cases h11 : b.length < 11
  · rw [if_pos h11, Option.some.injEq, Prod.mk.injEq] at h
    rw [← h.1]
    decide
  by_cases hhead : b.head? ≠ some 0x60
  · rw [if_neg h11, if_pos hhead, Option.some.injEq, Prod.mk.injEq] at h
    rw [← h.1]
    decide
  rw [if_neg h11, if_neg hhead] at h
  dsimp only at h
  obtain ⟨c, -, h⟩ := Option.bind_eq_some_iff.mp h
  by_cases hc : c ≠ 0x01
  · rw [if_pos hc, Option.some.injEq, Prod.mk.injEq] at h
    rw [← h.1]
    decide
  · rw [if_neg hc] at h
    obtain ⟨_, -, h⟩ := Option.map_eq_some_iff.mp h
    rw [(Prod.mk.inj h).1.symm]

theorem unpadd_total (hlt : b.length < 2 ^ 32) (hmark : ¬NoMark b) (hshort : ¬CutShort b) :
    ∃ rv u, unpaddWithIso9796_2 b = some (rv, u) ∧ (rv < 0 ∨ rv = 0 ∧ Leaves b u) := by
  by_cases hcut : CutOff b
  · obtain ⟨n, rest, hb, h11, h9⟩ := hcut
    have h8 : rest.length = 8 := by
      by_contra hne
      exact hshort ⟨n, rest, hb, h11, by omega⟩
    have hn : 1 ≤ n := by
      rw [hb, length_mark] at h11
      omega
    have hleaves : Leaves b b := Or.inr ⟨n, rest, h8, hn, hb, rfl⟩
    exact ⟨0, b, unpadd_of_leaves hlt hleaves, Or.inr ⟨rfl, hleaves⟩⟩
  · obtain ⟨rv, u, hrun, hzero⟩ := (unpaddsIso_iff hlt).mpr ⟨hmark, hcut⟩
    refine ⟨rv, u, hrun, (unpadd_result hrun).lt_or_eq.imp id fun h0 => ⟨h0, ?_⟩⟩
    exact Or.inl (hzero h0)

theorem infix_of_leaves (h : Leaves b u) : u <:+: b := by
  rcases h with ⟨n, random, trailer, -, -, rfl⟩ | ⟨n, random, -, -, -, rfl⟩
  · exact ⟨0x60 :: (List.replicate n 0 ++ 0x01 :: random), trailer, by simp⟩
  · exact List.infix_rfl

end

/-! ### The data between the random areas -/

/-- The two bytes of each length that is read are there. -/
def HasLengths (u : List UInt8) : Prop :=
  2 ≤ u.length ∧ (word u ≤ u.length - 2 → word u + 4 ≤ u.length)

section
variable {u : List UInt8}

theorem readWord_of_le (h : 2 ≤ u.length) : readWord u = some (word u) := by
  rw [readWord, if_neg (by omega)]

theorem hasLengths_of_extractIn (hlt : u.length < 2 ^ 32) {r : ℤ × List UInt8}
    (h : extractIn u = some r) : HasLengths u := by
  obtain ⟨lRandom, hrandom, h⟩ := Option.bind_eq_some_iff.mp h
  have h2 : 2 ≤ u.length := by
    by_contra hlen
    rw [readWord, if_pos (by omega)] at hrandom
    simp at hrandom
  refine ⟨h2, fun hle => ?_⟩
  rw [readWord_of_le h2, Option.some.injEq] at hrandom
  subst hrandom
  rw [wsub_of_le h2 hlt, if_neg (by omega)] at h
  obtain ⟨lDest, hdest, -⟩ := Option.bind_eq_some_iff.mp h
  by_contra hlen
  rw [readWord, List.length_drop, if_pos (by omega)] at hdest
  simp at hdest

theorem extractIn_of_hasLengths (hlt : u.length < 2 ^ 32) (h : HasLengths u) :
    ∃ rv out, extractIn u = some (rv, out) ∧ (rv < 0 ∧ out = [] ∨
        rv = 0 ∧ 2 + word u ≤ u.length ∧ out <:+: u.drop (2 + word u)) := by
  obtain ⟨h2, h4⟩ := h
  rw [extractIn, readWord_of_le h2, Option.bind_some, wsub_of_le h2 hlt]
  by_cases hrandom : u.length - 2 < word u
  · exact ⟨errorBadData, [], by rw [if_pos hrandom], Or.inl ⟨by decide, rfl⟩⟩
  have hlen := h4 (by omega)
  have hrest : 2 ≤ (u.drop (2 + word u)).length := by
    rw [List.length_drop]
    omega
  rw [if_neg hrandom]
  dsimp only
  rw [readWord_of_le hrest, Option.bind_some]
  by_cases hdest : wsub (u.drop (2 + word u)).length 2 < word (u.drop (2 + word u))
  · exact ⟨errorBadData, [], by rw [if_pos hdest], Or.inl ⟨by decide, rfl⟩⟩
  · refine ⟨0, _, by rw [if_neg hdest], Or.inr ⟨rfl, by omega, ?_⟩⟩
    exact (List.take_prefix _ _).isInfix.trans (List.drop_suffix _ _).isInfix

end

/-! ### The whole tresor -/

section
variable {cipher : LengthCipher} {p : List UInt8}

/-- Nothing is read behind the contents of a buffer; an error leaves the destination as it is, and
without an error a part of the plain text behind the first random area is appended. -/
def DecryptsInside (cipher : LengthCipher) (p : List UInt8) (password : CString)
    (passwordIterations : ℤ) (cryptIterations : ℕ) : Prop :=
  ∃ rv out, decryptIn cipher p password passwordIterations cryptIterations = some (rv, out) ∧
    (rv < 0 ∧ out = [] ∨
      rv = 0 ∧ ∃ t u, decipherIn cipher p password passwordIterations cryptIterations =
          some (.ok t) ∧ u <:+: t ∧ 2 + word u ≤ u.length ∧ out <:+: u.drop (2 + word u))

/-- The length of all keys is an `int`, and the text that the rounds leave has a mark, the padding
behind it and the bytes of both lengths. -/
def FitsDamaged (cipher : LengthCipher) (p : List UInt8) (password : CString)
    (passwordIterations : ℤ) (cryptIterations : ℕ) : Prop :=
  ¬(KeyDerived cipher p password passwordIterations ∧ 2 ^ 31 ≤ keySize * cryptIterations) ∧
    ∀ t, decipherIn cipher p password passwordIterations cryptIterations = some (.ok t) →
      ¬NoMark t ∧ ¬CutShort t ∧ ∀ u, Leaves t u → HasLengths u

theorem afterRounds_iff {t : List UInt8} (hlt : t.length < 2 ^ 32) :
    (∃ rv out, (unpaddWithIso9796_2 t).bind (fun r =>
        if r.1 < 0 then some (r.1, []) else extractIn r.2) = some (rv, out) ∧
      (rv < 0 ∧ out = [] ∨
        rv = 0 ∧ ∃ u, u <:+: t ∧ 2 + word u ≤ u.length ∧ out <:+: u.drop (2 + word u))) ↔
      ¬NoMark t ∧ ¬CutShort t ∧ ∀ u, Leaves t u → HasLengths u := by
  constructor
  · rintro ⟨rv, out, hrun, -⟩
    refine ⟨fun hmark => ?_, fun hshort => ?_, fun u hu => ?_⟩
    · simp [unpadd_noMark hmark] at hrun
    · simp [unpadd_cutShort hlt hshort] at hrun
    · rw [unpadd_of_leaves hlt hu, Option.bind_some, if_neg (lt_irrefl _)] at hrun
      exact hasLengths_of_extractIn ((infix_of_leaves hu).length_le.trans_lt hlt) hrun
  · rintro ⟨hmark, hshort, hlengths⟩
    obtain ⟨rv, u, hrun, hrv | ⟨rfl, hu⟩⟩ := unpadd_total hlt hmark hshort
    · exact ⟨rv, [], by simp [hrun, hrv], Or.inl ⟨hrv, rfl⟩⟩
    · obtain ⟨rv, out, hextract, hout⟩ := extractIn_of_hasLengths
        ((infix_of_leaves hu).length_le.trans_lt hlt) (hlengths u hu)
      refine ⟨rv, out, by simp [hrun, hextract], hout.imp id ?_⟩
      rintro ⟨h0, hlen, hpart⟩
      exact ⟨h0, u, infix_of_leaves hu, hlen, hpart⟩

theorem decryptsInside_iff (hlt : p.length < 2 ^ 32) (password : CString)
    (passwordIterations : ℤ) (cryptIterations : ℕ) :
    DecryptsInside cipher p password passwordIterations cryptIterations ↔
      FitsDamaged cipher p password passwordIterations cryptIterations := by
  rw [DecryptsInside, FitsDamaged, decryptIn]
  rcases @decipherIn_cases cipher p hlt password passwordIterations cryptIterations with
    ⟨hkey, hover, hrun⟩ | ⟨hfits, ⟨rv, hrv, hrun⟩ | ⟨t, hrun, ht⟩⟩
  · rw [hrun]
    exact iff_of_false (by simp) fun h => h.1 ⟨hkey, hover⟩
  · refine iff_of_true ⟨rv, [], by rw [hrun], Or.inl ⟨hrv, rfl⟩⟩ ⟨hfits, ?_⟩
    intro t ht
    simp [hrun] at ht
  · have hafter := afterRounds_iff ht
    rw [hrun]
    constructor
    · rintro ⟨rv, out, hout, hresult⟩
      refine ⟨hfits, fun t' ht' => ?_⟩
      obtain rfl := Except.ok.inj (Option.some.inj ht')
      refine hafter.mp ⟨rv, out, hout, hresult.imp id ?_⟩
      rintro ⟨h0, t', u, ht', hpart⟩
      obtain rfl := Except.ok.inj (Option.some.inj ht')
      exact ⟨h0, u, hpart⟩
    · rintro ⟨-, h⟩
      obtain ⟨rv, out, hout, hresult⟩ := hafter.mpr (h t rfl)
      refine ⟨rv, out, hout, hresult.imp id ?_⟩
      rintro ⟨h0, u, hpart⟩
      exact ⟨h0, t, u, rfl, hpart⟩

end

/-- A cipher for blocks of eight bytes that leaves them as they are. -/
def plainCipher : LengthCipher where
  pbkdf2 := fun _ _ _ => .ok []
  encipher := fun _ src => if src.length % 8 = 0 then .ok src else .error errorInvalid
  decipher := fun _ src => if src.length % 8 = 0 then .ok src else .error errorInvalid
  length_encipher := fun {key src dst} h => by
    by_cases h8 : src.length % 8 = 0
    · rw [if_pos h8] at h
      rw [Except.ok.inj h]
    · simp [h8] at h
  decipher_encipher := fun {key src dst} h => by
    by_cases h8 : src.length % 8 = 0
    · rw [if_pos h8] at h
      rw [← Except.ok.inj h, if_pos h8]
    · simp [h8] at h
  length_decipher := fun {key src dst} h => by
    by_cases h8 : src.length % 8 = 0
    · rw [if_pos h8] at h
      rw [Except.ok.inj h]
    · simp [h8] at h
  decipher_neg := fun {key src rv} h => by
    by_cases h8 : src.length % 8 = 0
    · simp [h8] at h
    · rw [if_neg h8] at h
      rw [← Except.error.inj h]
      decide
  pbkdf2_neg := fun h => by simp at h

/-- A text with a first random area of two bytes, three bytes of data and none behind them. -/
def sampleText : List UInt8 :=
  0x60 :: (List.replicate 4 0 ++
    0x01 :: (List.replicate 8 1 ++ [0, 2, 7, 7, 0, 3, 10, 11, 12] ++ [0xbc]))

/-- A tresor with a salt, a round and three bytes of data. -/
theorem decryptsInside_sample :
    decryptIn plainCipher ([0, 3, 4, 5, 6] ++ sampleText ++ List.replicate 32 9)
        (CString.ofBytes [97]) 1 1 = some (0, [10, 11, 12]) ∧
      DecryptsInside plainCipher ([0, 3, 4, 5, 6] ++ sampleText ++ List.replicate 32 9)
        (CString.ofBytes [97]) 1 1 := by
  have hrounds : decipherIn plainCipher ([0, 3, 4, 5, 6] ++ sampleText ++ List.replicate 32 9)
      (CString.ofBytes [97]) 1 1 = some (.ok sampleText) := rfl
  have hunpadd : unpaddWithIso9796_2 sampleText =
      some (0, [0, 2, 7, 7, 0, 3, 10, 11, 12]) := rfl
  have hlt : sampleText.length < 2 ^ 32 := by decide
  refine ⟨rfl, (decryptsInside_iff (by decide) _ _ _).mpr ⟨?_, fun t ht => ?_⟩⟩
  · rintro ⟨-, hover⟩
    exact absurd hover (by decide)
  obtain rfl : sampleText = t := Except.ok.inj (Option.some.inj (hrounds.symm.trans ht))
  refine ⟨fun hmark => ?_, fun hshort => ?_, fun u hu => ?_⟩
  · exact absurd (hunpadd.symm.trans (unpadd_noMark hmark)) (by simp)
  · exact absurd (hunpadd.symm.trans (unpadd_cutShort hlt hshort)) (by simp)
  · have hu' := hunpadd.symm.trans (unpadd_of_leaves hlt hu)
    obtain rfl := (Prod.mk.inj (Option.some.inj hu')).2
    exact ⟨by decide, fun _ => by decide⟩

def oneByteText : List UInt8 :=
  0x60 :: (List.replicate 0 0 ++ 0x01 :: (List.replicate 8 1 ++ [0, 2, 7, 7, 0xff] ++ [0xbc]))

/-- The length of the data is read from behind the end of the text. -/
theorem not_decryptsInside_oneByte : ¬DecryptsInside plainCipher
    ([0, 0] ++ oneByteText ++ List.replicate 32 0) (CString.ofBytes [97]) 1 1 := by
  rintro ⟨rv, out, hrun, -⟩
  have hrounds : decipherIn plainCipher ([0, 0] ++ oneByteText ++ List.replicate 32 0)
      (CString.ofBytes [97]) 1 1 = some (.ok oneByteText) := rfl
  have hunpadd : unpaddWithIso9796_2 oneByteText = some (0, [0, 2, 7, 7, 0xff]) := rfl
  have hextract : extractIn [0, 2, 7, 7, 0xff] = none := rfl
  rw [decryptIn, hrounds] at hrun
  simp [hunpadd, hextract] at hrun
end Gwenhywfar.SmallTresor
