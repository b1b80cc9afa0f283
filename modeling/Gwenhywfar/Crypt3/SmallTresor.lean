import Gwenhywfar.Base.CString
import Gwenhywfar.Crypt3.Padd

/-! # Small tresors

A small tresor has a salt and the data, which is enciphered in rounds, each with a key of its own
behind its data, and once more with a key that is derived from a password.

* `BlockCipher`: the functions of the cryptographic library, for which the law holds that
  deciphering undoes enciphering and enciphering keeps the length.
* `decode_encode`: the rounds are unwound in the reverse order.
* `decrypt_encrypt_iff`: the data is restored exactly when its length fits the two bytes for it,
  which `GWEN_SmallTresor_Encrypt` does not check. -/

namespace Gwenhywfar.SmallTresor

open Buffer (wadd)
open Padd
open CString (ofBytes)

/-! ### Parameters -/

/-- `BLOWFISH_KEYSIZE`. -/
def keySize : ℕ := 32

/-- A key for a round. -/
structure RoundKey where
  bytes : List UInt8
  length_eq : bytes.length = keySize

/-- `GWEN_MDigest_PBKDF2` and the functions for Blowfish keys; an error is a code. -/
structure BlockCipher where
  pbkdf2 : (password : CString) → (salt : List UInt8) → (iterations : ℤ) → Except ℤ (List UInt8)
  encipher : (key : List UInt8) → (src : List UInt8) → Except ℤ (List UInt8)
  decipher : (key : List UInt8) → (src : List UInt8) → Except ℤ (List UInt8)
  length_encipher : ∀ {key src dst}, encipher key src = .ok dst → dst.length = src.length
  decipher_encipher : ∀ {key src dst}, encipher key src = .ok dst → decipher key dst = .ok src

/-- The random bytes of `_addRandomBytes`. -/
structure RandomArea where
  v0 : UInt8
  v1 : UInt8
  bytes : ℕ → UInt8

/-- What is drawn by a call of `GWEN_SmallTresor_Encrypt`; a key may not be available. -/
structure Draws where
  salt : ℕ → UInt8
  front : RandomArea
  back : RandomArea
  padding : ℕ → UInt8
  keys : ℕ → Except ℤ RoundKey

/-! ### Enciphering -/

/-- Two bytes of a length, the high one first. -/
def wordBytes (n : ℕ) : List UInt8 := [UInt8.ofNat (n >>> 8), UInt8.ofNat n]

/-- The length that was drawn. -/
def RandomArea.len (area : RandomArea) : ℕ := (area.v0.toNat <<< 8 + area.v1.toNat) &&& 0x3fff

/-- `_addRandomBytes`: the bytes that are appended. -/
def addRandomBytes (area : RandomArea) (withLength : Bool) : List UInt8 :=
  (if withLength then wordBytes area.len else []) ++ (List.range area.len).map area.bytes

/-- `_encode`, from the `i`-th round on. -/
def encode (cipher : BlockCipher) (keys : ℕ → Except ℤ RoundKey) :
    (iterations : ℕ) → (i : ℕ) → List UInt8 → Except ℤ (List UInt8)
  | 0, _, p => .ok p
  | k + 1, i, p => do
      let ck ← keys i
      let dst ← cipher.encipher ck.bytes p
      encode cipher keys k (i + 1) (dst ++ ck.bytes)

/-- The data with its length, between two random areas. -/
def tresorBytes (draws : Draws) (src : List UInt8) : List UInt8 :=
  addRandomBytes draws.front true ++
    (wordBytes src.length ++ (src ++ addRandomBytes draws.back false))

/-- `GWEN_SmallTresor_Encrypt`: the bytes that are appended. -/
def encrypt (cipher : BlockCipher) (draws : Draws) (src : List UInt8) (password : CString)
    (passwordIterations : ℤ) (cryptIterations : ℕ) : Except ℤ (List UInt8) := do
  let salt := (List.range 128).map draws.salt
  let key ← cipher.pbkdf2 password salt passwordIterations
  let tbuf := tresorBytes draws src
  let x := wadd tbuf.length (7 + 12) / 8 * 8
  let padded := paddWithIso9796_2 draws.padding tbuf x
  if padded.1 < 0 then .error padded.1
  else
    let xbuf ← encode cipher draws.keys cryptIterations 0 padded.2
    let dst ← cipher.encipher key xbuf
    .ok (wordBytes salt.length ++ (salt ++ dst))

/-! ### Deciphering -/

/-- The number in the first two bytes; a byte behind the end is taken as 0. -/
def word : List UInt8 → ℕ
  | [] => 0
  | [c] => c.toNat <<< 8
  | c :: d :: _ => c.toNat <<< 8 + d.toNat

/-- The loop of `_decode`; the last bytes are the key of a round. -/
def decodeRounds (cipher : BlockCipher) : (iterations : ℕ) → List UInt8 → Except ℤ (List UInt8)
  | 0, p => .ok p
  | k + 1, p => do
      let len := p.length - keySize
      let dst ← cipher.decipher (p.drop len) (p.take len)
      decodeRounds cipher k dst

/-- `_decode`; without a round nothing is appended. -/
def decode (cipher : BlockCipher) (iterations : ℕ) (p : List UInt8) : Except ℤ (List UInt8) :=
  if iterations = 0 then .ok [] else decodeRounds cipher iterations p

/-- The first part of `GWEN_SmallTresor_Decrypt`: what all rounds leave. -/
def decipherAll (cipher : BlockCipher) (p : List UInt8) (password : CString)
    (passwordIterations : ℤ) (cryptIterations : ℕ) : Except ℤ (List UInt8) :=
  if p.length < 2 then .error errorInvalid
  else if p.length - 2 < word p then .error errorBadData
  else do
    let key ← cipher.pbkdf2 password ((p.drop 2).take (word p)) passwordIterations
    let rest := p.drop (2 + word p)
    if rest.length < keySize * cryptIterations then .error errorInvalid
    else
      let dst ← cipher.decipher key rest
      decode cipher cryptIterations dst

/-- The last part of `GWEN_SmallTresor_Decrypt`: the data between the random areas. -/
def extract (p : List UInt8) : Except ℤ (List UInt8) :=
  if p.length - 2 < word p then .error errorBadData
  else
    let p := p.drop (2 + word p)
    if p.length - 2 < word p then .error errorBadData
    else .ok ((p.drop 2).take (word p))

/-- `GWEN_SmallTresor_Decrypt`: the bytes that are appended.  There is no outcome when the
unpadding reads bytes outside of the buffer. -/
def decrypt (cipher : BlockCipher) (p : List UInt8) (password : CString) (passwordIterations : ℤ)
    (cryptIterations : ℕ) : Option (Except ℤ (List UInt8)) :=
  match decipherAll cipher p password passwordIterations cryptIterations with
  | .error rv => some (.error rv)
  | .ok tbuf2 =>
      (unpaddWithIso9796_2 tbuf2).map fun r => if r.1 < 0 then .error r.1 else extract r.2

/-! ### The rounds -/

section
variable {cipher : BlockCipher} {keys : ℕ → Except ℤ RoundKey} {p out : List UInt8}

theorem of_bind_ok {α β : Type} {x : Except ℤ α} {f : α → Except ℤ β} {b : β}
    (h : (x >>= f) = .ok b) : ∃ a, x = .ok a ∧ f a = .ok b := by
  cases x with
  | error e => cases h
  | ok a => exact ⟨a, rfl, h⟩

theorem decodeRounds_succ {ck : RoundKey} {dst : List UInt8} (k : ℕ)
    (h : cipher.encipher ck.bytes p = .ok dst) :
    decodeRounds cipher (k + 1) (dst ++ ck.bytes) = decodeRounds cipher k p := by
  have hlen : (dst ++ ck.bytes).length - keySize = dst.length := by
    rw [List.length_append, ck.length_eq, Nat.add_sub_cancel]
  rw [decodeRounds, hlen, List.drop_left, List.take_left, cipher.decipher_encipher h]
  rfl

theorem decodeRounds_encode : ∀ {k : ℕ} {i : ℕ} {p : List UInt8} (j : ℕ),
    encode cipher keys k i p = .ok out →
    decodeRounds cipher (j + k) out = decodeRounds cipher j p ∧
      out.length = p.length + keySize * k
  | 0, i, p, j, h => by
      rw [encode] at h
      obtain rfl := Except.ok.inj h
      exact ⟨rfl, rfl⟩
  | k + 1, i, p, j, h => by
      rw [encode] at h
      obtain ⟨ck, -, h⟩ := of_bind_ok h
      obtain ⟨dst, hdst, h⟩ := of_bind_ok h
      obtain ⟨hrounds, hlen⟩ := decodeRounds_encode (j + 1) h
      refine ⟨?_, ?_⟩
      · rw [← decodeRounds_succ j hdst, ← hrounds]
        congr 1
        omega
      · rw [hlen, List.length_append, ck.length_eq, cipher.length_encipher hdst, Nat.mul_succ]
        omega

theorem decode_encode {k : ℕ} (hk : 1 ≤ k) (h : encode cipher keys k 0 p = .ok out) :
    decode cipher k out = .ok p ∧ out.length = p.length + keySize * k := by
  obtain ⟨hrounds, hlen⟩ := decodeRounds_encode 0 h
  rw [Nat.zero_add, decodeRounds] at hrounds
  rw [decode, if_neg (by omega)]
  exact ⟨hrounds, hlen⟩

end

/-! ### The data between the random areas -/

section
variable {rest : List UInt8}

theorem length_wordBytes (n : ℕ) : (wordBytes n).length = 2 := rfl

theorem word_wordBytes (n : ℕ) (rest : List UInt8) : word (wordBytes n ++ rest) = n % 2 ^ 16 := by
  change (UInt8.ofNat (n >>> 8)).toNat <<< 8 + (UInt8.ofNat n).toNat = _
  rw [UInt8.toNat_ofNat', UInt8.toNat_ofNat', Nat.shiftRight_eq_div_pow, Nat.shiftLeft_eq]
  omega

theorem RandomArea.len_lt (area : RandomArea) : area.len < 2 ^ 14 := by
  rw [RandomArea.len, Nat.and_two_pow_sub_one_eq_mod _ 14]
  exact Nat.mod_lt _ (by decide)

theorem extract_tresorBytes (draws : Draws) (src : List UInt8) : extract (tresorBytes draws src) =
      .ok ((src ++ addRandomBytes draws.back false).take (src.length % 2 ^ 16)) := by
  have harea := draws.front.len_lt
  have hfront : tresorBytes draws src = wordBytes draws.front.len ++
      ((List.range draws.front.len).map draws.front.bytes ++
        (wordBytes src.length ++ (src ++ addRandomBytes draws.back false))) := by
    rw [tresorBytes, addRandomBytes, if_pos rfl, List.append_assoc]
  have hdrop : (tresorBytes draws src).drop (2 + draws.front.len) =
      wordBytes src.length ++ (src ++ addRandomBytes draws.back false) := by
    have hlen : (wordBytes draws.front.len ++
        (List.range draws.front.len).map draws.front.bytes).length = 2 + draws.front.len := by
      rw [List.length_append, length_wordBytes, List.length_map, List.length_range]
    rw [hfront, ← List.append_assoc, ← hlen, List.drop_left]
  have hword : word (tresorBytes draws src) = draws.front.len := by
    rw [hfront, word_wordBytes, Nat.mod_eq_of_lt (by omega)]
  have hlen : (tresorBytes draws src).length = 2 + (draws.front.len +
      (2 + (src.length + (addRandomBytes draws.back false).length))) := by
    rw [hfront]
    simp only [List.length_append, length_wordBytes, List.length_map, List.length_range]
  have hmod := Nat.mod_le src.length (2 ^ 16)
  rw [extract, hword, if_neg (by omega), hdrop]
  dsimp only
  rw [word_wordBytes, if_neg]
  · rw [← length_wordBytes src.length, List.drop_left]
  · rw [List.length_append, length_wordBytes, List.length_append]
    omega

end

/-! ### The round trip -/

section
variable {cipher : BlockCipher} {draws : Draws} {src out : List UInt8} {password : CString}
  {passwordIterations : ℤ} {cryptIterations : ℕ}

/-- What is enciphered successfully consists of the salt and the data of all rounds. -/
theorem encrypt_spec
    (h : encrypt cipher draws src password passwordIterations cryptIterations = .ok out) :
    ∃ key tbuf xbuf dst,
      cipher.pbkdf2 password ((List.range 128).map draws.salt) passwordIterations = .ok key ∧
      unpaddWithIso9796_2 tbuf = some (0, tresorBytes draws src) ∧
      encode cipher draws.keys cryptIterations 0 tbuf = .ok xbuf ∧
      cipher.encipher key xbuf = .ok dst ∧
      out = wordBytes 128 ++ ((List.range 128).map draws.salt ++ dst) := by
  rw [encrypt] at h
  obtain ⟨key, hkey, h⟩ := of_bind_ok h
  dsimp only at h
  generalize hpadded : paddWithIso9796_2 draws.padding (tresorBytes draws src)
    (wadd (tresorBytes draws src).length (7 + 12) / 8 * 8) = padded at h
  split at h
  · cases h
  · next hge =>
      obtain ⟨xbuf, hxbuf, h⟩ := of_bind_ok h
      obtain ⟨dst, hdst, h⟩ := of_bind_ok h
      have hzero : padded = (0, padded.2) := by
        rw [paddWithIso9796_2] at hpadded
        split at hpadded
        · subst hpadded
          exact absurd (show errorInvalid < 0 by decide) hge
        · subst hpadded
          rfl
      have hsize : wadd (tresorBytes draws src).length (7 + 12) / 8 * 8 < 2 ^ 32 :=
        (Nat.div_mul_le_self _ _).trans_lt (Nat.mod_lt _ (by decide))
      refine ⟨key, padded.2, xbuf, dst, hkey, ?_, hxbuf, hdst, ?_⟩
      · exact (iso9796_2_restores hsize (hpadded.trans hzero)).2.2
      · rw [List.length_map, List.length_range] at h
        exact (Except.ok.inj h).symm

/-- All rounds are undone. -/
theorem decrypt_encrypt (hit : 1 ≤ cryptIterations)
    (h : encrypt cipher draws src password passwordIterations cryptIterations = .ok out) :
    decrypt cipher out password passwordIterations cryptIterations =
      some (.ok ((src ++ addRandomBytes draws.back false).take (src.length % 2 ^ 16))) := by
  obtain ⟨key, tbuf, xbuf, dst, hkey, hunpadd, hxbuf, hdst, rfl⟩ := encrypt_spec h
  obtain ⟨hdecode, hlen⟩ := decode_encode hit hxbuf
  have hsalt : ((List.range 128).map draws.salt).length = 128 := by
    rw [List.length_map, List.length_range]
  have hword : word (wordBytes 128 ++ ((List.range 128).map draws.salt ++ dst)) = 128 :=
    word_wordBytes 128 _
  have hsize : (wordBytes 128 ++ ((List.range 128).map draws.salt ++ dst)).length =
      2 + (128 + dst.length) := by
    rw [List.length_append, length_wordBytes, List.length_append, hsalt]
  have htake : ((wordBytes 128 ++ ((List.range 128).map draws.salt ++ dst)).drop 2).take 128 =
      (List.range 128).map draws.salt := by
    rw [← length_wordBytes 128, List.drop_left]
    exact List.take_left' hsalt
  have hdrop : (wordBytes 128 ++ ((List.range 128).map draws.salt ++ dst)).drop (2 + 128) =
      dst := by
    rw [← List.drop_drop, ← length_wordBytes 128, List.drop_left]
    exact List.drop_left' hsalt
  have hall : decipherAll cipher (wordBytes 128 ++ ((List.range 128).map draws.salt ++ dst))
      password passwordIterations cryptIterations = .ok tbuf := by
    have hdst' := cipher.length_encipher hdst
    rw [decipherAll, hword, hsize, if_neg (by omega), if_neg (by omega), htake, hkey]
    change (if _ then _ else _) = _
    rw [hdrop, if_neg (by omega), cipher.decipher_encipher hdst]
    exact hdecode
  rw [decrypt, hall]
  dsimp only
  rw [hunpadd, Option.map_some, if_neg (lt_irrefl _), extract_tresorBytes]

/-- The data is restored if and only if its length fits into two bytes. -/
theorem decrypt_encrypt_iff (hit : 1 ≤ cryptIterations)
    (h : encrypt cipher draws src password passwordIterations cryptIterations = .ok out) :
    decrypt cipher out password passwordIterations cryptIterations = some (.ok src) ↔
      src.length < 65536 := by
  rw [decrypt_encrypt hit h]
  constructor
  · intro heq
    have hlen := congrArg List.length (Except.ok.inj (Option.some.inj heq))
    have hlt := Nat.mod_lt src.length (show 0 < 2 ^ 16 by decide)
    rw [List.length_take] at hlen
    omega
  · intro hlt
    rw [Nat.mod_eq_of_lt (show src.length < 2 ^ 16 from hlt), List.take_left]

theorem encrypt_ok (hpbkdf2 : ∀ p s n, ∃ key, cipher.pbkdf2 p s n = .ok key)
    (hencipher : ∀ key p, ∃ dst, cipher.encipher key p = .ok dst)
    (hkeys : ∀ i, ∃ ck, draws.keys i = .ok ck)
    (hlt : (tresorBytes draws src).length + 19 < 2 ^ 32) :
    ∃ out, encrypt cipher draws src password passwordIterations cryptIterations = .ok out := by
  have hencode : ∀ k i p, ∃ xbuf, encode cipher draws.keys k i p = .ok xbuf := by
    intro k
    induction k with
    | zero => exact fun i p => ⟨p, rfl⟩
    | succ k ih =>
        intro i p
        obtain ⟨ck, hck⟩ := hkeys i
        obtain ⟨dst, hdst⟩ := hencipher ck.bytes p
        obtain ⟨xbuf, hxbuf⟩ := ih (i + 1) (dst ++ ck.bytes)
        refine ⟨xbuf, ?_⟩
        rw [encode, hck]
        change (cipher.encipher ck.bytes p >>= _) = _
        rw [hdst]
        exact hxbuf
  obtain ⟨key, hkey⟩ := hpbkdf2 password ((List.range 128).map draws.salt) passwordIterations
  have hpadded : (paddWithIso9796_2 draws.padding (tresorBytes draws src)
      (wadd (tresorBytes draws src).length (7 + 12) / 8 * 8)).1 = 0 := by
    rw [paddWithIso9796_2, Buffer.wadd_of_lt (by omega), if_neg (by omega)]
  obtain ⟨xbuf, hxbuf⟩ := hencode cryptIterations 0 (paddWithIso9796_2 draws.padding
    (tresorBytes draws src) (wadd (tresorBytes draws src).length (7 + 12) / 8 * 8)).2
  obtain ⟨dst, hdst⟩ := hencipher key xbuf
  refine ⟨wordBytes ((List.range 128).map draws.salt).length ++
    ((List.range 128).map draws.salt ++ dst), ?_⟩
  rw [encrypt]
  dsimp only
  rw [hkey]
  change (if _ then _ else _) = _
  rw [if_neg (by rw [hpadded]; decide), hxbuf]
  change (cipher.encipher key xbuf >>= _) = _
  rw [hdst]
  rfl

end

def shiftCipher : BlockCipher where
  pbkdf2 := fun password salt _ => .ok (password.bytes ++ salt)
  encipher := fun key src => .ok (src.map (· + key.headD 0))
  decipher := fun key src => .ok (src.map (· - key.headD 0))
  length_encipher := fun h => by rw [← Except.ok.inj h, List.length_map]
  decipher_encipher := fun {key src dst} h => by
    rw [← Except.ok.inj h, List.map_map]
    have hid : ((· - key.headD 0) ∘ (· + key.headD 0) : UInt8 → UInt8) = id :=
      funext fun c => UInt8.add_sub_cancel c _
    rw [hid, List.map_id]

/-- All random bytes are 0. -/
def zeroDraws : Draws where
  salt := fun _ => 0
  front := ⟨0, 0, fun _ => 0⟩
  back := ⟨0, 0, fun _ => 0⟩
  padding := fun _ => 0
  keys := fun _ => .ok ⟨List.replicate keySize 0, List.length_replicate⟩

theorem encrypt_zeroDraws {src : List UInt8} (h : src.length < 2 ^ 31) (password : CString) :
    ∃ out, encrypt shiftCipher zeroDraws src password 1 1 = .ok out := by
  refine encrypt_ok (fun _ _ _ => ⟨_, rfl⟩) (fun _ _ => ⟨_, rfl⟩) (fun _ => ⟨_, rfl⟩) ?_
  have hlen : (tresorBytes zeroDraws src).length = 4 + src.length := by
    change ([0, 0] ++ [] ++ (wordBytes src.length ++ (src ++ []))).length = _
    simp only [List.length_append, length_wordBytes, List.length_cons, List.length_nil]
    omega
  omega

/-- Three bytes are restored. -/
theorem decrypt_encrypt_three :
    ∃ out, encrypt shiftCipher zeroDraws [1, 2, 3] (ofBytes [97]) 1 1 = .ok out ∧
      decrypt shiftCipher out (ofBytes [97]) 1 1 = some (.ok [1, 2, 3]) := by
  obtain ⟨out, hout⟩ := @encrypt_zeroDraws [1, 2, 3] (by decide) (ofBytes [97])
  exact ⟨out, hout, (decrypt_encrypt_iff le_rfl hout).mpr (by decide)⟩

/-- 65536 bytes are not restored, although they were enciphered successfully. -/
theorem not_decrypt_encrypt_large :
    ∃ out, encrypt shiftCipher zeroDraws (List.replicate 65536 0) (ofBytes [97]) 1 1 =
        .ok out ∧ decrypt shiftCipher out (ofBytes [97]) 1 1 ≠
        some (.ok (List.replicate 65536 0)) := by
  obtain ⟨out, hout⟩ := @encrypt_zeroDraws (List.replicate 65536 0)
    (by rw [List.length_replicate]; decide) (ofBytes [97])
  refine ⟨out, hout, fun heq => ?_⟩
  rw [decrypt_encrypt le_rfl hout] at heq
  have hlen := congrArg List.length (Except.ok.inj (Option.some.inj heq))
  rw [List.length_take, List.length_replicate] at hlen
  omega
end Gwenhywfar.SmallTresor
