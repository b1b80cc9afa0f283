import Gwenhywfar.Lib.Scan
import Gwenhywfar.Base.BufferInv

/-! # Padding

A buffer is taken as its bytes; sizes that are subtracted are `uint32_t`.  The random bytes of a
call are a function.  A function has no outcome when it reads bytes outside of the buffer.

* `paddWithIso9796_2`, `paddWithPkcs1Bt1`, `paddWithPkcs1Bt2`: padding in front of the data, up to
  a size.
* `paddWithAnsiX9_23ToMultipleOf`, `paddWithZkaToMultipleOf`: padding behind the data.
* `unpadd_padd`: the data is restored. -/

namespace Gwenhywfar.Padd

open Buffer (wadd wsub)

/-! ### Algorithms -/

/-- `GWEN_CRYPT_PADDALGOID`. -/
inductive PaddAlgoId where
  | unknown | none | any | iso9796_1 | iso9796_1A4 | iso9796_2 | pkcs1_1 | pkcs1_2
  | leftZero | rightZero | ansiX9_23 | pkcs1PssSha256 | zka
deriving DecidableEq

/-- `GWEN_CRYPT_PADDALGO`. -/
structure PaddAlgo where
  id : PaddAlgoId
  paddSize : Int32
deriving DecidableEq

/-! ### ISO 9796-2 -/

/-- A random byte that is not 0. -/
def nonZero (c : UInt8) : UInt8 := if c = 0 then 0xff else c

def randomBytes (random : ℕ → UInt8) (n : ℕ) : List UInt8 :=
  (List.range n).map fun i => nonZero (random i)

/-- `GWEN_Buffer_Crop`, which leaves the buffer as it is when it reports an error. -/
def crop (buf : List UInt8) (pos l : ℕ) : Option (List UInt8) :=
  let left := if pos ≤ buf.length then buf.length - pos else 2 ^ 32 + buf.length - pos
  if left < l then some buf
  else if buf.length < pos + l then none
  else some ((buf.drop pos).take l)

/-- `GWEN_Padd_PaddWithIso9796_2`. -/
def paddWithIso9796_2 (random : ℕ → UInt8) (buf : List UInt8) (dstSize : ℕ) : ℤ × List UInt8 :=
  if dstSize < buf.length + 12 then (errorInvalid, buf)
  else
    let buf := buf ++ [0xbc]
    let diff := dstSize - buf.length - 11 + 1
    (0, 0x60 :: (List.replicate diff 0 ++ 0x01 :: randomBytes random 8) ++ buf)

/-- `GWEN_Padd_UnpaddWithIso9796_2`. -/
def unpaddWithIso9796_2 (buf : List UInt8) : Option (ℤ × List UInt8) :=
  if buf.length < 11 then some (errorInvalid, buf)
  else if buf.head? ≠ some 0x60 then some (errorBadData, buf)
  else
    let l := (buf.tail.takeWhile (· == 0)).length
    (buf[l + 1]?).bind fun c =>
      if c ≠ 0x01 then some (errorBadData, buf)
      else (crop buf (10 + l) (wsub (wsub buf.length 11) l)).map fun buf => (0, buf)

/-! ### PKCS1 -/

/-- `GWEN_Padd_PaddWithPkcs1Bt1`. -/
def paddWithPkcs1Bt1 (buf : List UInt8) (dstSize : ℕ) : ℤ × List UInt8 :=
  if dstSize < buf.length then (errorInvalid, buf)
  else
    let diff := dstSize - buf.length
    if diff < 11 then (errorInvalid, buf)
    else (0, 0x00 :: 0x01 :: (List.replicate (diff - 3) 0xff ++ 0x00 :: buf))

/-- `GWEN_Padd_PaddWithPkcs1Bt2`. -/
def paddWithPkcs1Bt2 (random : ℕ → UInt8) (buf : List UInt8) (dstSize : ℕ) : ℤ × List UInt8 :=
  if dstSize < buf.length then (errorInvalid, buf)
  else
    let diff := dstSize - buf.length
    if diff < 11 then (errorInvalid, buf)
    else (0, 0x00 :: 0x02 :: (randomBytes random (diff - 3) ++ 0x00 :: buf))

/-- `GWEN_Padd__UnpaddWithPkcs1Bt1Or2`; it asserts that there are bytes. -/
def unpaddWithPkcs1Bt1Or2 (buf : List UInt8) : Option (ℤ × List UInt8) :=
  if buf = [] then none
  else
    let p := if buf.head? = some 0 then buf.tail else buf
    if p.length < 11 then some (errorInvalid, buf)
    else if p.head? ≠ some 0x01 ∧ p.head? ≠ some 0x02 then some (errorInvalid, buf)
    else
      let paddBytes := (p.tail.takeWhile (· != 0)).length
      let rest := p.tail.dropWhile (· != 0)
      if rest = [] then none
      else if paddBytes < 8 then some (errorInvalid, buf)
      else (crop buf (buf.length - rest.tail.length) rest.tail.length).map fun buf => (0, buf)

/-! ### Padding behind the data -/

/-- `GWEN_Padd_PaddWithAnsiX9_23ToMultipleOf`. -/
def paddWithAnsiX9_23ToMultipleOf (src : List UInt8) (y : ℕ) : ℤ × List UInt8 :=
  let paddLength := UInt8.ofNat (y - src.length % y)
  (0, src ++ List.replicate paddLength.toNat paddLength)

/-- `GWEN_Padd_UnpaddWithAnsiX9_23FromMultipleOf`. -/
def unpaddWithAnsiX9_23FromMultipleOf (src : List UInt8) (y : ℕ) : Option (ℤ × List UInt8) :=
  if src.length < y then some (-1, src)
  else
    src.getLast?.bind fun paddLength =>
      if paddLength < 1 ∨ y < paddLength.toNat then some (-1, src)
      else (crop src 0 (src.length - paddLength.toNat)).map fun buf => (0, buf)

/-- `GWEN_Padd_PaddWithZkaToMultipleOf`. -/
def paddWithZkaToMultipleOf (src : List UInt8) (y : ℕ) : ℤ × List UInt8 :=
  let paddLength := UInt8.ofNat (y - src.length % y)
  if 0 < paddLength then (0, src ++ 0x80 :: List.replicate (paddLength.toNat - 1) 0x00)
  else (0, src)

/-- `GWEN_Padd_UnpaddWithZkaFromMultipleOf`. -/
def unpaddWithZkaFromMultipleOf (buf : List UInt8) (y : ℕ) : Option (ℤ × List UInt8) :=
  if buf.length < y then some (-1, buf)
  else
    let zeros := (buf.reverse.takeWhile (· == 0)).length
    let paddLength := UInt8.ofNat zeros
    (buf.reverse[zeros]?).bind fun c =>
      if c ≠ 0x80 ∧ 0 < paddLength then some (-1, buf)
      else
        let paddLength := if c = 0x80 then paddLength + 1 else paddLength
        if y < paddLength.toNat then some (-1, buf)
        else (crop buf 0 (buf.length - paddLength.toNat)).map fun buf => (0, buf)

/-! ### All algorithms -/

/-- `GWEN_Padd_ApplyPaddAlgo`, for a buffer with its position; `GWEN_Padd_PaddWithISO9796` is left
out. -/
def applyPaddAlgo (random : ℕ → UInt8) (a : PaddAlgo) (pos : ℕ) (buf : List UInt8) :
    Option (ℤ × List UInt8) :=
  if a.id = .none then some (0, buf)
  else
    let chunkSize := a.paddSize.toUInt32.toNat
    if chunkSize = 0 then some (errorInvalid, buf)
    else
      let dstSize := wadd buf.length (chunkSize - 1) / chunkSize * chunkSize
      let diff := wsub dstSize buf.length
      let failure := fun r : ℤ × List UInt8 => if r.1 ≠ 0 then (errorGeneric, r.2) else r
      match a.id with
      | .iso9796_1A4 => none
      | .pkcs1_1 => some (failure (paddWithPkcs1Bt1 buf dstSize))
      | .pkcs1_2 => some (failure (paddWithPkcs1Bt2 random buf dstSize))
      | .leftZero => some (0, buf.take pos ++ List.replicate diff 0 ++ buf.drop pos)
      | .rightZero => some (0, buf ++ List.replicate diff 0)
      | .ansiX9_23 => some (paddWithAnsiX9_23ToMultipleOf buf 8)
      | .iso9796_2 => some (paddWithIso9796_2 random buf dstSize)
      | _ => some (errorNotAvailable, buf)

/-- `GWEN_Padd_UnapplyPaddAlgo`. -/
def unapplyPaddAlgo (a : PaddAlgo) (buf : List UInt8) : Option (ℤ × List UInt8) :=
  let failure := fun r : ℤ × List UInt8 => if r.1 ≠ 0 then (errorGeneric, r.2) else r
  match a.id with
  | .none => some (0, buf)
  | .pkcs1_1 | .pkcs1_2 => (unpaddWithPkcs1Bt1Or2 buf).map failure
  | .ansiX9_23 => unpaddWithAnsiX9_23FromMultipleOf buf 8
  | .iso9796_2 => unpaddWithIso9796_2 buf
  | _ => some (errorNotAvailable, buf)

/-- The algorithms that both functions know. -/
def Supported (id : PaddAlgoId) : Prop :=
  id ∈ [PaddAlgoId.none, .pkcs1_1, .pkcs1_2, .ansiX9_23, .iso9796_2]

def paddedSize (a : PaddAlgo) (n : ℕ) : ℕ :=
  match a.id with
  | .none => n
  | .ansiX9_23 => (n / 8 + 1) * 8
  | _ => (n + (a.paddSize.toUInt32.toNat - 1)) / a.paddSize.toUInt32.toNat *
      a.paddSize.toUInt32.toNat

/-! ### Cutting a buffer -/

variable {buf buf' front back : List UInt8} {random : ℕ → UInt8} {a : PaddAlgo}

theorem crop_append : crop (front ++ (buf ++ back)) front.length buf.length = some buf := by
  have hlen : (front ++ (buf ++ back)).length = front.length + (buf.length + back.length) := by
    rw [List.length_append, List.length_append]
  rw [crop, hlen, if_pos (Nat.le_add_right ..), if_neg (by omega), if_neg (by omega),
    List.drop_left, List.take_left]

theorem length_randomBytes (random : ℕ → UInt8) (n : ℕ) : (randomBytes random n).length = n := by
  rw [randomBytes, List.length_map, List.length_range]

theorem ne_zero_of_mem_randomBytes {n : ℕ} {c : UInt8} (h : c ∈ randomBytes random n) : c ≠ 0 := by
  rw [randomBytes, List.mem_map] at h
  obtain ⟨i, -, rfl⟩ := h
  rw [nonZero]
  split
  · decide
  · next hne => exact hne

/-! ### The data is restored -/

/-- The data between padding and trailer of ISO 9796-2. -/
theorem unpaddWithIso9796_2_eq (diff : ℕ) (random : ℕ → UInt8) (buf : List UInt8)
    (hlt : diff + 11 + buf.length < 2 ^ 32) :
    unpaddWithIso9796_2 (0x60 :: (List.replicate diff 0 ++ 0x01 :: randomBytes random 8) ++
      (buf ++ [0xbc])) = some (0, buf) := by
  have hfront : (0x60 :: (List.replicate diff 0 ++ 0x01 :: randomBytes random 8)).length =
      10 + diff := by
    simp only [List.length_cons, List.length_append, List.length_replicate, length_randomBytes]
    omega
  have hlen : (0x60 :: (List.replicate diff 0 ++ 0x01 :: randomBytes random 8) ++
      (buf ++ [0xbc])).length = 11 + diff + buf.length := by
    rw [List.length_append, hfront, List.length_append, List.length_singleton]
    omega
  have hscan : ((0x60 :: (List.replicate diff 0 ++ 0x01 :: randomBytes random 8) ++
      (buf ++ [0xbc])).tail.takeWhile (· == 0)).length = diff := by
    rw [List.cons_append, List.tail_cons, List.append_assoc, List.cons_append,
      (Scan.append_cons _ _ _ _ (fun x hx => by rw [List.eq_of_mem_replicate hx]; rfl) rfl).1,
      List.length_replicate]
  have hone : (0x60 :: (List.replicate diff 0 ++ 0x01 :: randomBytes random 8) ++
      (buf ++ [0xbc]))[diff + 1]? = some 0x01 := by
    rw [List.cons_append, List.getElem?_cons_succ, List.append_assoc,
      List.getElem?_append_right (by rw [List.length_replicate]), List.length_replicate,
      Nat.sub_self]
    rfl
  have hsize : wsub (wsub (11 + diff + buf.length) 11) diff = buf.length := by
    have h1 : wsub (11 + diff + buf.length) 11 = diff + buf.length := by
      rw [Buffer.wsub_of_le (by omega) (by omega)]
      omega
    rw [h1, Buffer.wsub_of_le (by omega) (by omega), Nat.add_sub_cancel_left]
  have hhead : (0x60 :: (List.replicate diff 0 ++ 0x01 :: randomBytes random 8) ++
      (buf ++ [0xbc])).head? = some 0x60 := rfl
  have hcrop : crop (0x60 :: (List.replicate diff 0 ++ 0x01 :: randomBytes random 8) ++
      (buf ++ [0xbc])) (10 + diff) buf.length = some buf := by
    rw [← hfront]
    exact crop_append
  rw [unpaddWithIso9796_2, hlen, if_neg (by omega), hhead, if_neg (not_not_intro rfl)]
  dsimp only
  rw [hscan, hone, Option.bind_some, if_neg (not_not_intro rfl), hsize, hcrop, Option.map_some]

theorem iso9796_2_restores {dstSize : ℕ} (hlt : dstSize < 2 ^ 32)
    (h : paddWithIso9796_2 random buf dstSize = (0, buf')) :
    buf.length + 12 ≤ dstSize ∧ buf'.length = dstSize ∧
      unpaddWithIso9796_2 buf' = some (0, buf) := by
  rw [paddWithIso9796_2] at h
  split at h
  · cases h
  · next hge =>
      obtain rfl := (Prod.mk.inj h).2
      have hbuf : (buf ++ [0xbc]).length = buf.length + 1 := by
        rw [List.length_append, List.length_singleton]
      refine ⟨by omega, ?_, ?_⟩
      · simp only [List.length_cons, List.length_append, List.length_replicate, length_randomBytes,
          hbuf]
        omega
      · rw [hbuf]
        exact unpaddWithIso9796_2_eq _ random buf (by omega)

theorem unpaddWithPkcs1Bt1Or2_eq {t : UInt8} (ht : t = 0x01 ∨ t = 0x02) {padding : List UInt8}
    (hpadding : ∀ c ∈ padding, c ≠ 0) (h8 : 8 ≤ padding.length) (hlen : buf ≠ []) :
    unpaddWithPkcs1Bt1Or2 (0x00 :: t :: (padding ++ 0x00 :: buf)) = some (0, buf) := by
  have hpos := List.length_pos_iff.mpr hlen
  have hscan := Scan.append_cons (· != 0) padding buf 0x00
    (fun x hx => bne_iff_ne.mpr (hpadding x hx)) rfl
  have hcrop := @crop_append buf (0x00 :: t :: (padding ++ [0x00])) []
  have hsize : (0x00 :: t :: (padding ++ 0x00 :: buf)).length =
      (0x00 :: t :: (padding ++ [0x00])).length + buf.length := by
    simp only [List.length_cons, List.length_append, List.length_nil]
    omega
  rw [unpaddWithPkcs1Bt1Or2, if_neg (List.cons_ne_nil _ _), List.head?_cons, if_pos rfl]
  dsimp only
  rw [List.tail_cons, List.tail_cons, hscan.1, hscan.2, List.head?_cons, if_neg, if_neg,
    if_neg (List.cons_ne_nil _ _), if_neg (by omega), List.tail_cons, hsize, Nat.add_sub_cancel]
  · rw [List.append_nil] at hcrop
    simp only [List.cons_append, List.append_assoc, List.nil_append] at hcrop
    rw [hcrop, Option.map_some]
  · rcases ht with rfl | rfl <;> decide
  · simp only [List.length_cons, List.length_append]
    omega

theorem pkcs1_restores {t : UInt8} (ht : t = 0x01 ∨ t = 0x02) {dstSize : ℕ}
    {padding : ℕ → List UInt8}
    (hlen : ∀ n, (padding n).length = n) (hpadding : ∀ n, ∀ c ∈ padding n, c ≠ 0) (hne : buf ≠ [])
    (hge : ¬ dstSize < buf.length) (hdiff : ¬ dstSize - buf.length < 11)
    (h : 0x00 :: t :: (padding (dstSize - buf.length - 3) ++ 0x00 :: buf) = buf') :
    buf'.length = dstSize ∧ unpaddWithPkcs1Bt1Or2 buf' = some (0, buf) := by
  subst h
  refine ⟨?_, unpaddWithPkcs1Bt1Or2_eq ht (hpadding _) (by rw [hlen]; omega) hne⟩
  simp only [List.length_cons, List.length_append, hlen]
  omega

theorem paddLength_spec {y : ℕ} (hy : 1 ≤ y) (hy' : y ≤ 255) (n : ℕ) :
    (UInt8.ofNat (y - n % y)).toNat = y - n % y ∧ 1 ≤ y - n % y ∧ y - n % y ≤ y ∧
      n + (y - n % y) = (n / y + 1) * y := by
  have hmod := Nat.mod_lt n hy
  have hdiv := Nat.div_add_mod n y
  have hmul : (n / y + 1) * y = y * (n / y) + y := by
    rw [Nat.add_mul, Nat.one_mul, Nat.mul_comm]
  refine ⟨?_, by omega, by omega, by omega⟩
  rw [UInt8.toNat_ofNat', Nat.mod_eq_of_lt (by omega)]

theorem crop_front : crop (buf ++ back) 0 buf.length = some buf := @crop_append buf [] back

theorem ansiX9_23_restores {y : ℕ} (hy : 1 ≤ y) (hy' : y ≤ 255)
    (h : paddWithAnsiX9_23ToMultipleOf buf y = (0, buf')) : buf'.length = (buf.length / y + 1) * y ∧
      unpaddWithAnsiX9_23FromMultipleOf buf' y = some (0, buf) := by
  obtain ⟨hn, h1, h2, hsum⟩ := paddLength_spec hy hy' buf.length
  obtain rfl := (Prod.mk.inj h).2
  have hlen : (buf ++ List.replicate (UInt8.ofNat (y - buf.length % y)).toNat
      (UInt8.ofNat (y - buf.length % y))).length = buf.length + (y - buf.length % y) := by
    rw [List.length_append, List.length_replicate, hn]
  have hlast : (buf ++ List.replicate (UInt8.ofNat (y - buf.length % y)).toNat
      (UInt8.ofNat (y - buf.length % y))).getLast? = some (UInt8.ofNat (y - buf.length % y)) := by
    rw [List.getLast?_append, hn, List.getLast?_replicate, if_neg (by omega)]
    rfl
  have hnot : ¬ (UInt8.ofNat (y - buf.length % y) < 1 ∨
      y < (UInt8.ofNat (y - buf.length % y)).toNat) := by
    rw [UInt8.lt_iff_toNat_lt, hn]
    rintro (h | h)
    · exact absurd h (by change ¬ _ < 1; omega)
    · omega
  have hmul : y ≤ (buf.length / y + 1) * y := Nat.le_mul_of_pos_left y (Nat.succ_pos _)
  refine ⟨hlen.trans hsum, ?_⟩
  rw [unpaddWithAnsiX9_23FromMultipleOf, hlen, if_neg (by omega), hlast, Option.bind_some,
    if_neg hnot, hn, Nat.add_sub_cancel, crop_front, Option.map_some]

theorem zka_restores {y : ℕ} (hy : 1 ≤ y) (hy' : y ≤ 255)
    (h : paddWithZkaToMultipleOf buf y = (0, buf')) : buf'.length = (buf.length / y + 1) * y ∧
      unpaddWithZkaFromMultipleOf buf' y = some (0, buf) := by
  obtain ⟨hn, h1, h2, hsum⟩ := paddLength_spec hy hy' buf.length
  have hpos : 0 < UInt8.ofNat (y - buf.length % y) := by
    rw [UInt8.lt_iff_toNat_lt, hn]
    exact h1
  rw [paddWithZkaToMultipleOf, if_pos hpos, hn] at h
  obtain rfl := (Prod.mk.inj h).2
  generalize y - buf.length % y = n at *
  have hlen : (buf ++ 0x80 :: List.replicate (n - 1) 0x00).length = buf.length + n := by
    rw [List.length_append, List.length_cons, List.length_replicate]
    omega
  have hrev : (buf ++ 0x80 :: List.replicate (n - 1) 0x00).reverse =
      List.replicate (n - 1) 0x00 ++ 0x80 :: buf.reverse := by
    rw [List.reverse_append, List.reverse_cons, List.reverse_replicate, List.append_assoc]
    rfl
  have hscan : ((List.replicate (n - 1) 0x00 ++ 0x80 :: buf.reverse).takeWhile (· == 0)).length =
      n - 1 := by
    rw [(Scan.append_cons _ _ _ _ (fun x hx => by rw [List.eq_of_mem_replicate hx]; rfl) rfl).1,
      List.length_replicate]
  have hmark : (List.replicate (n - 1) (0x00 : UInt8) ++ 0x80 :: buf.reverse)[n - 1]? =
      some 0x80 := by
    rw [List.getElem?_append_right (by rw [List.length_replicate]), List.length_replicate,
      Nat.sub_self]
    rfl
  have hcount : (UInt8.ofNat (n - 1) + 1).toNat = n := by
    rw [UInt8.toNat_add, UInt8.toNat_ofNat']
    change ((n - 1) % 2 ^ 8 + 1) % 2 ^ 8 = n
    omega
  have hmul : y ≤ (buf.length / y + 1) * y := Nat.le_mul_of_pos_left y (Nat.succ_pos _)
  refine ⟨hlen.trans hsum, ?_⟩
  rw [unpaddWithZkaFromMultipleOf, hlen, if_neg (by omega), hrev]
  dsimp only
  rw [hscan, hmark, Option.bind_some, if_neg (fun h => h.1 rfl), if_pos rfl, hcount,
    if_neg (by omega), Nat.add_sub_cancel, crop_front, Option.map_some]

/-! ### All algorithms restore the data -/

theorem dstSize_spec {n chunkSize : ℕ} (hchunk : chunkSize < 2 ^ 32)
    (hn : n ≤ wadd n (chunkSize - 1) / chunkSize * chunkSize) :
    wadd n (chunkSize - 1) / chunkSize * chunkSize = (n + (chunkSize - 1)) / chunkSize * chunkSize ∧
      (n + (chunkSize - 1)) / chunkSize * chunkSize < 2 ^ 32 := by
  have hle := Nat.div_mul_le_self (wadd n (chunkSize - 1)) chunkSize
  by_cases hsum : n + (chunkSize - 1) < 2 ^ 32
  · rw [Buffer.wadd_of_lt hsum] at hle ⊢
    exact ⟨rfl, by omega⟩
  · rw [wadd] at hle hn
    omega

theorem ne_nil_of_dstSize {chunkSize : ℕ} (h0 : chunkSize ≠ 0)
    (h : 11 ≤ wadd buf.length (chunkSize - 1) / chunkSize * chunkSize - buf.length) : buf ≠ [] := by
  rintro rfl
  have hlt : wadd (List.length ([] : List UInt8)) (chunkSize - 1) < chunkSize :=
    (Nat.mod_le _ _).trans_lt (by rw [List.length_nil]; omega)
  rw [Nat.div_eq_of_lt hlt] at h
  omega

theorem of_failure {r : ℤ × List UInt8}
    (h : (if r.1 ≠ 0 then (errorGeneric, r.2) else r) = (0, buf')) : r = (0, buf') := by
  by_cases h0 : r.1 ≠ 0
  · rw [if_pos h0] at h
    cases h
  · rwa [if_neg h0] at h

theorem pkcs1_unapply {t : UInt8} (ht : t = 0x01 ∨ t = 0x02) {padding : ℕ → List UInt8}
    (hlen : ∀ n, (padding n).length = n) (hpadding : ∀ n, ∀ c ∈ padding n, c ≠ 0) {chunkSize : ℕ}
    (h0 : chunkSize ≠ 0) (hlt : chunkSize < 2 ^ 32)
    (h : (if wadd buf.length (chunkSize - 1) / chunkSize * chunkSize < buf.length
      then (errorInvalid, buf)
      else if wadd buf.length (chunkSize - 1) / chunkSize * chunkSize - buf.length < 11
      then (errorInvalid, buf)
      else (0, 0x00 :: t ::
        (padding (wadd buf.length (chunkSize - 1) / chunkSize * chunkSize - buf.length - 3) ++
          0x00 :: buf))) = ((0 : ℤ), buf')) :
    buf'.length = (buf.length + (chunkSize - 1)) / chunkSize * chunkSize ∧
      unpaddWithPkcs1Bt1Or2 buf' = some (0, buf) := by
  split at h
  · cases h
  · next hge =>
      split at h
      · cases h
      · next hdiff =>
          obtain ⟨hsize, hunpadd⟩ := pkcs1_restores ht hlen hpadding
            (ne_nil_of_dstSize h0 (by omega)) hge hdiff (Prod.mk.inj h).2
          exact ⟨hsize.trans (dstSize_spec hlt (by omega)).1, hunpadd⟩

/-- What an algorithm has padded is unpadded again. -/
theorem unapply_apply {pos : ℕ} (hs : Supported a.id)
    (h : applyPaddAlgo random a pos buf = some (0, buf')) :
    buf'.length = paddedSize a buf.length ∧ unapplyPaddAlgo a buf' = some (0, buf) := by
  obtain ⟨id, paddSize⟩ := a
  have hlt : paddSize.toUInt32.toNat < 2 ^ 32 := paddSize.toUInt32.toNat_lt
  rw [applyPaddAlgo] at h
  dsimp only at hs h
  by_cases hnone : id = .none
  · subst hnone
    rw [if_pos rfl] at h
    obtain rfl := (Prod.mk.inj (Option.some.inj h)).2
    exact ⟨rfl, rfl⟩
  · rw [if_neg hnone] at h
    by_cases h0 : paddSize.toUInt32.toNat = 0
    · rw [if_pos h0] at h
      cases h
    · rw [if_neg h0] at h
      simp only [Supported, List.mem_cons, List.not_mem_nil, or_false] at hs
      rcases hs with rfl | rfl | rfl | rfl | rfl
      · exact absurd rfl hnone
      · have hpad := of_failure (Option.some.inj h)
        obtain ⟨hsize, hunpadd⟩ := pkcs1_unapply (t := 0x01)
          (Or.inl rfl) (fun n => @List.length_replicate _ n 0xff)
          (fun n c hc => by rw [List.eq_of_mem_replicate hc]; decide) h0 hlt hpad
        refine ⟨hsize, ?_⟩
        rw [unapplyPaddAlgo, hunpadd]
        rfl
      · have hpad := of_failure (Option.some.inj h)
        obtain ⟨hsize, hunpadd⟩ := pkcs1_unapply (t := 0x02) (Or.inr rfl)
          (length_randomBytes random) (fun n c hc => ne_zero_of_mem_randomBytes hc) h0 hlt hpad
        refine ⟨hsize, ?_⟩
        rw [unapplyPaddAlgo, hunpadd]
        rfl
      · exact ansiX9_23_restores (by decide) (by decide) (Option.some.inj h)
      · have hpad := Option.some.inj h
        have hdst : wadd buf.length (paddSize.toUInt32.toNat - 1) / paddSize.toUInt32.toNat *
            paddSize.toUInt32.toNat < 2 ^ 32 :=
          (Nat.div_mul_le_self _ _).trans_lt (Nat.mod_lt _ (by decide))
        obtain ⟨hroom, hsize, hunpadd⟩ := iso9796_2_restores hdst hpad
        exact ⟨hsize.trans (dstSize_spec hlt (by omega)).1, hunpadd⟩

/-- Every algorithm that both functions know restores the data, and so does padding behind the data
for every size of blocks that fits a byte. -/
theorem unpadd_padd :
    (∀ (random : ℕ → UInt8) (a : PaddAlgo) (pos : ℕ) (buf buf' : List UInt8), Supported a.id →
      applyPaddAlgo random a pos buf = some (0, buf') →
      buf'.length = paddedSize a buf.length ∧ unapplyPaddAlgo a buf' = some (0, buf)) ∧
    ∀ y, 1 ≤ y → y ≤ 255 → ∀ buf buf' : List UInt8,
      (paddWithAnsiX9_23ToMultipleOf buf y = (0, buf') →
        y ∣ buf'.length ∧ unpaddWithAnsiX9_23FromMultipleOf buf' y = some (0, buf)) ∧
      (paddWithZkaToMultipleOf buf y = (0, buf') →
        y ∣ buf'.length ∧ unpaddWithZkaFromMultipleOf buf' y = some (0, buf)) := by
  refine ⟨fun random a pos buf buf' hs h => unapply_apply hs h, fun y hy hy' buf buf' => ⟨?_, ?_⟩⟩
  · intro h
    obtain ⟨hsize, hunpadd⟩ := ansiX9_23_restores hy hy' h
    exact ⟨hsize ▸ Nat.dvd_mul_left .., hunpadd⟩
  · intro h
    obtain ⟨hsize, hunpadd⟩ := zka_restores hy hy' h
    exact ⟨hsize ▸ Nat.dvd_mul_left .., hunpadd⟩

/-- Two bytes in a block of PKCS1, where all random bytes are 0. -/
theorem unpadd_padd_pkcs1 :
    ∃ buf', applyPaddAlgo (fun _ => 0) ⟨.pkcs1_2, 16⟩ 0 [1, 2] = some (0, buf') ∧
      buf'.length = paddedSize ⟨.pkcs1_2, 16⟩ 2 ∧
      unapplyPaddAlgo ⟨.pkcs1_2, 16⟩ buf' = some (0, [1, 2]) :=
  ⟨_, rfl, unpadd_padd.1 (fun _ => 0) ⟨.pkcs1_2, 16⟩ 0 [1, 2] _
    (List.mem_cons_of_mem _ (List.mem_cons_of_mem _ List.mem_cons_self)) rfl⟩

/-- Without an algorithm the size is not made a multiple of anything. -/
theorem not_multiple_none :
    Supported .none ∧ applyPaddAlgo (fun _ => 0) ⟨.none, 16⟩ 0 [1] = some (0, [1]) ∧
      ¬ 16 ∣ [(1 : UInt8)].length :=
  ⟨List.mem_cons_self, rfl, by decide⟩
end Gwenhywfar.Padd
