import Gwenhywfar.Base.BufferFilled

/-! # Base64

* `encode`, `decode`: what the functions of the source return and the bytes that they append;
  counters and triplets are natural numbers, since none of them can pass the length of a text in
  memory.  `encodeToBuffer` and `decodeToBuffer` append them to a buffer, which has a limit.
* `rfc4648`: the encoding by groups of three bytes that the RFC describes.
* `decodesEncoded`: decoding gives back what was encoded, in lines of any length, if the text does
  not come near the limit of a buffer. -/

namespace Gwenhywfar.Base64

/-- `GWEN_Base64_Alphabet`. -/
def alphabet : List UInt8 :=
  (['A', 'B', 'C', 'D', 'E', 'F', 'G', 'H', 'I', 'J', 'K', 'L', 'M', 'N', 'O', 'P', 'Q', 'R', 'S',
    'T', 'U', 'V', 'W', 'X', 'Y', 'Z', 'a', 'b', 'c', 'd', 'e', 'f', 'g', 'h', 'i', 'j', 'k', 'l',
    'm', 'n', 'o', 'p', 'q', 'r', 's', 't', 'u', 'v', 'w', 'x', 'y', 'z', '0', '1', '2', '3', '4',
    '5', '6', '7', '8', '9', '+', '/', '='] : List Char).map code

/-- The line feed. -/
def lf : UInt8 := 10

/-- The padding character. -/
def eq : UInt8 := code '='

/-- `GWEN_Base64_Alphabet[c]`. -/
def charAt (c : ℕ) : UInt8 := alphabet.getD c 0

/-! ### Encoding -/

/-- The four characters for a full triplet. -/
def quadruplet (a b c : UInt8) : List UInt8 :=
  let triplet := (a.toNat <<< 16) + (b.toNat <<< 8) + c.toNat
  let c4 := triplet &&& 0x3f
  let triplet := triplet >>> 6
  let c3 := triplet &&& 0x3f
  let triplet := triplet >>> 6
  let c2 := triplet &&& 0x3f
  let triplet := triplet >>> 6
  let c1 := triplet &&& 0x3f
  [charAt c1, charAt c2, charAt c3, charAt c4]

/-- The loop over the full triplets, from a line with `l` characters on: the text, the length of
its last line and the bytes that remain. -/
def triplets (maxLineLength l : ℕ) : List UInt8 → List UInt8 × ℕ × List UInt8
  | a :: b :: c :: src =>
      if maxLineLength ≠ 0 then
        if l + 4 > maxLineLength then
          let r := triplets maxLineLength (0 + 4) src
          (lf :: quadruplet a b c ++ r.1, r.2)
        else
          let r := triplets maxLineLength (l + 4) src
          (quadruplet a b c ++ r.1, r.2)
      else
        let r := triplets maxLineLength l src
        (quadruplet a b c ++ r.1, r.2)
  | src => ([], l, src)

def remainder : List UInt8 → List UInt8
  | [a] =>
      let triplet := a.toNat <<< 4
      let c2 := triplet &&& 0x3f
      let triplet := triplet >>> 6
      let c1 := triplet &&& 0x3f
      [charAt c1, charAt c2, eq, eq]
  | [a, b] =>
      let triplet := (a.toNat <<< 10) + (b.toNat <<< 2)
      let c3 := triplet &&& 0x3f
      let triplet := triplet >>> 6
      let c2 := triplet &&& 0x3f
      let triplet := triplet >>> 6
      let c1 := triplet &&& 0x3f
      [charAt c1, charAt c2, charAt c3, eq]
  | _ => []

/-- What `GWEN_Base64_Encode` returns and what it appends. -/
def encode (src : List UInt8) (maxLineLength : ℕ) : ℤ × List UInt8 :=
  if maxLineLength ≠ 0 ∧ maxLineLength < 4 then (-1, [])
  else
    let r := triplets maxLineLength 0 src
    (0, r.1 ++ (if maxLineLength ≠ 0 ∧ r.2.1 + 4 ≥ maxLineLength then [lf] else []) ++
      remainder r.2.2)

/-- The remainder is appended: the two "=" behind a single byte are one string. -/
def remainderToBuffer : List UInt8 → Buffer → Option Buffer
  | [a], dst => (Buffer.appendEach ((remainder [a]).take 2) dst).bind fun dst =>
      (dst.appendBytes [eq, eq]).map fun r => r.2
  | src, dst => Buffer.appendEach (remainder src) dst

/-- `GWEN_Base64_Encode`. -/
def encodeToBuffer (src : List UInt8) (maxLineLength : ℕ) (dst : Buffer) : Option (ℤ × Buffer) :=
  if maxLineLength ≠ 0 ∧ maxLineLength < 4 then some (-1, dst)
  else
    let r := triplets maxLineLength 0 src
    (Buffer.appendEach (r.1 ++ if maxLineLength ≠ 0 ∧ r.2.1 + 4 ≥ maxLineLength then [lf] else [])
      dst).bind fun dst => (remainderToBuffer r.2.2 dst).map fun dst => (0, dst)

/-! ### Decoding -/

/-- Where the loop over a group of four characters stands; `p` is the place of the last character
found in the alphabet. -/
structure Quad where
  v : ℕ
  lastWasEq : ℕ
  p : ℕ
  src : List UInt8
deriving DecidableEq

/-- `strchr` does not find the character in the alphabet. -/
def foreign (c : UInt8) : Bool := c ∉ alphabet

/-- The next valid character: behind a "=" only another one is. -/
def Quad.next (q : Quad) : Option Quad :=
  if q.lastWasEq ≠ 0 then
    match q.src.dropWhile (· != eq) with
    | [] => none
    | _ :: src => some ⟨(q.v <<< 6) + (q.p &&& 0x3f), q.lastWasEq + 1, q.p, src⟩
  else
    match q.src.dropWhile foreign with
    | [] => none
    | c :: src =>
        let p := alphabet.idxOf c
        some ⟨(q.v <<< 6) + (p &&& 0x3f), if c = eq then q.lastWasEq + 1 else q.lastWasEq, p, src⟩

/-- The loop over the characters `i` to 3 of a group; where the text ends too early, the result is
the number of the character that is missing. -/
def Quad.read (i : ℕ) : ℕ → Quad → Except ℕ Quad
  | 0, q => .ok q
  | left + 1, q =>
      match q.next with
      | none => .error i
      | some q => Quad.read (i + 1) left q

def byteOf (v shift : ℕ) : UInt8 := UInt8.ofNat ((v >>> shift) &&& 0xff)

def wanted (v : ℕ) : ℕ → List UInt8
  | 1 => [byteOf v 16]
  | 2 => [byteOf v 16, byteOf v 8]
  | _ => [byteOf v 16, byteOf v 8, byteOf v 0]

/-- The bytes of a triplet, when no size is given. -/
def unpadded (v lastWasEq : ℕ) : List UInt8 :=
  let bytes := (24 - lastWasEq * 6) / 8
  if bytes ≠ 0 then
    byteOf v 16 :: if bytes > 1 then byteOf v 8 :: if bytes > 2 then [byteOf v 0] else [] else []
  else []

def groups (sizeGiven : Bool) : ℕ → ℕ → ℕ → List UInt8 → List UInt8 → Option (ℤ × List UInt8)
  | 0, _, _, _, _ => none
  | fuel + 1, size, lastWasEq, src, dst =>
      if (sizeGiven = true ∧ size = 0) ∨ lastWasEq ≠ 0 ∨ src = [] then some (0, dst)
      else if src.dropWhile foreign = [] then some (0, dst)
      else
        match Quad.read 0 4 ⟨0, lastWasEq, 0, src.dropWhile foreign⟩ with
        | .error i => some (if i = 0 ∧ sizeGiven = false then 0 else -1, dst)
        | .ok q =>
            if sizeGiven = true then
              groups sizeGiven fuel (size - min 3 size) q.lastWasEq q.src (dst ++ wanted q.v size)
            else groups sizeGiven fuel size q.lastWasEq q.src (dst ++ unpadded q.v q.lastWasEq)

/-- What `GWEN_Base64_Decode` returns and what it appends. -/
def decode (src : CString) (size : ℕ) : Option (ℤ × List UInt8) :=
  groups (size != 0) (src.bytes.length + 1) size 0 src.bytes []

/-- `GWEN_Base64_Decode`. -/
def decodeToBuffer (src : CString) (size : ℕ) (dst : Buffer) : Option (ℤ × Buffer) :=
  (decode src size).bind fun r => (Buffer.appendEach r.2 dst).map fun dst => (r.1, dst)

/-! ### The RFC -/

def rfcChar (v : ℕ) : UInt8 :=
  if v < 26 then code 'A' + UInt8.ofNat v
  else if v < 52 then code 'a' + UInt8.ofNat (v - 26)
  else if v < 62 then code '0' + UInt8.ofNat (v - 52)
  else if v = 62 then code '+' else code '/'

/-- The encoding of the RFC: three bytes are four groups of six bits, from the left. -/
def rfc4648 : List UInt8 → List UInt8
  | a :: b :: c :: rest =>
      rfcChar (a.toNat / 4) :: rfcChar (a.toNat % 4 * 16 + b.toNat / 16) ::
        rfcChar (b.toNat % 16 * 4 + c.toNat / 64) :: rfcChar (c.toNat % 64) :: rfc4648 rest
  | [a, b] =>
      [rfcChar (a.toNat / 4), rfcChar (a.toNat % 4 * 16 + b.toNat / 16),
        rfcChar (b.toNat % 16 * 4), eq]
  | [a] => [rfcChar (a.toNat / 4), rfcChar (a.toNat % 4 * 16), eq, eq]
  | [] => []

example : rfc4648 ([0x66, 0x6f, 0x6f, 0x62] : List UInt8) =
    ['Z', 'm', '9', 'v', 'Y', 'g', '=', '='].map code := by decide

/-! ### The alphabet -/

theorem charAt_spec {v : ℕ} (h : v < 64) : charAt v = rfcChar v ∧ alphabet.idxOf (rfcChar v) = v ∧
    foreign (rfcChar v) = false ∧ rfcChar v ≠ eq ∧ rfcChar v ≠ lf ∧ rfcChar v ≠ 0 := by
  have hall : ∀ v : Fin 64, charAt v = rfcChar v ∧ alphabet.idxOf (rfcChar v) = v ∧
      foreign (rfcChar v) = false ∧ rfcChar v ≠ eq ∧ rfcChar v ≠ lf ∧ rfcChar v ≠ 0 := by
    decide
  exact hall ⟨v, h⟩

theorem toNat_lt (a : UInt8) : a.toNat < 256 := a.toNat_lt

theorem and_three_f (v : ℕ) : v &&& 0x3f = v % 64 := Nat.and_two_pow_sub_one_eq_mod v 6

theorem quadruplet_eq (a b c : UInt8) : quadruplet a b c =
    [rfcChar (a.toNat / 4), rfcChar (a.toNat % 4 * 16 + b.toNat / 16),
      rfcChar (b.toNat % 16 * 4 + c.toNat / 64), rfcChar (c.toNat % 64)] := by
  have ha := toNat_lt a
  have hb := toNat_lt b
  have hc := toNat_lt c
  have hchar : ∀ {v w : ℕ}, v = w → w < 64 → charAt v = rfcChar w := by
    rintro v _ rfl hv
    exact (charAt_spec hv).1
  rw [quadruplet]
  simp only [and_three_f, Nat.shiftLeft_eq, Nat.shiftRight_eq_div_pow]
  rw [hchar (w := a.toNat / 4), hchar (w := a.toNat % 4 * 16 + b.toNat / 16),
    hchar (w := b.toNat % 16 * 4 + c.toNat / 64), hchar (w := c.toNat % 64)] <;> omega

theorem remainder_one (a : UInt8) : remainder [a] = rfc4648 [a] := by
  have ha := toNat_lt a
  rw [remainder, rfc4648]
  simp only [and_three_f, Nat.shiftLeft_eq, Nat.shiftRight_eq_div_pow]
  have h1 : a.toNat * 2 ^ 4 / 2 ^ 6 % 64 = a.toNat / 4 := by omega
  have h2 : a.toNat * 2 ^ 4 % 64 = a.toNat % 4 * 16 := by omega
  rw [h1, h2, (charAt_spec (by omega)).1, (charAt_spec (by omega)).1]

theorem remainder_two (a b : UInt8) : remainder [a, b] = rfc4648 [a, b] := by
  have ha := toNat_lt a
  have hb := toNat_lt b
  rw [remainder, rfc4648]
  simp only [and_three_f, Nat.shiftLeft_eq, Nat.shiftRight_eq_div_pow]
  have h1 : (a.toNat * 2 ^ 10 + b.toNat * 2 ^ 2) / 2 ^ 6 / 2 ^ 6 % 64 = a.toNat / 4 := by omega
  have h2 : (a.toNat * 2 ^ 10 + b.toNat * 2 ^ 2) / 2 ^ 6 % 64 =
      a.toNat % 4 * 16 + b.toNat / 16 := by omega
  have h3 : (a.toNat * 2 ^ 10 + b.toNat * 2 ^ 2) % 64 = b.toNat % 16 * 4 := by omega
  rw [h1, h2, h3, (charAt_spec (by omega)).1, (charAt_spec (by omega)).1,
    (charAt_spec (by omega)).1]

/-! ### The encoded text -/

/-- Lines of at most `max` characters, from a line with `l` characters on. -/
def Fits (max : ℕ) : ℕ → List UInt8 → Prop
  | l, [] => l ≤ max
  | l, c :: cs => if c = lf then l ≤ max ∧ Fits max 0 cs else Fits max (l + 1) cs

section
variable {max l : ℕ} {cs line : List UInt8}

theorem fits_append (h : lf ∉ line) : Fits max l (line ++ cs) ↔ Fits max (l + line.length) cs := by
  induction line generalizing l with
  | nil => rfl
  | cons c line ih =>
      obtain ⟨hc, hline⟩ := not_or.mp (mt List.mem_cons.mpr h)
      rw [List.cons_append, Fits, if_neg (Ne.symm hc), ih hline, List.length_cons,
        Nat.add_right_comm, Nat.add_assoc]

theorem fits_lf : Fits max l (lf :: cs) ↔ l ≤ max ∧ Fits max 0 cs := by
  rw [Fits, if_pos rfl]

theorem Fits.le (h : Fits max l cs) : l ≤ max := by
  induction cs generalizing l with
  | nil => exact h
  | cons c cs ih =>
      rw [Fits] at h
      split at h
      · exact h.1
      · exact Nat.le_of_succ_le (ih h)

theorem Fits.length_le (h : Fits max l cs) (hline : line <:+: cs) (hlf : lf ∉ line) :
    line.length ≤ max := by
  obtain ⟨pre, post, rfl⟩ := hline
  rw [List.append_assoc] at h
  induction pre generalizing l with
  | nil => exact Nat.le_of_add_left_le (((fits_append hlf).mp h).le)
  | cons c pre ih =>
      rw [List.cons_append, Fits] at h
      split at h
      · exact ih h.2
      · exact ih h

end

theorem rfc4648_spec (src : List UInt8) :
    ∀ c ∈ rfc4648 src, foreign c = false ∧ c ≠ lf ∧ c ≠ 0 := by
  have hchar : ∀ {v : ℕ}, v < 64 → foreign (rfcChar v) = false ∧ rfcChar v ≠ lf ∧ rfcChar v ≠ 0 := by
    intro v hv
    obtain ⟨-, -, hforeign, -, hlf, h0⟩ := charAt_spec hv
    exact ⟨hforeign, hlf, h0⟩
  have heq : foreign eq = false ∧ eq ≠ lf ∧ eq ≠ 0 := by decide
  induction src using rfc4648.induct with
  | case1 a b c rest ih =>
      have ha := toNat_lt a
      have hb := toNat_lt b
      have hc := toNat_lt c
      rw [rfc4648]
      exact List.forall_mem_cons.mpr ⟨hchar (by omega), List.forall_mem_cons.mpr ⟨hchar (by omega),
        List.forall_mem_cons.mpr ⟨hchar (by omega), List.forall_mem_cons.mpr
          ⟨hchar (by omega), ih⟩⟩⟩⟩
  | case2 a b =>
      have ha := toNat_lt a
      have hb := toNat_lt b
      rw [rfc4648]
      exact List.forall_mem_cons.mpr ⟨hchar (by omega), List.forall_mem_cons.mpr ⟨hchar (by omega),
        List.forall_mem_cons.mpr ⟨hchar (by omega), List.forall_mem_singleton.mpr heq⟩⟩⟩
  | case3 a =>
      have ha := toNat_lt a
      rw [rfc4648]
      exact List.forall_mem_cons.mpr ⟨hchar (by omega), List.forall_mem_cons.mpr ⟨hchar (by omega),
        List.forall_mem_cons.mpr ⟨heq, List.forall_mem_singleton.mpr heq⟩⟩⟩
  | case4 => exact fun c hc => absurd hc List.not_mem_nil

theorem rfc4648_triplet (a b c : UInt8) (rest : List UInt8) :
    rfc4648 (a :: b :: c :: rest) = quadruplet a b c ++ rfc4648 rest := by
  rw [quadruplet_eq]
  rfl

theorem length_quadruplet (a b c : UInt8) : (quadruplet a b c).length = 4 := rfl

theorem lf_not_mem_quadruplet (a b c : UInt8) : lf ∉ quadruplet a b c := by
  intro h
  have hrfc : lf ∈ rfc4648 [a, b, c] := by
    rw [rfc4648_triplet]
    exact List.mem_append_left _ h
  exact ((rfc4648_spec _ lf hrfc).2.1) rfl

/-- Without the line feeds. -/
def unbroken (text : List UInt8) : List UInt8 := text.filter (· != lf)

theorem unbroken_append (s t : List UInt8) : unbroken (s ++ t) = unbroken s ++ unbroken t :=
  List.filter_append s t

theorem unbroken_of_not_mem {s : List UInt8} (h : lf ∉ s) : unbroken s = s :=
  List.filter_eq_self.mpr fun _ hc => bne_iff_ne.mpr fun he => h (he ▸ hc)

/-- The text of the triplets, and what the last line has room for. -/
theorem triplets_spec (max l : ℕ) (src : List UInt8) :
    unbroken (triplets max l src).1 ++ rfc4648 (triplets max l src).2.2 = rfc4648 src ∧
      (triplets max l src).2.2.length < 3 ∧ (4 ≤ max → l ≤ max → (triplets max l src).2.1 ≤ max ∧
        ∀ t, Fits max (triplets max l src).2.1 t → Fits max l ((triplets max l src).1 ++ t)) := by
  have hquad : ∀ a b c (t : List UInt8), unbroken (quadruplet a b c ++ t) =
      quadruplet a b c ++ unbroken t := fun a b c t => by
    rw [unbroken_append, unbroken_of_not_mem (lf_not_mem_quadruplet a b c)]
  have hfits : ∀ {a b c l} {t : List UInt8}, Fits max (l + 4) t →
      Fits max l (quadruplet a b c ++ t) := fun {a b c l t} h => by
    rw [fits_append (lf_not_mem_quadruplet a b c)]
    exact h
  induction l, src using triplets.induct max with
  | case1 l a b c src hmax hl ih =>
      obtain ⟨htext, hlen, hlines⟩ := ih
      rw [triplets, if_pos hmax, if_pos hl]
      refine ⟨?_, hlen, fun h4 hle => ?_⟩
      · rw [rfc4648_triplet, ← htext, ← List.append_assoc, ← hquad]
        rfl
      · obtain ⟨hlast, hlines⟩ := hlines h4 h4
        refine ⟨hlast, fun t ht => ?_⟩
        dsimp only
        rw [List.cons_append, List.cons_append, fits_lf, List.append_assoc]
        exact ⟨hle, hfits (hlines t ht)⟩
  | case2 l a b c src hmax hl ih =>
      obtain ⟨htext, hlen, hlines⟩ := ih
      rw [triplets, if_pos hmax, if_neg hl]
      refine ⟨?_, hlen, fun h4 hle => ?_⟩
      · rw [rfc4648_triplet, ← htext, ← List.append_assoc, ← hquad]
      · obtain ⟨hlast, hlines⟩ := hlines h4 (Nat.le_of_not_lt hl)
        refine ⟨hlast, fun t ht => ?_⟩
        rw [List.append_assoc]
        exact hfits (hlines t ht)
  | case3 l a b c src hmax ih =>
      obtain ⟨htext, hlen, -⟩ := ih
      rw [triplets, if_neg hmax]
      refine ⟨?_, hlen, fun h4 => absurd h4 (by omega)⟩
      rw [rfc4648_triplet, ← htext, ← List.append_assoc, ← hquad]
  | case4 l src hsrc =>
      have hlen : src.length < 3 := by
        rcases src with _ | ⟨a, _ | ⟨b, _ | ⟨c, src⟩⟩⟩
        · exact Nat.zero_lt_succ 2
        · exact Nat.one_lt_succ_succ 1
        · exact Nat.lt_succ_self 2
        · exact absurd rfl (hsrc a b c src)
      rw [triplets]
      · exact ⟨rfl, hlen, fun _ hle => ⟨hle, fun t ht => ht⟩⟩
      · exact hsrc

theorem remainder_eq {src : List UInt8} (h : src.length < 3) : remainder src = rfc4648 src := by
  rcases src with _ | ⟨a, _ | ⟨b, _ | ⟨c, src⟩⟩⟩
  · rfl
  · exact remainder_one a
  · exact remainder_two a b
  · exact absurd h (by rw [List.length_cons, List.length_cons, List.length_cons]; omega)

/-- The text is that of the RFC in lines that are not too long. -/
theorem encode_spec {max : ℕ} (src : List UInt8) (hmax : max = 0 ∨ 4 ≤ max) :
    ∃ text, encode src max = (0, text) ∧ unbroken text = rfc4648 src ∧
      (max ≠ 0 → Fits max 0 text) := by
  obtain ⟨htext, hlen, hlines⟩ := triplets_spec max 0 src
  have hsmall : ¬(max ≠ 0 ∧ max < 4) := by omega
  refine ⟨_, if_neg hsmall, ?_, fun h0 => ?_⟩
  · have hbreak : unbroken (if max ≠ 0 ∧ (triplets max 0 src).2.1 + 4 ≥ max then [lf] else []) =
        [] := by
      split <;> rfl
    rw [unbroken_append, unbroken_append, hbreak, List.append_nil, remainder_eq hlen,
      unbroken_of_not_mem fun h => (rfc4648_spec _ lf h).2.1 rfl, htext]
  · have h4 : 4 ≤ max := hmax.resolve_left h0
    obtain ⟨hlast, hlines⟩ := hlines h4 (Nat.zero_le _)
    have hrest : lf ∉ remainder (triplets max 0 src).2.2 := by
      rw [remainder_eq hlen]
      exact fun h => (rfc4648_spec _ lf h).2.1 rfl
    have hfour : (remainder (triplets max 0 src).2.2).length ≤ 4 := by
      rcases (triplets max 0 src).2.2 with _ | ⟨a, _ | ⟨b, _ | ⟨c, rest⟩⟩⟩
      · exact Nat.zero_le 4
      · exact Nat.le_refl 4
      · exact Nat.le_refl 4
      · exact Nat.zero_le 4
    rw [List.append_assoc]
    apply hlines
    split
    · rw [List.cons_append, fits_lf]
      refine ⟨hlast, ?_⟩
      rw [List.nil_append, ← List.append_nil (remainder _), fits_append hrest]
      exact Nat.le_trans (by omega) h4
    · rw [List.nil_append, ← List.append_nil (remainder _), fits_append hrest]
      show (triplets max 0 src).2.1 + _ ≤ max
      omega

/-! ### Reading groups -/

def chars (text : List UInt8) : List UInt8 := text.filter fun c => !foreign c

/-- A character is added to the triplet. -/
def push (v : ℕ) (c : UInt8) : ℕ := (v <<< 6) + (alphabet.idxOf c &&& 0x3f)

section
variable {text src cs t : List UInt8} {c : UInt8} {v p i left : ℕ}

theorem chars_cons_of_foreign (h : foreign c = true) : chars (c :: text) = chars text :=
  List.filter_cons_of_neg (by rw [h]; nofun)

theorem chars_cons (h : foreign c = false) : chars (c :: text) = c :: chars text :=
  List.filter_cons_of_pos (by rw [h]; rfl)

theorem dropWhile_foreign (text : List UInt8) : (text.dropWhile foreign = [] ∧ chars text = []) ∨
      ∃ c src, text.dropWhile foreign = c :: src ∧ chars text = c :: chars src := by
  induction text with
  | nil => exact Or.inl ⟨rfl, rfl⟩
  | cons c text ih =>
      cases h : foreign c with
      | true => rwa [List.dropWhile_cons_of_pos h, chars_cons_of_foreign h]
      | false =>
          refine Or.inr ⟨c, text, ?_, chars_cons h⟩
          exact List.dropWhile_cons_of_neg (by rw [h]; nofun)

theorem dropWhile_ne_eq (text : List UInt8) :
    (text.dropWhile (· != eq) = [] ∧ (chars text).count eq = 0) ∨
      ∃ src, text.dropWhile (· != eq) = eq :: src ∧
        (chars text).count eq = (chars src).count eq + 1 := by
  induction text with
  | nil => exact Or.inl ⟨rfl, rfl⟩
  | cons c text ih =>
      by_cases h : c = eq
      · subst h
        have heq : foreign eq = false := by decide
        refine Or.inr ⟨text, List.dropWhile_cons_of_neg (by decide), ?_⟩
        rw [chars_cons heq, List.count_cons_self]
      · have hcount : (chars (c :: text)).count eq = (chars text).count eq := by
          cases hc : foreign c with
          | true => rw [chars_cons_of_foreign hc]
          | false => rw [chars_cons hc, List.count_cons_of_ne h]
        rwa [List.dropWhile_cons_of_pos (p := (· != eq)) (bne_iff_ne.mpr h), hcount]

theorem next_of_chars (h : chars src = c :: t) : ∃ src', chars src' = t ∧ Quad.next ⟨v, 0, p, src⟩ =
      some ⟨push v c, if c = eq then 1 else 0, alphabet.idxOf c, src'⟩ := by
  rcases dropWhile_foreign src with ⟨-, hnil⟩ | ⟨c', src', hdrop, hchars⟩
  · rw [hnil] at h
    cases h
  · rw [hchars] at h
    obtain ⟨rfl, rfl⟩ := List.cons.inj h
    refine ⟨src', rfl, ?_⟩
    rw [Quad.next, if_neg (not_not.mpr rfl)]
    dsimp only
    rw [hdrop]
    rfl

theorem next_of_chars_nil (h : chars src = []) : Quad.next ⟨v, 0, p, src⟩ = none := by
  rcases dropWhile_foreign src with ⟨hdrop, -⟩ | ⟨c', src', -, hchars⟩
  · rw [Quad.next, if_neg (not_not.mpr rfl)]
    dsimp only
    rw [hdrop]
  · rw [hchars] at h
    cases h

theorem read_append (v p i left : ℕ) (h : chars src = cs ++ t) (hcs : eq ∉ cs) :
    ∃ p' src', chars src' = t ∧ Quad.read i (cs.length + left) ⟨v, 0, p, src⟩ =
      Quad.read (i + cs.length) left ⟨cs.foldl push v, 0, p', src'⟩ := by
  induction cs generalizing i v p src with
  | nil => exact ⟨p, src, h, by rw [List.length_nil, Nat.zero_add]; rfl⟩
  | cons c cs ih =>
      obtain ⟨hc, hcs⟩ := not_or.mp (mt List.mem_cons.mpr hcs)
      obtain ⟨src', hsrc', hnext⟩ := next_of_chars (v := v) (p := p) h
      rw [if_neg (Ne.symm hc)] at hnext
      obtain ⟨p'', src'', hsrc'', hread⟩ := ih _ (alphabet.idxOf c) (i + 1) hsrc' hcs
      refine ⟨p'', src'', hsrc'', ?_⟩
      rw [List.length_cons, Nat.add_right_comm, Quad.read, hnext]
      dsimp only
      rw [hread, Nat.add_right_comm, Nat.add_assoc]
      rfl

/-- Behind a "=" only other ones are taken. -/
theorem read_padding (src : List UInt8) (v i left : ℕ) {w : ℕ} (hw : w ≠ 0) :
    (left ≤ (chars src).count eq ∧ ∃ src', Quad.read i left ⟨v, w, 64, src⟩ =
      .ok ⟨v <<< (6 * left), w + left, 64, src'⟩) ∨
    (chars src).count eq < left ∧ ∃ j, i ≤ j ∧ Quad.read i left ⟨v, w, 64, src⟩ = .error j := by
  induction left generalizing i v w src with
  | zero => exact Or.inl ⟨Nat.zero_le _, src, rfl⟩
  | succ left ih =>
      rcases dropWhile_ne_eq src with ⟨hdrop, hcount⟩ | ⟨src', hdrop, hcount⟩
      · refine Or.inr ⟨by omega, i, Nat.le_refl i, ?_⟩
        rw [Quad.read, Quad.next, if_pos hw]
        dsimp only
        rw [hdrop]
      · have hnext : Quad.next ⟨v, w, 64, src⟩ = some ⟨v <<< 6, w + 1, 64, src'⟩ := by
          rw [Quad.next, if_pos hw]
          dsimp only
          rw [hdrop]
          rfl
        rw [Quad.read, hnext, hcount]
        dsimp only
        rcases ih src' (v <<< 6) (i + 1) (Nat.succ_ne_zero w) with
          ⟨hle, src'', hread⟩ | ⟨hlt, j, hj, hread⟩
        · refine Or.inl ⟨by omega, src'', ?_⟩
          have hshift : 6 + 6 * left = 6 * (left + 1) := by ring
          rw [hread, ← Nat.shiftLeft_add, hshift, Nat.succ_add_eq_add_succ]
        · exact Or.inr ⟨by omega, j, by omega, hread⟩

theorem chars_dropWhile (src : List UInt8) : chars (src.dropWhile foreign) = chars src := by
  induction src with
  | nil => rfl
  | cons c src ih =>
      cases h : foreign c with
      | true => rw [List.dropWhile_cons_of_pos h, ih, chars_cons_of_foreign h]
      | false => rw [List.dropWhile_cons_of_neg (by rw [h]; nofun)]

theorem read_of_end (h : chars src = cs) (hcs : eq ∉ cs) (hlen : cs.length < 4) :
    Quad.read 0 4 ⟨0, 0, 0, src⟩ = .error cs.length := by
  have happend : chars src = cs ++ [] := h.trans (List.append_nil cs).symm
  obtain ⟨p', src', hsrc', hread⟩ :=
    read_append 0 0 0 (3 - cs.length + 1) happend hcs
  have hfour : cs.length + (3 - cs.length + 1) = 4 := by omega
  rw [hfour] at hread
  rw [hread, Quad.read, next_of_chars_nil hsrc', Nat.zero_add]

theorem read_of_eq (h : chars src = cs ++ eq :: t) (hcs : eq ∉ cs) (hlen : cs.length < 4) :
    (3 - cs.length ≤ t.count eq ∧ ∃ p src', Quad.read 0 4 ⟨0, 0, 0, src⟩ =
      .ok ⟨cs.foldl push 0 <<< (6 * (4 - cs.length)), 4 - cs.length, p, src'⟩) ∨
    t.count eq < 3 - cs.length ∧ ∃ j, j ≠ 0 ∧ Quad.read 0 4 ⟨0, 0, 0, src⟩ = .error j := by
  obtain ⟨p', src', hsrc', hread⟩ :=
    read_append 0 0 0 (3 - cs.length + 1) h hcs
  obtain ⟨src'', hsrc'', hnext⟩ := next_of_chars (v := cs.foldl push 0) (p := p') hsrc'
  have hfour : cs.length + (3 - cs.length + 1) = 4 := by omega
  have hstep : Quad.read (0 + cs.length) (3 - cs.length + 1) ⟨cs.foldl push 0, 0, p', src'⟩ =
      Quad.read (0 + cs.length + 1) (3 - cs.length) ⟨cs.foldl push 0 <<< 6, 1, 64, src''⟩ := by
    rw [Quad.read, hnext]
    rfl
  rw [hfour, hstep] at hread
  rw [hread, ← hsrc'']
  rcases read_padding src'' (cs.foldl push 0 <<< 6) (0 + cs.length + 1) (3 - cs.length) Nat.one_ne_zero with ⟨hle, u, hpad⟩ | ⟨hlt, j, hj, hpad⟩
  · refine Or.inl ⟨hle, 64, u, ?_⟩
    have hshift : 6 + 6 * (3 - cs.length) = 6 * (4 - cs.length) := by omega
    have hcount : 1 + (3 - cs.length) = 4 - cs.length := by omega
    rw [← hshift, ← hcount, Nat.shiftLeft_add]
    exact hpad
  · exact Or.inr ⟨hlt, j, by omega, hpad⟩

end

/-! ### The loop over the groups -/

section
variable {given : Bool} {fuel size : ℕ} {src dst cs t : List UInt8}

theorem groups_done (h : given = true ∧ size = 0) :
    groups given (fuel + 1) size 0 src dst = some (0, dst) :=
  if_pos (Or.inl h)

theorem groups_padded {w : ℕ} (hw : w ≠ 0) :
    groups given (fuel + 1) size w src dst = some (0, dst) :=
  if_pos (Or.inr (Or.inl hw))

theorem groups_end (h : chars src = []) :
    groups given (fuel + 1) size 0 src dst = some (0, dst) := by
  rcases dropWhile_foreign src with ⟨hdrop, -⟩ | ⟨c, src', -, hchars⟩
  · rw [groups, if_pos hdrop, ite_self]
  · rw [hchars] at h
    cases h

theorem groups_read (hsize : ¬(given = true ∧ size = 0)) (h : chars src ≠ []) :
    groups given (fuel + 1) size 0 src dst =
      match Quad.read 0 4 ⟨0, 0, 0, src.dropWhile foreign⟩ with
      | .error i => some (if i = 0 ∧ given = false then 0 else -1, dst)
      | .ok q =>
          if given = true then
            groups given fuel (size - min 3 size) q.lastWasEq q.src (dst ++ wanted q.v size)
          else groups given fuel size q.lastWasEq q.src (dst ++ unpadded q.v q.lastWasEq) := by
  have hdrop : src.dropWhile foreign ≠ [] := fun hnil => h (by rw [← chars_dropWhile, hnil]; rfl)
  have hsrc : src ≠ [] := fun hnil => h (by rw [hnil]; rfl)
  have hgo : ¬((given = true ∧ size = 0) ∨ (0 : ℕ) ≠ 0 ∨ src = []) :=
    not_or.mpr ⟨hsize, not_or.mpr ⟨not_not.mpr rfl, hsrc⟩⟩
  rw [groups, if_neg hgo, if_neg hdrop]

def bytesOf (given : Bool) (size v w : ℕ) : List UInt8 :=
  if given = true then wanted v size else unpadded v w

def leftOf (given : Bool) (size : ℕ) : ℕ := if given = true then size - min 3 size else size

theorem groups_full (fuel : ℕ) (dst : List UInt8) (hsize : ¬(given = true ∧ size = 0))
    (h : chars src = cs ++ t) (hlen : cs.length = 4) (hcs : eq ∉ cs) : ∃ src', chars src' = t ∧
    groups given (fuel + 1) size 0 src dst = groups given fuel (leftOf given size) 0 src'
      (dst ++ bytesOf given size (cs.foldl push 0) 0) := by
  have hne : chars src ≠ [] := by
    rw [h]
    exact List.append_ne_nil_of_left_ne_nil (fun hnil => absurd hlen (by rw [hnil]; decide)) t
  rw [← chars_dropWhile] at h
  obtain ⟨p', src', hsrc', hread⟩ := read_append 0 0 0 0 h hcs
  rw [hlen] at hread
  refine ⟨src', hsrc', ?_⟩
  rw [groups_read hsize hne, hread, Quad.read, bytesOf, leftOf]
  dsimp only
  split <;> rfl

theorem groups_eq (fuel : ℕ) (dst : List UInt8) (hsize : ¬(given = true ∧ size = 0)) (h : chars src = cs ++ eq :: t)
    (hlen : cs.length < 4) (hcs : eq ∉ cs) : groups given (fuel + 2) size 0 src dst =
      if 3 - cs.length ≤ t.count eq then
        some (0, dst ++ bytesOf given size (cs.foldl push 0 <<< (6 * (4 - cs.length)))
          (4 - cs.length))
      else some (-1, dst) := by
  have hne : chars src ≠ [] := by
    rw [h]
    exact List.append_ne_nil_of_right_ne_nil cs (List.cons_ne_nil _ _)
  rw [← chars_dropWhile] at h
  have hpad : 4 - cs.length ≠ 0 := by omega
  rw [groups_read hsize hne]
  rcases read_of_eq h hcs hlen with ⟨hle, p', src', hread⟩ | ⟨hlt, j, hj, hread⟩
  · rw [hread, if_pos hle, bytesOf]
    dsimp only
    rw [groups_padded hpad, groups_padded hpad]
    split <;> rfl
  · rw [hread, if_neg (Nat.not_le_of_lt hlt)]
    dsimp only
    rw [if_neg fun h => hj h.1]

theorem groups_short (hsize : ¬(given = true ∧ size = 0)) (h : chars src = cs)
    (hnil : cs ≠ []) (hlen : cs.length < 4) (hcs : eq ∉ cs) :
    groups given (fuel + 1) size 0 src dst = some (-1, dst) := by
  have hread := read_of_end ((chars_dropWhile src).trans h) hcs hlen
  rw [groups_read hsize (h ▸ hnil), hread]
  dsimp only
  rw [if_neg fun hz => hnil (List.length_eq_zero_iff.mp hz.1)]

end

/-! ### The round trip -/

theorem push_rfcChar {v : ℕ} (n : ℕ) (h : v < 64) : push n (rfcChar v) = n * 64 + v := by
  rw [push, (charAt_spec h).2.1, and_three_f, Nat.mod_eq_of_lt h, Nat.shiftLeft_eq]

theorem byteOf_eq {v shift : ℕ} {a : UInt8} (h : v / 2 ^ shift % 256 = a.toNat) :
    byteOf v shift = a := by
  have hand : (v >>> shift) &&& 0xff = v / 2 ^ shift % 256 := by
    rw [Nat.shiftRight_eq_div_pow]
    exact Nat.and_two_pow_sub_one_eq_mod _ 8
  rw [byteOf, hand, h]
  exact UInt8.ofNat_toNat

theorem foldl_push_rfcChars {vs : List ℕ} (h : ∀ v ∈ vs, v < 64) (n : ℕ) :
    (vs.map rfcChar).foldl push n = vs.foldl (fun n v => n * 64 + v) n := by
  rw [List.foldl_map]
  exact List.foldl_ext _ _ n fun n v hv => push_rfcChar n (h v hv)

theorem eq_not_mem_rfcChars {vs : List ℕ} (h : ∀ v ∈ vs, v < 64) : eq ∉ vs.map rfcChar := by
  intro hmem
  obtain ⟨v, hv, he⟩ := List.mem_map.mp hmem
  exact (charAt_spec (h v hv)).2.2.2.1 he

section
variable {given : Bool} {fuel size : ℕ} {src dst t : List UInt8} {a b c : UInt8}

theorem bytesOf_triplet (a b c : UInt8) {w : ℕ} (hw : w ≤ 2)
    (hsize : given = true → min 3 size = 3 - w) :
    bytesOf given size (a.toNat * 65536 + b.toNat * 256 + c.toNat) w = [a, b, c].take (3 - w) := by
  have hb := toNat_lt b
  have hc := toNat_lt c
  have h16 : byteOf (a.toNat * 65536 + b.toNat * 256 + c.toNat) 16 = a := by
    have ha := toNat_lt a
    exact byteOf_eq (by omega)
  have h8 : byteOf (a.toNat * 65536 + b.toNat * 256 + c.toNat) 8 = b := byteOf_eq (by omega)
  have h0 : byteOf (a.toNat * 65536 + b.toNat * 256 + c.toNat) 0 = c := byteOf_eq (by omega)
  have hcases : w = 0 ∨ w = 1 ∨ w = 2 := by omega
  rw [bytesOf]
  cases given with
  | true =>
      have hsize := hsize rfl
      rw [if_pos rfl]
      rcases hcases with rfl | rfl | rfl
      · obtain ⟨n, rfl⟩ := Nat.exists_eq_add_of_le' (show 3 ≤ size by omega)
        show [byteOf _ 16, byteOf _ 8, byteOf _ 0] = [a, b, c]
        rw [h16, h8, h0]
      · obtain rfl : size = 2 := by omega
        rw [wanted, h16, h8]
        rfl
      · obtain rfl : size = 1 := by omega
        rw [wanted, h16]
        rfl
  | false =>
      rw [if_neg Bool.false_ne_true, unpadded, h16, h8, h0]
      rcases hcases with rfl | rfl | rfl <;> rfl

theorem groups_three (fuel : ℕ) (dst : List UInt8) (hsize : given = true → 3 ≤ size)
    (h : chars src = quadruplet a b c ++ t) : ∃ src', chars src' = t ∧
      groups given (fuel + 1) size 0 src dst =
        groups given fuel (leftOf given size) 0 src' (dst ++ [a, b, c]) := by
  have ha := toNat_lt a
  have hb := toNat_lt b
  have hc := toNat_lt c
  have hlt : ∀ v ∈ [a.toNat / 4, a.toNat % 4 * 16 + b.toNat / 16,
      b.toNat % 16 * 4 + c.toNat / 64, c.toNat % 64], v < 64 := by
    simp only [List.forall_mem_cons, List.not_mem_nil, false_implies, implies_true, and_true]
    omega
  have heq : eq ∉ quadruplet a b c := by
    rw [quadruplet_eq]
    exact eq_not_mem_rfcChars hlt
  have hv : (quadruplet a b c).foldl push 0 = a.toNat * 65536 + b.toNat * 256 + c.toNat := by
    rw [quadruplet_eq]
    refine (foldl_push_rfcChars hlt 0).trans ?_
    simp only [List.foldl_cons, List.foldl_nil]
    omega
  have hgo : ¬(given = true ∧ size = 0) := fun hz => by
    have := hsize hz.1
    omega
  obtain ⟨src', hsrc', hgroups⟩ := groups_full fuel dst hgo h rfl heq
  rw [hv, bytesOf_triplet a b c (Nat.zero_le 2) fun hg => Nat.min_eq_left (hsize hg)] at hgroups
  exact ⟨src', hsrc', hgroups⟩

theorem groups_two (hsize : given = true → size = 2) (h : chars src = rfc4648 [a, b]) :
    groups given (fuel + 2) size 0 src dst = some (0, dst ++ [a, b]) := by
  have ha := toNat_lt a
  have hb := toNat_lt b
  have hlt : ∀ v ∈ [a.toNat / 4, a.toNat % 4 * 16 + b.toNat / 16, b.toNat % 16 * 4], v < 64 := by
    simp only [List.forall_mem_cons, List.not_mem_nil, false_implies, implies_true, and_true]
    omega
  have hv : ([a.toNat / 4, a.toNat % 4 * 16 + b.toNat / 16,
      b.toNat % 16 * 4].map rfcChar).foldl push 0 <<< 6 =
        a.toNat * 65536 + b.toNat * 256 + (0 : UInt8).toNat := by
    rw [foldl_push_rfcChars hlt, Nat.shiftLeft_eq]
    simp only [List.foldl_cons, List.foldl_nil, UInt8.toNat_zero]
    omega
  have hgo : ¬(given = true ∧ size = 0) := fun hz => by
    have := hsize hz.1
    omega
  have hchars : chars src = [a.toNat / 4, a.toNat % 4 * 16 + b.toNat / 16,
      b.toNat % 16 * 4].map rfcChar ++ eq :: [] := h
  have hgroups := (groups_eq fuel dst hgo hchars (Nat.lt_succ_self 3)
    (eq_not_mem_rfcChars hlt)).trans
    (if_pos (Nat.zero_le 0))
  have hmin : given = true → min 3 size = 3 - 1 := fun hg => by rw [hsize hg]; rfl
  have hbytes := bytesOf_triplet a b 0 (Nat.le_succ 1) hmin
  rw [← hv] at hbytes
  exact hgroups.trans (congrArg (fun bytes => some (0, dst ++ bytes)) hbytes)

theorem groups_one (hsize : given = true → size = 1) (h : chars src = rfc4648 [a]) :
    groups given (fuel + 2) size 0 src dst = some (0, dst ++ [a]) := by
  have ha := toNat_lt a
  have hlt : ∀ v ∈ [a.toNat / 4, a.toNat % 4 * 16], v < 64 := by
    simp only [List.forall_mem_cons, List.not_mem_nil, false_implies, implies_true, and_true]
    omega
  have hv : ([a.toNat / 4, a.toNat % 4 * 16].map rfcChar).foldl push 0 <<< 12 =
      a.toNat * 65536 + (0 : UInt8).toNat * 256 + (0 : UInt8).toNat := by
    rw [foldl_push_rfcChars hlt, Nat.shiftLeft_eq]
    simp only [List.foldl_cons, List.foldl_nil, UInt8.toNat_zero]
    omega
  have hgo : ¬(given = true ∧ size = 0) := fun hz => by
    have := hsize hz.1
    omega
  have hchars : chars src = [a.toNat / 4, a.toNat % 4 * 16].map rfcChar ++ eq :: [eq] := h
  have hgroups := (groups_eq fuel dst hgo hchars (Nat.lt_succ_of_lt (Nat.lt_succ_self 2))
    (eq_not_mem_rfcChars hlt)).trans (if_pos (Nat.le_refl 1))
  have hmin : given = true → min 3 size = 3 - 2 := fun hg => by rw [hsize hg]; rfl
  have hbytes := bytesOf_triplet a 0 0 (Nat.le_refl 2) hmin
  rw [← hv] at hbytes
  exact hgroups.trans (congrArg (fun bytes => some (0, dst ++ bytes)) hbytes)

end

/-- Decoding a text whose characters are those of the RFC. -/
theorem groups_rfc4648 {given : Bool} {fuel size : ℕ} {text dst : List UInt8} (src : List UInt8)
    (hsize : given = true → size = src.length) (h : chars text = rfc4648 src)
    (hfuel : (rfc4648 src).length < fuel) :
    groups given fuel size 0 text dst = some (0, dst ++ src) := by
  induction src using rfc4648.induct generalizing fuel size text dst with
  | case1 a b c rest ih =>
      rw [rfc4648_triplet, List.length_append, length_quadruplet] at hfuel
      rw [rfc4648_triplet] at h
      obtain ⟨fuel, rfl⟩ := Nat.exists_eq_succ_of_ne_zero (Nat.ne_zero_of_lt hfuel)
      have hthree : given = true → 3 ≤ size := fun hg => by
        rw [hsize hg]
        exact Nat.le_add_left 3 _
      obtain ⟨text', htext', hgroups⟩ := groups_three fuel dst hthree h
      have hleft : given = true → leftOf given size = rest.length := fun hg => by
        rw [leftOf, if_pos hg, hsize hg, List.length_cons, List.length_cons, List.length_cons]
        omega
      rw [hgroups, ih hleft htext' (by omega), List.append_assoc]
      rfl
  | case2 a b =>
      have htwo : 2 ≤ fuel := Nat.le_of_lt (Nat.lt_of_le_of_lt (Nat.le_add_left 2 2) hfuel)
      obtain ⟨fuel, rfl⟩ := Nat.exists_eq_add_of_le' htwo
      exact groups_two hsize h
  | case3 a =>
      have htwo : 2 ≤ fuel := Nat.le_of_lt (Nat.lt_of_le_of_lt (Nat.le_add_left 2 2) hfuel)
      obtain ⟨fuel, rfl⟩ := Nat.exists_eq_add_of_le' htwo
      exact groups_one hsize h
  | case4 =>
      obtain ⟨fuel, rfl⟩ := Nat.exists_eq_succ_of_ne_zero (Nat.ne_zero_of_lt hfuel)
      rw [groups_end h, List.append_nil]

theorem chars_of_unbroken {text src : List UInt8} (h : unbroken text = rfc4648 src) :
    chars text = rfc4648 src ∧ 0 ∉ text := by
  have hmem : ∀ c ∈ text, c ≠ lf → c ∈ rfc4648 src := fun c hc hlf => by
    rw [← h]
    exact List.mem_filter.mpr ⟨hc, bne_iff_ne.mpr hlf⟩
  constructor
  · rw [← h]
    refine List.filter_congr fun c hc => ?_
    by_cases hlf : c = lf
    · rw [hlf]
      decide
    · rw [(rfc4648_spec src c (hmem c hc hlf)).1, Bool.not_false, bne_iff_ne.mpr hlf]
  · intro h0
    exact (rfc4648_spec src 0 (hmem 0 h0 (by decide))).2.2 rfl

/-- The text is encoded, and decoded without a size and with the right one. -/
theorem decode_encode {src : List UInt8} {maxLineLength : ℕ}
    (h : maxLineLength = 0 ∨ 4 ≤ maxLineLength) :
    ∃ text : CString, encode src maxLineLength = (0, text.bytes) ∧
      decode text 0 = some (0, src) ∧ (src ≠ [] → decode text src.length = some (0, src)) ∧
      text.bytes.filter (· != lf) = rfc4648 src ∧
      (maxLineLength ≠ 0 → ∀ line, line <:+: text.bytes → lf ∉ line →
        line.length ≤ maxLineLength) := by
  obtain ⟨text, hencode, hunbroken, hfits⟩ := encode_spec src h
  obtain ⟨hchars, h0⟩ := chars_of_unbroken hunbroken
  have hfuel : (rfc4648 src).length < text.length + 1 := by
    rw [← hunbroken]
    exact Nat.lt_succ_of_le (List.length_filter_le _ _)
  refine ⟨⟨text, h0⟩, hencode, ?_, fun hsrc => ?_, hunbroken,
    fun hmax line hline hlf => (hfits hmax).length_le hline hlf⟩
  · exact groups_rfc4648 src nofun hchars hfuel
  · have hne : src.length ≠ 0 := fun hz => hsrc (List.length_eq_zero_iff.mp hz)
    rw [decode, bne_iff_ne.mpr hne]
    exact groups_rfc4648 src (fun _ => rfl) hchars hfuel

theorem length_le_rfc4648 (src : List UInt8) : src.length ≤ (rfc4648 src).length := by
  induction src using rfc4648.induct with
  | case1 a b c rest ih =>
      rw [rfc4648]
      simp only [List.length_cons]
      omega
  | case2 a b => exact Nat.le_add_left 2 2
  | case3 a => exact Nat.le_add_left 1 3
  | case4 => exact Nat.le_refl 0

/-! ### In buffers -/

section
variable {src s bytes : List UInt8} {dst b : Buffer} {maxLineLength : ℕ}

theorem remainderToBuffer_spec (hdst : dst.Filled s)
    (hlen : s.length + (remainder src).length + 1025 ≤ 2 ^ 24) :
    ∃ b, remainderToBuffer src dst = some b ∧ b.Filled (s ++ remainder src) := by
  unfold remainderToBuffer
  split
  · next a =>
      have hsplit : remainder [a] = (remainder [a]).take 2 ++ [eq, eq] := rfl
      rw [hsplit, List.length_append, List.length_cons, List.length_singleton] at hlen
      obtain ⟨b, hb, hf⟩ := @Buffer.Filled.appendEach ((remainder [a]).take 2) dst s hdst (by omega)
      obtain ⟨b', hb', hf'⟩ := @Buffer.Filled.appendBytes b _ [eq, eq] hf (hf.noHit (by
        rw [List.length_append, List.length_cons, List.length_singleton]
        omega))
      refine ⟨b', by rw [hb, Option.bind_some, hb']; rfl, ?_⟩
      rwa [List.append_assoc, ← hsplit] at hf'
  · exact hdst.appendEach hlen

theorem encodeToBuffer_spec (hdst : dst.Filled s) (h : maxLineLength = 0 ∨ 4 ≤ maxLineLength)
    (hlen : s.length + (encode src maxLineLength).2.length + 1025 ≤ 2 ^ 24) :
    ∃ b, encodeToBuffer src maxLineLength dst = some (0, b) ∧
      b.Filled (s ++ (encode src maxLineLength).2) := by
  have hsmall : ¬(maxLineLength ≠ 0 ∧ maxLineLength < 4) := by omega
  rw [encode, if_neg hsmall] at hlen ⊢
  rw [encodeToBuffer, if_neg hsmall]
  dsimp only at hlen ⊢
  rw [List.length_append] at hlen
  obtain ⟨b, hb, hf⟩ := @Buffer.Filled.appendEach ((triplets maxLineLength 0 src).1 ++
    if maxLineLength ≠ 0 ∧ (triplets maxLineLength 0 src).2.1 + 4 ≥ maxLineLength then [lf]
      else []) dst s hdst (by omega)
  obtain ⟨b', hb', hf'⟩ := @remainderToBuffer_spec (triplets maxLineLength 0 src).2.2 _ b hf (by
    rw [List.length_append]
    omega)
  exact ⟨b', by rw [hb, Option.bind_some, hb']; rfl, by rwa [List.append_assoc] at hf'⟩

theorem decodeToBuffer_spec {text : CString} {size : ℕ} (hdst : dst.Filled s)
    (h : decode text size = some (0, bytes)) (hlen : s.length + bytes.length + 1025 ≤ 2 ^ 24) :
    ∃ b, decodeToBuffer text size dst = some (0, b) ∧ b.Filled (s ++ bytes) := by
  obtain ⟨b, hb, hf⟩ := hdst.appendEach hlen
  exact ⟨b, by rw [decodeToBuffer, h, Option.bind_some, hb]; rfl, hf⟩

end

def DecodesTo (text : CString) (size bufferSize : ℕ) (src : List UInt8) : Prop :=
  ∃ dst dst', Buffer.new bufferSize = some dst ∧ decodeToBuffer text size dst = some (0, dst') ∧
    dst'.data = src.map some

/-- The bytes are encoded into a new buffer, which holds their text in lines that are not too long,
and decoded from there into another one, without a size and with the right one. -/
def RoundTrips (src : List UInt8) (maxLineLength bufferSize bufferSize' : ℕ) : Prop :=
  ∃ dst dst', ∃ text : CString, Buffer.new bufferSize = some dst ∧
    encodeToBuffer src maxLineLength dst = some (0, dst') ∧ dst'.HoldsText text.bytes ∧
    DecodesTo text 0 bufferSize' src ∧ (src ≠ [] → DecodesTo text src.length bufferSize' src) ∧
    text.bytes.filter (· != lf) = rfc4648 src ∧
    (maxLineLength ≠ 0 → ∀ line, line <:+: text.bytes → lf ∉ line → line.length ≤ maxLineLength)

/-- Decoding gives back what was encoded. -/
theorem decodesEncoded (src : List UInt8) (maxLineLength bufferSize bufferSize' : ℕ)
    (h : maxLineLength = 0 ∨ 4 ≤ maxLineLength)
    (hlen : (encode src maxLineLength).2.length + 1025 ≤ 2 ^ 24)
    (hsize : Buffer.SizeOk bufferSize) (hsize' : Buffer.SizeOk bufferSize') :
    RoundTrips src maxLineLength bufferSize bufferSize' := by
  obtain ⟨text, hencode, hdecode, hgiven, hrfc, hlines⟩ := @decode_encode src maxLineLength h
  obtain ⟨dst, hdst, hf⟩ := Buffer.filled_new hsize.1 hsize.2
  obtain ⟨dst', hdst', hf'⟩ := @encodeToBuffer_spec src [] dst maxLineLength hf h (by
    rwa [List.length_nil, Nat.zero_add])
  rw [hencode] at hlen hf'
  have hshort : src.length + 1025 ≤ 2 ^ 24 := by
    have hle := length_le_rfc4648 src
    rw [← hrfc] at hle
    exact (Nat.add_le_add_right (hle.trans (List.length_filter_le _ _)) _).trans hlen
  have hback : ∀ size, decode text size = some (0, src) → DecodesTo text size bufferSize' src := by
    intro size hsrc
    obtain ⟨b, hb, hfb⟩ := Buffer.filled_new hsize'.1 hsize'.2
    obtain ⟨b', hb', hfb'⟩ := decodeToBuffer_spec hfb hsrc (by rwa [List.length_nil, Nat.zero_add])
    exact ⟨b, b', hb, hb', hfb'.data_eq⟩
  exact ⟨dst, dst', text, hdst, hdst', hf'.holdsText text.nul_free, hback 0 hdecode,
    fun hsrc => hback _ (hgiven hsrc), hrfc, hlines⟩

/-- Four bytes in lines of five characters, in buffers of a size of 1. -/
theorem decodesEncoded_four : RoundTrips [1, 2, 3, 4] 5 1 1 :=
  decodesEncoded [1, 2, 3, 4] 5 1 1 (.inr (by decide)) (by decide) (by decide) (by decide)

/-- Bytes that do not fit into a buffer, which begins with a size of 1. -/
theorem not_decodesEncoded_long : ¬∀ (src : List UInt8) (maxLineLength bufferSize bufferSize' : ℕ),
    maxLineLength = 0 ∨ 4 ≤ maxLineLength → Buffer.SizeOk bufferSize →
    Buffer.SizeOk bufferSize' → RoundTrips src maxLineLength bufferSize bufferSize' := by
  intro h
  obtain ⟨_, _, text, -, -, -, ⟨b, b', hb, hb', hdata⟩, -⟩ :=
    h (List.replicate (2 ^ 24) 0) 0 1 1 (.inl rfl) (by decide) (by decide)
  obtain ⟨bytes, -, hr⟩ := Option.bind_eq_some_iff.mp hb'
  obtain ⟨b'', hb'', heq⟩ := Option.map_eq_some_iff.mp hr
  obtain rfl := (Prod.mk.inj heq).2
  obtain ⟨b0, hb0, hf⟩ := @Buffer.filled_new 1 (by decide) (by decide)
  obtain rfl := Option.some.inj (hb.symm.trans hb0)
  obtain ⟨hf', hl⟩ := hf.of_appendEach (Buffer.limited_new (by decide) hb) hb''
  have hlt := hf'.lt_limit hl
  have hlen := congrArg List.length (hf'.data_eq.symm.trans hdata)
  rw [List.length_map, List.length_map, List.length_replicate] at hlen
  rw [hlen] at hlt
  exact lt_irrefl _ hlt
end Gwenhywfar.Base64
