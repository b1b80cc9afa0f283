import Mathlib.Data.Fintype.Basic
import Mathlib.Data.List.TakeWhile
import Mathlib.Data.Nat.Digits.Lemmas

/-! # Strings and characters of C

* `CString`: a string ends at its first NUL, so that its bytes hold none.
* The functions of `ctype.h` and `strcasecmp` are those of the "C" locale.
* `sprintf` and `sscanf` with `%d`; a number that does not fit into a `long` is clipped, and
  one that does not fit into an `int` wraps. -/

namespace Gwenhywfar

/-- The bytes before a NUL. -/
structure CString where
  bytes : List UInt8
  nul_free : 0 ∉ bytes
deriving DecidableEq

theorem not_mem_takeWhile_ne (bs : List UInt8) : 0 ∉ bs.takeWhile (· != 0) := by
  intro h
  simpa using List.mem_takeWhile_imp h

/-- The string that begins at the first of these bytes, behind which there is a NUL. -/
def CString.ofBytes (bs : List UInt8) : CString := ⟨bs.takeWhile (· != 0), not_mem_takeWhile_ne bs⟩

theorem CString.ext {s t : CString} (h : s.bytes = t.bytes) : s = t := by
  cases s
  cases t
  simp only at h
  subst h
  rfl

theorem takeWhile_nul {bs : List UInt8} (h : 0 ∉ bs) : bs.takeWhile (· != 0) = bs := by
  rw [List.takeWhile_eq_self_iff]
  intro x hx
  simpa using fun h0 : x = 0 => h (h0 ▸ hx)

theorem CString.ofBytes_bytes {bs : List UInt8} (h : 0 ∉ bs) : (CString.ofBytes bs).bytes = bs :=
  takeWhile_nul h

theorem CString.ofBytes_eq (s : CString) : CString.ofBytes s.bytes = s :=
  CString.ext (takeWhile_nul s.nul_free)

instance decidableForallByte {P : UInt8 → Prop} [DecidablePred P] : Decidable (∀ c, P c) :=
  decidable_of_iff (∀ n : Fin 256, P (UInt8.ofFin n))
    ⟨fun h c => by
      have := h c.toFin
      rwa [UInt8.ofFin_toFin] at this, fun h n => h _⟩

/-! ### Characters -/

def code (c : Char) : UInt8 := UInt8.ofNat c.toNat

/-- `isspace`. -/
def isSpace (c : UInt8) : Bool := c == 0x20 || 0x09 ≤ c && c ≤ 0x0d

/-- `iscntrl`. -/
def isCntrl (c : UInt8) : Bool := c ≤ 0x1f || c == 0x7f

/-- `isdigit`. -/
def isDigit (c : UInt8) : Bool := code '0' ≤ c && c ≤ code '9'

/-- A letter between `a` and `z` or between `A` and `Z`, or a digit. -/
def isAlnum (c : UInt8) : Bool :=
  code 'A' ≤ c && c ≤ code 'Z' || code 'a' ≤ c && c ≤ code 'z' || isDigit c

/-- `isxdigit`. -/
def isXDigit (c : UInt8) : Bool :=
  isDigit c || code 'a' ≤ c && c ≤ code 'f' || code 'A' ≤ c && c ≤ code 'F'

/-- `toupper`. -/
def toUpper (c : UInt8) : UInt8 := if code 'a' ≤ c ∧ c ≤ code 'z' then c - 0x20 else c

/-- `tolower`. -/
def toLower (c : UInt8) : UInt8 := if code 'A' ≤ c ∧ c ≤ code 'Z' then c + 0x20 else c

/-- `strcasecmp` finds no difference. -/
def strcaseEq (s t : CString) : Bool := s.bytes.map toLower == t.bytes.map toLower

theorem strcaseEq_iff {s t : CString} :
    strcaseEq s t = true ↔ s.bytes.map toLower = t.bytes.map toLower := beq_iff_eq

/-! ### Hexadecimal digits -/

def hexDigit (c : UInt8) : UInt8 := (if 9 < c then c + 7 else c) + code '0'

def hexValue (c : UInt8) : UInt8 :=
  let d := toUpper c - code '0'
  if 9 < d then d - 7 else d

def hexDigits (c : UInt8) : List UInt8 := [hexDigit ((c >>> 4) &&& 0xf), hexDigit (c &&& 0xf)]

def hexByte (d e : UInt8) : UInt8 := ((hexValue d <<< 4) &&& 0xf0) + (hexValue e &&& 0xf)

theorem hexByte_hexDigits (c : UInt8) :
    hexByte (hexDigit ((c >>> 4) &&& 0xf)) (hexDigit (c &&& 0xf)) = c := by
  have h : ∀ c : UInt8, hexByte (hexDigit ((c >>> 4) &&& 0xf)) (hexDigit (c &&& 0xf)) = c := by
    decide +kernel
  exact h c

theorem isXDigit_hexDigit (c : UInt8) : isXDigit (hexDigit (c &&& 0xf)) = true := by
  have h : ∀ c : UInt8, isXDigit (hexDigit (c &&& 0xf)) = true := by decide +kernel
  exact h c

/-! ### Decimal numbers -/

def decimalDigits (n : ℕ) : List UInt8 := (Nat.digits 10 n).reverse.map fun d => code '0' + UInt8.ofNat d

/-- `sprintf(buffer, "%d", num)`. -/
def printInt (num : Int32) : List UInt8 :=
  if num.toInt = 0 then [code '0']
  else if num.toInt < 0 then code '-' :: decimalDigits num.toInt.natAbs
  else decimalDigits num.toInt.natAbs

def digitsValue (ds : List UInt8) : ℕ := ds.foldl (fun n d => n * 10 + (d - code '0').toNat) 0

/-- A number as it is stored in an `int`. -/
def toInt32 (z : ℤ) : Int32 := Int32.ofInt (max (-2 ^ 63) (min (2 ^ 63 - 1) z))

/-- The number that begins with these digits, if there are any. -/
def scanDigits (negative : Bool) (s : List UInt8) : Option Int32 :=
  let ds := s.takeWhile isDigit
  if ds = [] then none
  else some (toInt32 (if negative then -(digitsValue ds : ℤ) else digitsValue ds))

def scanSigned : List UInt8 → Option Int32
  | [] => none
  | c :: s =>
      if c = code '-' then scanDigits true s
      else if c = code '+' then scanDigits false s
      else scanDigits false (c :: s)

/-- `sscanf(s, "%d", &num)`: the number, if there is one. -/
def scanInt (s : List UInt8) : Option Int32 := scanSigned (s.dropWhile isSpace)

/-! ### A printed number is read back -/

theorem digitsValue_decimalDigits (n : ℕ) : digitsValue (decimalDigits n) = n := by
  have hfold : ∀ (ds : List ℕ), (∀ d ∈ ds, d < 10) →
      (ds.map fun d => code '0' + UInt8.ofNat d).foldr
        (fun d n => n * 10 + (d - code '0').toNat) 0 = Nat.ofDigits 10 ds := by
    intro ds
    induction ds with
    | nil => exact fun _ => rfl
    | cons d ds ih =>
        intro h
        have hd : d < 10 := h d List.mem_cons_self
        have hbyte : (code '0' + UInt8.ofNat d - code '0').toNat = d := by
          rw [UInt8.add_comm, UInt8.add_sub_cancel]
          exact UInt8.toNat_ofNat_of_lt (hd.trans (by decide))
        rw [List.map_cons, List.foldr_cons, ih fun e he => h e (List.mem_cons_of_mem d he), hbyte,
          Nat.ofDigits_cons]
        omega
  rw [digitsValue, decimalDigits, List.map_reverse, List.foldl_reverse,
    hfold _ fun d hd => Nat.digits_lt_base (by omega) hd, Nat.ofDigits_digits]

theorem isDigit_of_mem_decimalDigits {n : ℕ} {c : UInt8} (h : c ∈ decimalDigits n) :
    isDigit c = true := by
  rw [decimalDigits, List.mem_map] at h
  obtain ⟨d, hd, rfl⟩ := h
  have hlt : d < 10 := Nat.digits_lt_base (by omega) (List.mem_reverse.mp hd)
  have hall : ∀ d < 10, isDigit (code '0' + UInt8.ofNat d) = true := by decide
  exact hall d hlt

theorem decimalDigits_ne_nil {n : ℕ} (h : n ≠ 0) : decimalDigits n ≠ [] := by
  rw [decimalDigits, ne_eq, List.map_eq_nil_iff, List.reverse_eq_nil_iff]
  exact Nat.digits_ne_nil_iff_ne_zero.mpr h

theorem toInt32_toInt (i : Int32) : toInt32 i.toInt = i := by
  have h1 := i.toInt_lt
  have h2 := i.le_toInt
  rw [toInt32, min_eq_right (by omega), max_eq_right (by omega), Int32.ofInt_toInt]

theorem scanInt_of_digit {c : UInt8} {s : List UInt8} (hc : isDigit c = true) :
    scanInt (c :: s) = scanDigits false (c :: s) := by
  have h : ∀ c : UInt8, isDigit c = true → isSpace c = false ∧ c ≠ code '-' ∧ c ≠ code '+' := by
    decide +kernel
  obtain ⟨h1, h2, h3⟩ := h c hc
  rw [scanInt, List.dropWhile_cons_of_neg (by simp [h1]), scanSigned, if_neg h2, if_neg h3]

theorem scanDigits_decimalDigits (negative : Bool) {n : ℕ} (h : n ≠ 0) :
    scanDigits negative (decimalDigits n) = some (toInt32 (if negative then -(n : ℤ) else n)) := by
  have htake : (decimalDigits n).takeWhile isDigit = decimalDigits n :=
    List.takeWhile_eq_self_iff.mpr fun c hc => isDigit_of_mem_decimalDigits hc
  rw [scanDigits, htake, if_neg (decimalDigits_ne_nil h), digitsValue_decimalDigits]

theorem scanInt_printInt (i : Int32) : scanInt (printInt i) = some i := by
  rw [printInt]
  by_cases h0 : i.toInt = 0
  · rw [if_pos h0, ← toInt32_toInt i, h0]
    decide
  · have hne : i.toInt.natAbs ≠ 0 := Int.natAbs_ne_zero.mpr h0
    rw [if_neg h0]
    by_cases hneg : i.toInt < 0
    · have hsign : scanInt (code '-' :: decimalDigits i.toInt.natAbs) =
          scanDigits true (decimalDigits i.toInt.natAbs) := by
        rw [scanInt, List.dropWhile_cons_of_neg (by decide), scanSigned, if_pos rfl]
      rw [if_pos hneg, hsign, scanDigits_decimalDigits true hne, if_pos rfl,
        show -(i.toInt.natAbs : ℤ) = i.toInt by omega, toInt32_toInt]
    · obtain ⟨c, s, hs⟩ := List.exists_cons_of_ne_nil (decimalDigits_ne_nil hne)
      have hdigit := isDigit_of_mem_decimalDigits (hs ▸ List.mem_cons_self)
      rw [if_neg hneg, hs, scanInt_of_digit hdigit, ← hs, scanDigits_decimalDigits false hne,
        if_neg (by decide), show (i.toInt.natAbs : ℤ) = i.toInt by omega, toInt32_toInt]

theorem not_mem_printInt (i : Int32) {c : UInt8} (hc : isDigit c = false) (hsign : c ≠ code '-') :
    c ∉ printInt i := by
  have hdigits : ∀ n, c ∉ decimalDigits n := fun n hmem =>
    absurd (hc ▸ isDigit_of_mem_decimalDigits hmem) (by decide)
  rw [printInt]
  split
  · rw [List.mem_singleton]
    rintro rfl
    exact absurd hc (by decide)
  · split
    · rw [List.mem_cons, not_or]
      exact ⟨hsign, hdigits _⟩
    · exact hdigits _

end Gwenhywfar
