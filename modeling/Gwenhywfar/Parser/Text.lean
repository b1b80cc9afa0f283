import Gwenhywfar.Base.CString

/-! # Escaped texts and hexadecimal texts

* `escapeWith`, `unescapeWith`: the encoders and the decoders of `text.c` and `dbrw.c` differ in
  the mark of an escaped byte, and in the bytes that need not be escaped.
* A text is decoded to what it was encoded from (`unescapeWith_escapeWith`). -/

namespace Gwenhywfar.Text

/-- The bytes of a literal. -/
def ascii (s : List Char) : List UInt8 := s.map code

/-! ### Escaping -/

/-- A byte that is not plain becomes the mark and two hexadecimal digits. -/
def escapeWith (mark : UInt8) (plain : UInt8 → Bool) (src : List UInt8) : List UInt8 :=
  src.flatMap fun c => if plain c then [c] else mark :: hexDigits c

/-- The mark and two hexadecimal digits become a byte; other bytes are copied. -/
def unescapeWith (mark : UInt8) : List UInt8 → List UInt8
  | [] => []
  | [c] => [c]
  | [c, d] => [c, d]
  | c :: d :: e :: src =>
      if c = mark ∧ isXDigit d ∧ isXDigit e then hexByte d e :: unescapeWith mark src
      else c :: unescapeWith mark (d :: e :: src)

/-- `GWEN_Text_EscapeToBuffer`. -/
def escapeToBuffer (src : List UInt8) : List UInt8 := escapeWith (code '%') isAlnum src

/-- The bytes that `GWEN_Text_EscapeToBufferTolerant` leaves alone. -/
def isTolerated (c : UInt8) : Bool := isAlnum c || c ∈ ascii [' ', '.', ',', '_', '-', '*', '?']

/-- `GWEN_Text_EscapeToBufferTolerant`. -/
def escapeToBufferTolerant (src : List UInt8) : List UInt8 := escapeWith (code '%') isTolerated src

section
variable {mark : UInt8} {plain : UInt8 → Bool} {c : UInt8} {s t : List UInt8}

theorem escapeWith_cons (c : UInt8) (s : List UInt8) : escapeWith mark plain (c :: s) =
    (if plain c then [c] else mark :: hexDigits c) ++ escapeWith mark plain s := List.flatMap_cons

theorem unescapeWith_cons (h : c ≠ mark) :
    unescapeWith mark (c :: s) = c :: unescapeWith mark s := by
  match s with
  | [] => rfl
  | [d] => rfl
  | d :: e :: s => rw [unescapeWith, if_neg fun hc => h hc.1]

theorem unescapeWith_escapeWith (h : plain mark = false) :
    ∀ s : List UInt8, unescapeWith mark (escapeWith mark plain s) = s
  | [] => rfl
  | c :: s => by
      rw [escapeWith_cons]
      by_cases hc : plain c = true
      · have hne : c ≠ mark := by
          rintro rfl
          rw [h] at hc
          cases hc
        rw [if_pos hc, List.singleton_append, unescapeWith_cons hne, unescapeWith_escapeWith h s]
      · rw [if_neg hc, hexDigits, List.cons_append, List.cons_append, List.cons_append,
          List.nil_append, unescapeWith,
          if_pos ⟨rfl, isXDigit_hexDigit (c >>> 4), isXDigit_hexDigit c⟩, hexByte_hexDigits,
          unescapeWith_escapeWith h s]

theorem hexDigits_isXDigit {d : UInt8} (h : d ∈ hexDigits c) : isXDigit d = true := by
  rw [hexDigits, List.mem_cons, List.mem_singleton] at h
  rcases h with rfl | rfl
  · exact isXDigit_hexDigit (c >>> 4)
  · exact isXDigit_hexDigit c

theorem mem_escapeWith {d : UInt8} (h : d ∈ escapeWith mark plain s) :
    plain d = true ∨ d = mark ∨ isXDigit d = true := by
  rw [escapeWith, List.mem_flatMap] at h
  obtain ⟨c, -, hd⟩ := h
  split at hd
  · next hc => exact Or.inl (List.mem_singleton.mp hd ▸ hc)
  · rcases List.mem_cons.mp hd with rfl | hd
    · exact Or.inr (Or.inl rfl)
    · exact Or.inr (Or.inr (hexDigits_isXDigit hd))

end

/-! ### Hexadecimal texts -/

/-- `GWEN_Text_ToHex`, with a buffer that is large enough. -/
def toHex (src : List UInt8) : List UInt8 := src.flatMap hexDigits

/-- `GWEN_Text_FromHexBuffer`. -/
def fromHexBuffer : List UInt8 → Option (List UInt8)
  | [] => some []
  | [c] => if isSpace c then some [] else none
  | c :: d :: src =>
      if isSpace c then fromHexBuffer (d :: src)
      else if isXDigit c && isXDigit d then (fromHexBuffer src).map fun r => hexByte c d :: r
      else none

theorem isSpace_of_isXDigit {c : UInt8} (h : isXDigit c = true) : isSpace c = false := by
  have hall : ∀ c : UInt8, isXDigit c = true → isSpace c = false := by decide +kernel
  exact hall c h

theorem fromHexBuffer_toHex : ∀ s : List UInt8, fromHexBuffer (toHex s) = some s
  | [] => rfl
  | c :: s => by
      have h1 := isXDigit_hexDigit (c >>> 4)
      have h2 := isXDigit_hexDigit c
      rw [toHex, List.flatMap_cons, ← toHex, hexDigits, List.cons_append, List.cons_append,
        List.nil_append, fromHexBuffer, isSpace_of_isXDigit h1, h1, h2, fromHexBuffer_toHex s,
        hexByte_hexDigits]
      rfl
end Gwenhywfar.Text
