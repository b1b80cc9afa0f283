import Gwenhywfar.Parser.Text

/-! # Percent encoding into buffers of a fixed size

* `escapeFixed`, `unescapeFixed`: the functions of `text.c` that write to a `char` buffer of
  `maxsize` bytes; they differ in the bytes that are not escaped.
* `unescapeToBuffer`: `GWEN_Text_UnescapeToBuffer`, which returns 0 at an escape sequence that is
  not complete.
* `decodersAgree_iff`: the strict decoders agree unless such a sequence is met.
* `tolerantRoundTrips_iff`: one of the tolerant encoders leaves two bytes alone that one of the
  tolerant decoders rejects. -/

namespace Gwenhywfar

set_option maxRecDepth 4000

namespace Text

/-! ### The functions -/

/-- `maxsize-1`, which is an `unsigned int`. -/
def lastIndex (maxsize : ℕ) : ℕ := (maxsize + (2 ^ 32 - 1)) % 2 ^ 32

section
variable (plain : UInt8 → Bool)

/-- The loop of `GWEN_Text_Escape` and `GWEN_Text_EscapeTolerant`; `size` bytes are written. -/
def escapeFixed (last : ℕ) : (size : ℕ) → List UInt8 → Option (List UInt8)
  | _, [] => some []
  | size, c :: src =>
      if plain c then
        if size < last then (escapeFixed last (size + 1) src).map (c :: ·) else none
      else if last < (size + 3) % 2 ^ 32 then none
      else (escapeFixed last (size + 3) src).map (code '%' :: hexDigits c ++ ·)

/-- The loop of `GWEN_Text_UnescapeN` and `GWEN_Text_UnescapeTolerantN`. -/
def unescapeFixed (last : ℕ) : (srclen size : ℕ) → List UInt8 → Option (List UInt8)
  | _, _, [] => some []
  | srclen, size, c :: src =>
      if srclen = 0 then some []
      else if plain c then
        if size < last then (unescapeFixed last (srclen - 1) (size + 1) src).map (c :: ·) else none
      else if c = code '%' then
        if srclen < 3 then none
        else
          match src with
          | d :: e :: rest =>
              if isXDigit d && isXDigit e then
                if size < last then
                  (unescapeFixed last (srclen - 3) (size + 1) rest).map (hexByte d e :: ·)
                else none
              else none
          | _ => none
      else none

end

/-- `GWEN_Text_Escape`. -/
def escape (src : List UInt8) (maxsize : ℕ) : Option (List UInt8) :=
  escapeFixed isAlnum (lastIndex maxsize) 0 src

/-- `GWEN_Text_Unescape`. -/
def unescape (src : List UInt8) (maxsize : ℕ) : Option (List UInt8) :=
  unescapeFixed isAlnum (lastIndex maxsize) src.length 0 src

/-- The bytes that `GWEN_Text_EscapeTolerant` and `GWEN_Text_UnescapeTolerantN` leave alone. -/
def isToleratedFixed (c : UInt8) : Bool := isAlnum c || c ∈ ascii [' ', '.', ',', '*', '?']

/-- `GWEN_Text_EscapeTolerant`. -/
def escapeTolerant (src : List UInt8) (maxsize : ℕ) : Option (List UInt8) :=
  escapeFixed isToleratedFixed (lastIndex maxsize) 0 src

/-- `GWEN_Text_UnescapeTolerant`. -/
def unescapeTolerant (src : List UInt8) (maxsize : ℕ) : Option (List UInt8) :=
  unescapeFixed isToleratedFixed (lastIndex maxsize) src.length 0 src

/-- `GWEN_Text_UnescapeToBuffer`: what it returns, and the bytes that it appends. -/
def unescapeToBuffer : List UInt8 → ℤ × List UInt8
  | [] => (0, [])
  | c :: src =>
      if isAlnum c then ((unescapeToBuffer src).1, c :: (unescapeToBuffer src).2)
      else if c = code '%' then
        match src with
        | d :: e :: rest =>
            if isXDigit d && isXDigit e then
              ((unescapeToBuffer rest).1, hexByte d e :: (unescapeToBuffer rest).2)
            else (0, [])
        | _ => (0, [])
      else (-1, [])

/-- `GWEN_Text_UnescapeToBufferTolerant`. -/
def unescapeToBufferTolerant (src : List UInt8) : List UInt8 := unescapeWith (code '%') src

/-! ### Complete escape sequences -/

/-- A text of plain bytes and complete escape sequences. -/
inductive Escaped (plain : UInt8 → Bool) : List UInt8 → List UInt8 → Prop
  | nil : Escaped plain [] []
  | plain {c : UInt8} {s out : List UInt8} : plain c = true → Escaped plain s out →
      Escaped plain (c :: s) (c :: out)
  | hex {d e : UInt8} {s out : List UInt8} : isXDigit d = true → isXDigit e = true →
      Escaped plain s out → Escaped plain (code '%' :: d :: e :: s) (hexByte d e :: out)

variable {plain : UInt8 → Bool} {s t out : List UInt8} {last size maxsize : ℕ}

/-- The decoder reads a complete part, and goes on behind it. -/
theorem Escaped.unescapeFixed (h : Escaped plain s out) (hmark : plain (code '%') = false) :
    ∀ size, size + s.length ≤ last → Text.unescapeFixed plain last (s ++ t).length size (s ++ t) =
      (Text.unescapeFixed plain last t.length (size + out.length) t).map (out ++ ·) := by
  induction h with
  | nil =>
      intro size _
      rw [List.nil_append, List.length_nil, Nat.add_zero]
      cases Text.unescapeFixed plain last t.length size t <;> rfl
  | @plain c s out hc _ ih =>
      intro size hsize
      rw [List.length_cons] at hsize
      rw [List.cons_append, Text.unescapeFixed.eq_def]
      simp only [List.length_cons, Nat.add_one_ne_zero, if_false, hc, if_true, Nat.add_sub_cancel]
      rw [if_pos (by omega), ih (size + 1) (by omega), Option.map_map, Nat.add_assoc,
        Nat.add_comm 1]
      rfl
  | @hex d e s out hd he _ ih =>
      intro size hsize
      simp only [List.length_cons] at hsize
      rw [List.cons_append, List.cons_append, List.cons_append, Text.unescapeFixed.eq_def]
      simp only [List.length_cons, Nat.add_one_ne_zero, if_false, hmark, Bool.false_eq_true,
        if_true, hd, he, Bool.and_self]
      rw [if_neg (by omega), if_pos (by omega),
        show (s ++ t).length + 1 + 1 + 1 - 3 = (s ++ t).length by omega, ih (size + 1) (by omega),
        Option.map_map, Nat.add_assoc, Nat.add_comm 1]
      rfl

theorem lastIndex_eq (hpos : 0 < maxsize) (hlt : maxsize < 2 ^ 32) :
    lastIndex maxsize = maxsize - 1 := by
  unfold lastIndex
  omega

theorem Escaped.unescapeFixed_start (h : Escaped plain s out) (hmark : plain (code '%') = false)
    (hsize : (s ++ t).length < maxsize) (hmax : maxsize < 2 ^ 32) :
    Text.unescapeFixed plain (lastIndex maxsize) (s ++ t).length 0 (s ++ t) =
      (Text.unescapeFixed plain (maxsize - 1) t.length out.length t).map (out ++ ·) := by
  rw [List.length_append] at hsize
  rw [lastIndex_eq (by omega) hmax, h.unescapeFixed hmark 0 (by omega), Nat.zero_add]

theorem Escaped.unescapeFixed_all (h : Escaped plain s out) (hmark : plain (code '%') = false)
    (hsize : s.length < maxsize) (hmax : maxsize < 2 ^ 32) :
    Text.unescapeFixed plain (lastIndex maxsize) s.length 0 s = some out := by
  have hstart := h.unescapeFixed_start (t := []) hmark (by rw [List.append_nil]; exact hsize) hmax
  rw [List.append_nil] at hstart
  rw [hstart, Text.unescapeFixed, Option.map_some, List.append_nil]

theorem Escaped.unescapeToBuffer (h : Escaped isAlnum s out) : Text.unescapeToBuffer (s ++ t) =
      ((Text.unescapeToBuffer t).1, out ++ (Text.unescapeToBuffer t).2) := by
  induction h with
  | nil => rfl
  | plain hc _ ih =>
      rw [List.cons_append, Text.unescapeToBuffer.eq_def]
      simp only [hc, if_true, ih, List.cons_append]
  | hex hd he _ ih =>
      rw [List.cons_append, List.cons_append, List.cons_append, Text.unescapeToBuffer.eq_def]
      have hmark : isAlnum (code '%') = false := by decide
      simp only [hmark, Bool.false_eq_true, if_false, if_true, hd, he, Bool.and_self, ih,
        List.cons_append]

theorem escaped_escapeWith {plain' : UInt8 → Bool} : ∀ {s : List UInt8},
    (∀ c ∈ s, plain' c = true → plain c = true) →
    Escaped plain (escapeWith (code '%') plain' s) s
  | [], _ => .nil
  | c :: s, h => by
      have ih := escaped_escapeWith fun d hd => h d (List.mem_cons_of_mem c hd)
      rw [escapeWith_cons]
      by_cases hc : plain' c = true
      · rw [if_pos hc]
        exact .plain (h c List.mem_cons_self hc) ih
      · rw [if_neg hc]
        have hhex := Escaped.hex (isXDigit_hexDigit (c >>> 4)) (isXDigit_hexDigit c) ih
        rw [hexByte_hexDigits] at hhex
        exact hhex

theorem escapeFixed_eq (hlast : last < 2 ^ 32) : ∀ {s : List UInt8} {size : ℕ},
    size + (escapeWith (code '%') plain s).length ≤ last →
      escapeFixed plain last size s = some (escapeWith (code '%') plain s)
  | [], _, _ => rfl
  | c :: s, size, h => by
      rw [escapeWith_cons] at h ⊢
      rw [escapeFixed]
      by_cases hc : plain c = true
      · rw [if_pos hc, List.length_append, List.length_singleton] at h
        rw [if_pos hc, if_pos (by omega), if_pos hc, escapeFixed_eq hlast (by omega)]
        rfl
      · rw [if_neg hc, List.length_append] at h
        have hlength : (code '%' :: hexDigits c).length = 3 := rfl
        rw [if_neg hc, if_neg (by omega), if_neg hc, escapeFixed_eq hlast (by omega)]
        rfl

theorem length_escapeWith (plain : UInt8 → Bool) (s : List UInt8) :
    (escapeWith (code '%') plain s).length ≤ 3 * s.length := by
  induction s with
  | nil => exact le_rfl
  | cons c s ih =>
      rw [escapeWith_cons, List.length_append, List.length_cons]
      have hone : (if plain c = true then [c] else code '%' :: hexDigits c).length ≤ 3 := by
        split
        · rw [List.length_singleton]
          omega
        · exact le_rfl
      omega

/-! ### The strict decoders -/

def HexFirst (s : List UInt8) : Prop :=
  ∃ d e rest, s = d :: e :: rest ∧ isXDigit d = true ∧ isXDigit e = true

/-- An incomplete escape sequence is met, before anything that is to be rejected. -/
def Broken (s : List UInt8) : Prop :=
  ∃ pre out rest, s = pre ++ code '%' :: rest ∧ Escaped isAlnum pre out ∧ ¬HexFirst rest

/-- Where a strict decoder comes to its end. -/
def Stopping (t : List UInt8) : Prop :=
  t = [] ∨ (∃ rest, t = code '%' :: rest ∧ ¬HexFirst rest) ∨
    ∃ c rest, t = c :: rest ∧ isAlnum c = false ∧ c ≠ code '%'

theorem exists_stopping : ∀ s : List UInt8,
    ∃ pre out t, s = pre ++ t ∧ Escaped isAlnum pre out ∧ Stopping t
  | [] => ⟨[], [], [], rfl, .nil, Or.inl rfl⟩
  | c :: s => by
      by_cases hc : isAlnum c = true
      · obtain ⟨pre, out, t, rfl, hpre, ht⟩ := exists_stopping s
        exact ⟨c :: pre, c :: out, t, rfl, .plain hc hpre, ht⟩
      · rw [Bool.not_eq_true] at hc
        by_cases hmark : c = code '%'
        · by_cases hhex : HexFirst s
          · obtain ⟨d, e, rest, rfl, hd, he⟩ := hhex
            obtain ⟨pre, out, t, rfl, hpre, ht⟩ := exists_stopping rest
            exact ⟨c :: d :: e :: pre, hexByte d e :: out, t, rfl, hmark ▸ .hex hd he hpre, ht⟩
          · exact ⟨[], [], c :: s, rfl, .nil, Or.inr (Or.inl ⟨s, by rw [hmark], hhex⟩)⟩
        · exact ⟨[], [], c :: s, rfl, .nil, Or.inr (Or.inr ⟨c, s, rfl, hc, hmark⟩)⟩
termination_by s => s.length

variable {rest : List UInt8}

theorem unescapeFixed_incomplete (hmark : plain (code '%') = false)
    (h : ¬HexFirst rest) : unescapeFixed plain last (code '%' :: rest).length size
      (code '%' :: rest) = none := by
  rw [unescapeFixed.eq_def]
  simp only [List.length_cons, Nat.add_one_ne_zero, if_false, hmark, Bool.false_eq_true, if_true]
  split
  · rfl
  · split
    · next d e r _ =>
        by_cases hhex : (isXDigit d && isXDigit e) = true
        · rw [Bool.and_eq_true] at hhex
          exact absurd ⟨d, e, r, rfl, hhex.1, hhex.2⟩ h
        · rw [if_neg hhex]
    · rfl

theorem unescapeFixed_illegal {c : UInt8} (hc : plain c = false)
    (hmark : c ≠ code '%') :
    unescapeFixed plain last (c :: rest).length size (c :: rest) = none := by
  rw [unescapeFixed.eq_def]
  simp only [List.length_cons, Nat.add_one_ne_zero, if_false, hc, Bool.false_eq_true, hmark]

theorem unescapeToBuffer_incomplete (h : ¬HexFirst rest) :
    unescapeToBuffer (code '%' :: rest) = (0, []) := by
  rw [unescapeToBuffer.eq_def]
  have hmark : isAlnum (code '%') = false := by decide
  simp only [hmark, Bool.false_eq_true, if_false, if_true]
  split
  · next d e r =>
      by_cases hhex : (isXDigit d && isXDigit e) = true
      · rw [Bool.and_eq_true] at hhex
        exact absurd ⟨d, e, r, rfl, hhex.1, hhex.2⟩ h
      · rw [if_neg hhex]
  · rfl

theorem unescapeToBuffer_illegal {c : UInt8} (hc : isAlnum c = false)
    (hmark : c ≠ code '%') : unescapeToBuffer (c :: rest) = (-1, []) := by
  rw [unescapeToBuffer.eq_def]
  simp only [hc, Bool.false_eq_true, if_false, hmark]

/-- Both decoders succeed, with the same bytes, or none does. -/
def DecodersAgree (s : List UInt8) (maxsize : ℕ) : Prop :=
  ((unescapeToBuffer s).1 = 0 ↔ (unescape s maxsize).isSome = true) ∧
    ∀ out, unescape s maxsize = some out → (unescapeToBuffer s).2 = out

/-- Both decoders undo what both encoders do. -/
def DecodersInvert (s : List UInt8) : Prop :=
  unescapeToBuffer (escapeToBuffer s) = (0, s) ∧
    ∀ maxsize, (escapeToBuffer s).length < maxsize → maxsize < 2 ^ 32 →
      escape s maxsize = some (escapeToBuffer s) ∧ unescape (escapeToBuffer s) maxsize = some s

theorem Escaped.unescape (h : Escaped isAlnum s out) (hsize : (s ++ t).length < maxsize)
    (hmax : maxsize < 2 ^ 32) : Text.unescape (s ++ t) maxsize =
      (Text.unescapeFixed isAlnum (maxsize - 1) t.length out.length t).map (out ++ ·) :=
  h.unescapeFixed_start (by decide) hsize hmax

theorem decodersInvert (s : List UInt8) : DecodersInvert s := by
  have hs : Escaped isAlnum (escapeToBuffer s) s := escaped_escapeWith fun _ _ hc => hc
  refine ⟨?_, fun maxsize hsize hmax => ⟨?_, ?_⟩⟩
  · have hbuffer := hs.unescapeToBuffer (t := [])
    rw [List.append_nil] at hbuffer
    rw [hbuffer, Text.unescapeToBuffer, List.append_nil]
  · rw [escape, lastIndex_eq (by omega) hmax]
    refine escapeFixed_eq (by omega) ?_
    rw [Nat.zero_add]
    exact Nat.le_sub_one_of_lt hsize
  · exact hs.unescapeFixed_all (by decide) hsize hmax

theorem not_decodersAgree (h : Broken s) (hsize : s.length < maxsize) (hmax : maxsize < 2 ^ 32) :
    ¬DecodersAgree s maxsize := by
  obtain ⟨pre, out, rest, rfl, hpre, hrest⟩ := h
  intro hagree
  have hsome := hagree.1.mp (by rw [hpre.unescapeToBuffer, unescapeToBuffer_incomplete hrest])
  rw [hpre.unescape hsize hmax, unescapeFixed_incomplete (by decide) hrest] at hsome
  exact Bool.false_ne_true hsome

theorem decodersAgree (h : ¬Broken s) (hsize : s.length < maxsize) (hmax : maxsize < 2 ^ 32) :
    DecodersAgree s maxsize := by
  obtain ⟨pre, out, t, rfl, hpre, rfl | ⟨rest, rfl, hrest⟩ | ⟨c, rest, rfl, hc, hmark⟩⟩ :=
    exists_stopping s
  · rw [DecodersAgree, hpre.unescapeToBuffer, hpre.unescape hsize hmax, Text.unescapeToBuffer,
      Text.unescapeFixed]
    exact ⟨⟨fun _ => rfl, fun _ => rfl⟩, fun _ hout => Option.some.inj hout⟩
  · exact absurd ⟨pre, out, rest, rfl, hpre, hrest⟩ h
  · rw [DecodersAgree, hpre.unescapeToBuffer, hpre.unescape hsize hmax,
      unescapeToBuffer_illegal hc hmark, unescapeFixed_illegal hc hmark]
    have hret : (-1 : ℤ) ≠ 0 := by decide
    exact ⟨⟨fun h => absurd h hret, fun h => absurd h Bool.false_ne_true⟩,
      fun _ hout => absurd hout (Option.some_ne_none _).symm⟩

/-- The decoders agree on a text unless an incomplete escape sequence is met in it, and they undo
the encoders. -/
theorem decodersAgree_iff (hsize : s.length < maxsize) (hmax : maxsize < 2 ^ 32) :
    DecodersAgree s maxsize ∧ DecodersInvert s ↔ ¬Broken s :=
  ⟨fun h hbroken => not_decodersAgree hbroken hsize hmax h.1,
    fun h => ⟨decodersAgree h hsize hmax, decodersInvert s⟩⟩

/-- The decoders agree on `"a%20"` and not on `"a%4"`, in which a digit is missing. -/
theorem decodersAgree_percent :
    (DecodersAgree (ascii ['a', '%', '2', '0']) 16 ∧ DecodersInvert (ascii ['a', '%', '2', '0'])) ∧
      ¬(DecodersAgree (ascii ['a', '%', '4']) 16 ∧ DecodersInvert (ascii ['a', '%', '4'])) := by
  constructor
  · refine (decodersAgree_iff (by decide) (by decide)).mpr ?_
    rintro ⟨pre, out, rest, hs, -, hrest⟩
    rcases pre with _ | ⟨c, _ | ⟨d, pre⟩⟩
    · exact absurd (List.cons.inj hs).1 (by decide)
    · rw [← (List.cons.inj (List.cons.inj hs).2).2] at hrest
      exact hrest ⟨code '2', code '0', [], rfl, by decide, by decide⟩
    · have hmem : code '%' ∈ ascii ['2', '0'] := by
        rw [ascii, (List.cons.inj (List.cons.inj hs).2).2]
        exact List.mem_append_right pre List.mem_cons_self
      exact absurd hmem (by decide)
  · refine fun h => (decodersAgree_iff (by decide) (by decide)).mp h ?_
    refine ⟨ascii ['a'], ascii ['a'], ascii ['4'], rfl, .plain (by decide) .nil, ?_⟩
    rintro ⟨d, e, rest, hrest, -⟩
    cases (List.cons.inj hrest).2

theorem not_decodersAgree_percent : ¬∀ s maxsize, s.length < maxsize → maxsize < 2 ^ 32 →
    DecodersAgree s maxsize := by
  intro h
  have hagree := h (ascii ['a', '%', '4']) 16 (by decide) (by decide)
  exact absurd (hagree.1.mp (by decide)) (by decide)

/-! ### The tolerant functions -/

/-- Both tolerant decoders undo what the tolerant encoders emit. -/
def TolerantRoundTrips (s : List UInt8) (maxsize : ℕ) : Prop :=
  unescapeToBufferTolerant (escapeToBufferTolerant s) = s ∧
    unescapeTolerant (escapeToBufferTolerant s) maxsize = some s ∧
      ∃ out, escapeTolerant s maxsize = some out ∧ unescapeToBufferTolerant out = s ∧
        unescapeTolerant out maxsize = some s

/-- `GWEN_Text_EscapeToBufferTolerant` leaves this byte alone, the other functions do not. -/
def isUnknown (c : UInt8) : Bool := c ∈ ascii ['_', '-']

theorem isToleratedFixed_of_known {c : UInt8} (hc : isTolerated c = true)
    (h : isUnknown c = false) : isToleratedFixed c = true := by
  have hall : ∀ c, isTolerated c = true → isUnknown c = false → isToleratedFixed c = true := by
    decide
  exact hall c hc h

theorem unknown_spec {c : UInt8} (h : isUnknown c = true) :
    isTolerated c = true ∧ isToleratedFixed c = false ∧ c ≠ code '%' := by
  have hall : ∀ c, isUnknown c = true →
      isTolerated c = true ∧ isToleratedFixed c = false ∧ c ≠ code '%' := by decide
  exact hall c h

theorem escapeTolerant_eq (hsize : 3 * s.length < maxsize) (hmax : maxsize < 2 ^ 32) :
    escapeTolerant s maxsize = some (escapeWith (code '%') isToleratedFixed s) := by
  have hlength := length_escapeWith isToleratedFixed s
  rw [escapeTolerant, lastIndex_eq (by omega) hmax]
  exact escapeFixed_eq (by omega) (by omega)

theorem tolerantRoundTrips (h : ∀ c ∈ s, isUnknown c = false) (hsize : 3 * s.length < maxsize)
    (hmax : maxsize < 2 ^ 32) : TolerantRoundTrips s maxsize := by
  have hbuffer : Escaped isToleratedFixed (escapeToBufferTolerant s) s :=
    escaped_escapeWith fun c hc htol => isToleratedFixed_of_known htol (h c hc)
  have hfixed : Escaped isToleratedFixed (escapeWith (code '%') isToleratedFixed s) s :=
    escaped_escapeWith fun _ _ hc => hc
  have hlength : ∀ plain, (escapeWith (code '%') plain s).length < maxsize :=
    fun plain => Nat.lt_of_le_of_lt (length_escapeWith plain s) hsize
  refine ⟨unescapeWith_escapeWith (by decide) s, hbuffer.unescapeFixed_all (by decide) (hlength _) hmax,
    _, escapeTolerant_eq hsize hmax, unescapeWith_escapeWith (by decide) s,
    hfixed.unescapeFixed_all (by decide) (hlength _) hmax⟩

theorem exists_unknown : ∀ {s : List UInt8}, (∃ c ∈ s, isUnknown c = true) →
    ∃ pre c rest, s = pre ++ c :: rest ∧ (∀ d ∈ pre, isUnknown d = false) ∧ isUnknown c = true
  | [], ⟨_, hc, _⟩ => absurd hc List.not_mem_nil
  | d :: s, ⟨c, hmem, hc⟩ => by
      by_cases hd : isUnknown d = true
      · exact ⟨[], d, s, rfl, fun _ hnil => absurd hnil List.not_mem_nil, hd⟩
      · rw [Bool.not_eq_true] at hd
        have hne : c ≠ d := by
          rintro rfl
          rw [hc] at hd
          cases hd
        have hs : c ∈ s := (List.mem_cons.mp hmem).resolve_left hne
        obtain ⟨pre, c', rest, rfl, hpre, hc'⟩ := exists_unknown ⟨c, hs, hc⟩
        refine ⟨d :: pre, c', rest, rfl, fun e he => ?_, hc'⟩
        rcases List.mem_cons.mp he with rfl | he
        · exact hd
        · exact hpre e he

theorem not_tolerantRoundTrips (h : ∃ c ∈ s, isUnknown c = true) (hsize : 3 * s.length < maxsize)
    (hmax : maxsize < 2 ^ 32) : ¬TolerantRoundTrips s maxsize := by
  obtain ⟨pre, c, rest, rfl, hpre, hc⟩ := exists_unknown h
  obtain ⟨htol, hfixed, hmark⟩ := unknown_spec hc
  have hescaped : Escaped isToleratedFixed (escapeToBufferTolerant pre) pre :=
    escaped_escapeWith fun d hd htol => isToleratedFixed_of_known htol (hpre d hd)
  have hlength := length_escapeWith isTolerated (pre ++ c :: rest)
  have hsplit : escapeToBufferTolerant (pre ++ c :: rest) =
      escapeToBufferTolerant pre ++ c :: escapeToBufferTolerant rest := by
    rw [escapeToBufferTolerant, escapeWith, List.flatMap_append, List.flatMap_cons, if_pos htol]
    rfl
  intro hround
  have hsome := hround.2.1
  rw [← escapeToBufferTolerant, hsplit] at hlength
  rw [hsplit, unescapeTolerant, hescaped.unescapeFixed_start (by decide) (by omega) hmax,
    unescapeFixed_illegal hfixed hmark] at hsome
  cases hsome

/-- All four pairs of a tolerant encoder and a tolerant decoder are right for a text without these
two bytes, and for no other text. -/
theorem tolerantRoundTrips_iff (hsize : 3 * s.length < maxsize) (hmax : maxsize < 2 ^ 32) :
    TolerantRoundTrips s maxsize ↔ ∀ c ∈ s, c ≠ code '_' ∧ c ≠ code '-' := by
  have hunknown : ∀ c, isUnknown c = false ↔ c ≠ code '_' ∧ c ≠ code '-' := by decide
  constructor
  · intro hround c hc
    rw [← hunknown]
    by_contra hne
    rw [Bool.not_eq_false] at hne
    exact not_tolerantRoundTrips ⟨c, hc, hne⟩ hsize hmax hround
  · exact fun h => tolerantRoundTrips (fun c hc => (hunknown c).mpr (h c hc)) hsize hmax

/-- A letter, a blank, a point and a byte that no encoder leaves alone. -/
theorem tolerantRoundTrips_letters : TolerantRoundTrips (ascii ['a', ' ', '.', '%']) 16 :=
  (tolerantRoundTrips_iff (by decide) (by decide)).mpr (by decide)

theorem not_tolerantRoundTrips_letters :
    ¬∀ s maxsize, 3 * s.length < maxsize → maxsize < 2 ^ 32 → TolerantRoundTrips s maxsize := by
  intro h
  have hround := h (ascii ['a', '_']) 16 (by decide) (by decide)
  exact absurd hround.2.1 (by decide)

end Text
end Gwenhywfar
