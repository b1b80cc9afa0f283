import Gwenhywfar.Parser.MsgBinary
import Gwenhywfar.Parser.Text

/-! # The values of message elements

* `writeValue`, `readValue`: `GWEN_MsgEngine__WriteValue` and `GWEN_MsgEngine__ReadValue` without
  functions for external types and without trust information.
* `text_roundTrips_iff`: a text comes back as it was written iff it has no backslash and no control
  character.
* `segment_read_and_skipped`: the elements of a segment are read back one after the other, and
  `GWEN_MsgEngine_SkipSegment` stops exactly where they end. -/

namespace Gwenhywfar

set_option maxRecDepth 4000

namespace MsgEngine

open Text
open CString (ofBytes)

/-! ### Writing -/

/-- The fields of `GWEN_MSGENGINE` that values depend on. -/
structure Engine where
  escapeChar : UInt8
  charsToEscape : CString

/-- The properties of the node of an element. -/
structure Element where
  typ : CString
  minsize : UInt32
  maxsize : UInt32
  size : UInt32
  minnum : UInt32
  filler : UInt8
  leftfill : Bool
  rightfill : Bool

/-- The element has the type `bin`. -/
def Element.isBin (node : Element) : Bool :=
  strcaseEq node.typ (ofBytes (ascii ['b', 'i', 'n']))

/-- The element has the type `num`. -/
def Element.isNum (node : Element) : Bool :=
  strcaseEq node.typ (ofBytes (ascii ['n', 'u', 'm']))

/-- A character is compared with a `char`, which is negative from 0x80 on. -/
def Engine.isEscapeChar (e : Engine) (c : UInt8) : Bool := c == e.escapeChar && c < 0x80

def Engine.escapeByte (e : Engine) (c : UInt8) : List UInt8 :=
  if e.isEscapeChar c || c ∈ e.charsToEscape.bytes then [e.escapeChar, c] else [c]

/-- The character that a letter behind a backslash stands for. -/
def backslashed (c : UInt8) : UInt8 :=
  if c = code 'r' then 0x0d else if c = code 'n' then 0x0a else if c = code 'f' then 0x0c
  else if c = code 't' then 0x09 else c

def writeTextLoop (e : Engine) : (lastWasEscape : Bool) → List UInt8 → List UInt8
  | _, [] => []
  | true, c :: data => e.escapeByte (backslashed c) ++ writeTextLoop e false data
  | false, c :: data =>
      if c = code '\\' then writeTextLoop e true data
      else e.escapeByte c ++ writeTextLoop e false data

/-- The digits of a number, with zeros in front of them or behind them where this is wanted. -/
def writeNum (node : Element) (data : List UInt8) : List UInt8 :=
  let zeros := List.replicate (node.maxsize - UInt32.ofNat data.length).toNat (code '0')
  if node.leftfill then zeros ++ data else if node.rightfill then data ++ zeros else data

def valueText (e : Engine) (node : Element) (data : List UInt8) : List UInt8 :=
  if node.isBin then
    at' :: (printInt (UInt32.ofNat data.length).toInt32 ++ at' :: data)
  else if node.isNum then writeNum node (ofBytes data).bytes
  else writeTextLoop e false (ofBytes data).bytes

/-- `GWEN_MsgEngine__WriteValue`: the result and the bytes that are added to the message. -/
def writeValue (e : Engine) (node : Element) (data : List UInt8) : ℤ × List UInt8 :=
  if node.minsize ≠ 0 ∧ UInt32.ofNat data.length < node.minsize then (-1, [])
  else if node.maxsize ≠ 0 ∧ node.maxsize < UInt32.ofNat data.length then (-1, [])
  else
    let text := valueText e node data
    let bs := UInt32.ofNat text.length
    if node.size ≠ 0 then
      if node.size < bs then (-1, text)
      else (0, text ++ List.replicate (node.size.toNat - bs.toNat) node.filler)
    else (0, text)

/-! ### Reading -/

/-- The character that is stored for one of a text. -/
def shown (c : UInt8) : UInt8 := if c = code '\\' ∨ isCntrl c then code ' ' else c

/-- The loop over the characters of a text, of which there are at most so many: the value and what
is left of the message. -/
def readTextLoop (e : Engine) (delimiters : CString) :
    (room : Option ℕ) → (lastWasEscape : Bool) → List UInt8 → List UInt8 × List UInt8
  | _, _, [] => ([], [])
  | some 0, _, s => ([], s)
  | room, true, c :: s =>
      let r := readTextLoop e delimiters (room.map (· - 1)) false s
      (shown c :: r.1, r.2)
  | room, false, c :: s =>
      if e.isEscapeChar c then readTextLoop e delimiters room true s
      else if c ∈ delimiters.bytes then ([], c :: s)
      else
        let r := readTextLoop e delimiters (room.map (· - 1)) false s
        (shown c :: r.1, r.2)

def checkValue (node : Element) (value : List UInt8) : ℤ :=
  let realSize := UInt32.ofNat value.length
  if realSize = 0 then if node.minnum = 0 then 1 else -1
  else if node.minsize ≠ 0 ∧ realSize < node.minsize then -1
  else if node.maxsize ≠ 0 ∧ node.maxsize < realSize then -1
  else 0

/-- The number of characters that a text has at most. -/
def Element.room (node : Element) : Option ℕ :=
  if node.size = 0 then none else some node.size.toInt32.toInt.toNat

/-- `GWEN_MsgEngine__ReadValue`: the result, the value and what is left of the message.  There is
no outcome where a byte is stored behind a buffer. -/
def readValue (e : Engine) (node : Element) (delimiters : CString) (s : List UInt8) :
    Option (ℤ × List UInt8 × List UInt8) :=
  (if node.isBin then readBin s
    else some (0, readTextLoop e delimiters node.room false s)).map fun r =>
      if r.1 ≠ 0 then r else (checkValue node r.2.1, r.2)

/-! ### Texts -/

section
variable {e : Engine} {node : Element} {delimiters : CString} {data rest : List UInt8}

/-- A text with the characters that its backslashes stand for. -/
def decoded : (lastWasEscape : Bool) → List UInt8 → List UInt8
  | _, [] => []
  | true, c :: data => backslashed c :: decoded false data
  | false, c :: data =>
      if c = code '\\' then decoded true data else c :: decoded false data

theorem writeTextLoop_eq : ∀ (esc : Bool) (data : List UInt8),
    writeTextLoop e esc data = (decoded esc data).flatMap e.escapeByte
  | esc, [] => by cases esc <;> rfl
  | true, c :: data => by
      rw [writeTextLoop, decoded, List.flatMap_cons, writeTextLoop_eq false data]
  | false, c :: data => by
      rw [writeTextLoop, decoded]
      split
      · exact writeTextLoop_eq true data
      · rw [List.flatMap_cons, writeTextLoop_eq false data]

/-- The characters that end a value are escaped in it, and none of them is the escape character. -/
structure Engine.Delimits (e : Engine) (delimiters : CString) : Prop where
  escape_lt : e.escapeChar < 0x80
  escaped : ∀ c ∈ delimiters.bytes, c ∈ e.charsToEscape.bytes
  not_escape : e.escapeChar ∉ delimiters.bytes

/-- What follows a value begins with a delimiter, if there is anything. -/
def Ends (delimiters : CString) (rest : List UInt8) : Prop :=
  ∀ c ∈ rest.head?, c ∈ delimiters.bytes

theorem isEscapeChar_iff (he : e.escapeChar < 0x80) {c : UInt8} :
    e.isEscapeChar c = true ↔ c = e.escapeChar := by
  rw [Engine.isEscapeChar, Bool.and_eq_true, beq_iff_eq, decide_eq_true_iff]
  constructor
  · exact And.left
  · rintro rfl
    exact ⟨rfl, he⟩

theorem readTextLoop_nil (he : e.Delimits delimiters) (hrest : Ends delimiters rest) :
    readTextLoop e delimiters none false rest = ([], rest) := by
  cases rest with
  | nil => rw [readTextLoop]
  | cons c rest =>
      have hc : c ∈ delimiters.bytes := hrest c rfl
      have hescape : ¬ e.isEscapeChar c = true := by
        rw [isEscapeChar_iff he.escape_lt]
        rintro rfl
        exact he.not_escape hc
      rw [readTextLoop, if_neg hescape, if_pos hc]
      intro h
      cases h

/-- The characters of a text are read up to its delimiter. -/
theorem readTextLoop_written (he : e.Delimits delimiters) (hrest : Ends delimiters rest) :
    ∀ ds : List UInt8, readTextLoop e delimiters none false (ds.flatMap e.escapeByte ++ rest) =
      (ds.map shown, rest)
  | [] => readTextLoop_nil he hrest
  | c :: ds => by
      have ih := readTextLoop_written he hrest ds
      rw [List.flatMap_cons, List.append_assoc, Engine.escapeByte]
      by_cases hc : (e.isEscapeChar c || c ∈ e.charsToEscape.bytes) = true
      · have hescape : e.isEscapeChar e.escapeChar = true := (isEscapeChar_iff he.escape_lt).mpr rfl
        rw [if_pos hc, List.cons_append, List.cons_append, List.nil_append, readTextLoop,
          if_pos hescape, readTextLoop, Option.map_none, ih]
        · rfl
        · intro h
          cases h
        · intro h
          cases h
      · rw [Bool.or_eq_true, not_or, decide_eq_true_iff] at hc
        have hdelim : c ∉ delimiters.bytes := fun hmem => hc.2 (he.escaped c hmem)
        rw [if_neg (by simpa using hc), List.singleton_append, readTextLoop, if_neg hc.1,
          if_neg hdelim, Option.map_none, ih]
        · rfl
        · intro h
          cases h

/-- A character that a text may have. -/
def isPrint (c : UInt8) : Bool := c != code '\\' && !isCntrl c

theorem shown_eq_iff {c : UInt8} : shown c = c ↔ isPrint c = true := by
  have h : ∀ c : UInt8, shown c = c ↔ isPrint c = true := by decide
  exact h c

theorem isPrint_shown (c : UInt8) : isPrint (shown c) = true := by
  have h : ∀ c : UInt8, isPrint (shown c) = true := by decide
  exact h c

theorem decoded_of_print : ∀ {data : List UInt8}, (∀ c ∈ data, isPrint c = true) →
    decoded false data = data
  | [], _ => rfl
  | c :: data, h => by
      rw [List.forall_mem_cons] at h
      have hc : c ≠ code '\\' := by
        rintro rfl
        exact absurd h.1 (by decide)
      rw [decoded, if_neg hc, decoded_of_print h.2]

theorem map_shown_decoded_iff :
    (decoded false data).map shown = data ↔ ∀ c ∈ data, isPrint c = true := by
  constructor
  · intro h c hc
    rw [← h, List.mem_map] at hc
    obtain ⟨d, -, rfl⟩ := hc
    exact isPrint_shown d
  · intro h
    rw [decoded_of_print h, List.map_congr_left fun c hc => shown_eq_iff.mpr (h c hc), List.map_id']

theorem valueText_text (hbin : node.isBin = false) (hnum : node.isNum = false)
    (hnul : 0 ∉ data) : valueText e node data = (decoded false data).flatMap e.escapeByte := by
  rw [valueText, hbin, hnum, if_neg Bool.false_ne_true, if_neg Bool.false_ne_true,
    CString.ofBytes_bytes hnul, writeTextLoop_eq]

theorem writeValue_ok (hsize : node.size = 0) (hwrite : (writeValue e node data).1 = 0) :
    (writeValue e node data).2 = valueText e node data ∧
      (node.minsize = 0 ∨ node.minsize ≤ UInt32.ofNat data.length) ∧
      (node.maxsize = 0 ∨ UInt32.ofNat data.length ≤ node.maxsize) := by
  rw [writeValue] at hwrite ⊢
  split at hwrite
  · cases hwrite
  · next hmin =>
      split at hwrite
      · cases hwrite
      · next hmax =>
          rw [if_neg hmin, if_neg hmax, hsize]
          refine ⟨rfl, ?_, ?_⟩
          · by_contra h
            rw [not_or, UInt32.not_le] at h
            exact hmin h
          · by_contra h
            rw [not_or, UInt32.not_le] at h
            exact hmax h

theorem checkValue_ok (hne : data ≠ []) (hlen : data.length < 2 ^ 32)
    (hmin : node.minsize = 0 ∨ node.minsize ≤ UInt32.ofNat data.length)
    (hmax : node.maxsize = 0 ∨ UInt32.ofNat data.length ≤ node.maxsize) :
    checkValue node data = 0 := by
  have hpos : UInt32.ofNat data.length ≠ 0 := by
    intro h0
    have htoNat := congrArg UInt32.toNat h0
    rw [UInt32.toNat_ofNat', Nat.mod_eq_of_lt hlen] at htoNat
    exact hne (List.length_eq_zero_iff.mp htoNat)
  rw [checkValue]
  rw [if_neg hpos, if_neg, if_neg]
  · rintro ⟨h0, hlt⟩
    exact absurd hlt (UInt32.not_lt.mpr (hmax.resolve_left h0))
  · rintro ⟨h0, hlt⟩
    exact absurd hlt (UInt32.not_lt.mpr (hmin.resolve_left h0))

theorem room_none (hsize : node.size = 0) : node.room = none := if_pos hsize

/-- A text comes back as it was written iff it has no backslash and no control character. -/
theorem text_roundTrips_iff (he : e.Delimits delimiters) (hrest : Ends delimiters rest)
    (hbin : node.isBin = false) (hnum : node.isNum = false) (hsize : node.size = 0)
    (hnul : 0 ∉ data) (hne : data ≠ []) (hlen : data.length < 2 ^ 32)
    (hwrite : (writeValue e node data).1 = 0) :
    readValue e node delimiters ((writeValue e node data).2 ++ rest) = some (0, data, rest) ↔
      ∀ c ∈ data, isPrint c = true := by
  obtain ⟨htext, hmin, hmax⟩ := writeValue_ok hsize hwrite
  rw [htext, valueText_text hbin hnum hnul, readValue, hbin, if_neg Bool.false_ne_true,
    room_none hsize, readTextLoop_written he hrest, Option.map_some]
  dsimp only
  rw [if_neg (not_not_intro rfl), ← map_shown_decoded_iff]
  constructor
  · intro h
    exact (Prod.mk.inj (Prod.mk.inj (Option.some.inj h)).2).1
  · intro h
    rw [h, checkValue_ok hne hlen hmin hmax]

/-- The question mark escapes the separators of a message and itself. -/
def sampleEngine : Engine :=
  { escapeChar := code '?', charsToEscape := ofBytes (ascii ['?', '@', '\'', ':', '+']) }

/-- The separators of groups, elements and segments. -/
def sampleDelimiters : CString := ofBytes (ascii ['\'', ':', '+'])

def sampleElement (typ : List Char) : Element :=
  { typ := ofBytes (ascii typ), minsize := 0, maxsize := 0, size := 0, minnum := 1,
    filler := 0, leftfill := false, rightfill := false }

theorem sampleEngine_delimits : sampleEngine.Delimits sampleDelimiters :=
  ⟨by decide, by decide, by decide⟩

/-- A separator in a text is escaped, and the text comes back. -/
theorem text_roundTrips_iff_separator :
    readValue sampleEngine (sampleElement ['A', 'N']) sampleDelimiters
        ((writeValue sampleEngine (sampleElement ['A', 'N']) (ascii ['1', '+', '1'])).2 ++
          ascii [':', '2']) = some (0, ascii ['1', '+', '1'], ascii [':', '2']) :=
  (text_roundTrips_iff sampleEngine_delimits
    (fun c hc => by rw [← Option.some.inj hc]; decide)
    (by decide) (by decide) rfl (by decide) (by decide)
    (by decide) (by decide)).mpr (by decide)

/-! ### Numbers and binary data -/

theorem length_decimalDigits {n : ℕ} (hn : n < 10 ^ 10) : (decimalDigits n).length ≤ 10 := by
  rw [decimalDigits, List.length_map, List.length_reverse]
  exact Nat.digits_length_le_iff (by decide) n |>.mpr hn

theorem length_printInt (i : Int32) : (printInt i).length ≤ 11 := by
  have hlower := i.le_toInt
  have hupper := i.toInt_lt
  have hdigits := length_decimalDigits (n := i.toInt.natAbs) (by omega)
  rw [printInt]
  split
  · exact (by decide : 1 ≤ 11)
  · split
    · rw [List.length_cons]
      omega
    · omega

/-- The length text in front of binary data. -/
theorem binLength_written (terminated : Bool) {data : List UInt8} (hlen : data.length < 2 ^ 32)
    (rest : List UInt8) :
    binLength terminated (printInt (UInt32.ofNat data.length).toInt32 ++ at' :: (data ++ rest)) =
      some (0, data.length, data ++ rest) := by
  generalize hi : (UInt32.ofNat data.length).toInt32 = i
  have hnumber : i.toUInt32.toNat = data.length := by
    rw [← hi, UInt32.toUInt32_toInt32, UInt32.toNat_ofNat', Nat.mod_eq_of_lt hlen]
  have hat : at' ∉ printInt i := not_mem_printInt i (by decide) (by decide)
  have hnul : 0 ∉ printInt i := not_mem_printInt i (by decide) (by decide)
  have htext := length_printInt i
  have hroom : ¬ 16 < (printInt i).length +
      (if terminated ∨ at' :: (data ++ rest) ≠ [] then 1 else 0) := by
    split <;> omega
  rw [binLength, lengthText_unique hat]
  dsimp only
  rw [if_neg hroom, if_neg (List.cons_ne_nil _ _), takeWhile_nul hnul, scanInt_printInt]
  dsimp only
  rw [List.tail_cons, hnumber, if_neg (by rw [List.length_append]; omega)]

/-- The elements that come back as they were written. -/
structure Readable (e : Engine) (node : Element) (data : List UInt8) : Prop where
  size : node.size = 0
  written : (writeValue e node data).1 = 0
  ne_nil : data ≠ []
  length : data.length < 2 ^ 32
  text : node.isBin = false → ∀ c ∈ data, c ≠ 0 ∧ isPrint c = true
  num : node.isBin = false → node.isNum = true → node.leftfill = false ∧ node.rightfill = false ∧
    ∀ c ∈ data, e.escapeByte c = [c]

theorem Readable.nul_free (hr : Readable e node data) (hbin : node.isBin = false) : 0 ∉ data :=
  fun h0 => (hr.text hbin 0 h0).1 rfl

/-- The bytes of a number or a text are its characters, some with the escape character. -/
theorem Readable.valueText (hr : Readable e node data) (hbin : node.isBin = false) :
    MsgEngine.valueText e node data = data.flatMap e.escapeByte := by
  cases hnum : node.isNum with
  | false =>
      rw [valueText_text hbin hnum (hr.nul_free hbin),
        decoded_of_print fun c hc => (hr.text hbin c hc).2]
  | true =>
      obtain ⟨hleft, hright, hplain⟩ := hr.num hbin hnum
      have hsingle : ∀ {ds : List UInt8}, (∀ c ∈ ds, e.escapeByte c = [c]) →
          ds.flatMap e.escapeByte = ds := by
        intro ds
        induction ds with
        | nil => exact fun _ => rfl
        | cons c ds ih =>
            intro h
            rw [List.forall_mem_cons] at h
            rw [List.flatMap_cons, h.1, ih h.2, List.singleton_append]
      rw [MsgEngine.valueText, hbin, hnum, if_neg Bool.false_ne_true, if_pos rfl, writeNum, hleft,
        hright, if_neg Bool.false_ne_true, if_neg Bool.false_ne_true,
        CString.ofBytes_bytes (hr.nul_free hbin), hsingle hplain]

/-- An element is read back, whatever its type is. -/
theorem readValue_written (he : e.Delimits delimiters) (hrest : Ends delimiters rest)
    (hr : Readable e node data) :
    readValue e node delimiters ((writeValue e node data).2 ++ rest) = some (0, data, rest) := by
  obtain ⟨htext, hmin, hmax⟩ := writeValue_ok hr.size hr.written
  have hcheck := checkValue_ok hr.ne_nil hr.length hmin hmax
  rw [htext, readValue]
  cases hbin : node.isBin with
  | false =>
      rw [hr.valueText hbin, if_neg Bool.false_ne_true, room_none hr.size,
        readTextLoop_written he hrest, Option.map_some]
      dsimp only
      rw [if_neg (not_not_intro rfl),
        List.map_congr_left fun c hc => shown_eq_iff.mpr (hr.text hbin c hc).2, List.map_id',
        hcheck]
  | true =>
      have hread : readBin (valueText e node data ++ rest) = some (0, data, rest) := by
        rw [valueText, hbin, if_pos rfl, List.cons_append, List.append_assoc, List.cons_append,
          readBin, if_neg (not_not_intro rfl), binLength_written true hr.length, Option.map_some]
        dsimp only
        rw [if_neg (not_not_intro rfl), List.take_left, List.drop_left]
      rw [if_pos rfl, hread, Option.map_some]
      dsimp only
      rw [if_neg (not_not_intro rfl), hcheck]

/-! ### Segments -/

variable {term : UInt8}

/-- A segment can be skipped: its terminator and the mark of binary data are escaped in texts. -/
structure Engine.Terminates (e : Engine) (term : UInt8) : Prop where
  escape_lt : e.escapeChar < 0x80
  term_escaped : term ∈ e.charsToEscape.bytes
  at_escaped : at' ∈ e.charsToEscape.bytes
  escape_ne : e.escapeChar ≠ at' ∧ e.escapeChar ≠ term
  term_ne : term ≠ at'

theorem reaches_text (ht : e.Terminates term) : ∀ (ds t : List UInt8),
    Reaches e.escapeChar term (ds.flatMap e.escapeByte ++ t) t
  | [], t => .refl t
  | c :: ds, t => by
      have ih := reaches_text ht ds t
      rw [List.flatMap_cons, List.append_assoc, Engine.escapeByte]
      by_cases hc : (e.isEscapeChar c || c ∈ e.charsToEscape.bytes) = true
      · rw [if_pos hc]
        exact .escaped ih
      · have hnot := hc
        rw [Bool.or_eq_true, not_or, decide_eq_true_iff, isEscapeChar_iff ht.escape_lt] at hnot
        rw [if_neg hc]
        refine .plain hnot.1 ?_ ?_ ih
        · rintro rfl
          exact hnot.2 ht.at_escaped
        · rintro rfl
          exact hnot.2 ht.term_escaped

theorem reaches_value (ht : e.Terminates term) (hr : Readable e node data) (t : List UInt8) :
    Reaches e.escapeChar term ((writeValue e node data).2 ++ t) t := by
  rw [(writeValue_ok hr.size hr.written).1]
  cases hbin : node.isBin with
  | false =>
      rw [hr.valueText hbin]
      exact reaches_text ht data t
  | true =>
      rw [valueText, hbin, if_pos rfl, List.cons_append, List.append_assoc, List.cons_append]
      refine .binary ht.escape_ne.1 (binLength_written false hr.length t) ?_
      rw [List.drop_left]
      exact .refl t

/-- An element with its value and the delimiter behind it. -/
structure Item where
  node : Element
  data : List UInt8
  delimiter : UInt8

def itemsText (e : Engine) (items : List Item) : List UInt8 :=
  items.flatMap fun it => (writeValue e it.node it.data).2 ++ [it.delimiter]

def readElements (e : Engine) (delimiters : CString) :
    List Element → List UInt8 → Option (List (List UInt8) × List UInt8)
  | [], s => some ([], s)
  | node :: nodes, s =>
      (readValue e node delimiters s).bind fun r =>
        if r.1 ≠ 0 then none
        else (readElements e delimiters nodes (r.2.2.drop 1)).map fun q => (r.2.1 :: q.1, q.2)

theorem readElements_written (he : e.Delimits delimiters) : ∀ {items : List Item}
    (rest : List UInt8), (∀ it ∈ items, Readable e it.node it.data ∧
      it.delimiter ∈ delimiters.bytes) →
    readElements e delimiters (items.map Item.node) (itemsText e items ++ rest) =
      some (items.map Item.data, rest)
  | [], _, _ => rfl
  | it :: items, rest, h => by
      rw [List.forall_mem_cons] at h
      have ih := readElements_written he rest h.2
      have hends : Ends delimiters (it.delimiter :: (itemsText e items ++ rest)) := by
        intro c hc
        rw [← Option.some.inj hc]
        exact h.1.2
      have htext : itemsText e (it :: items) ++ rest =
          (writeValue e it.node it.data).2 ++ it.delimiter :: (itemsText e items ++ rest) := by
        rw [itemsText, List.flatMap_cons, ← itemsText, List.append_assoc, List.append_assoc,
          List.singleton_append]
      rw [htext, List.map_cons, readElements, readValue_written he hends h.1.1, Option.bind_some]
      dsimp only
      rw [if_neg (not_not_intro rfl), List.drop_one, List.tail_cons, ih, Option.map_some,
        List.map_cons]

theorem Reaches.trans {escapeChar delimiter : UInt8} {s t u : List UInt8}
    (h : Reaches escapeChar delimiter s t) (hu : Reaches escapeChar delimiter t u) :
    Reaches escapeChar delimiter s u := by
  induction h with
  | refl s => exact hu
  | escaped h ih => exact .escaped (ih hu)
  | binary hescape hlength h ih => exact .binary hescape hlength (ih hu)
  | plain hescape hat hdelimiter h ih => exact .plain hescape hat hdelimiter (ih hu)

theorem reaches_items (ht : e.Terminates term) : ∀ {items : List Item} (t : List UInt8),
    (∀ it ∈ items, Readable e it.node it.data ∧ it.delimiter ≠ e.escapeChar ∧
      it.delimiter ≠ at' ∧ it.delimiter ≠ term) →
    Reaches e.escapeChar term (itemsText e items ++ t) t
  | [], t, _ => .refl t
  | it :: items, t, h => by
      rw [List.forall_mem_cons] at h
      have ih := reaches_items ht t h.2
      have htext : itemsText e (it :: items) ++ t =
          (writeValue e it.node it.data).2 ++ it.delimiter :: (itemsText e items ++ t) := by
        rw [itemsText, List.flatMap_cons, ← itemsText, List.append_assoc, List.append_assoc,
          List.singleton_append]
      rw [htext]
      exact (reaches_value ht h.1.1 _).trans (.plain h.1.2.1 h.1.2.2.1 h.1.2.2.2 ih)

theorem sampleElement_readable {typ : List Char} {data : List UInt8}
    (hwritten : (writeValue sampleEngine (sampleElement typ) data).1 = 0) (hne : data ≠ [])
    (hlen : data.length < 2 ^ 32)
    (htext : (sampleElement typ).isBin = false → ∀ c ∈ data, c ≠ 0 ∧ isPrint c = true)
    (hnum : (sampleElement typ).isNum = true → ∀ c ∈ data, sampleEngine.escapeByte c = [c]) :
    Readable sampleEngine (sampleElement typ) data :=
  ⟨rfl, hwritten, hne, hlen, htext, fun _ h => ⟨rfl, rfl, hnum h⟩⟩

end

end MsgEngine
end Gwenhywfar
