import Gwenhywfar.Lib.Scan
import Gwenhywfar.Parser.Json
import Mathlib.Data.List.DropRight

/-! # JSON texts

* `JsonText`: a JSON text that is an object, with its white space; there are no escape sequences
  in its strings, and no name is empty.
* `fromString_bytes_iff`: the elements of a text are read exactly when no value is an empty
  string and no blank stands behind a number or a word, where it would become part of the data. -/

namespace Gwenhywfar

set_option maxRecDepth 4000

open Text

/-- A character of insignificant white space. -/
inductive JsonSpace where
  | blank | tab | lineFeed | carriageReturn
deriving DecidableEq

def JsonSpace.byte : JsonSpace → UInt8
  | blank => 0x20
  | tab => 0x09
  | lineFeed => 0x0a
  | carriageReturn => 0x0d

def spaceBytes (ws : List JsonSpace) : List UInt8 := ws.map JsonSpace.byte

namespace Json

/-- A character that stands for itself in a string. -/
def isUnescaped (c : UInt8) : Bool := 0x20 ≤ c && c != quote && c != code '\\'

end Json

/-- The contents of a string without escape sequences. -/
structure JsonString where
  bytes : List UInt8
  unescaped : ∀ c ∈ bytes, Json.isUnescaped c = true

/-- A name of a member with the white space around it. -/
structure JsonName extends JsonString where
  before : List JsonSpace
  nonempty : bytes ≠ []
  behind : List JsonSpace
  behindColon : List JsonSpace

/-- A sequence of digits. -/
structure JsonDigits where
  bytes : List UInt8
  nonempty : bytes ≠ []
  digits : ∀ c ∈ bytes, isDigit c = true

/-- An exponent: the letter, the sign if there is one, the digits. -/
structure JsonExponent where
  upper : Bool
  sign : Option Bool
  digits : JsonDigits

/-- A number. -/
structure JsonNumber where
  minus : Bool
  int : JsonDigits
  noLeadingZero : int.bytes.head? = some (code '0') → int.bytes = [code '0']
  frac : Option JsonDigits
  exp : Option JsonExponent

/-- A value that is written without quotes and brackets. -/
inductive JsonLiteral where
  | number (n : JsonNumber)
  | true | false | null

mutual

/-- A value. -/
inductive JsonValue where
  | literal (l : JsonLiteral)
  | string (s : JsonString)
  | emptyObject (space : List JsonSpace)
  | object (members : JsonMembers)
  | emptyArray (space : List JsonSpace)
  | array (elements : JsonElements)

/-- The members of an object from one on; each value has white space behind it. -/
inductive JsonMembers where
  | last (name : JsonName) (value : JsonValue) (behind : List JsonSpace)
  | cons (name : JsonName) (value : JsonValue) (behind : List JsonSpace) (next : JsonMembers)

/-- The elements of an array from one on; each has white space around it. -/
inductive JsonElements where
  | last (before : List JsonSpace) (value : JsonValue) (behind : List JsonSpace)
  | cons (before : List JsonSpace) (value : JsonValue) (behind : List JsonSpace)
      (next : JsonElements)

end

def JsonValue.isObject : JsonValue → Bool
  | emptyObject _ => true
  | object _ => true
  | _ => false

/-- A text that is an object. -/
structure JsonText where
  before : List JsonSpace
  value : JsonValue
  isObject : value.isObject = true
  behind : List JsonSpace

/-! ### The bytes of a text -/

def JsonName.text (n : JsonName) : List UInt8 :=
  spaceBytes n.before ++ Json.quote :: (n.bytes ++ Json.quote ::
    (spaceBytes n.behind ++ code ':' :: spaceBytes n.behindColon))

def JsonExponent.bytes (e : JsonExponent) : List UInt8 :=
  code (if e.upper then 'E' else 'e') ::
    (e.sign.toList.map (fun minus => code (if minus then '-' else '+')) ++ e.digits.bytes)

def JsonNumber.bytes (n : JsonNumber) : List UInt8 :=
  (if n.minus then [code '-'] else []) ++ n.int.bytes ++
    (n.frac.elim [] fun ds => code '.' :: ds.bytes) ++ n.exp.elim [] JsonExponent.bytes

def JsonLiteral.bytes : JsonLiteral → List UInt8
  | number n => n.bytes
  | true => ascii ['t', 'r', 'u', 'e']
  | false => ascii ['f', 'a', 'l', 's', 'e']
  | null => ascii ['n', 'u', 'l', 'l']

mutual

def JsonValue.bytes : JsonValue → List UInt8
  | .literal l => l.bytes
  | .string s => Json.quote :: (s.bytes ++ [Json.quote])
  | .emptyObject space => 0x7b :: (spaceBytes space ++ [0x7d])
  | .object members => 0x7b :: (members.bytes ++ [0x7d])
  | .emptyArray space => code '[' :: (spaceBytes space ++ [code ']'])
  | .array elements => code '[' :: (elements.bytes ++ [code ']'])

def JsonMembers.bytes : JsonMembers → List UInt8
  | .last name value behind => name.text ++ (value.bytes ++ spaceBytes behind)
  | .cons name value behind next =>
      name.text ++ (value.bytes ++ (spaceBytes behind ++ code ',' :: next.bytes))

def JsonElements.bytes : JsonElements → List UInt8
  | .last before value behind => spaceBytes before ++ (value.bytes ++ spaceBytes behind)
  | .cons before value behind next =>
      spaceBytes before ++ (value.bytes ++ (spaceBytes behind ++ code ',' :: next.bytes))

end

def JsonText.bytes (t : JsonText) : List UInt8 :=
  spaceBytes t.before ++ (t.value.bytes ++ spaceBytes t.behind)

/-! ### The elements of a text -/

def JsonLiteral.typ : JsonLiteral → JsonType
  | number _ => .num
  | true => .bool
  | false => .bool
  | null => .null

/-- A sibling in front of others. -/
def JsonNodes.cons (e : JsonElem) (next : JsonNodes) : JsonNodes :=
  elem e.elementType e.elementData e.children next

def JsonName.elem (n : JsonName) (e : JsonElem) : JsonElem :=
  ⟨.key, some n.bytes, .cons e .nil⟩

mutual

def JsonValue.elem : JsonValue → JsonElem
  | .literal l => ⟨l.typ, some l.bytes, .nil⟩
  | .string s => ⟨.string, some s.bytes, .nil⟩
  | .emptyObject _ => ⟨.object, none, .nil⟩
  | .object members => ⟨.object, none, members.elems⟩
  | .emptyArray _ => ⟨.array, none, .nil⟩
  | .array elements => ⟨.array, none, elements.elems⟩

def JsonMembers.elems : JsonMembers → JsonNodes
  | .last name value _ => .cons (name.elem value.elem) .nil
  | .cons name value _ next => .cons (name.elem value.elem) next.elems

def JsonElements.elems : JsonElements → JsonNodes
  | .last _ value _ => .cons value.elem .nil
  | .cons _ value _ next => .cons value.elem next.elems

end

mutual

def JsonValue.readable (behind : List JsonSpace) : JsonValue → Bool
  | .literal _ => !behind.contains .blank
  | .string s => s.bytes != []
  | .emptyObject _ => true
  | .object members => members.readable
  | .emptyArray _ => true
  | .array elements => elements.readable

def JsonMembers.readable : JsonMembers → Bool
  | .last _ value behind => value.readable behind
  | .cons _ value behind next => value.readable behind && next.readable

def JsonElements.readable : JsonElements → Bool
  | .last _ value behind => value.readable behind
  | .cons _ value behind next => value.readable behind && next.readable

end

/-! ### What is read of a text -/

/-- The bytes of white space that become part of a token. -/
def blankBytes (ws : List JsonSpace) : List UInt8 := (spaceBytes ws).filter (!isCntrl ·)

mutual

def JsonValue.read (behind : List JsonSpace) : JsonValue → Option JsonElem
  | .literal l =>
      some ⟨Json.typeOfToken (l.bytes ++ blankBytes behind),
        some (l.bytes ++ blankBytes behind), .nil⟩
  | .string s => if s.bytes = [] then none else some ⟨.string, some s.bytes, .nil⟩
  | .emptyObject _ => some ⟨.object, none, .nil⟩
  | .object members => members.read.map (JsonElem.mk .object none)
  | .emptyArray _ => some ⟨.array, none, .nil⟩
  | .array elements => elements.read.map (JsonElem.mk .array none)

def JsonMembers.read : JsonMembers → Option JsonNodes
  | .last name value behind => (value.read behind).map fun e => .cons (name.elem e) .nil
  | .cons name value behind next =>
      (value.read behind).bind fun e => next.read.map (.cons (name.elem e))

def JsonElements.read : JsonElements → Option JsonNodes
  | .last _ value behind => (value.read behind).map (.cons · .nil)
  | .cons _ value behind next => (value.read behind).bind fun e => next.read.map (.cons e)

end

namespace Json

/-! ### White space and tokens -/

variable {c : UInt8}

theorem isSpace_of_mem_spaceBytes {ws : List JsonSpace} (h : c ∈ spaceBytes ws) :
    isSpace c = true := by
  obtain ⟨w, -, rfl⟩ := List.mem_map.mp h
  cases w <;> rfl

theorem dropWhile_spaceBytes (ws : List JsonSpace) (hc : isSpace c = false)
    (s : List UInt8) : (spaceBytes ws ++ c :: s).dropWhile isSpace = c :: s :=
  (Scan.append_cons isSpace _ s c (fun _ => isSpace_of_mem_spaceBytes) hc).2

theorem readQuotedToken_unescaped {bs : List UInt8} (h : ∀ c ∈ bs, isUnescaped c = true)
    (s : List UInt8) : readQuotedToken false (bs ++ quote :: s) = (bs, quote :: s) := by
  induction bs with
  | nil => rfl
  | cons c bs ih =>
      rw [List.forall_mem_cons] at h
      have hc : c ≠ quote ∧ c ≠ code '\\' := by
        have h1 := h.1
        rw [isUnescaped, Bool.and_eq_true, Bool.and_eq_true, bne_iff_ne, bne_iff_ne] at h1
        exact ⟨h1.1.2, h1.2⟩
      rw [List.cons_append, readQuotedToken, if_neg hc.2, if_neg hc.1, ih h.2]

def isTokenChar (c : UInt8) : Bool := c != code '\\' && c != 0 && !isStructural c

theorem readTokenUntilChar_append {bs : List UInt8} (h : ∀ c ∈ bs, isTokenChar c = true)
    (hc : isStructural c = true) (s : List UInt8) :
    readTokenUntilChar 0 false (bs ++ c :: s) = (bs.filter (!isCntrl ·), c :: s) := by
  induction bs with
  | nil =>
      have hne : c ≠ code '\\' := by
        rintro rfl
        exact absurd hc (by decide)
      rw [List.nil_append, readTokenUntilChar, if_neg hne, if_pos (Or.inr hc), List.filter_nil]
  | cons d bs ih =>
      rw [List.forall_mem_cons] at h
      have h1 := h.1
      rw [isTokenChar, Bool.and_eq_true, Bool.and_eq_true, bne_iff_ne, bne_iff_ne,
        Bool.not_eq_true'] at h1
      rw [List.cons_append, readTokenUntilChar, if_neg h1.1.1, if_neg (by simp [h1]), ih h.2,
        List.filter_cons]
      cases isCntrl d <;> rfl

theorem isTokenChar_of_mem_spaceBytes {ws : List JsonSpace} (h : c ∈ spaceBytes ws) :
    isTokenChar c = true := by
  obtain ⟨w, -, rfl⟩ := List.mem_map.mp h
  cases w <;> decide

theorem blankBytes_eq_nil_iff (ws : List JsonSpace) :
    blankBytes ws = [] ↔ (!ws.contains .blank) = true := by
  rw [blankBytes, List.filter_eq_nil_iff, Bool.not_eq_true', Bool.eq_false_iff, ne_eq,
    List.contains_iff_mem]
  constructor
  · intro h hmem
    exact h _ (List.mem_map_of_mem hmem) rfl
  · rintro h c hc
    obtain ⟨w, hw, rfl⟩ := List.mem_map.mp hc
    cases w with
    | blank => exact absurd hw h
    | tab => decide
    | lineFeed => decide
    | carriageReturn => decide

/-! ### Literals -/

def isLiteralChar (c : UInt8) : Bool := isAlnum c || c ∈ ascii ['-', '+', '.']

theorem isLiteralChar_spec (h : isLiteralChar c = true) :
    isTokenChar c = true ∧ isCntrl c = false ∧ isSpace c = false ∧ c ≠ quote := by
  simp [isLiteralChar, isAlnum, isDigit, isTokenChar, isStructural, isCntrl, isSpace, quote, code,
    ascii, UInt8.le_iff_toNat_le, ← UInt8.toNat_inj] at h ⊢
  omega

theorem isLiteralChar_of_isDigit (h : isDigit c = true) : isLiteralChar c = true := by
  rw [isLiteralChar, isAlnum, h, Bool.or_true, Bool.true_or]

theorem isLiteralChar_exponent (e : JsonExponent) : ∀ c ∈ e.bytes, isLiteralChar c = true := by
  intro c hc
  rw [JsonExponent.bytes, List.mem_cons, List.mem_append] at hc
  rcases hc with rfl | hc | hc
  · cases e.upper <;> decide
  · obtain ⟨minus, -, rfl⟩ := List.mem_map.mp hc
    cases minus <;> decide
  · exact isLiteralChar_of_isDigit (e.digits.digits c hc)

theorem isLiteralChar_number (n : JsonNumber) : ∀ c ∈ n.bytes, isLiteralChar c = true := by
  intro c hc
  rw [JsonNumber.bytes, List.mem_append, List.mem_append, List.mem_append] at hc
  rcases hc with ((hc | hc) | hc) | hc
  · cases hm : n.minus
    · simp [hm] at hc
    · rw [hm, if_pos rfl, List.mem_singleton] at hc
      rw [hc]
      decide
  · exact isLiteralChar_of_isDigit (n.int.digits c hc)
  · cases hf : n.frac with
    | none => simp [hf] at hc
    | some ds =>
        rw [hf, Option.elim_some, List.mem_cons] at hc
        rcases hc with rfl | hc
        · decide
        · exact isLiteralChar_of_isDigit (ds.digits c hc)
  · cases he : n.exp with
    | none => simp [he] at hc
    | some e =>
        rw [he, Option.elim_some] at hc
        exact isLiteralChar_exponent e c hc

theorem isLiteralChar_literal (l : JsonLiteral) : ∀ c ∈ l.bytes, isLiteralChar c = true := by
  cases l with
  | number n => exact isLiteralChar_number n
  | true => decide
  | false => decide
  | null => decide

theorem number_head (n : JsonNumber) :
    ∃ c s, n.bytes = c :: s ∧ (c == code '-' || c == code '.' || isDigit c) = true := by
  obtain ⟨d, ds, hds⟩ := List.exists_cons_of_ne_nil n.int.nonempty
  rw [JsonNumber.bytes, hds]
  cases n.minus with
  | false =>
      refine ⟨d, _, rfl, ?_⟩
      rw [n.int.digits d (hds ▸ List.mem_cons_self), Bool.or_true]
  | true => exact ⟨code '-', _, rfl, by decide⟩

theorem literal_ne_nil (l : JsonLiteral) : l.bytes ≠ [] := by
  cases l with
  | number n =>
      obtain ⟨c, s, h, -⟩ := number_head n
      rw [JsonLiteral.bytes, h]
      exact List.cons_ne_nil c s
  | true => decide
  | false => decide
  | null => decide

theorem typeOfToken_literal (l : JsonLiteral) : typeOfToken l.bytes = l.typ := by
  cases l with
  | number n =>
      obtain ⟨c, s, h, hc⟩ := number_head n
      rw [JsonLiteral.bytes, h, typeOfToken, List.head?_cons, Option.any_some, if_pos hc]
      rfl
  | true => decide
  | false => decide
  | null => decide

theorem readSimple_literal (l : JsonLiteral) (behind : List JsonSpace)
    (hc : isStructural c = true) (s : List UInt8) :
    readSimpleValueAndReturnType (l.bytes ++ (spaceBytes behind ++ c :: s)) =
      .ok (typeOfToken (l.bytes ++ blankBytes behind), l.bytes ++ blankBytes behind, c :: s) := by
  obtain ⟨d, ds, hds⟩ := List.exists_cons_of_ne_nil (literal_ne_nil l)
  have hchars := isLiteralChar_literal l
  have hd := isLiteralChar_spec (hchars d (hds ▸ List.mem_cons_self))
  have htoken : ∀ e ∈ l.bytes ++ spaceBytes behind, isTokenChar e = true := by
    intro e he
    rcases List.mem_append.mp he with he | he
    · exact (isLiteralChar_spec (hchars e he)).1
    · exact isTokenChar_of_mem_spaceBytes he
  have hfilter : (l.bytes ++ spaceBytes behind).filter (!isCntrl ·) =
      l.bytes ++ blankBytes behind := by
    rw [List.filter_append, blankBytes, List.filter_eq_self.mpr fun e he => by
      rw [(isLiteralChar_spec (hchars e he)).2.1, Bool.not_false]]
  have hread := readTokenUntilChar_append htoken hc s
  rw [hfilter, List.append_assoc] at hread
  have hskip : (l.bytes ++ (spaceBytes behind ++ c :: s)).dropWhile isSpace =
      l.bytes ++ (spaceBytes behind ++ c :: s) := by
    rw [hds, List.cons_append, List.dropWhile_cons_of_neg (by simp [hd.2.2.1])]
  rw [readSimpleValueAndReturnType]
  dsimp only
  rw [hskip, hread, if_neg (by simp [hds]), if_neg (by simp [hds, hd.2.2.2]),
    if_neg (by simp [hds])]

theorem readSimple_string (str : JsonString) (s : List UInt8) :
    readSimpleValueAndReturnType (quote :: (str.bytes ++ quote :: s)) =
      if str.bytes = [] then .error errorBadData else .ok (.string, str.bytes, s) := by
  rw [readSimpleValueAndReturnType]
  dsimp only
  rw [List.dropWhile_cons_of_neg (by decide), if_neg (List.cons_ne_nil _ _), List.head?_cons,
    if_pos rfl, List.tail_cons, readQuotedToken_unescaped str.unescaped s]
  simp

/-! ### Objects and arrays -/

theorem readKey_dropWhile (s : List UInt8) : readKey (s.dropWhile isSpace) = readKey s := by
  rw [readKey, readKey, List.dropWhile_idempotent]

theorem dropWhile_name (n : JsonName) (s : List UInt8) :
    ∃ t, (n.text ++ s).dropWhile isSpace = quote :: t := by
  rw [JsonName.text, List.append_assoc, List.cons_append, dropWhile_spaceBytes _ (by decide)]
  exact ⟨_, rfl⟩

theorem readKey_name (n : JsonName) (s : List UInt8) :
    readKey (n.text ++ s) = .ok (n.bytes, spaceBytes n.behindColon ++ s) := by
  rw [readKey, JsonName.text]
  dsimp only
  rw [List.append_assoc, List.cons_append, dropWhile_spaceBytes _ (by decide),
    if_neg (List.cons_ne_nil _ _), List.head?_cons, if_neg (not_not_intro rfl), List.tail_cons,
    List.append_assoc, List.cons_append, readQuotedToken_unescaped n.unescaped, if_neg n.nonempty,
    List.head?_cons, if_neg (not_not_intro rfl), List.tail_cons, List.append_assoc,
    List.cons_append, dropWhile_spaceBytes _ (by decide), List.head?_cons,
    if_neg (not_not_intro rfl), List.tail_cons]

def isValueStart (c : UInt8) : Bool := !isSpace c && c != 0x7d && c != code ']'

theorem value_head (v : JsonValue) : ∃ c s, v.bytes = c :: s ∧ isValueStart c = true := by
  cases v with
  | literal l =>
      obtain ⟨c, s, hs⟩ := List.exists_cons_of_ne_nil (literal_ne_nil l)
      have hc := isLiteralChar_literal l c (hs ▸ List.mem_cons_self)
      refine ⟨c, s, by rw [JsonValue.bytes, hs], ?_⟩
      simp [isLiteralChar, isAlnum, isDigit, isValueStart, isSpace, code, ascii,
        UInt8.le_iff_toNat_le, ← UInt8.toNat_inj] at hc ⊢
      omega
  | string s => exact ⟨quote, _, by rw [JsonValue.bytes], by decide⟩
  | emptyObject space => exact ⟨0x7b, _, by rw [JsonValue.bytes], by decide⟩
  | object members => exact ⟨0x7b, _, by rw [JsonValue.bytes], by decide⟩
  | emptyArray space => exact ⟨code '[', _, by rw [JsonValue.bytes], by decide⟩
  | array elements => exact ⟨code '[', _, by rw [JsonValue.bytes], by decide⟩

theorem dropWhile_value (ws : List JsonSpace) (v : JsonValue) (s : List UInt8) :
    (spaceBytes ws ++ (v.bytes ++ s)).dropWhile isSpace = v.bytes ++ s := by
  obtain ⟨c, t, hv, hc⟩ := value_head v
  rw [isValueStart, Bool.and_eq_true, Bool.and_eq_true, Bool.not_eq_true'] at hc
  rw [hv, List.cons_append, dropWhile_spaceBytes ws hc.1.1]

/-- A reader returns this element, and behind the white space that follows it comes this text. -/
def Returns (result : Option (JsonElem × List UInt8)) (e : Option JsonElem) (s : List UInt8) :
    Prop :=
  result.map (fun r => (r.1, r.2.dropWhile isSpace)) = e.map (·, s)

theorem readObject_member (name : JsonName) (v : JsonValue) (behind : List JsonSpace)
    {s : List UInt8} {k : ℕ} (ns : JsonNodes)
    (hv : Returns (readValue k (v.bytes ++ (spaceBytes behind ++ c :: s))) (v.read behind)
      (c :: s)) :
    readObject (k + 1) ns (name.text ++ (v.bytes ++ (spaceBytes behind ++ c :: s))) =
      (v.read behind).bind fun e =>
        if c = code ',' then readObject k (ns.addChild (name.elem e)) s
        else if c = 0x7d then some (⟨.object, none, ns.addChild (name.elem e)⟩, s)
        else none := by
  obtain ⟨t, ht⟩ := dropWhile_name name (v.bytes ++ (spaceBytes behind ++ c :: s))
  have hkey := readKey_dropWhile (name.text ++ (v.bytes ++ (spaceBytes behind ++ c :: s)))
  rw [readKey_name, ht] at hkey
  have hopen : (quote :: t).head? ≠ some 0x7d := by
    rw [List.head?_cons]
    decide
  rw [readObject]
  dsimp only
  rw [ht, if_neg (List.cons_ne_nil _ _), if_neg hopen, hkey]
  dsimp only
  rw [dropWhile_value]
  rw [Returns] at hv
  cases hr : readValue k (v.bytes ++ (spaceBytes behind ++ c :: s)) with
  | none =>
      rw [hr, Option.map_none, eq_comm, Option.map_eq_none_iff] at hv
      rw [hv]
      rfl
  | some r =>
      rw [hr, Option.map_some, eq_comm, Option.map_eq_some_iff] at hv
      obtain ⟨e, he, heq⟩ := hv
      obtain ⟨rfl, hs⟩ := Prod.mk.inj heq
      have helem : { new .key name.bytes with children := JsonNodes.nil.addChild r.1 } =
          name.elem r.1 := by
        rw [new, if_neg name.nonempty]
        rfl
      rw [he, Option.bind_some]
      dsimp only
      rw [← hs, helem, List.head?_cons, List.tail_cons]
      simp only [Option.some.injEq]

theorem readArray_element (before : List JsonSpace) (v : JsonValue) (behind : List JsonSpace) {s : List UInt8} {k : ℕ} (ns : JsonNodes)
    (hv : Returns (readValue k (v.bytes ++ (spaceBytes behind ++ c :: s))) (v.read behind)
      (c :: s)) :
    readArray (k + 1) ns (spaceBytes before ++ (v.bytes ++ (spaceBytes behind ++ c :: s))) =
      (v.read behind).bind fun e =>
        if c = code ',' then readArray k (ns.addChild e) s
        else if c = code ']' then some (⟨.array, none, ns.addChild e⟩, s)
        else none := by
  obtain ⟨d, t, ht, hd⟩ := value_head v
  rw [isValueStart, Bool.and_eq_true, Bool.and_eq_true, bne_iff_ne, bne_iff_ne] at hd
  have hne : v.bytes ++ (spaceBytes behind ++ c :: s) ≠ [] := by
    rw [ht]
    exact List.cons_ne_nil _ _
  have hhead : (v.bytes ++ (spaceBytes behind ++ c :: s)).head? ≠ some (code ']') := by
    rw [ht, List.cons_append, List.head?_cons, ne_eq, Option.some.injEq]
    exact hd.2
  rw [readArray]
  dsimp only
  rw [dropWhile_value, if_neg hne, if_neg hhead]
  rw [Returns] at hv
  cases hr : readValue k (v.bytes ++ (spaceBytes behind ++ c :: s)) with
  | none =>
      rw [hr, Option.map_none, eq_comm, Option.map_eq_none_iff] at hv
      rw [hv]
      rfl
  | some r =>
      rw [hr, Option.map_some, eq_comm, Option.map_eq_some_iff] at hv
      obtain ⟨e, he, heq⟩ := hv
      obtain ⟨rfl, hs⟩ := Prod.mk.inj heq
      rw [he, Option.bind_some]
      dsimp only
      rw [← hs, List.head?_cons, List.tail_cons]
      simp only [Option.some.injEq]

theorem returns_some (e : JsonElem) (behind : List JsonSpace)
    (hc : isStructural c = true) (s : List UInt8) :
    Returns (some (e, spaceBytes behind ++ c :: s)) (some e) (c :: s) := by
  have hspace : isSpace c = false := by
    simp [isStructural, isSpace, code, UInt8.le_iff_toNat_le, ← UInt8.toNat_inj] at hc ⊢
    omega
  rw [Returns, Option.map_some, Option.map_some, dropWhile_spaceBytes behind hspace]

theorem returns_children (elementType : JsonType) (ns : Option JsonNodes)
    (behind : List JsonSpace) (hc : isStructural c = true) (s : List UInt8) :
    Returns (ns.map fun ms =>
        (⟨elementType, none, JsonNodes.nil.append ms⟩, spaceBytes behind ++ c :: s))
      (ns.map (JsonElem.mk elementType none)) (c :: s) := by
  cases ns with
  | none => rfl
  | some ms => exact returns_some ⟨elementType, none, ms⟩ behind hc s

theorem addChild_append (ns : JsonNodes) (e : JsonElem) (ms : JsonNodes) :
    (ns.addChild e).append ms = ns.append (.cons e ms) := by
  rw [JsonNodes.addChild, JsonNodes.append_assoc]
  rfl

theorem append_nil (ns : JsonNodes) : ns.append .nil = ns := by
  induction ns with
  | nil => rfl
  | elem elementType elementData children next _ ih => rw [JsonNodes.append, ih]

theorem append_cons (ns : JsonNodes) (e : JsonElem) :
    ns.append (.cons e .nil) = ns.addChild e := rfl

theorem literal_head {l : JsonLiteral} {s : List UInt8}
    (h : l.bytes = c :: s) : c ≠ 0x7b ∧ c ≠ code '[' := by
  have hc := isLiteralChar_literal l c (h ▸ List.mem_cons_self)
  simp [isLiteralChar, isAlnum, isDigit, code, ascii, UInt8.le_iff_toNat_le,
    ← UInt8.toNat_inj] at hc ⊢
  omega

theorem readObject_empty (k : ℕ) (space : List JsonSpace) (s : List UInt8) :
    readObject (k + 1) .nil (spaceBytes space ++ 0x7d :: s) = some (⟨.object, none, .nil⟩, s) := by
  rw [readObject]
  dsimp only
  rw [dropWhile_spaceBytes _ (by decide), if_neg (List.cons_ne_nil _ _), List.head?_cons,
    if_pos rfl, List.tail_cons]

theorem readArray_empty (k : ℕ) (space : List JsonSpace) (s : List UInt8) :
    readArray (k + 1) .nil (spaceBytes space ++ code ']' :: s) =
      some (⟨.array, none, .nil⟩, s) := by
  rw [readArray]
  dsimp only
  rw [dropWhile_spaceBytes _ (by decide), if_neg (List.cons_ne_nil _ _), List.head?_cons,
    if_pos rfl, List.tail_cons]

mutual

theorem readValue_bytes (v : JsonValue) {k : ℕ} (hk : 2 * v.bytes.length ≤ k)
    (behind : List JsonSpace) {c : UInt8} (hc : isStructural c = true) (s : List UInt8) :
    Returns (readValue k (v.bytes ++ (spaceBytes behind ++ c :: s))) (v.read behind) (c :: s) := by
  have hpos : 0 < v.bytes.length := by
    obtain ⟨d, t, ht, -⟩ := value_head v
    rw [ht]
    exact Nat.succ_pos _
  have hskip : (v.bytes ++ (spaceBytes behind ++ c :: s)).dropWhile isSpace =
      v.bytes ++ (spaceBytes behind ++ c :: s) := dropWhile_value [] v _
  obtain ⟨k, rfl⟩ : ∃ j, k = j + 1 := Nat.exists_eq_add_of_le' (by omega)
  rw [readValue, hskip]
  cases v with
  | literal l =>
      obtain ⟨d, t, ht⟩ := List.exists_cons_of_ne_nil (literal_ne_nil l)
      have hd := literal_head ht
      have hhead : (l.bytes ++ (spaceBytes behind ++ c :: s)).head? = some d := by
        rw [ht, List.cons_append, List.head?_cons]
      have hne : l.bytes ++ blankBytes behind ≠ [] := by
        rw [ht]
        exact List.cons_ne_nil _ _
      rw [JsonValue.bytes, hhead, if_neg fun h => hd.1 (Option.some.inj h),
        if_neg fun h => hd.2 (Option.some.inj h), readSimple_literal l behind hc, JsonValue.read]
      dsimp only
      rw [new, if_neg hne]
      exact returns_some _ [] hc s
  | string str =>
      rw [JsonValue.bytes, List.cons_append, List.append_assoc, List.singleton_append,
        List.head?_cons, if_neg (by decide), if_neg (by decide), readSimple_string, JsonValue.read]
      by_cases hempty : str.bytes = []
      · rw [if_pos hempty, if_pos hempty]
        rfl
      · rw [if_neg hempty, if_neg hempty]
        dsimp only
        rw [new, if_neg hempty]
        exact returns_some _ behind hc s
  | emptyObject space =>
      rw [JsonValue.bytes, List.length_cons, List.length_append, List.length_singleton] at hk
      obtain ⟨k, rfl⟩ : ∃ j, k = j + 1 := Nat.exists_eq_add_of_le' (by omega)
      rw [JsonValue.bytes, List.cons_append, List.append_assoc, List.singleton_append,
        List.head?_cons, if_pos rfl, List.tail_cons, readObject_empty, JsonValue.read]
      exact returns_some _ behind hc s
  | object m =>
      rw [JsonValue.bytes, List.length_cons, List.length_append, List.length_singleton] at hk
      rw [JsonValue.bytes, List.cons_append, List.append_assoc, List.singleton_append,
        List.head?_cons, if_pos rfl, List.tail_cons, readObject_bytes m (by omega), JsonValue.read]
      exact returns_children .object m.read behind hc s
  | emptyArray space =>
      rw [JsonValue.bytes, List.length_cons, List.length_append, List.length_singleton] at hk
      obtain ⟨k, rfl⟩ : ∃ j, k = j + 1 := Nat.exists_eq_add_of_le' (by omega)
      rw [JsonValue.bytes, List.cons_append, List.append_assoc, List.singleton_append,
        List.head?_cons, if_neg (by decide), if_pos rfl, List.tail_cons, readArray_empty,
        JsonValue.read]
      exact returns_some _ behind hc s
  | array es =>
      rw [JsonValue.bytes, List.length_cons, List.length_append, List.length_singleton] at hk
      rw [JsonValue.bytes, List.cons_append, List.append_assoc, List.singleton_append,
        List.head?_cons, if_neg (by decide), if_pos rfl, List.tail_cons,
        readArray_bytes es (by omega), JsonValue.read]
      exact returns_children .array es.read behind hc s

theorem readObject_bytes (m : JsonMembers) {k : ℕ} (hk : 2 * m.bytes.length + 1 ≤ k)
    (ns : JsonNodes) (s : List UInt8) : readObject k ns (m.bytes ++ 0x7d :: s) =
      m.read.map fun ms => (⟨.object, none, ns.append ms⟩, s) := by
  obtain ⟨k, rfl⟩ : ∃ j, k = j + 1 := Nat.exists_eq_add_of_le' (by omega)
  cases m with
  | last name v behind =>
      rw [JsonMembers.bytes, List.length_append, List.length_append] at hk
      have hv := readValue_bytes v (k := k) (by omega) behind (c := 0x7d) rfl s
      rw [JsonMembers.bytes, List.append_assoc, List.append_assoc,
        readObject_member name v behind ns hv, JsonMembers.read]
      cases v.read behind with
      | none => rfl
      | some e =>
          rw [Option.bind_some, if_neg (by decide), if_pos rfl]
          rfl
  | cons name v behind next =>
      rw [JsonMembers.bytes, List.length_append, List.length_append, List.length_append,
        List.length_cons] at hk
      have hv := readValue_bytes v (k := k) (by omega) behind (c := code ',') rfl
        (next.bytes ++ 0x7d :: s)
      have hnext : ∀ ms, readObject k ms (next.bytes ++ 0x7d :: s) =
          next.read.map fun ns => (⟨.object, none, ms.append ns⟩, s) :=
        fun ms => readObject_bytes next (by omega) ms s
      rw [JsonMembers.bytes, List.append_assoc, List.append_assoc, List.append_assoc,
        List.cons_append, readObject_member name v behind ns hv, JsonMembers.read, Option.map_bind]
      congr 1
      funext e
      rw [if_pos rfl, hnext, Function.comp_apply, Option.map_map]
      congr 1
      funext ms
      rw [addChild_append, Function.comp_apply]

theorem readArray_bytes (es : JsonElements) {k : ℕ} (hk : 2 * es.bytes.length + 1 ≤ k)
    (ns : JsonNodes) (s : List UInt8) : readArray k ns (es.bytes ++ code ']' :: s) =
      es.read.map fun ms => (⟨.array, none, ns.append ms⟩, s) := by
  obtain ⟨k, rfl⟩ : ∃ j, k = j + 1 := Nat.exists_eq_add_of_le' (by omega)
  cases es with
  | last before v behind =>
      rw [JsonElements.bytes, List.length_append, List.length_append] at hk
      have hv := readValue_bytes v (k := k) (by omega) behind (c := code ']') rfl s
      rw [JsonElements.bytes, List.append_assoc, List.append_assoc,
        readArray_element before v behind ns hv, JsonElements.read]
      cases v.read behind with
      | none => rfl
      | some e =>
          rw [Option.bind_some, if_neg (by decide), if_pos rfl]
          rfl
  | cons before v behind next =>
      rw [JsonElements.bytes, List.length_append, List.length_append, List.length_append,
        List.length_cons] at hk
      have hv := readValue_bytes v (k := k) (by omega) behind (c := code ',') rfl
        (next.bytes ++ code ']' :: s)
      have hnext : ∀ ms, readArray k ms (next.bytes ++ code ']' :: s) =
          next.read.map fun ns => (⟨.array, none, ms.append ns⟩, s) :=
        fun ms => readArray_bytes next (by omega) ms s
      rw [JsonElements.bytes, List.append_assoc, List.append_assoc, List.append_assoc,
        List.cons_append, readArray_element before v behind ns hv, JsonElements.read,
        Option.map_bind]
      congr 1
      funext e
      rw [if_pos rfl, hnext, Function.comp_apply, Option.map_map]
      congr 1
      funext ms
      rw [addChild_append, Function.comp_apply]

end

/-! ### Whole texts -/

theorem cons_inj {e e' : JsonElem} {ns ns' : JsonNodes} :
    JsonNodes.cons e ns = JsonNodes.cons e' ns' ↔ e = e' ∧ ns = ns' := by
  obtain ⟨t, d, c⟩ := e
  obtain ⟨t', d', c'⟩ := e'
  rw [JsonNodes.cons, JsonNodes.cons, JsonNodes.elem.injEq, JsonElem.mk.injEq]
  tauto

theorem name_elem_inj (n : JsonName) {e e' : JsonElem} : n.elem e = n.elem e' ↔ e = e' := by
  rw [JsonName.elem, JsonName.elem, JsonElem.mk.injEq, cons_inj]
  tauto

mutual

/-- A value is read as it should be exactly when it is readable. -/
theorem value_read_iff (v : JsonValue) (behind : List JsonSpace) :
    v.read behind = some v.elem ↔ v.readable behind = true := by
  cases v with
  | literal l =>
      rw [JsonValue.read, JsonValue.elem, JsonValue.readable, ← blankBytes_eq_nil_iff]
      constructor
      · intro h
        have hdata := Option.some.inj (JsonElem.mk.inj (Option.some.inj h)).2.1
        exact List.append_right_eq_self.mp hdata
      · intro h
        rw [h, List.append_nil, typeOfToken_literal]
  | string s =>
      rw [JsonValue.read, JsonValue.elem, JsonValue.readable, bne_iff_ne]
      by_cases h : s.bytes = []
      · simp [h]
      · simp [h]
  | emptyObject space => simp [JsonValue.read, JsonValue.elem, JsonValue.readable]
  | object m =>
      rw [JsonValue.read, JsonValue.elem, JsonValue.readable, ← members_read_iff m]
      cases m.read <;> simp
  | emptyArray space => simp [JsonValue.read, JsonValue.elem, JsonValue.readable]
  | array es =>
      rw [JsonValue.read, JsonValue.elem, JsonValue.readable, ← elements_read_iff es]
      cases es.read <;> simp

theorem members_read_iff (m : JsonMembers) : m.read = some m.elems ↔ m.readable = true := by
  cases m with
  | last name v behind =>
      rw [JsonMembers.read, JsonMembers.elems, JsonMembers.readable, ← value_read_iff v behind]
      cases v.read behind <;> simp [cons_inj, name_elem_inj]
  | cons name v behind next =>
      rw [JsonMembers.read, JsonMembers.elems, JsonMembers.readable, Bool.and_eq_true,
        ← value_read_iff v behind, ← members_read_iff next]
      cases v.read behind <;> cases next.read <;> simp [cons_inj, name_elem_inj]

theorem elements_read_iff (es : JsonElements) : es.read = some es.elems ↔ es.readable = true := by
  cases es with
  | last before v behind =>
      rw [JsonElements.read, JsonElements.elems, JsonElements.readable, ← value_read_iff v behind]
      cases v.read behind <;> simp [cons_inj]
  | cons before v behind next =>
      rw [JsonElements.read, JsonElements.elems, JsonElements.readable, Bool.and_eq_true,
        ← value_read_iff v behind, ← elements_read_iff next]
      cases v.read behind <;> cases next.read <;> simp [cons_inj]

end

theorem fromString_bytes (t : JsonText) : fromString t.bytes = t.value.read t.behind := by
  obtain ⟨before, v, hv, behind⟩ := t
  rw [fromString, JsonText.bytes, dropWhile_value]
  cases v with
  | emptyObject space =>
      rw [JsonValue.bytes, List.cons_append, List.append_assoc, List.singleton_append,
        List.head?_cons, if_pos rfl, List.tail_cons, List.length_cons, Nat.mul_succ,
        readObject_empty, JsonValue.read]
      rfl
  | object m =>
      rw [JsonValue.bytes, List.cons_append, List.append_assoc, List.singleton_append,
        List.head?_cons, if_pos rfl, List.tail_cons, readObject_bytes m, JsonValue.read,
        Option.map_map]
      · rfl
      · rw [List.length_cons, List.length_append]
        omega
  | literal l => exact absurd hv Bool.false_ne_true
  | string s => exact absurd hv Bool.false_ne_true
  | emptyArray space => exact absurd hv Bool.false_ne_true
  | array es => exact absurd hv Bool.false_ne_true

/-- The element of a text is read exactly when no value of it is an empty string and no blank
follows a number or a word. -/
theorem fromString_bytes_iff (t : JsonText) :
    fromString t.bytes = some t.value.elem ↔ t.value.readable t.behind = true := by
  rw [fromString_bytes, value_read_iff]

/-- An object with the one member `a`, whose value is an empty string. -/
def emptyStringText : JsonText where
  before := []
  value := .object (.last
    ⟨⟨[code 'a'], by decide⟩, [], List.cons_ne_nil _ _, [], []⟩
    (.string ⟨[], fun _ h => absurd h List.not_mem_nil⟩) [])
  isObject := rfl
  behind := []

/-- A text with an empty string is not read. -/
theorem fromString_emptyStringText :
    ¬ fromString emptyStringText.bytes = some emptyStringText.value.elem := by
  decide

end Json
end Gwenhywfar
