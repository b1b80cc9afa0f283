import Gwenhywfar.Parser.Text

/-! # Escaped texts of XML

* `unescapeXml`: the bytes that `GWEN_Text_UnescapeXmlToBuffer` appends, round after round of its
  loop; there are none when it reads past the NUL that ends the text.
* `escapeXml`: what `GWEN_Text_EscapeXmlToBuffer` appends.
* The character behind a numeric reference is copied as it is, whatever it is: a reference or
  an entity that begins there is not decoded, and a reference at the end makes the loop run past
  the end of the text (`reference_composes`). -/

namespace Gwenhywfar

set_option maxRecDepth 4000

namespace Text

/-! ### The functions -/

/-- The entities behind an `&` that only the decoder knows, and the bytes of UTF-8 for them. -/
def xmlNamedChars : List (List UInt8 × List UInt8) := [
  (ascii ['s', 'z', 'l', 'i', 'g', ';'], [0xc3, 0x9f]),
  (ascii ['A', 'u', 'm', 'l', ';'], [0xc3, 0x84]),
  (ascii ['O', 'u', 'm', 'l', ';'], [0xc3, 0x96]),
  (ascii ['U', 'u', 'm', 'l', ';'], [0xc3, 0x9c]),
  (ascii ['a', 'u', 'm', 'l', ';'], [0xc3, 0xa4]),
  (ascii ['o', 'u', 'm', 'l', ';'], [0xc3, 0xb6]),
  (ascii ['u', 'u', 'm', 'l', ';'], [0xc3, 0xbc])]

/-- `gwen_text__xml_escape_chars`. -/
def xmlEscapeChars : List (UInt8 × List UInt8) := [
  (code '&', ascii ['&', 'a', 'm', 'p', ';']),
  (code '<', ascii ['&', 'l', 't', ';']),
  (code '>', ascii ['&', 'g', 't', ';']),
  (code '\'', ascii ['&', 'a', 'p', 'o', 's', ';']),
  (code '"', ascii ['&', 'q', 'u', 'o', 't', ';'])]

/-- `strncasecmp(src, p, strlen(p))==0`. -/
def startsNoCase (p src : List UInt8) : Bool := (src.take p.length).map toLower == p.map toLower

/-- The entity behind an `&`: the bytes for it, and the text that follows. -/
def findEntity (src : List UInt8) : Option (List UInt8 × List UInt8) :=
  match xmlNamedChars.find? fun e => e.1.isPrefixOf src with
  | some e => some (e.2, src.drop e.1.length)
  | none =>
      (xmlEscapeChars.find? fun e => startsNoCase e.2 (code '&' :: src)).map fun e =>
        ([e.1], (code '&' :: src).drop e.2.length)

/-- The number of a reference, which is an `unsigned char`. -/
def referenceByte (ds : List UInt8) : UInt8 := ds.foldl (fun num d => num * 10 + (d - code '0')) 0

/-- One round of `GWEN_Text_UnescapeXmlToBuffer`: the bytes it appends, and the text it leaves. -/
def xmlRound (c : UInt8) (src : List UInt8) : Option (List UInt8 × List UInt8) :=
  if c = code '&' then
    if src.head? = some (code '#') then
      -- the character behind the digits is skipped, and the next one is copied
      match src.tail.dropWhile isDigit with
      | _ :: x :: rest => some ([referenceByte (src.tail.takeWhile isDigit), x], rest)
      | _ => none
    else some ((findEntity src).getD ([c], src))
  else some ([c], src)

theorem startsNoCase_tail {k : ℕ} {p src : List UInt8} (hlength : p.length = k + 1)
    (h : startsNoCase p (code '&' :: src) = true) :
    (src.take k).map toLower = p.tail.map toLower := by
  rw [startsNoCase, hlength, List.take_succ_cons, List.map_cons, beq_iff_eq] at h
  rw [List.map_tail, ← h, List.tail_cons]

/-- A character that begins a numeric reference. -/
def isMark (c : UInt8) : Bool := c == code '&' || c == code '#'

theorem xmlNamedChars_spec {e : List UInt8 × List UInt8} (he : e ∈ xmlNamedChars) :
    e.2.length < e.1.length ∧ ∀ c ∈ e.1, isMark c = false := by
  have hall : (xmlNamedChars.all fun e =>
      decide (e.2.length < e.1.length) && e.1.all (!isMark ·)) = true := rfl
  have hentry := List.all_eq_true.mp hall e he
  rw [Bool.and_eq_true, decide_eq_true_eq, List.all_eq_true] at hentry
  exact ⟨hentry.1, fun c hc => by simpa using hentry.2 c hc⟩

theorem xmlEscapeChars_spec {e : UInt8 × List UInt8} (he : e ∈ xmlEscapeChars) :
    2 < e.2.length ∧ ∀ c ∈ e.2.tail.map toLower, isMark c = false := by
  have hall : (xmlEscapeChars.all fun e =>
      decide (2 < e.2.length) && (e.2.tail.map toLower).all (!isMark ·)) = true := rfl
  have hentry := List.all_eq_true.mp hall e he
  rw [Bool.and_eq_true, decide_eq_true_eq, List.all_eq_true] at hentry
  exact ⟨hentry.1, fun c hc => by simpa using hentry.2 c hc⟩

/-- An entity is shorter when it is decoded, and none of these characters is in it. -/
theorem findEntity_spec {src out rest : List UInt8} (h : findEntity src = some (out, rest)) :
    ∃ name, src = name ++ rest ∧ out.length < name.length ∧ ∀ c ∈ name, isMark c = false := by
  unfold findEntity at h
  split at h
  · next e he =>
      have hprefix := List.find?_some he
      obtain ⟨t, ht⟩ := List.isPrefixOf_iff_prefix.mp hprefix
      rw [← ht, List.drop_left, Option.some.injEq, Prod.mk.injEq] at h
      rw [← h.1, ← h.2, ← ht]
      exact ⟨e.1, rfl, xmlNamedChars_spec (List.mem_of_find?_eq_some he)⟩
  · obtain ⟨e, he, heq⟩ := Option.map_eq_some_iff.mp h
    obtain ⟨hlength, hmem⟩ := xmlEscapeChars_spec (List.mem_of_find?_eq_some he)
    obtain ⟨k, hk⟩ := Nat.exists_eq_add_of_lt hlength
    have hfound := List.find?_some he
    have htail := startsNoCase_tail (k := k + 2) (by omega) hfound
    have htake := congrArg List.length htail
    rw [List.length_map, List.length_map, List.length_tail] at htake
    rw [hk, show 2 + k + 1 = k + 2 + 1 by omega, List.drop_succ_cons, Prod.mk.injEq] at heq
    refine ⟨src.take (k + 2), ?_, ?_, fun c hc => ?_⟩
    · rw [← heq.2, List.take_append_drop]
    · rw [← heq.1, List.length_singleton]
      omega
    · have hlower : isMark c = isMark (toLower c) := by
        have hall : ∀ c, isMark c = isMark (toLower c) := by decide
        exact hall c
      rw [hlower]
      exact hmem _ (htail ▸ List.mem_map_of_mem hc)

theorem xmlRound_length {c : UInt8} {src out rest : List UInt8}
    (h : xmlRound c src = some (out, rest)) : rest.length ≤ src.length := by
  unfold xmlRound at h
  split at h
  · split at h
    · split at h
      · next x y r hdrop =>
          have hlength := (List.dropWhile_suffix isDigit (l := src.tail)).length_le
          rw [hdrop, List.length_tail] at hlength
          simp only [List.length_cons, Option.some.injEq, Prod.mk.injEq] at hlength h
          rw [← h.2]
          omega
      · cases h
    · cases hfind : findEntity src with
      | none =>
          rw [hfind, Option.getD_none, Option.some.injEq, Prod.mk.injEq] at h
          rw [h.2]
      | some r =>
          rw [hfind, Option.getD_some, Option.some.injEq] at h
          rw [h] at hfind
          obtain ⟨name, rfl, -⟩ := findEntity_spec hfind
          rw [List.length_append]
          exact Nat.le_add_left _ _
  · rw [Option.some.injEq, Prod.mk.injEq] at h
    rw [h.2]

/-- What `GWEN_Text_UnescapeXmlToBuffer` appends, unless it reads past the end. -/
def unescapeXml : List UInt8 → Option (List UInt8)
  | [] => some []
  | c :: src =>
      match h : xmlRound c src with
      | none => none
      | some (out, rest) =>
          have := xmlRound_length h
          (unescapeXml rest).map (out ++ ·)
termination_by src => src.length

/-- What `GWEN_Text_EscapeXmlToBuffer` appends. -/
def escapeXml (src : List UInt8) : List UInt8 :=
  src.flatMap fun c => ((xmlEscapeChars.find? (·.1 == c)).map (·.2)).getD [c]

/-! ### The rounds -/

variable {c : UInt8} {s ds name out rest : List UInt8}

theorem unescapeXml_cons (h : xmlRound c s = some (out, rest)) :
    unescapeXml (c :: s) = (unescapeXml rest).map (out ++ ·) := by
  rw [unescapeXml]
  split
  · next hnone =>
      rw [h] at hnone
      cases hnone
  · next hsome =>
      rw [h, Option.some.injEq, Prod.mk.injEq] at hsome
      rw [hsome.1, hsome.2]

theorem unescapeXml_cons_none (h : xmlRound c s = none) : unescapeXml (c :: s) = none := by
  rw [unescapeXml]
  split
  · rfl
  · next hsome =>
      rw [h] at hsome
      cases hsome

theorem unescapeXml_plain (h : c ≠ code '&') :
    unescapeXml (c :: s) = (unescapeXml s).map (c :: ·) :=
  unescapeXml_cons (if_neg h)

theorem unescapeXml_append : ∀ {name : List UInt8}, code '&' ∉ name →
    unescapeXml (name ++ s) = (unescapeXml s).map (name ++ ·)
  | [], _ => by
      rw [List.nil_append]
      cases unescapeXml s <;> rfl
  | c :: name, h => by
      rw [List.mem_cons, not_or] at h
      rw [List.cons_append, unescapeXml_plain (Ne.symm h.1), unescapeXml_append h.2, Option.map_map]
      rfl

/-- A numeric reference with these digits, up to the character behind them. -/
def reference (ds : List UInt8) : List UInt8 := code '&' :: code '#' :: ds

theorem unescapeXml_reference {x y : UInt8} (hds : ∀ d ∈ ds, isDigit d = true)
    (hx : isDigit x = false) : unescapeXml (reference ds ++ x :: y :: rest) =
      (unescapeXml rest).map ([referenceByte ds, y] ++ ·) := by
  refine unescapeXml_cons ?_
  rw [List.append_eq, List.cons_append, xmlRound, if_pos rfl, List.head?_cons, if_pos rfl,
    List.tail_cons, List.dropWhile_append_of_pos hds, List.takeWhile_append_of_pos hds,
    List.dropWhile_cons_of_neg (by rw [hx]; exact Bool.false_ne_true),
    List.takeWhile_cons_of_neg (by rw [hx]; exact Bool.false_ne_true), List.append_nil]

theorem unescapeXml_reference_none (hds : ∀ d ∈ ds, isDigit d = true)
    (hrest : rest.dropWhile isDigit = rest) (hlength : rest.length < 2) :
    unescapeXml (reference ds ++ rest) = none := by
  refine unescapeXml_cons_none ?_
  rw [List.append_eq, List.cons_append, xmlRound, if_pos rfl, List.head?_cons, if_pos rfl,
    List.tail_cons, List.dropWhile_append_of_pos hds, hrest]
  split
  · next x y r =>
      simp only [List.length_cons] at hlength
      omega
  · rfl

/-- A reference or an entity that the decoder knows comes first. -/
def Referenced (s : List UInt8) : Prop :=
  ∃ t, s = code '&' :: t ∧ (t.head? = some (code '#') ∨ (findEntity t).isSome = true)

theorem unescapeXml_of_not_referenced (h : ¬Referenced (c :: s)) :
    unescapeXml (c :: s) = (unescapeXml s).map (c :: ·) := by
  by_cases hc : c = code '&'
  · have hcons : xmlRound c s = some ([c], s) → _ := unescapeXml_cons
    refine hcons ?_
    rw [xmlRound, if_pos hc, if_neg fun hhash => h ⟨s, by rw [hc], Or.inl hhash⟩]
    cases hfind : findEntity s with
    | none => rfl
    | some r => exact absurd ⟨s, by rw [hc], Or.inr (by rw [hfind]; rfl)⟩ h
  · exact unescapeXml_plain hc

theorem not_mem_of_not_isMark (h : ∀ c ∈ name, isMark c = false) :
    code '&' ∉ name ∧ code '#' ∉ name :=
  ⟨fun hc => absurd (h _ hc) (by decide), fun hc => absurd (h _ hc) (by decide)⟩

theorem unescapeXml_entity (h : findEntity s = some (out, rest)) :
    unescapeXml (code '&' :: s) = (unescapeXml rest).map (out ++ ·) := by
  refine unescapeXml_cons ?_
  have hhash : s.head? ≠ some (code '#') := by
    obtain ⟨name, rfl, hlength, hname⟩ := findEntity_spec h
    obtain ⟨c, t, rfl⟩ := List.exists_cons_of_length_pos (Nat.zero_lt_of_lt hlength)
    rw [List.cons_append, List.head?_cons, ne_eq, Option.some.injEq]
    rintro rfl
    exact (not_mem_of_not_isMark hname).2 List.mem_cons_self
  rw [xmlRound, if_pos rfl, if_neg hhash, h, Option.getD_some]

/-! ### References -/

/-- A reference is met behind which less than two characters follow; the one that is copied behind
a reference begins none. -/
def endsInReference : List UInt8 → Bool
  | [] => false
  | c :: src =>
      if c = code '&' ∧ src.head? = some (code '#') then
        match h : src.tail.dropWhile isDigit with
        | _ :: _ :: rest =>
            have : rest.length < src.length := by
              have hlength := (List.dropWhile_suffix isDigit (l := src.tail)).length_le
              rw [h, List.length_tail] at hlength
              simp only [List.length_cons] at hlength
              omega
            endsInReference rest
        | _ => true
      else endsInReference src
termination_by src => src.length

theorem endsInReference_cons (h : ¬(c = code '&' ∧ s.head? = some (code '#'))) :
    endsInReference (c :: s) = endsInReference s := by
  rw [endsInReference, if_neg h]

theorem endsInReference_append : ∀ {name : List UInt8}, code '&' ∉ name →
    endsInReference (name ++ s) = endsInReference s
  | [], _ => rfl
  | c :: name, h => by
      rw [List.mem_cons, not_or] at h
      rw [List.cons_append, endsInReference_cons fun hc => h.1 hc.1.symm,
        endsInReference_append h.2]

theorem endsInReference_reference {x y : UInt8} (hds : ∀ d ∈ ds, isDigit d = true)
    (hx : isDigit x = false) :
    endsInReference (reference ds ++ x :: y :: rest) = endsInReference rest := by
  have hdrop : (ds ++ x :: y :: rest).dropWhile isDigit = x :: y :: rest := by
    rw [List.dropWhile_append_of_pos hds,
      List.dropWhile_cons_of_neg (by rw [hx]; exact Bool.false_ne_true)]
  rw [reference, List.cons_append, List.cons_append, endsInReference, if_pos ⟨rfl, rfl⟩]
  split
  · next x' y' r h =>
      rw [List.tail_cons, hdrop] at h
      exact congrArg endsInReference (List.cons.inj (List.cons.inj h).2).2.symm
  · next h => exact absurd (by rw [List.tail_cons, hdrop]) (h x y rest)

theorem endsInReference_last (hds : ∀ d ∈ ds, isDigit d = true)
    (hrest : rest.dropWhile isDigit = rest) (hlength : rest.length < 2) :
    endsInReference (reference ds ++ rest) = true := by
  rw [reference, List.cons_append, List.cons_append, endsInReference, if_pos ⟨rfl, rfl⟩]
  split
  · next x y r h =>
      rw [List.tail_cons, List.dropWhile_append_of_pos hds, hrest] at h
      rw [h] at hlength
      simp only [List.length_cons] at hlength
      omega
  · rfl

/-- What a round of the loop finds. -/
inductive Round : List UInt8 → Prop
  | done : Round []
  | plain {c : UInt8} {s : List UInt8} : ¬Referenced (c :: s) → Round (c :: s)
  | entity {s out rest : List UInt8} : findEntity s = some (out, rest) → Round (code '&' :: s)
  | reference {ds rest : List UInt8} {x y : UInt8} : (∀ d ∈ ds, isDigit d = true) →
      isDigit x = false → Round (reference ds ++ x :: y :: rest)
  | last {ds rest : List UInt8} : (∀ d ∈ ds, isDigit d = true) →
      rest.dropWhile isDigit = rest → rest.length < 2 → Round (reference ds ++ rest)

theorem round_reference (t : List UInt8) : Round (reference t) := by
  have hds : ∀ d ∈ t.takeWhile isDigit, isDigit d = true := fun d hd => List.mem_takeWhile_imp hd
  have hsplit : reference t = reference (t.takeWhile isDigit) ++ t.dropWhile isDigit := by
    rw [reference, reference, List.cons_append, List.cons_append, List.takeWhile_append_dropWhile]
  rw [hsplit]
  cases hdrop : t.dropWhile isDigit with
  | nil => exact .last hds rfl (by decide)
  | cons x r =>
      have hx : isDigit x = false := by
        have hhead := List.head?_dropWhile_not isDigit t
        rw [hdrop] at hhead
        simpa using hhead
      cases r with
      | nil =>
          refine .last hds (List.dropWhile_cons_of_neg ?_) (Nat.lt_succ_self 1)
          rw [hx]
          exact Bool.false_ne_true
      | cons y r => exact .reference hds hx

theorem round : ∀ s : List UInt8, Round s
  | [] => .done
  | c :: s => by
      by_cases h : Referenced (c :: s)
      · obtain ⟨t, heq, hhash | hfind⟩ := h
        · obtain ⟨rfl, rfl⟩ := List.cons.inj heq
          cases s with
          | nil => cases hhash
          | cons d t =>
              rw [List.head?_cons, Option.some.injEq] at hhash
              rw [hhash]
              exact round_reference t
        · obtain ⟨rfl, rfl⟩ := List.cons.inj heq
          obtain ⟨⟨out, rest⟩, hfind⟩ := Option.isSome_iff_exists.mp hfind
          exact .entity hfind
      · exact .plain h

/-- The loop reads past the end of these texts only. -/
theorem unescapeXml_isSome (s : List UInt8) :
    (unescapeXml s).isSome = true ↔ endsInReference s = false := by
  induction hlen : s.length using Nat.strong_induction_on generalizing s with
  | _ n ih =>
    cases round s with
    | done => rw [unescapeXml, endsInReference]; exact ⟨fun _ => rfl, fun _ => rfl⟩
    | @plain c s h =>
        rw [unescapeXml_of_not_referenced h, Option.isSome_map, ih s.length
          (by rw [← hlen, List.length_cons]; omega) s rfl, endsInReference_cons]
        exact fun hc => h ⟨s, by rw [hc.1], Or.inl hc.2⟩
    | @entity s out rest h =>
        obtain ⟨name, hs, hlength, hname⟩ := findEntity_spec h
        have hmark := not_mem_of_not_isMark hname
        rw [unescapeXml_entity h, Option.isSome_map, hs, ih rest.length
          (by rw [← hlen, hs, List.length_cons, List.length_append]; omega) rest rfl,
          endsInReference_cons, endsInReference_append hmark.1]
        obtain ⟨c, t, rfl⟩ := List.exists_cons_of_length_pos (Nat.zero_lt_of_lt hlength)
        rintro ⟨-, hhead⟩
        rw [List.cons_append, List.head?_cons, Option.some.injEq] at hhead
        exact hmark.2 (hhead ▸ List.mem_cons_self)
    | @reference ds rest x y hds hx =>
        rw [unescapeXml_reference hds hx, Option.isSome_map, endsInReference_reference hds hx]
        refine ih rest.length ?_ rest rfl
        rw [← hlen, List.length_append, List.length_cons, List.length_cons]
        omega
    | @last ds rest hds hrest hlength =>
        rw [unescapeXml_reference_none hds hrest hlength, endsInReference_last hds hrest hlength]
        exact ⟨fun h => absurd h Bool.false_ne_true, fun h => absurd h (Bool.false_ne_true ·.symm)⟩

theorem referenceByte_eq (ds : List UInt8) : referenceByte ds = UInt8.ofNat (digitsValue ds) := by
  have hfold : ∀ (ds : List UInt8) (n : ℕ),
      ds.foldl (fun num d => num * 10 + (d - code '0')) (UInt8.ofNat n) =
        UInt8.ofNat (ds.foldl (fun n d => n * 10 + (d - code '0').toNat) n) := by
    intro ds
    induction ds with
    | nil => exact fun _ => rfl
    | cons d ds ih =>
        intro n
        rw [List.foldl_cons, List.foldl_cons, ← ih, UInt8.ofNat_add, UInt8.ofNat_mul,
          UInt8.ofNat_toNat]
        rfl
  exact hfold ds 0

/-- The byte of the number and then what the rest is decoded to; nothing else is read. -/
def Composes (ds rest : List UInt8) : Prop :=
  ∃ out, unescapeXml rest = some out ∧
    unescapeXml (reference ds ++ code ';' :: rest) = some (UInt8.ofNat (digitsValue ds) :: out)

/-- A text that may follow a reference: one that begins with a character for itself. -/
def Follows (rest : List UInt8) : Prop :=
  rest ≠ [] ∧ ¬Referenced rest ∧ endsInReference rest = false

/-- A reference to `&` between this character and another reference; it may be decoded to what it
is itself. -/
def NamesItself (rest : List UInt8) : Prop :=
  ∃ ds t, rest = reference ds ++ reference t ∧ (∀ d ∈ ds, isDigit d = true) ∧
    referenceByte ds = code '&'

theorem composes (hds : ∀ d ∈ ds, isDigit d = true) (h : Follows rest) : Composes ds rest := by
  obtain ⟨hne, hreferenced, hends⟩ := h
  obtain ⟨c, t, rfl⟩ := List.exists_cons_of_ne_nil hne
  obtain ⟨out, hout⟩ := Option.isSome_iff_exists.mp ((unescapeXml_isSome (c :: t)).mpr hends)
  refine ⟨out, hout, ?_⟩
  rw [unescapeXml_of_not_referenced hreferenced] at hout
  obtain ⟨o, ho, rfl⟩ := Option.map_eq_some_iff.mp hout
  rw [unescapeXml_reference hds (by decide), ← referenceByte_eq, ho]
  rfl

theorem Composes.tail {x : UInt8} (hds : ∀ d ∈ ds, isDigit d = true) (h : Composes ds (x :: rest)) :
    ∃ out, unescapeXml rest = some out ∧ unescapeXml (x :: rest) = some (x :: out) := by
  obtain ⟨out, hout, hwhole⟩ := h
  rw [unescapeXml_reference hds (by decide), ← referenceByte_eq] at hwhole
  obtain ⟨o, ho, heq⟩ := Option.map_eq_some_iff.mp hwhole
  exact ⟨o, ho, by rw [hout, ← (List.cons.inj heq).2]; rfl⟩

theorem not_composes_entity {s : List UInt8} (hds : ∀ d ∈ ds, isDigit d = true)
    (h : findEntity s = some (out, rest)) : ¬Composes ds (code '&' :: s) := by
  intro hcomposes
  obtain ⟨o, ho, hwhole⟩ := hcomposes.tail hds
  obtain ⟨name, rfl, hlength, hname⟩ := findEntity_spec h
  rw [unescapeXml_append (not_mem_of_not_isMark hname).1] at ho
  rw [unescapeXml_entity h] at hwhole
  obtain ⟨r, hr, rfl⟩ := Option.map_eq_some_iff.mp ho
  rw [hr, Option.map_some, Option.some.injEq] at hwhole
  have hlengths := congrArg List.length hwhole
  simp only [List.length_append, List.length_cons] at hlengths
  omega

/-- The digits of a reference would be copied too. -/
theorem namesItself_of_composes {es : List UInt8} {x y : UInt8}
    (hds : ∀ d ∈ ds, isDigit d = true) (hes : ∀ d ∈ es, isDigit d = true)
    (hx : isDigit x = false) (h : Composes ds (reference es ++ x :: y :: rest)) :
    NamesItself (reference es ++ x :: y :: rest) := by
  obtain ⟨o, ho, hwhole⟩ := h.tail hds
  have hplain : code '&' ∉ code '#' :: es := by
    rw [List.mem_cons, not_or]
    exact ⟨by decide, fun hmem => absurd (hes _ hmem) (by decide)⟩
  rw [List.append_eq] at ho hwhole
  rw [unescapeXml_append hplain] at ho
  obtain ⟨r, hr, rfl⟩ := Option.map_eq_some_iff.mp ho
  have hself : _ = (unescapeXml rest).map ([referenceByte es, y] ++ ·) :=
    unescapeXml_reference hes hx
  rw [reference, List.cons_append, hwhole] at hself
  obtain ⟨t, ht, heq⟩ := Option.map_eq_some_iff.mp hself.symm
  have hbyte := (List.cons.inj heq).1
  have htail : y :: t = code '#' :: (es ++ r) := (List.cons.inj heq).2
  have hy : y = code '#' := (List.cons.inj htail).1
  have hxmark : x = code '&' := by
    by_contra hne
    rw [unescapeXml_plain hne, hy, unescapeXml_plain (by decide), ht, Option.map_some,
      Option.map_some, Option.some.injEq] at hr
    have hlengths := congrArg List.length htail
    rw [← hr] at hlengths
    simp only [List.length_append, List.length_cons] at hlengths
    omega
  exact ⟨es, rest, by rw [hxmark, hy, reference, reference], hes, hbyte⟩

theorem follows_or_namesItself (hds : ∀ d ∈ ds, isDigit d = true) (h : Composes ds rest) :
    Follows rest ∨ NamesItself rest := by
  have hends : endsInReference rest = false := by
    obtain ⟨out, hout, -⟩ := h
    rw [← unescapeXml_isSome, hout]
    rfl
  cases round rest with
  | done =>
      obtain ⟨out, -, hwhole⟩ := h
      rw [unescapeXml_reference_none hds (by decide) (by decide)] at hwhole
      cases hwhole
  | plain hplain => exact Or.inl ⟨List.cons_ne_nil _ _, hplain, hends⟩
  | entity hfind => exact absurd h (not_composes_entity hds hfind)
  | reference hes hx => exact Or.inr (namesItself_of_composes hds hes hx h)
  | last hes hrest hlength =>
      rw [endsInReference_last hes hrest hlength] at hends
      cases hends

/-- A reference is decoded and its rest for itself if the rest begins with a character for itself;
of the texts that begin with a reference, only one that names itself may be decoded so too.  The
loop stays in the text unless a reference is met at the end. -/
theorem reference_composes (hds : ∀ d ∈ ds, isDigit d = true) (rest s : List UInt8) :
    (Follows rest → Composes ds rest) ∧ (Composes ds rest → Follows rest ∨ NamesItself rest) ∧
      ((unescapeXml s).isSome = true ↔ endsInReference s = false) :=
  ⟨composes hds, follows_or_namesItself hds, unescapeXml_isSome s⟩

/-- `"&#65;x"`. -/
theorem reference_composes_letter : (∀ d ∈ ascii ['6', '5'], isDigit d = true) ∧
    ((Follows (ascii ['x']) → Composes (ascii ['6', '5']) (ascii ['x'])) ∧
      (Composes (ascii ['6', '5']) (ascii ['x']) →
        Follows (ascii ['x']) ∨ NamesItself (ascii ['x'])) ∧
      ((unescapeXml (ascii ['x'])).isSome = true ↔ endsInReference (ascii ['x']) = false)) :=
  ⟨by decide, reference_composes (by decide) (ascii ['x']) (ascii ['x'])⟩

/-- `"&#65;&lt;"` is decoded to `"A&lt;"`, and in `"&#65;"` the loop runs past the end. -/
theorem not_reference_composes :
    ¬(∀ ds rest, (∀ d ∈ ds, isDigit d = true) → 1 ≤ digitsValue ds → digitsValue ds ≤ 255 →
      0 ∉ rest → Composes ds rest) ∧ ¬∀ s, 0 ∉ s → (unescapeXml s).isSome = true := by
  have hds : ∀ d ∈ ascii ['6', '5'], isDigit d = true := by decide
  constructor
  · intro h
    have hfind : findEntity (ascii ['l', 't', ';']) = some (ascii ['<'], []) := by decide
    have hcomposes := h (ascii ['6', '5']) (code '&' :: ascii ['l', 't', ';']) hds
      (by decide) (by decide) (by decide)
    exact not_composes_entity hds hfind hcomposes
  · intro h
    have hsome := h (reference (ascii ['6', '5']) ++ [code ';']) (by decide)
    rw [unescapeXml_reference_none hds (by decide) (by decide)] at hsome
    cases hsome

end Text
end Gwenhywfar
