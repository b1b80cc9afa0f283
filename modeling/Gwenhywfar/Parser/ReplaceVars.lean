import Gwenhywfar.Parser.Text
import Gwenhywfar.Base.Error

/-! # Variables in a text

* `replaceVars`: `GWEN_Text_ReplaceVars`.  The destination is a text, and the position of the
  buffer is at its end or before it; the callback is a function of all calls so far, the newest
  one in front, and it appends to the destination.
* `splitVariableNameInNameAndIndex` returns an `int`, but the index is kept in a `char`, where
  some indices are an error code or the code for all indices.  A length behind an index is not
  looked at.
* `replacesVars_iff`: indices up to 127 without a length reach the callback, others do not.  An
  output is shortened only when the position of the destination is at its end. -/

namespace Gwenhywfar

set_option maxRecDepth 4000

namespace Text

/-- `GWEN_ERROR_NO_ADDRESS`, which stands for all indices. -/
abbrev errorNoAddress : ℤ := -44

/-! ### The functions -/

/-- A number as it is stored in an `int`. -/
def wrapInt (z : ℤ) : ℤ := (z + 2 ^ 31) % 2 ^ 32 - 2 ^ 31

/-- A number as it is stored in a `char`. -/
def wrapChar (z : ℤ) : ℤ := (z + 2 ^ 7) % 2 ^ 8 - 2 ^ 7

/-- What the callback is called with. -/
structure VarCall where
  name : List UInt8
  index : ℤ
  maxLen : ℤ
deriving DecidableEq

def endsName (c : UInt8) : Bool := c == code '[' || c == code ':'

/-- The index behind the name, and what follows it: it begins with the `]`. -/
def splitIndex (p : List UInt8) : Option (ℤ × List UInt8) :=
  if p.head? = some (code '[') then
    let ds := p.tail.takeWhile isDigit
    let p := p.tail.dropWhile isDigit
    if p.head? ≠ some (code ']') then none
    else if ds = [] then some (errorNoAddress, p)
    else some (wrapInt (digitsValue ds), p)
  else some (0, p)

/-- The length behind a colon. -/
def splitMaxLen (p : List UInt8) : Option ℤ :=
  if p.head? = some (code ':') then
    if p.tail.dropWhile isDigit ≠ [] then none
    else some (wrapInt (digitsValue (p.tail.takeWhile isDigit)))
  else some 0

/-- `_splitVariableNameInNameAndIndex`: the name, the index and the length. -/
def splitVariableNameInNameAndIndex (s : List UInt8) : Option VarCall :=
  let name := s.takeWhile (!endsName ·)
  if name = [] then none
  else
    (splitIndex (s.dropWhile (!endsName ·))).bind fun (index, p) =>
      (splitMaxLen p).map fun maxLen => ⟨name, index, if maxLen = 0 then -1 else maxLen⟩

section
variable (atEnd : Bool) (fn : List VarCall → ℤ × List UInt8)

/-- How far the position of the destination has moved: only one at the end moves along. -/
def charsAdded (out : List UInt8) : ℕ := if atEnd then out.length else 0

def outputOf (maxLen : ℤ) (dbuf : List UInt8) (calls : List VarCall) (rv : ℤ) (out : List UInt8) :
    Option ℤ × List UInt8 × List VarCall :=
  if rv < 0 ∧ rv ≠ errorNoData then (some rv, dbuf ++ out, calls)
  else if 0 < maxLen ∧ maxLen < charsAdded atEnd out then
    (none, (dbuf ++ out).take (dbuf.length + maxLen.toNat), calls)
  else (none, dbuf ++ out, calls)

def replaceVar (rawName dbuf : List UInt8) (calls : List VarCall) :
    Option ℤ × List UInt8 × List VarCall :=
  match splitVariableNameInNameAndIndex rawName with
  | none => (some errorBadData, dbuf, calls)
  | some var =>
      let index := wrapChar var.index
      if index < 0 ∧ index ≠ errorNoAddress then (some index, dbuf, calls)
      else
        let calls := { var with index := if index = errorNoAddress then -1 else index } :: calls
        outputOf atEnd var.maxLen dbuf calls (fn calls).1 (fn calls).2

/-- `GWEN_Text_ReplaceVars`: what it returns, the destination and the calls, the newest in front. -/
def replaceVars : List UInt8 → (dbuf : List UInt8) → (calls : List VarCall) →
    ℤ × List UInt8 × List VarCall
  | [], dbuf, calls => (0, dbuf, calls)
  | [c], dbuf, calls =>
      if c = code '$' then (errorBadData, dbuf, calls) else (0, dbuf ++ [c], calls)
  | c :: d :: s, dbuf, calls =>
      if c = code '$' then
        if d = code '$' then replaceVars s (dbuf ++ [code '$']) calls
        else if d = code '(' then
          if s.dropWhile (· != code ')') = [] then (errorBadData, dbuf, calls)
          else
            have := (List.dropWhile_suffix (· != code ')') (l := s)).length_le
            match replaceVar atEnd fn (s.takeWhile (· != code ')')) dbuf calls with
            | (some rv, dbuf, calls) => (rv, dbuf, calls)
            | (none, dbuf, calls) =>
                replaceVars (s.dropWhile (· != code ')')).tail dbuf calls
        else (errorBadData, dbuf, calls)
      else replaceVars (d :: s) (dbuf ++ [c]) calls
termination_by s => s.length

end

/-! ### Templates -/

/-- A part of a template: a text, `$$`, or a reference with the digits between its brackets and
behind its colon. -/
inductive Piece where
  | text (s : List UInt8)
  | dollar
  | reference (name : List UInt8) (index maxLen : Option (List UInt8))

/-- The digits between brackets. -/
def indexText (index : Option (List UInt8)) : List UInt8 :=
  index.elim [] fun ds => code '[' :: (ds ++ [code ']'])

/-- The digits behind a colon. -/
def maxLenText (maxLen : Option (List UInt8)) : List UInt8 := maxLen.elim [] (code ':' :: ·)

/-- A part as it is written. -/
def Piece.render : Piece → List UInt8
  | text s => s
  | dollar => [code '$', code '$']
  | reference name index maxLen =>
      code '$' :: code '(' :: (name ++ (indexText index ++ maxLenText maxLen) ++ [code ')'])

/-- A template as it is written. -/
def render (tpl : List Piece) : List UInt8 := tpl.flatMap Piece.render

def isNameMark (c : UInt8) : Bool := c ∈ ascii ['(', ')', '[', ']', ':']

/-- Texts hold no `$`, names none of the other marks, and the numbers are those of an `int`. -/
def Piece.WellFormed : Piece → Prop
  | text s => code '$' ∉ s
  | dollar => True
  | reference name index maxLen =>
      name ≠ [] ∧ (∀ c ∈ name, isNameMark c = false) ∧
        (∀ ds ∈ index, (∀ d ∈ ds, isDigit d = true) ∧ digitsValue ds < 2 ^ 31) ∧
        ∀ ds ∈ maxLen, (∀ d ∈ ds, isDigit d = true) ∧ 0 < digitsValue ds ∧ digitsValue ds < 2 ^ 31

def callOf (name : List UInt8) (index maxLen : Option (List UInt8)) : VarCall where
  name := name
  index := index.elim 0 fun ds => if ds = [] then -1 else digitsValue ds
  maxLen := maxLen.elim (-1) fun ds => digitsValue ds

/-- No more than `maxLen` bytes of an output. -/
def truncated (maxLen : Option (List UInt8)) (out : List UInt8) : List UInt8 :=
  maxLen.elim out fun ds => out.take (digitsValue ds)

section
variable (cut : Option (List UInt8) → List UInt8 → List UInt8) (fn : List VarCall → ℤ × List UInt8)

/-- What is appended for a template whose outputs are cut, and the calls. -/
def expected : List Piece → (calls : List VarCall) → List UInt8 × List VarCall
  | [], calls => ([], calls)
  | .text s :: tpl, calls =>
      let r := expected tpl calls
      (s ++ r.1, r.2)
  | .dollar :: tpl, calls =>
      let r := expected tpl calls
      (code '$' :: r.1, r.2)
  | .reference name index maxLen :: tpl, calls =>
      let calls := callOf name index maxLen :: calls
      let r := expected tpl calls
      (cut maxLen (fn calls).2 ++ r.1, r.2)

theorem expected_nil (calls : List VarCall) : expected cut fn [] calls = ([], calls) := by
  rw [expected]

def OutputsFit : List Piece → (calls : List VarCall) → Prop
  | [], _ => True
  | .text _ :: tpl, calls => OutputsFit tpl calls
  | .dollar :: tpl, calls => OutputsFit tpl calls
  | .reference name index maxLen :: tpl, calls =>
      let calls := callOf name index maxLen :: calls
      (∀ ds ∈ maxLen, (fn calls).2.length ≤ digitsValue ds) ∧ OutputsFit tpl calls

end

/-- The template is replaced, and the references reach the callback intact. -/
def Replaces (atEnd : Bool) (fn : List VarCall → ℤ × List UInt8) (tpl : List Piece)
    (dbuf : List UInt8) : Prop :=
  replaceVars atEnd fn (render tpl) dbuf [] =
    (0, dbuf ++ (expected truncated fn tpl []).1, (expected truncated fn tpl []).2)

/-- The index fits into a `char`, and no length follows it. -/
def Piece.Passes : Piece → Prop
  | reference _ index maxLen => ∀ ds ∈ index, digitsValue ds ≤ 127 ∧ maxLen = none
  | _ => True

section
variable {atEnd : Bool} {cut : Option (List UInt8) → List UInt8 → List UInt8}
  {fn : List VarCall → ℤ × List UInt8} {c : UInt8} {s rest ds name dbuf : List UInt8}
  {calls : List VarCall} {index maxLen : Option (List UInt8)} {tpl : List Piece}

/-! ### One part of a template -/

theorem replaceVars_char (hc : c ≠ code '$') :
    replaceVars atEnd fn (c :: s) dbuf calls = replaceVars atEnd fn s (dbuf ++ [c]) calls := by
  cases s with
  | nil => simp only [replaceVars, if_neg hc]
  | cons d s => rw [replaceVars, if_neg hc]

theorem replaceVars_text (hs : code '$' ∉ s) :
    replaceVars atEnd fn (s ++ rest) dbuf calls = replaceVars atEnd fn rest (dbuf ++ s) calls := by
  induction s generalizing dbuf with
  | nil => rw [List.nil_append, List.append_nil]
  | cons c s ih =>
      rw [List.mem_cons, not_or] at hs
      rw [List.cons_append, replaceVars_char (Ne.symm hs.1), ih hs.2, List.append_assoc,
        List.singleton_append]

theorem replaceVars_dollar : replaceVars atEnd fn (code '$' :: code '$' :: rest) dbuf calls =
      replaceVars atEnd fn rest (dbuf ++ [code '$']) calls := by
  rw [replaceVars, if_pos rfl, if_pos rfl]

/-- A name in parentheses is taken up to the closing one. -/
theorem replaceVars_reference {raw : List UInt8} (hraw : code ')' ∉ raw) :
    replaceVars atEnd fn (code '$' :: code '(' :: (raw ++ [code ')'] ++ rest)) dbuf calls =
      (replaceVar atEnd fn raw dbuf calls).1.elim
        (replaceVars atEnd fn rest (replaceVar atEnd fn raw dbuf calls).2.1
          (replaceVar atEnd fn raw dbuf calls).2.2)
        fun rv => (rv, (replaceVar atEnd fn raw dbuf calls).2) := by
  have hall : ∀ d ∈ raw, (d != code ')') = true := fun d hd => by
    simpa using fun h : d = code ')' => hraw (h ▸ hd)
  have hstop : ¬(fun d => d != code ')') (code ')') = true := by simp
  have htake : (raw ++ [code ')'] ++ rest).takeWhile (· != code ')') = raw := by
    rw [List.append_assoc, List.takeWhile_append_of_pos hall, List.singleton_append,
      @List.takeWhile_cons_of_neg _ (· != code ')') _ _ hstop, List.append_nil]
  have hdrop : (raw ++ [code ')'] ++ rest).dropWhile (· != code ')') = code ')' :: rest := by
    rw [List.append_assoc, List.dropWhile_append_of_pos hall, List.singleton_append,
      @List.dropWhile_cons_of_neg _ (· != code ')') _ _ hstop]
  rw [replaceVars, if_pos rfl, if_neg (by decide), if_pos rfl, htake]
  rw [if_neg (by rw [hdrop]; exact List.cons_ne_nil _ _)]
  obtain ⟨rv, dbuf', calls'⟩ := replaceVar atEnd fn raw dbuf calls
  cases rv with
  | none => simp only [hdrop, List.tail_cons, Option.elim_none]
  | some rv => rfl

/-- The `]` hides a length behind it. -/
def splitOf (name : List UInt8) (index maxLen : Option (List UInt8)) : VarCall where
  name := name
  index := index.elim 0 fun ds => if ds = [] then errorNoAddress else digitsValue ds
  maxLen := if index = none then maxLen.elim (-1) fun ds => digitsValue ds else -1

theorem wrapInt_of_lt {n : ℕ} (h : n < 2 ^ 31) : wrapInt n = n := by
  unfold wrapInt
  omega

theorem splitMaxLen_text (h : ∀ ds ∈ maxLen, (∀ d ∈ ds, isDigit d = true) ∧
    0 < digitsValue ds ∧ digitsValue ds < 2 ^ 31) :
    splitMaxLen (maxLenText maxLen) = some (maxLen.elim 0 fun ds => (digitsValue ds : ℤ)) := by
  cases maxLen with
  | none => rfl
  | some ds =>
      obtain ⟨hds, -, hlt⟩ := h ds rfl
      have hdrop : ds.dropWhile isDigit = [] := List.dropWhile_eq_nil_iff.mpr hds
      have htake : ds.takeWhile isDigit = ds := List.takeWhile_eq_self_iff.mpr hds
      rw [maxLenText, Option.elim_some, splitMaxLen, List.head?_cons, if_pos rfl, List.tail_cons,
        hdrop, if_neg (fun hne => hne rfl), htake, wrapInt_of_lt hlt, Option.elim_some]

theorem splitIndex_text (name : List UInt8) (h : ∀ ds ∈ index, (∀ d ∈ ds, isDigit d = true) ∧
    digitsValue ds < 2 ^ 31) : splitIndex (indexText index ++ maxLenText maxLen) =
      some ((splitOf name index maxLen).index,
        if index = none then maxLenText maxLen else code ']' :: maxLenText maxLen) := by
  cases index with
  | none =>
      have hhead : (maxLenText maxLen).head? ≠ some (code '[') := by
        cases maxLen with
        | none => exact fun hnone => by cases hnone
        | some ds => exact fun hcolon => absurd (Option.some.inj hcolon) (by decide)
      rw [indexText, Option.elim_none, List.nil_append, splitIndex, if_neg hhead, if_pos rfl]
      rfl
  | some ds =>
      obtain ⟨hds, hlt⟩ := h ds rfl
      have hstop : ¬isDigit (code ']') = true := by decide
      rw [indexText, Option.elim_some, List.cons_append, splitIndex, List.head?_cons, if_pos rfl,
        List.tail_cons, List.append_assoc, List.singleton_append,
        List.takeWhile_append_of_pos hds, List.dropWhile_append_of_pos hds,
        List.takeWhile_cons_of_neg hstop, List.dropWhile_cons_of_neg hstop, List.append_nil]
      dsimp only
      rw [List.head?_cons, if_neg (fun hne => hne rfl), if_neg (Option.some_ne_none ds), splitOf,
        Option.elim_some, wrapInt_of_lt hlt]
      split <;> rfl

theorem head_indexText (c : UInt8) (h : c ∈ (indexText index ++ maxLenText maxLen).head?) :
    endsName c = true := by
  cases index with
  | some ds =>
      rw [← Option.some.inj h]
      rfl
  | none =>
      cases maxLen with
      | none => cases h
      | some ds =>
          rw [← Option.some.inj h]
          rfl

theorem splitVariableNameInNameAndIndex_text (h : (Piece.reference name index maxLen).WellFormed) :
    splitVariableNameInNameAndIndex (name ++ (indexText index ++ maxLenText maxLen)) =
      some (splitOf name index maxLen) := by
  obtain ⟨hne, hname, hindex, hmaxLen⟩ := h
  have hplain : ∀ c ∈ name, (!endsName c) = true := by
    intro c hc
    have hall : ∀ c, isNameMark c = false → (!endsName c) = true := by decide
    exact hall c (hname c hc)
  have hrest : (indexText index ++ maxLenText maxLen).takeWhile (!endsName ·) = [] ∧
      (indexText index ++ maxLenText maxLen).dropWhile (!endsName ·) =
        indexText index ++ maxLenText maxLen := by
    have hhead := @head_indexText index maxLen
    generalize indexText index ++ maxLenText maxLen = s at hhead
    cases s with
    | nil => exact ⟨rfl, rfl⟩
    | cons c s =>
        have hc : ¬(!endsName c) = true := by
          rw [hhead c rfl]
          decide
        exact ⟨List.takeWhile_cons_of_neg hc, List.dropWhile_cons_of_neg hc⟩
  rw [splitVariableNameInNameAndIndex, List.takeWhile_append_of_pos hplain,
    List.dropWhile_append_of_pos hplain, hrest.1, hrest.2, List.append_nil]
  dsimp only
  rw [if_neg hne, splitIndex_text name hindex, Option.bind_some]
  dsimp only
  cases index with
  | none =>
      rw [if_pos rfl, splitMaxLen_text hmaxLen, Option.map_some, splitOf, if_pos rfl]
      cases maxLen with
      | none => rfl
      | some ds =>
          have hpos := (hmaxLen ds rfl).2.1
          rw [Option.elim_some, Option.elim_some, if_neg (by omega)]
  | some ds =>
      have hhead : (code ']' :: maxLenText maxLen).head? ≠ some (code ':') := by
        rw [List.head?_cons]
        decide
      rw [if_neg (Option.some_ne_none ds), splitMaxLen, if_neg hhead, Option.map_some, if_pos rfl,
        splitOf, if_neg (Option.some_ne_none ds)]

/-! ### References -/

/-- A callback that never fails; `GWEN_ERROR_NO_DATA` is no failure. -/
def NeverFails (fn : List VarCall → ℤ × List UInt8) : Prop :=
  ∀ calls, 0 ≤ (fn calls).1 ∨ (fn calls).1 = errorNoData

/-- The text between the parentheses. -/
def rawName (name : List UInt8) (index maxLen : Option (List UInt8)) : List UInt8 :=
  name ++ (indexText index ++ maxLenText maxLen)

/-- What is left of an index in a `char`. -/
def charIndex (index : Option (List UInt8)) : ℤ :=
  wrapChar (index.elim 0 fun ds => if ds = [] then errorNoAddress else (digitsValue ds : ℤ))

def passed (name : List UInt8) (index maxLen : Option (List UInt8)) : VarCall :=
  { splitOf name index maxLen with
    index := if charIndex index = errorNoAddress then -1 else charIndex index }

theorem replaceVar_negative (h : (Piece.reference name index maxLen).WellFormed)
    (hindex : charIndex index < 0 ∧ charIndex index ≠ errorNoAddress) :
    replaceVar atEnd fn (rawName name index maxLen) dbuf calls =
      (some (charIndex index), dbuf, calls) := by
  rw [replaceVar, rawName, splitVariableNameInNameAndIndex_text h]
  exact if_pos hindex

/-- What becomes of an output: before the end of the destination it is not shortened. -/
def cutOf (atEnd : Bool) (maxLen : Option (List UInt8)) (out : List UInt8) : List UInt8 :=
  if atEnd then truncated maxLen out else out

/-- An output is shortened to the length that has been found. -/
theorem outputOf_splitOf {rv : ℤ} {out : List UInt8} (hrv : 0 ≤ rv ∨ rv = errorNoData)
    (h : (Piece.reference name index maxLen).WellFormed) :
    outputOf atEnd (splitOf name index maxLen).maxLen dbuf calls rv out =
      (none, dbuf ++ (if index = none then cutOf atEnd maxLen out else out), calls) := by
  have hok : ¬(rv < 0 ∧ rv ≠ errorNoData) := by
    rcases hrv with hrv | hrv
    · exact fun h => absurd h.1 (Int.not_lt.mpr hrv)
    · exact fun h => h.2 hrv
  have hfull : ¬(0 < (-1 : ℤ) ∧ (-1 : ℤ) < charsAdded atEnd out) :=
    fun h => absurd h.1 (by decide)
  have hnone : cutOf atEnd none out = out := by
    cases atEnd <;> rfl
  rw [outputOf, if_neg hok]
  cases index with
  | some ds =>
      have hmax : (splitOf name (some ds) maxLen).maxLen = -1 := rfl
      rw [hmax, if_neg hfull]
      rfl
  | none =>
      cases maxLen with
      | none =>
          have hmax : (splitOf name none none).maxLen = -1 := rfl
          rw [hmax, if_neg hfull, if_pos rfl, hnone]
      | some ds =>
          have hmax : (splitOf name none (some ds)).maxLen = digitsValue ds := rfl
          have hpos := (h.2.2.2 ds rfl).2.1
          rw [hmax, if_pos rfl, Int.toNat_natCast, List.take_length_add_append]
          cases atEnd with
          | false =>
              have hadded : charsAdded false out = 0 := rfl
              rw [hadded, if_neg (by omega)]
              rfl
          | true =>
              have hadded : charsAdded true out = out.length := rfl
              have htake : cutOf true (some ds) out = out.take (digitsValue ds) := rfl
              rw [hadded, htake]
              split
              · rfl
              · rw [List.take_of_length_le (by omega)]

theorem replaceVar_called (hfn : NeverFails fn)
    (h : (Piece.reference name index maxLen).WellFormed)
    (hindex : ¬(charIndex index < 0 ∧ charIndex index ≠ errorNoAddress)) :
    replaceVar atEnd fn (rawName name index maxLen) dbuf calls =
      (none, dbuf ++ (if index = none then
        cutOf atEnd maxLen (fn (passed name index maxLen :: calls)).2
        else (fn (passed name index maxLen :: calls)).2), passed name index maxLen :: calls) := by
  rw [replaceVar, rawName, splitVariableNameInNameAndIndex_text h]
  exact (if_neg hindex).trans (outputOf_splitOf (hfn (passed name index maxLen :: calls)) h)

theorem passed_eq (hpass : (Piece.reference name index maxLen).Passes) :
    passed name index maxLen = callOf name index maxLen ∧
      ¬(charIndex index < 0 ∧ charIndex index ≠ errorNoAddress) := by
  cases index with
  | none => exact ⟨rfl, fun h => absurd h.1 (by decide)⟩
  | some ds =>
      obtain ⟨hlt, rfl⟩ := hpass ds rfl
      by_cases hds : ds = []
      · rw [hds]
        exact ⟨rfl, fun h => h.2 rfl⟩
      · have hchar : charIndex (some ds) = digitsValue ds := by
          rw [charIndex, Option.elim_some, if_neg hds, wrapChar]
          omega
        have hne : (digitsValue ds : ℤ) ≠ errorNoAddress := by
          intro h
          rw [errorNoAddress] at h
          omega
        refine ⟨?_, fun h => by omega⟩
        simp only [passed, hchar, if_neg hne, splitOf, callOf, Option.elim_some, if_neg hds,
          reduceCtorEq, if_false, Option.elim_none]

theorem passed_ne (h : (Piece.reference name index maxLen).WellFormed)
    (hpass : ¬(Piece.reference name index maxLen).Passes) :
    passed name index maxLen ≠ callOf name index maxLen := by
  intro heq
  refine hpass fun ds hds => ?_
  obtain rfl : index = some ds := hds
  have hi := congrArg VarCall.index heq
  have hm := congrArg VarCall.maxLen heq
  simp only [passed, callOf, splitOf, Option.elim_some, if_neg (Option.some_ne_none ds)] at hi hm
  constructor
  · by_cases hnil : ds = []
    · rw [hnil]
      decide
    · rw [charIndex, Option.elim_some, if_neg hnil, if_neg hnil, wrapChar] at hi
      split at hi <;> omega
  · cases maxLen with
    | none => rfl
    | some es =>
        rw [Option.elim_some] at hm
        omega

theorem paren_notMem_rawName (h : (Piece.reference name index maxLen).WellFormed) :
    code ')' ∉ rawName name index maxLen := by
  obtain ⟨-, hname, hindex, hmaxLen⟩ := h
  have hdigit : ∀ {ds : List UInt8}, (∀ d ∈ ds, isDigit d = true) → code ')' ∉ ds :=
    fun hds hmem => absurd (hds _ hmem) (by decide)
  rw [rawName, List.mem_append, List.mem_append, not_or, not_or]
  refine ⟨fun hmem => absurd (hname _ hmem) (by decide), ?_, ?_⟩
  · cases index with
    | none => exact List.not_mem_nil
    | some ds =>
        rw [indexText, Option.elim_some, List.mem_cons, List.mem_append, List.mem_singleton,
          not_or, not_or]
        exact ⟨by decide, hdigit (hindex ds rfl).1, by decide⟩
  · cases maxLen with
    | none => exact List.not_mem_nil
    | some ds =>
        rw [maxLenText, Option.elim_some, List.mem_cons, not_or]
        exact ⟨by decide, hdigit (hmaxLen ds rfl).1⟩

theorem replaceVars_render (h : (Piece.reference name index maxLen).WellFormed) :
    replaceVars atEnd fn ((Piece.reference name index maxLen).render ++ rest) dbuf calls =
      (replaceVar atEnd fn (rawName name index maxLen) dbuf calls).1.elim
        (replaceVars atEnd fn rest (replaceVar atEnd fn (rawName name index maxLen) dbuf calls).2.1
          (replaceVar atEnd fn (rawName name index maxLen) dbuf calls).2.2)
        fun rv => (rv, (replaceVar atEnd fn (rawName name index maxLen) dbuf calls).2) :=
  replaceVars_reference (paren_notMem_rawName h)

/-! ### Templates -/

theorem replaceVars_piece {p : Piece} (hfn : NeverFails fn) (hwf : p.WellFormed)
    (hpass : p.Passes) : replaceVars atEnd fn (p.render ++ rest) dbuf calls =
      replaceVars atEnd fn rest (dbuf ++ (expected (cutOf atEnd) fn [p] calls).1)
        (expected (cutOf atEnd) fn [p] calls).2 := by
  cases p with
  | text s => rw [Piece.render, replaceVars_text hwf, expected, expected_nil, List.append_nil]
  | dollar =>
      rw [Piece.render, List.cons_append, List.cons_append, List.nil_append, replaceVars_dollar]
      rfl
  | reference name index maxLen =>
      obtain ⟨hcall, hindex⟩ := passed_eq hpass
      rw [replaceVars_render hwf, replaceVar_called hfn hwf hindex, hcall, Option.elim_none,
        expected, expected_nil, List.append_nil]
      cases index with
      | none => rfl
      | some ds =>
          obtain ⟨-, rfl⟩ := hpass ds rfl
          cases atEnd <;> rfl

theorem expected_append (pre post : List Piece) : expected cut fn (pre ++ post) calls =
    ((expected cut fn pre calls).1 ++ (expected cut fn post (expected cut fn pre calls).2).1,
      (expected cut fn post (expected cut fn pre calls).2).2) := by
  induction pre generalizing calls with
  | nil => rfl
  | cons p pre ih =>
      rw [List.cons_append]
      cases p with
      | text s => rw [expected, expected, ih, List.append_assoc]
      | dollar => rw [expected, expected, ih, List.cons_append]
      | reference name index maxLen => rw [expected, expected, ih, List.append_assoc]

theorem replaceVars_passing (hfn : NeverFails fn) (hwf : ∀ p ∈ tpl, p.WellFormed)
    (hpass : ∀ p ∈ tpl, p.Passes) : replaceVars atEnd fn (render tpl ++ rest) dbuf calls =
      replaceVars atEnd fn rest (dbuf ++ (expected (cutOf atEnd) fn tpl calls).1)
        (expected (cutOf atEnd) fn tpl calls).2 := by
  induction tpl generalizing dbuf calls with
  | nil =>
      rw [expected_nil, List.append_nil]
      rfl
  | cons p tpl ih =>
      rw [List.forall_mem_cons] at hwf hpass
      have happend := @expected_append (cutOf atEnd) fn calls [p] tpl
      rw [List.singleton_append] at happend
      rw [render, List.flatMap_cons, ← render, List.append_assoc,
        replaceVars_piece hfn hwf.1 hpass.1, ih hwf.2 hpass.2, happend, List.append_assoc]

theorem expected_calls (cut' : Option (List UInt8) → List UInt8 → List UInt8) :
    (expected cut fn tpl calls).2 = (expected cut' fn tpl calls).2 := by
  induction tpl generalizing calls with
  | nil => rfl
  | cons p tpl ih =>
      cases p with
      | text s => exact ih
      | dollar => exact ih
      | reference name index maxLen => exact ih

theorem length_truncated_le (maxLen : Option (List UInt8)) (out : List UInt8) :
    (truncated maxLen out).length ≤ out.length := by
  cases maxLen with
  | none => exact Nat.le_refl _
  | some ds => exact List.length_take_le' _ _

theorem truncated_eq_iff {out : List UInt8} :
    truncated maxLen out = out ↔ ∀ ds ∈ maxLen, out.length ≤ digitsValue ds := by
  cases maxLen with
  | none => exact ⟨fun _ _ h => absurd h (by simp), fun _ => rfl⟩
  | some ds =>
      have htake : truncated (some ds) out = out.take (digitsValue ds) := rfl
      rw [htake, List.take_eq_self_iff]
      exact ⟨fun h _ hds => Option.some.inj hds ▸ h, fun h => h ds rfl⟩

theorem length_expected_le : (expected truncated fn tpl calls).1.length ≤
    (expected (fun _ out => out) fn tpl calls).1.length := by
  induction tpl generalizing calls with
  | nil => exact Nat.le_refl _
  | cons p tpl ih =>
      cases p with
      | text s =>
          rw [expected, expected, List.length_append, List.length_append]
          exact Nat.add_le_add_left ih _
      | dollar =>
          rw [expected, expected, List.length_cons, List.length_cons]
          exact Nat.succ_le_succ ih
      | reference name index maxLen =>
          rw [expected, expected, List.length_append, List.length_append]
          exact Nat.add_le_add (length_truncated_le _ _) ih

/-- Outputs may be left as they are when each of them fits, and only then: nothing that follows
makes up for an output that is too long. -/
theorem expected_eq_iff : (expected truncated fn tpl calls).1 =
    (expected (fun _ out => out) fn tpl calls).1 ↔ OutputsFit fn tpl calls := by
  induction tpl generalizing calls with
  | nil => exact ⟨fun _ => trivial, fun _ => rfl⟩
  | cons p tpl ih =>
      cases p with
      | text s => rw [expected, expected, OutputsFit, List.append_cancel_left_eq, ih]
      | dollar => rw [expected, expected, OutputsFit, List.cons_inj_right, ih]
      | reference name index maxLen =>
          rw [expected, expected, OutputsFit, ← ih, ← truncated_eq_iff]
          dsimp only
          constructor
          · intro h
            have hlength := congrArg List.length h
            rw [List.length_append, List.length_append] at hlength
            have hout := length_truncated_le maxLen
              (fn (callOf name index maxLen :: calls)).2
            have hrest := @length_expected_le fn (callOf name index maxLen :: calls) tpl
            exact List.append_inj h (by omega)
          · rintro ⟨hout, hrest⟩
            rw [hout, hrest]

theorem calls_expected : calls <:+ (expected cut fn tpl calls).2 := by
  induction tpl generalizing calls with
  | nil => exact List.suffix_rfl
  | cons p tpl ih =>
      cases p with
      | text s => exact ih
      | dollar => exact ih
      | reference name index maxLen => exact (List.suffix_cons _ _).trans ih

theorem outputOf_calls {m rv : ℤ} {out : List UInt8} :
    (outputOf atEnd m dbuf calls rv out).2.2 = calls := by
  rw [outputOf]
  split
  · rfl
  · split <;> rfl

theorem calls_replaceVar {raw : List UInt8} :
    calls <:+ (replaceVar atEnd fn raw dbuf calls).2.2 := by
  rw [replaceVar]
  split
  · exact List.suffix_rfl
  · next var _ =>
      dsimp only
      split
      · exact List.suffix_rfl
      · rw [outputOf_calls]
        exact List.suffix_cons _ _

theorem calls_replaceVars : ∀ (s : List UInt8) {dbuf : List UInt8} {calls : List VarCall},
    calls <:+ (replaceVars atEnd fn s dbuf calls).2.2
  | [], dbuf, calls => by rw [replaceVars]
  | [c], dbuf, calls => by
      rw [replaceVars]
      split <;> exact List.suffix_rfl
  | c :: d :: s, dbuf, calls => by
      rw [replaceVars]
      split
      · split
        · exact calls_replaceVars s
        · split
          · split
            · exact List.suffix_rfl
            · have hcalls := @calls_replaceVar atEnd fn dbuf calls (s.takeWhile (· != code ')'))
              have hlength := (List.dropWhile_suffix (· != code ')') (l := s)).length_le
              split
              · next hvar => rwa [hvar] at hcalls
              · next hvar =>
                  rw [hvar] at hcalls
                  exact hcalls.trans (calls_replaceVars (s.dropWhile (· != code ')')).tail)
          · exact List.suffix_rfl
      · exact calls_replaceVars (d :: s)
termination_by s => s.length

theorem eq_of_suffix {x y : VarCall} {l : List VarCall} (hx : x :: calls <:+ l)
    (hy : y :: calls <:+ l) : x = y := by
  have heq := List.suffix_of_suffix_length_le hx hy (Nat.le_of_eq rfl)
  have hcons := heq.eq_of_length rfl
  exact (List.cons.inj hcons).1

theorem exists_not_passes (h : ¬∀ p ∈ tpl, p.Passes) : ∃ pre p post,
    tpl = pre ++ p :: post ∧ (∀ q ∈ pre, q.Passes) ∧ ¬p.Passes := by
  induction tpl with
  | nil => exact absurd (fun _ hp => absurd hp List.not_mem_nil) h
  | cons p tpl ih =>
      by_cases hp : p.Passes
      · rw [List.forall_mem_cons, not_and] at h
        obtain ⟨pre, q, post, rfl, hpre, hq⟩ := ih (h hp)
        exact ⟨p :: pre, q, post, rfl, List.forall_mem_cons.mpr ⟨hp, hpre⟩, hq⟩
      · exact ⟨[], p, tpl, rfl, fun _ hq => absurd hq List.not_mem_nil, hp⟩

/-- A reference that does not pass is an error, or the callback is called with something else. -/
theorem not_replaces (hfn : NeverFails fn) (hwf : ∀ p ∈ tpl, p.WellFormed)
    (h : ¬∀ p ∈ tpl, p.Passes) : ¬Replaces atEnd fn tpl dbuf := by
  obtain ⟨pre, p, post, rfl, hpre, hp⟩ := exists_not_passes h
  have hpwf : p.WellFormed := hwf p (List.mem_append_right pre List.mem_cons_self)
  have hprewf : ∀ q ∈ pre, q.WellFormed := fun q hq => hwf q (List.mem_append_left _ hq)
  intro hreplaces
  rw [Replaces, render, List.flatMap_append, List.flatMap_cons, ← render, ← render,
    replaceVars_passing hfn hprewf hpre, expected_append,
    @expected_calls truncated fn [] pre (cutOf atEnd)] at hreplaces
  generalize (expected (cutOf atEnd) fn pre []).2 = calls at hreplaces
  cases p with
  | text s => exact hp trivial
  | dollar => exact hp trivial
  | reference name index maxLen =>
      rw [replaceVars_render hpwf] at hreplaces
      by_cases hindex : charIndex index < 0 ∧ charIndex index ≠ errorNoAddress
      · rw [replaceVar_negative hpwf hindex, Option.elim_some] at hreplaces
        have hrv := congrArg Prod.fst hreplaces
        exact absurd hrv (Int.ne_of_lt hindex.1)
      · rw [replaceVar_called hfn hpwf hindex, Option.elim_none] at hreplaces
        have hcalls := congrArg (·.2.2) hreplaces
        dsimp only at hcalls
        have hcall : callOf name index maxLen :: calls <:+
            (expected truncated fn (Piece.reference name index maxLen :: post) calls).2 :=
          calls_expected
        rw [← hcalls] at hcall
        exact passed_ne hpwf hp (eq_of_suffix (calls_replaceVars (render post)) hcall)

/-- Of a template whose parts pass the result is what the template says, unless an output is too
long and the position of the destination is not at its end. -/
theorem replaces_of_passes (hfn : NeverFails fn) (hwf : ∀ p ∈ tpl, p.WellFormed)
    (hpass : ∀ p ∈ tpl, p.Passes) :
    Replaces atEnd fn tpl dbuf ↔ atEnd = true ∨ OutputsFit fn tpl [] := by
  have hrun := @replaceVars_passing atEnd fn [] dbuf [] tpl hfn hwf hpass
  rw [List.append_nil, replaceVars, @expected_calls (cutOf atEnd) fn [] tpl truncated] at hrun
  rw [Replaces, hrun, Prod.mk.injEq, Prod.mk.injEq, List.append_cancel_left_eq]
  cases atEnd with
  | true => exact ⟨fun _ => Or.inl rfl, fun _ => ⟨rfl, rfl, rfl⟩⟩
  | false =>
      have hcut : cutOf false = fun _ out => out := rfl
      rw [hcut, ← expected_eq_iff]
      exact ⟨fun h => Or.inr h.2.1.symm,
        fun h => ⟨rfl, (h.resolve_left Bool.false_ne_true).symm, rfl⟩⟩

/-- The references of a template reach the callback intact, and the result is what the template
says, if every index fits into a `char` and has no length behind it, and if outputs that are too
long are appended at the position of the destination. -/
theorem replacesVars_iff (hfn : NeverFails fn) (hwf : ∀ p ∈ tpl, p.WellFormed) :
    Replaces atEnd fn tpl dbuf ↔ (∀ p ∈ tpl, p.Passes) ∧ (atEnd = true ∨ OutputsFit fn tpl []) := by
  constructor
  · intro h
    have hpass : ∀ p ∈ tpl, p.Passes := by
      by_contra hp
      exact not_replaces hfn hwf hp h
    exact ⟨hpass, (replaces_of_passes hfn hwf hpass).mp h⟩
  · rintro ⟨hpass, hfits⟩
    exact (replaces_of_passes hfn hwf hpass).mpr hfits

/-- `"x$(a[1])$$$(b:2)"`, for a callback that appends three bytes. -/
theorem replacesVars_plain : Replaces true (fun _ => (0, ascii ['u', 'v', 'w']))
    [.text (ascii ['x']), .reference (ascii ['a']) (some (ascii ['1'])) none, .dollar,
      .reference (ascii ['b']) none (some (ascii ['2']))] [] := by
  refine (replacesVars_iff (fun _ => Or.inl (Int.le_refl 0)) ?_).mpr ⟨?_, Or.inl rfl⟩
  · simp only [List.mem_cons, List.not_mem_nil, or_false, Piece.WellFormed, ne_eq, Option.mem_def,
      forall_eq_or_imp, Option.some.injEq, forall_eq', reduceCtorEq, IsEmpty.forall_iff,
      implies_true, and_true, forall_eq, true_and]
    decide
  · simp only [List.mem_cons, List.not_mem_nil, or_false, Piece.Passes, Option.mem_def,
      forall_eq_or_imp, Option.some.injEq, and_true, forall_eq', forall_eq, reduceCtorEq,
      and_false, imp_self, implies_true, and_self, true_and]
    decide

/-- The index of `"$(a[200])"` is taken for an error code. -/
theorem not_replacesVars_index : ¬∀ atEnd fn tpl dbuf, NeverFails fn →
    (∀ p ∈ tpl, p.WellFormed) → Replaces atEnd fn tpl dbuf := by
  intro h
  have hfn : NeverFails (fun _ => (0, [])) := fun _ => Or.inl (Int.le_refl 0)
  have hwf : ∀ p ∈ [Piece.reference (ascii ['a']) (some (ascii ['2', '0', '0'])) none],
      p.WellFormed := by
    rw [List.forall_mem_singleton]
    refine ⟨List.cons_ne_nil _ _, by decide, fun ds hds => ?_,
      fun _ h => absurd h (by simp)⟩
    rw [← Option.some.inj hds]
    exact ⟨by decide, by decide⟩
  have hpasses : ¬∀ p ∈ [Piece.reference (ascii ['a']) (some (ascii ['2', '0', '0'])) none],
      p.Passes := by
    rw [List.forall_mem_singleton]
    intro hp
    exact absurd (hp _ rfl).1 (by decide)
  exact not_replaces hfn hwf hpasses (h true _ _ [] hfn hwf)

end

end Text
end Gwenhywfar
