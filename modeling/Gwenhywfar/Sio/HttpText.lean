import Gwenhywfar.Parser.DbNodes

/-! # Texts of HTTP messages

* The variables of a header group, looked up without regard to case.
* `headerText`: the lines that `GWEN_SyncIo_Http_WriteHeader` writes.
* `parseHeaderText`: what `GWEN_SyncIo_Http_ParseHeader` stores.  The text that was written for
  plain variables is stored as these variables (`parseHeaderText_headerText`). -/

namespace Gwenhywfar

set_option maxRecDepth 4000

namespace Http

open Text

/-! ### Patterns -/

/-- `_cmpSegment` up to the next `*` of the pattern: what is left of both, if they match. -/
def cmpSegment (fold : UInt8 → UInt8) :
    List UInt8 → List UInt8 → Option (List UInt8 × List UInt8)
  | [], [] => some ([], [])
  | [], b :: p => if b = code '*' then some ([], b :: p) else none
  | _ :: _, [] => none
  | a :: w, b :: p =>
      if b = code '*' then some (a :: w, b :: p)
      else if fold a = fold b ∨ fold b = code '?' then cmpSegment fold w p
      else none

/-- `_findSegment`: the first place in the word where the segment matches. -/
def findSegment (fold : UInt8 → UInt8) (p : List UInt8) :
    List UInt8 → Option (List UInt8 × List UInt8)
  | [] => none
  | a :: w =>
      match cmpSegment fold (a :: w) p with
      | some rest => some rest
      | none => findSegment fold p w

/-- The loop of `GWEN_Text_ComparePattern`, one round for each `*` of the pattern. -/
def compareSegments (fold : UInt8 → UInt8) : ℕ → List UInt8 → List UInt8 → Bool
  | _, _, [] => true
  | _, _, [_] => true
  | 0, _, _ :: _ :: _ => false
  | k + 1, w, _ :: b :: p =>
      match findSegment fold (b :: p) w with
      | none => false
      | some (w, p) => compareSegments fold k w p

/-- `GWEN_Text_ComparePattern(w, p, 0)` does not return -1. -/
def comparePattern (w p : List UInt8) : Bool :=
  match cmpSegment toUpper w p with
  | none => false
  | some (w, p) => compareSegments toUpper p.length w p

/-! ### Variables -/

/-- A variable of a group with its values. -/
structure HeaderVar where
  name : CString
  values : List DbValue
deriving DecidableEq

/-- `strcasecmp` of two names gives 0. -/
def sameName (s t : List UInt8) : Bool := s.map toLower == t.map toLower

/-- `GWEN_DB_GetValue` with the index 0: the first value of the first variable of this name. -/
def getValue (vars : List HeaderVar) (name : List UInt8) : Option DbValue :=
  (vars.find? fun v => sameName v.name.bytes name).bind fun v => v.values.head?

/-- `GWEN_DB_GetIntValue` with the index 0. -/
def getIntValue (vars : List HeaderVar) (name : List UInt8) (defVal : Int32) : Int32 :=
  match getValue vars name with
  | some (.int i) => i
  | some (.char s) => (scanInt s.bytes).getD defVal
  | _ => defVal

/-- `GWEN_DB_GetCharValue` with the index 0 and the default NULL. -/
def getCharValue (vars : List HeaderVar) (name : List UInt8) : Option (List UInt8) :=
  match getValue vars name with
  | some (.char s) => some s.bytes
  | _ => none

/-- A delimiter of a path. -/
def isSlash (c : UInt8) : Bool := c == code '/' || c == code '\\'

def elementName (path : List UInt8) : Option (List UInt8) :=
  if code '[' ∈ path then
    let index := (path.dropWhile (· != code '[')).tail
    if code ']' ∈ index ∧ scanInt (index.takeWhile (· != code ']')) = some 0 then
      some (path.takeWhile (· != code '['))
    else none
  else some path

/-- `GWEN_DB_SetCharValue` with `GWEN_PATH_FLAGS_CREATE_VAR`: a new variable is appended.  A path
with several elements leads to a sub group, whose variables are not among these. -/
def createCharValue (vars : List HeaderVar) (path value : List UInt8) : List HeaderVar :=
  let path := (path.dropWhile isSpace).dropWhile isSlash
  if path = [] ∨ path.any isSlash then vars
  else
    match elementName path with
    | none => vars
    | some name => vars ++ [⟨CString.ofBytes name, [.char (CString.ofBytes value)]⟩]

/-! ### Writing a header -/

/-- `Content-Length`. -/
def contentLength : List UInt8 :=
  ascii ['C', 'o', 'n', 't', 'e', 'n', 't', '-', 'L', 'e', 'n', 'g', 't', 'h']

/-- `Transfer-Encoding`. -/
def transferEncoding : List UInt8 :=
  ascii ['T', 'r', 'a', 'n', 's', 'f', 'e', 'r', '-', 'E', 'n', 'c', 'o', 'd', 'i', 'n', 'g']

def chunkedPattern : List UInt8 := ascii ['*', 'c', 'h', 'u', 'n', 'k', 'e', 'd', '*']

/-- The end of a line. -/
def crlf : List UInt8 := [13, 10]

/-- The line of a variable: only its first value counts, and a number -1 is only written as
`Content-Length`.  There is none for other values than texts and numbers. -/
def headerLine (v : HeaderVar) : Option (List UInt8) :=
  match v.values.head? with
  | none => some []
  | some (.char s) => some (v.name.bytes ++ code ':' :: s.bytes ++ crlf)
  | some (.int i) =>
      if i ≠ -1 ∨ sameName v.name.bytes contentLength then
        some (v.name.bytes ++ code ':' :: printInt i ++ crlf)
      else some []
  | some _ => none

def headerText (vars : List HeaderVar) : Option (List UInt8) :=
  (vars.mapM headerLine).map fun lines => lines.flatten ++ crlf

def asksForChunks (v : HeaderVar) : Bool :=
  match v.values.head? with
  | some (.char s) =>
      sameName v.name.bytes transferEncoding && comparePattern s.bytes chunkedPattern
  | _ => false

/-! ### Parsing a header -/

def isBlank (c : UInt8) : Bool := c == 32 || c == 9

def isNameChar (c : UInt8) : Bool := c != code ':' && 32 < c && c < 127

/-- Lines that begin with a blank continue the line before. -/
def joinContinuations : List UInt8 → List UInt8
  | [] => []
  | [c] => [c]
  | c :: d :: cs => (if c = 10 ∧ isBlank d then 32 else c) :: joinContinuations (d :: cs)

/-- The first loop of `GWEN_SyncIo_Http_ParseHeader`.  It follows a null pointer when there is
no line end behind the last line. -/
def resolveContinuations (text : List UInt8) : Option (List UInt8) :=
  if text = [] ∨ text.getLast? = some 10 then some (joinContinuations text) else none

def splitLines : List UInt8 → List (List UInt8)
  | [] => [[]]
  | c :: cs =>
      if c = 10 then [] :: splitLines cs
      else
        match splitLines cs with
        | [] => [[c]]
        | line :: lines => (c :: line) :: lines

/-- One line of a header; `none` when there is no separator after the name. -/
def parseHeaderLine (vars : List HeaderVar) (line : List UInt8) : Option (List HeaderVar) :=
  let p := line.dropWhile isBlank
  if p = [] then some vars
  else
    let name := p.takeWhile isNameChar
    match p.dropWhile isNameChar with
    | [] => none
    | c :: rest =>
        if c = code ':' then
          let value := rest.dropWhile isBlank
          some (if value = [] then vars else createCharValue vars name value)
        else none

/-- The second loop of `GWEN_SyncIo_Http_ParseHeader`; it tells whether all lines were parsed. -/
def parseHeaderLines : List HeaderVar → List (List UInt8) → Bool × List HeaderVar
  | vars, [] => (true, vars)
  | vars, line :: lines =>
      match parseHeaderLine vars line with
      | none => (false, vars)
      | some vars => parseHeaderLines vars lines

/-- The loops of `GWEN_SyncIo_Http_ParseHeader` for the text of a header. -/
def parseHeaderText (text : List UInt8) : Option (Bool × List HeaderVar) :=
  (resolveContinuations text).map fun text => parseHeaderLines [] (splitLines text)

/-! ### What is stored for a written header -/

def InLine (s : List UInt8) : Prop := 10 ∉ s ∧ 13 ∉ s

/-- A character of a name that the path of a new variable takes as it is. -/
def isTokenChar (c : UInt8) : Bool := isNameChar c && !isSlash c && c != code '['

/-- The text behind the name of a variable, if a line is written for it. -/
def HeaderVar.text (v : HeaderVar) : Option (List UInt8) :=
  match v.values.head? with
  | some (.char s) => some s.bytes
  | some (.int i) =>
      if i ≠ -1 ∨ sameName v.name.bytes contentLength then some (printInt i) else none
  | _ => none

/-- A variable whose name is a token, and whose first value is a text inside a line or a number,
if it has any. -/
structure HeaderVar.Plain (v : HeaderVar) : Prop where
  named : v.name.bytes ≠ []
  token : ∀ c ∈ v.name.bytes, isTokenChar c = true
  supported : headerLine v ≠ none
  inLine : ∀ s, v.values.head? = some (.char s) → InLine s.bytes

/-- The line of a variable without its end. -/
def HeaderVar.line (v : HeaderVar) : Option (List UInt8) :=
  v.text.map fun t => v.name.bytes ++ code ':' :: t

/-- Lines with the end `e`, and an empty line behind them. -/
def linesText (e : List UInt8) (lines : List (List UInt8)) : List UInt8 :=
  lines.flatMap (fun l => l ++ e) ++ e

def HeaderVar.stored (v : HeaderVar) : Option HeaderVar :=
  v.text.bind fun t =>
    if t.dropWhile isBlank = [] then none
    else some ⟨v.name, [.char (CString.ofBytes (t.dropWhile isBlank))]⟩

section
variable {v : HeaderVar} {vars : List HeaderVar} {l t : List UInt8} {ls : List (List UInt8)}

theorem headerLine_eq (h : headerLine v ≠ none) :
    headerLine v = some ((v.line.map fun l => l ++ crlf).getD []) := by
  revert h
  rw [headerLine, HeaderVar.line, HeaderVar.text]
  cases hv : v.values.head? with
  | none => exact fun _ => rfl
  | some value =>
      cases value with
      | char s => exact fun _ => rfl
      | int i =>
          intro _
          dsimp only
          split <;> rfl
      | bin _ => exact fun h => absurd rfl h
      | ptr _ => exact fun h => absurd rfl h

theorem headerText_eq : ∀ {vars : List HeaderVar}, (∀ v ∈ vars, v.Plain) →
    headerText vars = some (linesText crlf (vars.filterMap HeaderVar.line))
  | [], _ => rfl
  | v :: vars, h => by
      have ih := headerText_eq fun v hv => h v (List.mem_cons_of_mem _ hv)
      rw [headerText, Option.map_eq_some_iff] at ih ⊢
      obtain ⟨texts, htexts, hflat⟩ := ih
      have hline := headerLine_eq (h v List.mem_cons_self).supported
      refine ⟨(v.line.map fun l => l ++ crlf).getD [] :: texts, ?_, ?_⟩
      · rw [List.mapM_cons, hline, htexts]
        rfl
      · rw [List.flatten_cons, List.append_assoc, hflat]
        cases hl : v.line with
        | none => rw [List.filterMap_cons_none hl, Option.map_none, Option.getD_none, List.nil_append]
        | some l =>
            rw [List.filterMap_cons_some hl, Option.map_some, Option.getD_some, linesText,
              linesText, List.flatMap_cons, List.append_assoc, List.append_assoc, List.append_assoc]

/-! ### Lines -/

theorem joinContinuations_append (ht : ∀ d ∈ t.head?, isBlank d = false) :
    ∀ {l : List UInt8}, 10 ∉ l → joinContinuations (l ++ 10 :: t) = l ++ 10 :: joinContinuations t
  | [], _ => by
      cases t with
      | nil => rfl
      | cons d t =>
          rw [List.nil_append, List.nil_append, joinContinuations, if_neg (by rw [ht d rfl]; simp)]
  | c :: l, h => by
      obtain ⟨hc, hl⟩ := not_or.mp (fun h' => h (List.mem_cons.mpr h'))
      have ih := joinContinuations_append ht hl
      obtain ⟨d, rest, hrest⟩ := List.exists_cons_of_ne_nil (l := l ++ 10 :: t) (by simp)
      rw [List.cons_append, hrest, joinContinuations, if_neg fun h10 => hc h10.1.symm, ← hrest, ih,
        List.cons_append]

def IsLine (l : List UInt8) : Prop := 10 ∉ l ∧ l ≠ [] ∧ ∀ d ∈ l.head?, isBlank d = false

theorem head?_linesText (hls : ∀ l ∈ ls, IsLine l) :
    ∀ d ∈ (linesText [10] ls).head?, isBlank d = false := by
  intro d hd
  cases ls with
  | nil =>
      obtain rfl : (10 : UInt8) = d := Option.some.inj hd
      decide
  | cons l ls =>
      obtain ⟨-, hne, hhead⟩ := hls l List.mem_cons_self
      obtain ⟨c, l', rfl⟩ := List.exists_cons_of_ne_nil hne
      exact hhead d hd

theorem linesText_cons (e l : List UInt8) (ls : List (List UInt8)) :
    linesText e (l :: ls) = l ++ (e ++ linesText e ls) := by
  rw [linesText, linesText, List.flatMap_cons, List.append_assoc, List.append_assoc]

theorem joinContinuations_linesText : ∀ {ls : List (List UInt8)}, (∀ l ∈ ls, IsLine l) →
    joinContinuations (linesText [10] ls) = linesText [10] ls
  | [], _ => rfl
  | l :: ls, h => by
      have hls := fun l hl => h l (List.mem_cons_of_mem _ hl)
      rw [linesText_cons, List.singleton_append,
        joinContinuations_append (head?_linesText hls) (h l List.mem_cons_self).1,
        joinContinuations_linesText hls]

theorem splitLines_append : ∀ {l : List UInt8}, 10 ∉ l →
    splitLines (l ++ 10 :: t) = l :: splitLines t
  | [], _ => rfl
  | c :: l, h => by
      obtain ⟨hc, hl⟩ := not_or.mp (fun h' => h (List.mem_cons.mpr h'))
      rw [List.cons_append, splitLines, if_neg fun h10 => hc h10.symm, splitLines_append hl]

theorem splitLines_linesText : ∀ {ls : List (List UInt8)}, (∀ l ∈ ls, 10 ∉ l) →
    splitLines (linesText [10] ls) = ls ++ [[], []]
  | [], _ => rfl
  | l :: ls, h => by
      rw [linesText_cons, List.singleton_append, splitLines_append (h l List.mem_cons_self),
        splitLines_linesText fun l hl => h l (List.mem_cons_of_mem _ hl), List.cons_append]

/-! ### Variables -/

theorem not_blank_of_isTokenChar {c : UInt8} (h : isTokenChar c = true) :
    isNameChar c = true ∧ isBlank c = false ∧ isSpace c = false ∧ isSlash c = false ∧
      c ≠ code '[' := by
  have hall : ∀ c : UInt8, isTokenChar c = true → isNameChar c = true ∧ isBlank c = false ∧
      isSpace c = false ∧ isSlash c = false ∧ c ≠ code '[' := by decide
  exact hall c h

theorem createCharValue_token (hne : v.name.bytes ≠ [])
    (htoken : ∀ c ∈ v.name.bytes, isTokenChar c = true) (value : List UInt8) :
    createCharValue vars v.name.bytes value =
      vars ++ [⟨v.name, [.char (CString.ofBytes value)]⟩] := by
  obtain ⟨c, s, hs⟩ := List.exists_cons_of_ne_nil hne
  obtain ⟨-, -, hspace, hslash, -⟩ := not_blank_of_isTokenChar (htoken c (hs ▸ List.mem_cons_self))
  have hpath : (v.name.bytes.dropWhile isSpace).dropWhile isSlash = v.name.bytes := by
    rw [hs, List.dropWhile_cons_of_neg (by rw [hspace]; decide),
      List.dropWhile_cons_of_neg (by rw [hslash]; decide)]
  have hany : ¬ (v.name.bytes = [] ∨ v.name.bytes.any isSlash = true) := by
    rw [not_or, List.any_eq_true]
    exact ⟨hne, fun ⟨c, hc, h⟩ =>
      absurd ((not_blank_of_isTokenChar (htoken c hc)).2.2.2.1 ▸ h) (by decide)⟩
  have hname : elementName v.name.bytes = some v.name.bytes := if_neg fun hmem =>
    (not_blank_of_isTokenChar (htoken _ hmem)).2.2.2.2 rfl
  rw [createCharValue, hpath, if_neg hany, hname]
  dsimp only
  rw [CString.ofBytes_eq]

theorem parseHeaderLine_line (h : v.Plain) (ht : v.text = some t) :
    parseHeaderLine vars (v.name.bytes ++ code ':' :: t) = some (vars ++ v.stored.toList) := by
  obtain ⟨c, s, hs⟩ := List.exists_cons_of_ne_nil h.named
  have hname : ∀ c ∈ v.name.bytes, isNameChar c = true :=
    fun c hc => (not_blank_of_isTokenChar (h.token c hc)).1
  have hblank := (not_blank_of_isTokenChar (h.token c (hs ▸ List.mem_cons_self))).2.1
  have hdrop : (v.name.bytes ++ code ':' :: t).dropWhile isBlank = v.name.bytes ++ code ':' :: t := by
    rw [hs, List.cons_append, List.dropWhile_cons_of_neg (by rw [hblank]; decide)]
  have htake : (v.name.bytes ++ code ':' :: t).takeWhile isNameChar = v.name.bytes := by
    rw [List.takeWhile_append_of_pos hname, List.takeWhile_cons_of_neg (by decide), List.append_nil]
  have hrest : (v.name.bytes ++ code ':' :: t).dropWhile isNameChar = code ':' :: t := by
    rw [List.dropWhile_append_of_pos hname, List.dropWhile_cons_of_neg (by decide)]
  rw [parseHeaderLine, hdrop]
  dsimp only
  rw [if_neg (by rw [hs]; simp), htake, hrest]
  dsimp only
  rw [if_pos rfl, HeaderVar.stored, ht, Option.bind_some]
  by_cases hvalue : t.dropWhile isBlank = []
  · rw [if_pos hvalue, if_pos hvalue, Option.toList_none, List.append_nil]
  · rw [if_neg hvalue, if_neg hvalue, createCharValue_token h.named h.token, Option.toList_some]

/-- The line of a plain variable has no byte that ends a line or a string. -/
theorem not_mem_line (h : v.Plain) (hl : v.line = some l) {c : UInt8}
    (hc : c = 0 ∨ c = 10 ∨ c = 13) : c ∉ l := by
  obtain ⟨t, ht, rfl⟩ := Option.map_eq_some_iff.mp hl
  have hname : c ∉ v.name.bytes := by
    intro hmem
    have htoken := h.token c hmem
    rcases hc with rfl | rfl | rfl <;> exact absurd htoken (by decide)
  have htext : c ∉ t := by
    rw [HeaderVar.text] at ht
    split at ht
    · next s hv =>
        obtain ⟨h10, h13⟩ := h.inLine s hv
        obtain rfl := Option.some.inj ht
        rcases hc with rfl | rfl | rfl
        · exact s.nul_free
        · exact h10
        · exact h13
    · next i _ =>
        split at ht
        · obtain rfl := Option.some.inj ht
          rcases hc with rfl | rfl | rfl <;> exact not_mem_printInt i (by decide) (by decide)
        · cases ht
    · cases ht
  rw [List.mem_append, List.mem_cons, not_or, not_or]
  refine ⟨hname, ?_, htext⟩
  rcases hc with rfl | rfl | rfl <;> decide

theorem isLine_line (h : v.Plain) (hl : v.line = some l) : IsLine l := by
  refine ⟨not_mem_line h hl (Or.inr (Or.inl rfl)), ?_⟩
  obtain ⟨t, ht, rfl⟩ := Option.map_eq_some_iff.mp hl
  obtain ⟨c, s, hs⟩ := List.exists_cons_of_ne_nil h.named
  have hc := not_blank_of_isTokenChar (h.token c (hs ▸ List.mem_cons_self))
  refine ⟨by rw [hs]; simp, fun d hd => ?_⟩
  rw [hs] at hd
  obtain rfl : c = d := Option.some.inj hd
  exact hc.2.1

theorem parseHeaderLines_lines : ∀ {vars : List HeaderVar} (stored : List HeaderVar)
    (ls : List (List UInt8)), (∀ v ∈ vars, v.Plain) →
    parseHeaderLines stored (vars.filterMap HeaderVar.line ++ ls) =
      parseHeaderLines (stored ++ vars.filterMap HeaderVar.stored) ls
  | [], stored, ls, _ => by rw [List.filterMap_nil, List.filterMap_nil, List.nil_append, List.append_nil]
  | v :: vars, stored, ls, h => by
      have ih := fun stored =>
        parseHeaderLines_lines stored ls fun v hv => h v (List.mem_cons_of_mem _ hv)
      cases ht : v.text with
      | none =>
          have hl : v.line = none := by rw [HeaderVar.line, ht, Option.map_none]
          have hs : v.stored = none := by rw [HeaderVar.stored, ht, Option.bind_none]
          rw [List.filterMap_cons_none hl, List.filterMap_cons_none hs, ih]
      | some t =>
          have hl : v.line = some (v.name.bytes ++ code ':' :: t) := by
            rw [HeaderVar.line, ht, Option.map_some]
          rw [List.filterMap_cons_some hl, List.cons_append, parseHeaderLines,
            parseHeaderLine_line (h v List.mem_cons_self) ht]
          dsimp only
          rw [ih]
          cases hs : v.stored with
          | none => rw [List.filterMap_cons_none hs, Option.toList_none, List.append_nil]
          | some w =>
              rw [List.filterMap_cons_some hs, Option.toList_some, List.append_assoc,
                List.singleton_append]

theorem parseHeaderText_headerText (h : ∀ v ∈ vars, v.Plain) :
    parseHeaderText (linesText [10] (vars.filterMap HeaderVar.line)) =
      some (true, vars.filterMap HeaderVar.stored) := by
  have hls : ∀ l ∈ vars.filterMap HeaderVar.line, IsLine l := by
    intro l hl
    obtain ⟨v, hv, hline⟩ := List.mem_filterMap.mp hl
    exact isLine_line (h v hv) hline
  have hend : (linesText [10] (vars.filterMap HeaderVar.line)).getLast? = some 10 := by
    rw [linesText, List.getLast?_append]
    rfl
  rw [parseHeaderText, resolveContinuations, if_pos (Or.inr hend), Option.map_some,
    joinContinuations_linesText hls, splitLines_linesText fun l hl => (hls l hl).1,
    parseHeaderLines_lines _ _ h, List.nil_append]
  rfl

/-! ### Values -/

theorem scanInt_dropWhile_isBlank (t : List UInt8) : scanInt (t.dropWhile isBlank) = scanInt t := by
  have hall : ∀ c : UInt8, isBlank c = true → isSpace c = true := by decide
  have hdrop : ∀ t : List UInt8, (t.dropWhile isBlank).dropWhile isSpace = t.dropWhile isSpace := by
    intro t
    induction t with
    | nil => rfl
    | cons c t ih =>
        by_cases hc : isBlank c = true
        · rw [List.dropWhile_cons_of_pos hc, List.dropWhile_cons_of_pos (hall c hc), ih]
        · rw [List.dropWhile_cons_of_neg hc]
  rw [scanInt, hdrop, ← scanInt]

theorem getValue_cons (v : HeaderVar) (vars : List HeaderVar) (name : List UInt8) :
    getValue (v :: vars) name =
      if sameName v.name.bytes name then v.values.head? else getValue vars name := by
  rw [getValue, List.find?_cons]
  cases sameName v.name.bytes name <;> rfl

theorem stored_of_scan {n : Int32} (ht : v.text = some t) (h0 : 0 ∉ t) (hn : scanInt t = some n) :
    ∃ s, v.stored = some ⟨v.name, [.char s]⟩ ∧ scanInt s.bytes = some n := by
  have hscan := (scanInt_dropWhile_isBlank t).trans hn
  refine ⟨CString.ofBytes (t.dropWhile isBlank), ?_, ?_⟩
  · rw [HeaderVar.stored, ht, Option.bind_some, if_neg fun hnil => by rw [hnil] at hscan; cases hscan]
  · rw [CString.ofBytes_bytes fun hmem => h0 ((List.dropWhile_sublist _).mem hmem), hscan]

/-- The first text of a number is written. -/
theorem text_of_getIntValue {n : Int32} (hname : sameName v.name.bytes contentLength = true)
    (hn : getIntValue (v :: vars) contentLength (-1) = n) (hne : n ≠ -1) :
    ∃ t, v.text = some t ∧ 0 ∉ t ∧ scanInt t = some n := by
  rw [getIntValue, getValue_cons, if_pos hname] at hn
  rw [HeaderVar.text]
  cases hv : v.values.head? with
  | none => rw [hv] at hn; exact absurd hn.symm hne
  | some value =>
      rw [hv] at hn
      cases value with
      | char s =>
          refine ⟨s.bytes, rfl, s.nul_free, ?_⟩
          cases hs : scanInt s.bytes with
          | none => exact absurd (hn.symm.trans (congrArg (Option.getD · (-1)) hs)) hne
          | some m => exact congrArg some ((congrArg (Option.getD · (-1)) hs).symm.trans hn)
      | int i =>
          obtain rfl : i = n := hn
          exact ⟨printInt i, if_pos (Or.inr hname),
            not_mem_printInt i (by decide) (by decide), scanInt_printInt i⟩
      | bin _ => exact absurd hn.symm hne
      | ptr _ => exact absurd hn.symm hne

theorem name_of_stored {w : HeaderVar} (h : v.stored = some w) : w.name = v.name := by
  obtain ⟨t, -, ht⟩ := Option.bind_eq_some_iff.mp h
  split at ht
  · cases ht
  · exact (Option.some.inj ht) ▸ rfl

theorem getValue_stored_cons {name : List UInt8} (hname : sameName v.name.bytes name = false) :
    getValue ((v :: vars).filterMap HeaderVar.stored) name =
      getValue (vars.filterMap HeaderVar.stored) name := by
  cases hs : v.stored with
  | none => rw [List.filterMap_cons_none hs]
  | some w =>
      rw [List.filterMap_cons_some hs, getValue_cons, name_of_stored hs, hname]
      rfl

theorem getIntValue_stored {n : Int32} (hne : n ≠ -1) : ∀ {vars : List HeaderVar},
    getIntValue vars contentLength (-1) = n →
    getIntValue (vars.filterMap HeaderVar.stored) contentLength (-1) = n
  | [], hn => absurd hn.symm hne
  | v :: vars, hn => by
      cases hname : sameName v.name.bytes contentLength with
      | false =>
          have ih := @getIntValue_stored n hne vars
          rw [getIntValue, getValue_cons, hname] at hn
          rw [getIntValue, getValue_stored_cons hname]
          exact ih hn
      | true =>
          obtain ⟨t, ht, h0, hscan⟩ := text_of_getIntValue hname hn hne
          obtain ⟨s, hs, hsn⟩ := stored_of_scan ht h0 hscan
          rw [List.filterMap_cons_some hs, getIntValue, getValue_cons, if_pos hname]
          exact congrArg (Option.getD · (-1)) hsn

theorem getCharValue_stored {name : List UInt8} : ∀ {vars : List HeaderVar},
    (∀ v ∈ vars, sameName v.name.bytes name = false) →
    getCharValue (vars.filterMap HeaderVar.stored) name = none
  | [], _ => rfl
  | v :: vars, h => by
      rw [getCharValue, getValue_stored_cons (h v List.mem_cons_self)]
      exact getCharValue_stored fun v hv => h v (List.mem_cons_of_mem _ hv)

theorem not_asksForChunks (h : sameName v.name.bytes transferEncoding = false) :
    asksForChunks v = false := by
  rw [asksForChunks, h]
  split <;> rfl

end

end Http
end Gwenhywfar
