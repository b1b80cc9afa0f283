import Gwenhywfar.Gui.PasswdStore
import Gwenhywfar.Parser.DbFlat
import Gwenhywfar.Parser.DbLines

/-! # The text of the password store

* `linesText`: the text with a line for each of some names with their secrets.
* `writeToBuffer_vars`, `readFromString_linesText`: variables with one string each are written as
  this text, and read from it when the names are different up to case. -/

namespace Gwenhywfar

set_option maxRecDepth 4000

namespace PasswdStore

open Db Gwenhywfar.Path Text FastReader

/-- The variables for names with their secrets. -/
def varsFor (entries : List (CString × CString)) : List (CString × List DbValue) :=
  entries.map fun e => (e.1, [.char e.2])

/-- The line of a name with its secret, without its end. -/
def lineText (e : CString × CString) : List UInt8 :=
  ascii ['c', 'h', 'a', 'r', ' '] ++ (e.1.bytes ++ code '=' :: quotationMark ::
    (Text.escapeToBufferTolerant e.2.bytes ++ [quotationMark]))

/-- The lines of names with their secrets. -/
def linesText (entries : List (CString × CString)) : List UInt8 :=
  entries.flatMap fun e => lineText e ++ [0x0a]

/-! ### Writing -/

theorem sites_varsFor : ∀ (entries : List (CString × CString)) (last : Bool),
    (sites 0 flagsDefault (ofVars (varsFor entries)) 0 last).map Prod.fst = linesText entries
  | [], _ => rfl
  | e :: entries, last => by
      have hvalue : valueText flagsDefault (.char e.2) =
          some (ascii ['c', 'h', 'a', 'r', ' '], Text.escapeToBufferTolerant e.2.bytes) := rfl
      have hindent : indendText flagsDefault 0 = [] := rfl
      have hnoVolatile : has 0 nodeFlagsVolatile = false := rfl
      have hname : has flagsDefault flagsQuoteVarnames = false := by decide
      have htypes : has flagsDefault flagsOmitTypes = false := by decide
      have hcolon : has flagsDefault flagsUseColon = false := by decide
      have hquote : has flagsDefault flagsQuoteValues = true := by decide
      have hnewline : FastWriter.newline 0 = [0x0a] := rfl
      rw [varsFor, List.map_cons, ofVars, List.foldr_cons, ← ofVars, ← varsFor, sites,
        hnoVolatile, if_neg Bool.false_ne_true, valueSites, hvalue]
      dsimp only
      rw [if_neg Bool.false_ne_true, if_neg Bool.false_ne_true, valueSites, varNameSites, hname,
        htypes, hcolon, hquote, hindent]
      simp only [mark_fst, sites_varsFor entries true, quoteText]
      simp [linesText, lineText, ascii, hnewline]

theorem writeToBuffer_vars (entries : List (CString × CString)) :
    writeToBuffer (ofVars (varsFor entries)) [] flagsDefault = (0, linesText entries) := by
  rw [writeToBuffer_eq, treeSites, bufferFlags, if_neg (by decide), sites_varsFor]

/-! ### Reading -/

theorem readChars_escaped (rest wbuf s : List UInt8) :
    readChars true wbuf (Text.escapeToBufferTolerant s ++ quotationMark :: rest) =
      some (wbuf ++ s, rest) :=
  readChars_escapeWith isTolerated (by decide) (by decide) rest wbuf s

/-- The names that a line can have. -/
structure IsName (name : CString) : Prop where
  plain : ∀ c ∈ name.bytes, isPlainChar c = true
  token : ∀ c ∈ name.bytes, isTokenChar flagsDefault c = true ∧ c ≠ code ':'
  ne_nil : name.bytes ≠ []

theorem readValues_quoted {h : DbHeap} {n : ℕ} {name : CString} (hname : IsName name)
    (secret : CString) :
    readValues n flagsDefault (some (CString.ofBytes (ascii ['c', 'h', 'a', 'r']))) name
        (quotationMark :: (Text.escapeToBufferTolerant secret.bytes ++ [quotationMark])) h =
      (0, (setValue h n flagsDefault name (.char secret)).2) := by
  obtain ⟨el, -, -, hnode⟩ := getNode_plain hname.plain hname.ne_nil (.inl rfl) h n
  have htype : valueType (some (CString.ofBytes (ascii ['c', 'h', 'a', 'r']))) = some .char := by
    decide
  have hsome : ∃ a h', getNode h n name (flagsDefault ||| flagsVariable) = (some a, h') := by
    rw [hnode]
    cases findVar h n name 0 with
    | none => exact ⟨_, _, rfl⟩
    | some a => exact ⟨_, _, rfl⟩
  obtain ⟨a, h', hnode⟩ := hsome
  have hquote : isSpace quotationMark = false := by decide
  have hloop (k : ℕ) : readValuesLoop .char a (k + 1)
      (quotationMark :: (Text.escapeToBufferTolerant secret.bytes ++ [quotationMark])) h' =
        (0, appendValue h' a (.char secret)) := by
    have hhead (s : List UInt8) : ((quotationMark :: s).head? == some 0x22) = true := rfl
    rw [readValuesLoop, List.dropWhile_cons_of_neg (by rw [hquote]; decide)]
    dsimp only
    rw [if_neg (List.cons_ne_nil _ _), hhead, if_pos rfl, List.tail_cons, readChars_escaped [] [],
      List.nil_append]
    dsimp only
    rw [toValue, CString.ofBytes_eq]
    rfl
  rw [readValues, htype, setValue, hnode]
  dsimp only
  rw [hloop, appendValue, if_neg (by decide), nodeAdd, if_neg (by decide)]

theorem escapeToBufferTolerant_nul_free (s : List UInt8) : 0 ∉ Text.escapeToBufferTolerant s := by
  intro h
  rcases mem_escapeWith h with h | h | h <;> exact absurd h (by decide)

theorem lineText_nul_free (e : CString × CString) : 0 ∉ lineText e := by
  have hvalue := escapeToBufferTolerant_nul_free e.2.bytes
  have hchar : (0 : UInt8) ∉ ascii ['c', 'h', 'a', 'r', ' '] := by decide
  have hmarks : (0 : UInt8) ≠ code '=' ∧ (0 : UInt8) ≠ quotationMark := by decide
  rw [lineText, List.mem_append, List.mem_append, List.mem_cons, List.mem_cons, List.mem_append,
    List.mem_singleton]
  rintro (h | h | h | h | h | h)
  · exact hchar h
  · exact e.1.nul_free h
  · exact hmarks.1 h
  · exact hmarks.2 h
  · exact hvalue h
  · exact hmarks.2 h

theorem readLine_lineText {h : DbHeap} {name : CString} (hname : IsName name) (secret : CString) :
    readLine flagsDefault (lineText (name, secret)) ⟨0, 0, h⟩ =
      some (0, ⟨0, 0, (setValue h 0 flagsDefault name (.char secret)).2⟩) := by
  generalize hvalue : quotationMark :: (Text.escapeToBufferTolerant secret.bytes ++
    [quotationMark]) = value
  have hline : lineText (name, secret) =
      ascii ['c', 'h', 'a', 'r'] ++ code ' ' :: (name.bytes ++ code '=' :: value) := by
    rw [← hvalue, lineText]
    rfl
  have htype := Scan.append_cons (isTokenChar flagsDefault) (ascii ['c', 'h', 'a', 'r'])
    (name.bytes ++ code '=' :: value) (code ' ') (by decide) (by decide)
  have hscan := Scan.append_cons (isTokenChar flagsDefault) name.bytes value (code '=')
    (fun c hc => (hname.token c hc).1) (by decide)
  obtain ⟨c, s, hs⟩ := List.exists_cons_of_ne_nil hname.ne_nil
  have hmem : c ∈ name.bytes := hs ▸ List.mem_cons_self
  have hchar : ∀ c : UInt8, isTokenChar flagsDefault c = true → isSpace c = false ∧
      c ≠ code '{' ∧ c ≠ code '=' ∧ c ≠ code ',' ∧ c ≠ code ';' := by decide
  obtain ⟨hspace, hbrace, heq, hcomma, hsemicolon⟩ := hchar c (hname.token c hmem).1
  have htyped : readTypedVar flagsDefault (ascii ['c', 'h', 'a', 'r'])
      (name.bytes ++ code '=' :: value) ⟨0, 0, h⟩ =
        (0, ⟨0, 0, (setValue h 0 flagsDefault name (.char secret)).2⟩) := by
    rw [readTypedVar, hscan.1, hscan.2]
    dsimp only
    rw [if_neg (by decide)]
    dsimp only
    rw [if_neg (by decide), ReadState.readValues, CString.ofBytes_eq, ← hvalue,
      readValues_quoted hname]
  have hfirst : (ascii ['c', 'h', 'a', 'r'] ++ code ' ' :: (name.bytes ++ code '=' :: value)) =
      code 'c' :: (ascii ['h', 'a', 'r'] ++ code ' ' :: (name.bytes ++ code '=' :: value)) := rfl
  rw [readLine, CString.ofBytes_bytes (lineText_nul_free _), hline, hfirst,
    List.dropWhile_cons_of_neg (by decide)]
  dsimp only
  rw [if_neg (by decide), if_neg (by decide), ← hfirst, htype.1, htype.2]
  dsimp only
  rw [List.dropWhile_cons_of_pos (by decide), hs, List.cons_append,
    List.dropWhile_cons_of_neg (by rw [hspace]; decide)]
  dsimp only
  rw [if_neg hbrace, if_neg (not_or.2 ⟨heq, (hname.token c hmem).2⟩),
    if_neg (not_or.2 ⟨hcomma, hsemicolon⟩), ← List.cons_append, ← hs, htyped]

theorem lineText_plain {e : CString × CString} (hname : IsName e.1) :
    (0x0a : UInt8) ∉ lineText e ∧ withoutCr (lineText e) = lineText e := by
  have hvalue : ∀ c ∈ Text.escapeToBufferTolerant e.2.bytes, c ≠ 0x0a ∧ c ≠ 0x0d := by
    have hmark : ∀ c : UInt8, isTolerated c = true ∨ c = code '%' ∨ isXDigit c = true →
        c ≠ 0x0a ∧ c ≠ 0x0d := by decide
    exact fun c hc => hmark c (mem_escapeWith hc)
  have hplain : ∀ c ∈ e.1.bytes, c ≠ 0x0a ∧ c ≠ 0x0d := by
    have hspace : ∀ c : UInt8, isPlainChar c = true → c ≠ 0x0a ∧ c ≠ 0x0d := by decide
    exact fun c hc => hspace c (hname.plain c hc)
  have hall : ∀ c ∈ lineText e, c ≠ 0x0a ∧ c ≠ 0x0d := by
    intro c hc
    have hchar : ∀ c ∈ ascii ['c', 'h', 'a', 'r', ' '], c ≠ 0x0a ∧ c ≠ 0x0d := by decide
    rw [lineText, List.mem_append, List.mem_append, List.mem_cons, List.mem_cons, List.mem_append,
      List.mem_singleton] at hc
    rcases hc with hc | hc | rfl | rfl | hc | rfl
    · exact hchar c hc
    · exact hplain c hc
    · decide
    · decide
    · exact hvalue c hc
    · decide
  refine ⟨fun h => (hall _ h).1 rfl, ?_⟩
  rw [withoutCr, List.filter_eq_self]
  exact fun c hc => bne_iff_ne.mpr (hall c hc).2

/-- The variables after some names have got their secrets. -/
def addVars (entries : List (CString × CString)) (vars : List (CString × List DbValue)) :
    List (CString × List DbValue) :=
  entries.foldl (fun vars e => addVar e.1 (.char e.2) vars) vars

theorem readLines_linesText : ∀ {entries : List (CString × CString)} {k : ℕ} {read : Bool}
    {fb : FastReader} {h : DbHeap}, (∀ e ∈ entries, IsName e.1) → entries.length < k →
    (read = true ∨ entries ≠ []) → fb.Holds (linesText entries) → IsFlat h 0 →
    ∃ h', readLines flagsDefault k read fb ⟨0, 0, h⟩ = some (0, ⟨0, 0, h'⟩) ∧ IsFlat h' 0 ∧
      varsOf h' 0 = addVars entries (varsOf h 0)
  | [], k + 1, read, fb, h, _, _, hread, hfb, hflat => by
      have hend := readLineToBuffer_end hfb []
      obtain rfl : read = true := hread.resolve_right (not_not_intro rfl)
      refine ⟨h, ?_, hflat, rfl⟩
      rw [readLines]
      dsimp only
      rw [hend, if_pos (by decide), if_pos ⟨rfl, .inl rfl⟩]
  | e :: entries, k + 1, read, fb, h, hnames, hk, _, hfb, hflat => by
      rw [List.forall_mem_cons] at hnames
      obtain ⟨hline, hcr⟩ := lineText_plain hnames.1
      have hfb : fb.Holds (lineText e ++ 0x0a :: linesText entries) := by
        rw [linesText, List.flatMap_cons, List.append_assoc] at hfb
        exact hfb
      obtain ⟨fb', hread, hfb'⟩ := readLineToBuffer_line hfb hline []
      rw [hcr, List.nil_append] at hread
      have hflat' := isFlat_setValue hnames.1.plain hnames.1.ne_nil (.inl rfl) hflat (.char e.2)
      obtain ⟨-, -, hvars⟩ :=
        varsOf_setValue hnames.1.plain hnames.1.ne_nil hflat.toIsGroup (.char e.2)
      obtain ⟨h', hrest, hflat'', hvars'⟩ := readLines_linesText hnames.2
        (Nat.lt_of_succ_lt_succ hk) (.inl rfl) hfb' hflat'
      refine ⟨h', ?_, hflat'', ?_⟩
      · rw [readLines, hread]
        dsimp only
        have hne : lineText e ≠ [] := List.cons_ne_nil _ _
        have hstep := @readLine_lineText h e.1 hnames.1 e.2
        rw [if_neg (lt_irrefl 0), if_neg hne, hstep, Option.bind_some]
        dsimp only
        rw [if_neg (not_not_intro rfl), hrest]
      · rw [hvars', hvars]
        rfl

theorem length_le_linesText (entries : List (CString × CString)) :
    entries.length ≤ (linesText entries).length := by
  induction entries with
  | nil => exact Nat.zero_le _
  | cons e entries ih =>
      rw [linesText, List.flatMap_cons, List.length_append, List.length_append, ← linesText,
        List.length_cons, List.length_singleton]
      omega

theorem readFromString_linesText {entries : List (CString × CString)} {h : DbHeap}
    (hnames : ∀ e ∈ entries, IsName e.1) (hne : entries ≠ []) (hflat : IsFlat h 0) :
    ∃ h', readFromString h 0 (linesText entries) flagsDefault = some (0, h') ∧ IsFlat h' 0 ∧
      varsOf h' 0 = addVars entries (varsOf h 0) := by
  obtain ⟨h', hread, hflat', hvars⟩ := readLines_linesText hnames
    (Nat.lt_succ_of_le (length_le_linesText entries)) (.inr hne)
    (holds_memoryReads (by decide : 0 < 1024) le_rfl) hflat
  refine ⟨h', ?_, hflat', hvars⟩
  rw [readFromString, readFromFastBuffer, hread]
  rfl

end PasswdStore
end Gwenhywfar
