import Gwenhywfar.Dbio.Csv
import Gwenhywfar.Parser.DbVars

/-! # What is exported as CSV is imported again

* `text`: the bytes that an export writes, a title and a line for each group.
* `csvImport_lines`: an import makes groups of these lines, one by one.
* `roundTrips_iff`: the groups are those that were exported exactly when no value holds a quote,
  which is written as any other character, and no two columns name the same variable. -/

namespace Gwenhywfar

set_option maxRecDepth 4000

namespace Csv

open FastWriter FastReader Text Db
open CString (ofBytes)

/-! ### The configurations and groups -/

def plainConfig (names : List CString) (delimiter : CString) (title : Bool) : CsvConfig where
  columns := some (names.map .name)
  delimiter := some delimiter
  quote := some 1
  group := some (str ['l', 'i', 'n', 'e'])
  title := some (if title then 1 else 0)
  fixedWidth := none
  condense := none
  ignoreLines := none
  width := []

/-- A tab, or another character that is neither alphanumeric, blank, quote nor backslash. -/
def isDelimiter (d : UInt8) : Bool :=
  d == 0x09 || !isAlnum d && !isSpace d && d != Words.quote && d != code '\\' && d != 0

/-- The names of different variables, none of which is a path, that are shorter than 64 bytes. -/
structure PlainNames (names : List CString) : Prop where
  nonempty : names ≠ []
  nodup : names.Nodup
  plain : ∀ name ∈ names, ∀ c ∈ name.bytes, isPlainChar c = true
  bytes_ne_nil : ∀ name ∈ names, name.bytes ≠ []
  short : ∀ name ∈ names, name.bytes.length < 64

/-- The variables of the columns with one value each. -/
def lineVars (names : List CString) (v : CString → CString) : List (CString × List DbValue) :=
  names.map fun name => (name, [.char (v name)])

/-- A group `line`, the variables of which are the columns with one value each, in any order. -/
structure IsLine (names : List CString) (v : CString → CString) (n : DbHeap) : Prop where
  group : IsGroup n 0
  name : (n.node 0).dataName = str ['l', 'i', 'n', 'e']
  vars : (varsOf n 0).Perm (lineVars names v)
  plain : ∀ name ∈ names, ∀ c ∈ (v name).bytes, isCntrl c = false

def SameGroup (n n' : DbHeap) : Prop :=
  (n'.node 0).dataName = (n.node 0).dataName ∧ (varsOf n' 0).Perm (varsOf n 0)

/-- An io that fails in no call and has no bytes yet. -/
def freshIo : WriteIo := ⟨fun _ => .done, 0, []⟩

/-- The export succeeds, and the import of what it has written, in whatever pieces it is read,
succeeds and yields the same groups. -/
def RoundTrips (cfg : CsvConfig) (data : List DbHeap) : Prop :=
  (csvExport cfg data (FastWriter.new 512 freshIo)).1 = 0 ∧
    ∀ fb : FastReader, fb.Holds (csvExport cfg data (FastWriter.new 512 freshIo)).2.io.sink →
      (csvImport cfg fb []).1 = 0 ∧ List.Forall₂ SameGroup data (csvImport cfg fb []).2

/-! ### What an export writes -/

/-- A function writes these bytes and has flushed the buffer then. -/
def Puts (rest : FastWriter → ℤ × FastWriter) (bs : List UInt8) : Prop :=
  ∀ (text : List UInt8) (fb : FastWriter), FastWriter.Clean 512 (fun _ => .done) 0 text fb →
    ∃ fb', rest fb = (0, fb') ∧ fb'.io.sink = text ++ bs

section
variable {p rest : FastWriter → ℤ × FastWriter} {bs bs' : List UInt8} {names : List CString}
  {v : CString → CString} {n : DbHeap} {name : CString}

theorem not_failsAt (o : ℕ) : ¬ FailsAt 512 (fun _ => .done) o := fun h => h.2.2 rfl

theorem puts_check (hp : Emits 512 (fun _ => .done) 0 p bs) (hr : Puts rest bs') :
    Puts (fun fb => check (p fb) id rest) (bs ++ bs') := by
  intro text fb hc
  obtain ⟨fb1, h1, hc1⟩ := hp.ok hc fun i _ => not_failsAt _
  obtain ⟨fb2, h2, hsink⟩ := hr _ fb1 hc1
  refine ⟨fb2, ?_, by rw [hsink, List.append_assoc]⟩
  dsimp only
  rw [h1, check_zero, h2]

theorem puts_writeByteIf (wanted : Bool) (c : UInt8) (hr : Puts rest bs) :
    Puts (writeByteIf wanted c rest) ((if wanted then [c] else []) ++ bs) := by
  cases wanted with
  | false => exact hr
  | true => exact puts_check (emits_byte (by decide) c) hr

theorem puts_line (hr : Puts rest bs) :
    Puts (fun fb => check (fb.writeLine []) id rest) (0x0a :: bs) :=
  puts_check (emits_line (by decide) []) hr

theorem puts_flush : Puts (fun fb => check fb.flush id fun fb => (0, fb)) [] := by
  intro text fb hc
  rcases flush_cases fb with ⟨-, h⟩ | ⟨e, io, h, -⟩
  · refine ⟨fb.flush.2, ?_, by rw [h, List.append_nil, ← hc.text_eq]⟩
    dsimp only
    rw [h, check_zero]
  · rw [hc.results] at h
    exact absurd rfl h

theorem puts_column (names : List CString) (delimiter : CString) (title first : Bool)
    (value : List UInt8) (hr : Puts rest bs) :
    Puts (writeColumn (plainConfig names delimiter title) first value rest)
      ((if first then [] else [delimiterOf (plainConfig names delimiter title)]) ++
        Words.quote :: (value ++ Words.quote :: bs)) := by
  have hquote : ((plainConfig names delimiter title).quote.getD 1 != 0) = true := by
    rw [plainConfig, Option.getD_some]
    decide
  have hvalue := puts_check (emits_forced (by decide) value) (puts_writeByteIf true Words.quote hr)
  have hall := puts_writeByteIf (!first) (delimiterOf (plainConfig names delimiter title))
    (puts_writeByteIf true Words.quote hvalue)
  rw [writeColumn, hquote]
  cases first <;> exact hall

theorem getNameAndIndex_plain (hplain : ∀ c ∈ name.bytes, isPlainChar c = true)
    (hshort : name.bytes.length < 64) : getNameAndIndex name.bytes 64 = (0, name.bytes) := by
  have hscan := (Scan.all (· != code '[') name.bytes fun c hc => by
    have h := hplain c hc
    rw [isPlainChar, Bool.and_eq_true, Bool.and_eq_true] at h
    exact h.1.2).1
  rw [getNameAndIndex, hscan]
  dsimp only
  rw [if_neg (Nat.not_le.mpr hshort), List.drop_length]

def titleCells (names : List CString) : List (List UInt8) :=
  names.map fun name => titleName 0 name.bytes

def groupCells (names : List CString) (n : DbHeap) : List (List UInt8) :=
  names.map fun name => columnText n 0 name.bytes

variable (delimiter : CString) (title : Bool)

theorem puts_title (names' : List CString)
    (hplain : ∀ name ∈ names, ∀ c ∈ name.bytes, isPlainChar c = true)
    (hshort : ∀ name ∈ names, name.bytes.length < 64) (hr : Puts rest bs) (first : Bool) :
    Puts (writeTitle (plainConfig names' delimiter title) rest first (names.map .name))
      (Words.cells (delimiterOf (plainConfig names' delimiter title)) first (titleCells names) ++
        0x0a :: bs) := by
  induction names generalizing first with
  | nil => cases first <;> exact puts_line hr
  | cons name names ih =>
      rw [List.forall_mem_cons] at hplain hshort
      have hrest := ih hplain.2 hshort.2 false
      rw [List.map_cons]
      unfold writeTitle
      rw [getNameAndIndex_plain hplain.1 hshort.1]
      dsimp only
      rw [if_neg (by decide), if_neg fun h => h.1 rfl]
      have hall := puts_column names' delimiter title first (titleName 0 name.bytes) hrest
      rwa [titleCells, List.map_cons, Words.cells, List.append_assoc, List.cons_append,
        List.append_assoc, List.cons_append, ← titleCells]

theorem puts_group (names' : List CString)
    (hplain : ∀ name ∈ names, ∀ c ∈ name.bytes, isPlainChar c = true)
    (hshort : ∀ name ∈ names, name.bytes.length < 64) (hr : Puts rest bs) (first : Bool) :
    Puts (writeGroup (plainConfig names' delimiter title) n rest first (names.map .name))
      (Words.cells (delimiterOf (plainConfig names' delimiter title)) first (groupCells names n) ++
        0x0a :: bs) := by
  induction names generalizing first with
  | nil => cases first <;> exact puts_line hr
  | cons name names ih =>
      rw [List.forall_mem_cons] at hplain hshort
      have hrest := ih hplain.2 hshort.2 false
      rw [List.map_cons]
      unfold writeGroup
      rw [getNameAndIndex_plain hplain.1 hshort.1]
      dsimp only
      rw [if_neg (by decide)]
      have hall := puts_column names' delimiter title first (columnText n 0 name.bytes) hrest
      rwa [groupCells, List.map_cons, Words.cells, List.append_assoc, List.cons_append,
        List.append_assoc, List.cons_append, ← groupCells]

def linesText (lines : List (List UInt8)) : List UInt8 := lines.flatMap fun line => line ++ [0x0a]

def exportLines (names : List CString) (data : List DbHeap) : List (List UInt8) :=
  let d := delimiterOf (plainConfig names delimiter title)
  (if title then [Words.cells d true (titleCells names)] else []) ++
    data.map fun n => Words.cells d true (groupCells names n)

theorem puts_groups (hnames : PlainNames names) {data : List DbHeap}
    (hdata : ∀ n ∈ data, (n.node 0).dataName = str ['l', 'i', 'n', 'e']) :
    Puts (writeGroups (plainConfig names delimiter title) (names.map .name) data)
      (linesText (data.map fun n =>
        Words.cells (delimiterOf (plainConfig names delimiter title)) true
          (groupCells names n))) := by
  induction data with
  | nil => exact puts_flush
  | cons n data ih =>
      rw [List.forall_mem_cons] at hdata
      have hgroup : strcaseEq ((plainConfig names delimiter title).group.getD (str []))
          (n.node 0).dataName = true := by
        rw [hdata.1, plainConfig, Option.getD_some]
        exact strcaseEq_self _
      have hall := puts_group delimiter title (n := n) names hnames.plain hnames.short
        (ih hdata.2) true
      rw [writeGroups, if_pos (Or.inr hgroup)]
      rwa [List.map_cons, linesText, List.flatMap_cons, List.append_assoc, List.singleton_append]

theorem csvExport_sink (hnames : PlainNames names) {data : List DbHeap}
    (hdata : ∀ n ∈ data, (n.node 0).dataName = str ['l', 'i', 'n', 'e']) :
    (csvExport (plainConfig names delimiter title) data (FastWriter.new 512 freshIo)).1 = 0 ∧
      (csvExport (plainConfig names delimiter title) data
        (FastWriter.new 512 freshIo)).2.io.sink =
        linesText (exportLines delimiter title names data) := by
  have hgroups := puts_groups delimiter title hnames hdata
  have hclean : FastWriter.Clean 512 (fun _ => .done) 0 [] (FastWriter.new 512 freshIo) := clean_new
  cases title with
  | false =>
      obtain ⟨fb, hrun, hsink⟩ := hgroups _ _ hclean
      have hexport : csvExport (plainConfig names delimiter false) data
          (FastWriter.new 512 freshIo) = (0, fb) := hrun
      rw [hexport]
      exact ⟨rfl, hsink⟩
  | true =>
      obtain ⟨fb, hrun, hsink⟩ := puts_title delimiter true names hnames.plain hnames.short hgroups
        true _ _ hclean
      have hexport : csvExport (plainConfig names delimiter true) data
          (FastWriter.new 512 freshIo) = (0, fb) := hrun
      rw [hexport]
      refine ⟨rfl, hsink.trans ?_⟩
      rw [exportLines, if_pos rfl, List.singleton_append, linesText, List.nil_append, linesText,
        List.flatMap_cons, List.append_assoc]
      rfl

end

/-! ### What an import makes of lines -/

section
variable {cfg : CsvConfig} {columns : List CsvColumn}

theorem linesText_cons (line : List UInt8) (lines : List (List UInt8)) :
    linesText (line :: lines) = line ++ 0x0a :: linesText lines := by
  rw [linesText, List.flatMap_cons, List.append_assoc]
  rfl

def importedFrom (cfg : CsvConfig) (columns : List CsvColumn) : ℤ → List (List UInt8) → List DbHeap
  | _, [] => []
  | l, line :: lines =>
      (if l < ignoredLines cfg then [] else (lineToGroup cfg columns (withoutCr line)).toList) ++
        importedFrom cfg columns (l + 1) lines

theorem importLoop_lines : ∀ {lines : List (List UInt8)} {k : ℕ} {l : ℤ} {fb : FastReader}
    {data : List DbHeap}, fb.Holds (linesText lines) → (∀ line ∈ lines, 0x0a ∉ line) →
    lines.length < k →
    importLoop cfg columns k l fb data = (0, data ++ importedFrom cfg columns l lines)
  | [], k + 1, l, fb, data, hfb, _, _ => by
      have hend := readLineToBuffer_end hfb []
      rw [importLoop]
      dsimp only
      rw [hend, if_pos (by decide), if_pos rfl, importedFrom, List.append_nil]
  | line :: lines, k + 1, l, fb, data, hfb, hlines, hk => by
      rw [List.forall_mem_cons] at hlines
      rw [linesText_cons] at hfb
      obtain ⟨fb', hread, hfb'⟩ := readLineToBuffer_line hfb hlines.1 []
      have ih := fun data => @importLoop_lines lines k (l + 1) fb' data hfb' hlines.2
        (Nat.lt_of_succ_lt_succ hk)
      rw [importLoop, hread]
      dsimp only
      rw [if_neg (lt_irrefl (0 : ℤ)), importedFrom, List.nil_append, ih, ih]
      split
      · rfl
      · rw [List.append_assoc]

theorem holds_length {fb : FastReader} {bytes : List UInt8} (h : fb.Holds bytes) :
    bytes.length ≤ linesBound fb := by
  obtain ⟨pieces, hpieces, rfl⟩ := h
  have hflat : fb.io.flatMap bytesOf = pieces.flatten := by
    rw [hpieces.io_eq, List.flatMap_map, List.flatten_eq_flatMap]
    rfl
  rw [linesBound, hflat, List.length_append]
  omega

theorem length_linesText (lines : List (List UInt8)) :
    lines.length ≤ (linesText lines).length := by
  induction lines with
  | nil => exact Nat.zero_le _
  | cons line lines ih =>
      rw [linesText_cons, List.length_append, List.length_cons, List.length_cons]
      omega

theorem csvImport_lines (hcolumns : cfg.columns = some columns) {lines : List (List UInt8)}
    {fb : FastReader} (hfb : fb.Holds (linesText lines)) (hlines : ∀ line ∈ lines, 0x0a ∉ line) :
    csvImport cfg fb [] = (0, importedFrom cfg columns 0 lines) := by
  have hk : lines.length < linesBound fb + 1 :=
    Nat.lt_succ_of_le ((length_linesText lines).trans (holds_length hfb))
  rw [csvImport, hcolumns]
  exact importLoop_lines hfb hlines hk

end

/-! ### The variables of an imported group -/

section
variable {names : List CString} {v : CString → CString} {n : DbHeap}

/-- Adds a value to a variable for each name. -/
def addVars (cells : List (CString × List UInt8)) (vars : List (CString × List DbValue)) :
    List (CString × List DbValue) :=
  cells.foldl (fun vars cell => addVar cell.1 (.char (ofBytes cell.2)) vars) vars

theorem takeWhile_plain {name : CString} (hplain : ∀ c ∈ name.bytes, isPlainChar c = true) :
    ofBytes (name.bytes.takeWhile (· != code '[')) = name := by
  rw [(Scan.all (· != code '[') name.bytes fun c hc => by
    have h := hplain c hc
    rw [isPlainChar, Bool.and_eq_true, Bool.and_eq_true] at h
    exact h.1.2).1, CString.ofBytes_eq]

/-- The strings of a line become the values of the variables. -/
theorem stringListToDb_vars : ∀ {names : List CString} {sl : List (List UInt8)} {n : DbHeap},
    (∀ name ∈ names, ∀ c ∈ name.bytes, isPlainChar c = true) →
    (∀ name ∈ names, name.bytes ≠ []) → IsGroup n 0 →
    ((stringListToDb (names.map .name) sl n).node 0).dataName = (n.node 0).dataName ∧
      varsOf (stringListToDb (names.map .name) sl n) 0 = addVars (names.zip sl) (varsOf n 0)
  | [], sl, n, _, _, _ => by
      rw [List.map_nil, stringListToDb]
      exact ⟨rfl, rfl⟩
  | name :: names, [], n, _, _, _ => by
      rw [List.map_cons, stringListToDb]
      exact ⟨rfl, rfl⟩
  | name :: names, s :: sl, n, hplain, hne, hg => by
      rw [List.forall_mem_cons] at hplain hne
      obtain ⟨hgroup, hname, hvars⟩ :=
        varsOf_setValue hplain.1 hne.1 hg (.char (ofBytes s))
      obtain ⟨hname', hvars'⟩ := @stringListToDb_vars names sl _ hplain.2 hne.2 hgroup
      rw [List.map_cons, stringListToDb, columnToDb, takeWhile_plain hplain.1, setCharValue]
      exact ⟨hname'.trans hname, by rw [hvars', hvars]; rfl⟩

theorem addVar_new {name : CString} (val : DbValue) : ∀ {vars : List (CString × List DbValue)},
    (∀ x ∈ vars, strcaseEq x.1 name = false) → addVar name val vars = vars ++ [(name, [val])]
  | [], _ => rfl
  | (m, vs) :: vars, h => by
      rw [List.forall_mem_cons] at h
      rw [addVar, h.1, if_neg Bool.false_ne_true, addVar_new val h.2, List.cons_append]

/-- Names that are different from each other and from those that are there get a variable each. -/
theorem addVars_distinct : ∀ {cells : List (CString × List UInt8)}
    {vars : List (CString × List DbValue)},
    (cells.map Prod.fst).Pairwise (fun a b => strcaseEq a b = false) →
    (∀ x ∈ vars, ∀ cell ∈ cells, strcaseEq x.1 cell.1 = false) →
    addVars cells vars =
      vars ++ cells.map fun cell => (cell.1, [.char (ofBytes cell.2)])
  | [], vars, _, _ => (List.append_nil vars).symm
  | cell :: cells, vars, hpair, hvars => by
      rw [List.map_cons, List.pairwise_cons] at hpair
      have hnew := @addVar_new cell.1 (.char (ofBytes cell.2)) vars fun x hx =>
        hvars x hx cell List.mem_cons_self
      have ih := @addVars_distinct cells
        (vars ++ [(cell.1, [.char (ofBytes cell.2)])]) hpair.2 (by
          intro x hx c hc
          rcases List.mem_append.mp hx with hx | hx
          · exact hvars x hx c (List.mem_cons_of_mem _ hc)
          · rw [List.mem_singleton.mp hx]
            exact hpair.1 c.1 (List.mem_map_of_mem hc))
      rw [addVars, List.foldl_cons, hnew, ← addVars, ih, List.append_assoc]
      rfl

/-- No two variables have names that differ in case only. -/
theorem addVar_pairwise (name : CString) (val : DbValue) : ∀ {vars : List (CString × List DbValue)},
    vars.Pairwise (fun x y => strcaseEq x.1 y.1 = false) →
    (addVar name val vars).Pairwise (fun x y => strcaseEq x.1 y.1 = false) ∧
      ∀ x ∈ addVar name val vars, x.1 = name ∨ ∃ y ∈ vars, y.1 = x.1
  | [], _ => by
      refine ⟨List.pairwise_singleton _ _, fun x hx => Or.inl ?_⟩
      rw [List.mem_singleton.mp hx]
  | (m, vs) :: vars, h => by
      rw [List.pairwise_cons] at h
      rw [addVar]
      split
      · refine ⟨List.pairwise_cons.mpr h, fun x hx => Or.inr ?_⟩
        rcases List.mem_cons.mp hx with rfl | hx
        · exact ⟨(m, vs), List.mem_cons_self, rfl⟩
        · exact ⟨x, List.mem_cons_of_mem _ hx, rfl⟩
      · next hm =>
          obtain ⟨hpair, hmem⟩ := addVar_pairwise name val h.2
          refine ⟨List.pairwise_cons.mpr ⟨fun x hx => ?_, hpair⟩, fun x hx => ?_⟩
          · rcases hmem x hx with hx' | ⟨y, hy, hxy⟩
            · rw [hx']
              exact Bool.eq_false_iff.mpr hm
            · rw [← hxy]
              exact h.1 y hy
          · rcases List.mem_cons.mp hx with rfl | hx
            · exact Or.inr ⟨(m, vs), List.mem_cons_self, rfl⟩
            · rcases hmem x hx with hx' | ⟨y, hy, hxy⟩
              · exact Or.inl hx'
              · exact Or.inr ⟨y, List.mem_cons_of_mem _ hy, hxy⟩

/-- The values are those that were there and the one that is added. -/
theorem addVar_values {P : DbValue → Prop} (name : CString) {val : DbValue} (hval : P val) :
    ∀ {vars : List (CString × List DbValue)}, (∀ x ∈ vars, ∀ y ∈ x.2, P y) →
    ∀ x ∈ addVar name val vars, ∀ y ∈ x.2, P y
  | [], _, x, hx, y, hy => by
      rw [List.mem_singleton.mp hx] at hy
      rw [List.mem_singleton.mp hy]
      exact hval
  | (m, vs) :: vars, h, x, hx, y, hy => by
      rw [List.forall_mem_cons] at h
      rw [addVar] at hx
      split at hx
      · rcases List.mem_cons.mp hx with rfl | hx
        · rcases List.mem_append.mp hy with hy | hy
          · exact h.1 y hy
          · rw [List.mem_singleton.mp hy]
            exact hval
        · exact h.2 x hx y hy
      · rcases List.mem_cons.mp hx with rfl | hx
        · exact h.1 y hy
        · exact addVar_values name hval h.2 x hx y hy

def holdsQuote : DbValue → Bool
  | .char dataChar => dataChar.bytes.contains Words.quote
  | _ => false

/-- Whatever the strings are, the variables have different names, and no value holds a quote that
no string holds. -/
theorem addVars_spec : ∀ {cells : List (CString × List UInt8)}
    {vars : List (CString × List DbValue)}, (∀ cell ∈ cells, Words.quote ∉ cell.2) →
    vars.Pairwise (fun x y => strcaseEq x.1 y.1 = false) →
    (∀ x ∈ vars, ∀ y ∈ x.2, holdsQuote y = false) →
    (addVars cells vars).Pairwise (fun x y => strcaseEq x.1 y.1 = false) ∧
      ∀ x ∈ addVars cells vars, ∀ y ∈ x.2, holdsQuote y = false
  | [], _, _, hpair, hvals => ⟨hpair, hvals⟩
  | cell :: cells, vars, hcells, hpair, hvals => by
      rw [List.forall_mem_cons] at hcells
      have hval : holdsQuote (.char (ofBytes cell.2)) = false := by
        rw [holdsQuote, Bool.eq_false_iff, ne_eq, List.contains_iff_mem]
        exact fun hmem => hcells.1 ((List.takeWhile_sublist _).subset hmem)
      have ih := @addVars_spec cells (addVar cell.1 (.char (ofBytes cell.2)) vars) hcells.2
        (addVar_pairwise cell.1 _ hpair).1
        (addVar_values cell.1 (P := fun y => holdsQuote y = false) hval hvals)
      exact ih

/-! ### The cells of a line -/

theorem findVals_mem {name : CString} {vs : List DbValue} :
    ∀ {vars : List (CString × List DbValue)},
    findVals name vars = some vs → ∃ m, (m, vs) ∈ vars ∧ strcaseEq m name = true
  | [], h => by cases h
  | (m, ws) :: vars, h => by
      rw [findVals] at h
      split at h
      · next hm =>
          obtain rfl := Option.some.inj h
          exact ⟨m, List.mem_cons_self, hm⟩
      · obtain ⟨m', hmem, hm'⟩ := findVals_mem h
        exact ⟨m', List.mem_cons_of_mem _ hmem, hm'⟩

theorem findVals_isSome {name : CString} : ∀ {vars : List (CString × List DbValue)},
    (∃ x ∈ vars, x.1 = name) → (findVals name vars).isSome = true
  | [], h => by
      obtain ⟨x, hx, -⟩ := h
      cases hx
  | (m, ws) :: vars, ⟨x, hx, hname⟩ => by
      rw [findVals]
      split
      · rfl
      · next hm =>
          rcases List.mem_cons.mp hx with rfl | hx
          · exact absurd (hname ▸ strcaseEq_self _) hm
          · exact findVals_isSome ⟨x, hx, hname⟩

theorem columnText_line (hnames : PlainNames names) (hn : IsLine names v n) {name : CString}
    (hmem : name ∈ names) :
    ∃ m ∈ names, strcaseEq m name = true ∧ columnText n 0 name.bytes = (v m).bytes := by
  have hfind := values_resolve (hnames.plain name hmem) (hnames.bytes_ne_nil name hmem)
    hn.group.typ
  have hsome : (findVals name (varsOf n 0)).isSome = true := findVals_isSome
    ⟨(name, [.char (v name)]), hn.vars.mem_iff.mpr (List.mem_map_of_mem hmem), rfl⟩
  obtain ⟨vs, hvs⟩ := Option.isSome_iff_exists.mp hsome
  obtain ⟨m, hm, heq⟩ := findVals_mem hvs
  obtain ⟨m', hm', hpair⟩ := List.mem_map.mp (hn.vars.mem_iff.mp hm)
  obtain ⟨rfl, rfl⟩ := Prod.mk.inj hpair
  rw [hvs, Option.map_eq_some_iff] at hfind
  obtain ⟨a, ha, hval⟩ := hfind
  refine ⟨m', hm', heq, ?_⟩
  rw [columnText, CString.ofBytes_eq, ha, Option.bind_some, hval, valueAt, if_neg (by decide)]
  rfl

def importedGroup (cfg : CsvConfig) (names : List CString) (n : DbHeap) : Option DbHeap :=
  lineToGroup cfg (names.map .name) (Words.cells (delimiterOf cfg) true (groupCells names n))

theorem lineToGroup_plain (delimiter : CString) (title : Bool) (columns : List CsvColumn)
    (s : List UInt8) : lineToGroup (plainConfig names delimiter title) columns s =
      (Words.fromString2 s [delimiterOf (plainConfig names delimiter title)] splitFlags).map
        fun sl => stringListToDb columns sl (emptyGroup (str ['l', 'i', 'n', 'e'])) := rfl

theorem cells_plain (hnames : PlainNames names) {d : UInt8} (hd : isDelimiter d = true)
    (hn : IsLine names v n) :
    ∀ c ∈ Words.cells d true (groupCells names n), c ≠ 0x0a ∧ c ≠ 0x0d := by
  have hall : ∀ d : UInt8, isDelimiter d = true → d ≠ 0x0a ∧ d ≠ 0x0d := by decide
  have hcntrl : ∀ c : UInt8, isCntrl c = false → c ≠ 0x0a ∧ c ≠ 0x0d := by decide
  intro c hc
  rcases Words.mem_cells hc with rfl | rfl | ⟨cell, hcell, hc⟩
  · exact hall c hd
  · decide
  · obtain ⟨name, hname, rfl⟩ := List.mem_map.mp hcell
    obtain ⟨m, hm, -, htext⟩ := columnText_line hnames hn hname
    rw [htext] at hc
    exact hcntrl c (hn.plain m hm c hc)

theorem title_plain (hnames : PlainNames names) {d : UInt8} (hd : isDelimiter d = true) :
    0x0a ∉ Words.cells d true (titleCells names) := by
  have hall : ∀ d : UInt8, isDelimiter d = true → d ≠ 0x0a := by decide
  intro hc
  rcases Words.mem_cells hc with rfl | h | ⟨cell, hcell, hc⟩
  · exact hall _ hd rfl
  · exact absurd h (by decide)
  · obtain ⟨name, hname, rfl⟩ := List.mem_map.mp hcell
    rw [titleName, if_pos rfl, List.mem_map] at hc
    obtain ⟨b, hb, hline⟩ := hc
    split at hline
    · exact absurd hline (by decide)
    · exact absurd (hline ▸ hnames.plain name hname b hb) (by decide)

theorem importedFrom_rows {cfg : CsvConfig} {columns : List CsvColumn} :
    ∀ {lines : List (List UInt8)} {l : ℤ}, ignoredLines cfg ≤ l → (∀ line ∈ lines, 0x0d ∉ line) →
    importedFrom cfg columns l lines =
      lines.flatMap fun line => (lineToGroup cfg columns line).toList
  | [], _, _, _ => rfl
  | line :: lines, l, hl, hcr => by
      rw [List.forall_mem_cons] at hcr
      have hline : withoutCr line = line := List.filter_eq_self.mpr fun c hc =>
        bne_iff_ne.mpr fun heq => hcr.1 (heq ▸ hc)
      rw [importedFrom, if_neg (not_lt.mpr hl), hline, List.flatMap_cons,
        importedFrom_rows (hl.trans (by omega)) hcr.2]

theorem ignoredLines_plain (delimiter : CString) (title : Bool) :
    ignoredLines (plainConfig names delimiter title) = if title then 1 else 0 := by
  cases title <;> rfl

/-- A round trip compares the groups with those that are made of their lines. -/
theorem roundTrips_iff_groups (hnames : PlainNames names) {delimiter : CString} {title : Bool}
    (hd : isDelimiter (delimiterOf (plainConfig names delimiter title)) = true) {data : List DbHeap}
    (hdata : ∀ n ∈ data, ∃ v, IsLine names v n) :
    RoundTrips (plainConfig names delimiter title) data ↔ List.Forall₂ SameGroup data
      (data.flatMap fun n =>
        (importedGroup (plainConfig names delimiter title) names n).toList) := by
  have hcells : ∀ line ∈ data.map fun n =>
      Words.cells (delimiterOf (plainConfig names delimiter title)) true (groupCells names n),
      0x0a ∉ line ∧ 0x0d ∉ line := by
    intro line hline
    obtain ⟨n, hn, rfl⟩ := List.mem_map.mp hline
    obtain ⟨v, hv⟩ := hdata n hn
    exact ⟨fun h => (cells_plain hnames hd hv _ h).1 rfl,
      fun h => (cells_plain hnames hd hv _ h).2 rfl⟩
  have hlines : ∀ line ∈ exportLines delimiter title names data, 0x0a ∉ line := by
    intro line hline
    rw [exportLines, List.mem_append] at hline
    rcases hline with hline | hline
    · cases title with
      | false => cases hline
      | true =>
          rw [List.mem_singleton.mp hline]
          exact title_plain hnames hd
    · exact (hcells line hline).1
  have himport : importedFrom (plainConfig names delimiter title) (names.map .name) 0
      (exportLines delimiter title names data) =
        data.flatMap fun n =>
          (importedGroup (plainConfig names delimiter title) names n).toList := by
    have hrows := fun l (hl : ignoredLines (plainConfig names delimiter title) ≤ l) =>
      @importedFrom_rows _ (names.map .name) _ l hl fun line hline => (hcells line hline).2
    cases title with
    | false =>
        rw [exportLines, if_neg Bool.false_ne_true, List.nil_append,
          hrows 0 (ignoredLines_plain delimiter false).le, List.flatMap_map]
        rfl
    | true =>
        rw [exportLines, if_pos rfl, List.singleton_append, importedFrom,
          ignoredLines_plain, if_pos (by decide), List.nil_append,
          hrows (0 + 1) (ignoredLines_plain delimiter true).le, List.flatMap_map]
        rfl
  obtain ⟨hexport, hsink⟩ := csvExport_sink delimiter title hnames fun n hn =>
    (hdata n hn).elim fun _ hv => hv.name
  have hrun : ∀ fb : FastReader, fb.Holds (linesText (exportLines delimiter title names data)) →
      csvImport (plainConfig names delimiter title) fb [] =
        (0, data.flatMap fun n =>
          (importedGroup (plainConfig names delimiter title) names n).toList) := by
    intro fb hfb
    rw [csvImport_lines rfl hfb hlines, himport]
  rw [RoundTrips, hsink]
  constructor
  · rintro ⟨-, h⟩
    have hfb : FastReader.Holds ⟨linesText (exportLines delimiter title names data), []⟩
        (linesText (exportLines delimiter title names data)) :=
      ⟨[], ⟨rfl, fun p hp => absurd hp List.not_mem_nil⟩, List.append_nil _⟩
    have hsame := (h _ hfb).2
    rwa [hrun _ hfb] at hsame
  · refine fun h => ⟨hexport, fun fb hfb => ?_⟩
    rw [hrun fb hfb]
    exact ⟨rfl, h⟩

theorem exists_of_forall₂ {data data' : List DbHeap} (h : List.Forall₂ SameGroup data data') :
    ∀ n ∈ data, ∃ n' ∈ data', SameGroup n n' := by
  induction h with
  | nil => exact fun _ hn => absurd hn List.not_mem_nil
  | @cons m m' data data' hm _ ih =>
      intro n hn
      rcases List.mem_cons.mp hn with rfl | hn
      · exact ⟨m', List.mem_cons_self, hm⟩
      · obtain ⟨n', hn', hsame⟩ := ih n hn
        exact ⟨n', List.mem_cons_of_mem _ hn', hsame⟩

theorem strcaseEq_symm {a b : CString} (h : strcaseEq a b = false) : strcaseEq b a = false := by
  rw [Bool.eq_false_iff, ne_eq, strcaseEq_iff] at h ⊢
  exact fun heq => h heq.symm

instance : Std.Symm fun a b : CString => strcaseEq a b = false where
  symm _ _ := strcaseEq_symm

/-- A group comes back when its values hold no quotes and the names are different variables. -/
theorem importedGroup_same (hnames : PlainNames names) (delimiter : CString) (title : Bool)
    (hn : IsLine names v n) (hquote : ∀ x ∈ varsOf n 0, ∀ y ∈ x.2, holdsQuote y = false)
    (hpair : names.Pairwise fun a b => strcaseEq a b = false) :
    ∃ n', importedGroup (plainConfig names delimiter title) names n = some n' ∧ SameGroup n n' := by
  have hcells : groupCells names n = names.map fun name => (v name).bytes := by
    refine List.map_congr_left fun name hname => ?_
    obtain ⟨m, hm, heq, htext⟩ := columnText_line hnames hn hname
    by_cases hmn : m = name
    · rw [htext, hmn]
    · exact absurd heq (by rw [hpair.forall hm hname hmn]; exact Bool.false_ne_true)
  have hnoquote : ∀ cell ∈ groupCells names n, Words.quote ∉ cell := by
    intro cell hcell hmem
    rw [hcells] at hcell
    obtain ⟨name, hname, rfl⟩ := List.mem_map.mp hcell
    have hval := hquote _ (hn.vars.mem_iff.mpr (List.mem_map_of_mem hname)) _ List.mem_cons_self
    rw [holdsQuote, Bool.eq_false_iff, ne_eq, List.contains_iff_mem] at hval
    exact hval hmem
  have hne : groupCells names n ≠ [] := by
    rw [groupCells, ne_eq, List.map_eq_nil_iff]
    exact hnames.nonempty
  obtain ⟨hname, hvars⟩ := @stringListToDb_vars names (groupCells names n)
    (emptyGroup (str ['l', 'i', 'n', 'e'])) hnames.plain hnames.bytes_ne_nil (isGroup_emptyGroup _)
  refine ⟨stringListToDb (names.map .name) (groupCells names n)
    (emptyGroup (str ['l', 'i', 'n', 'e'])), ?_, ?_, ?_⟩
  · rw [importedGroup, lineToGroup_plain,
      Words.fromString2_cells ⟨by decide, by decide⟩ (by decide) _
      hnoquote hne, Option.map_some]
  · rw [hname, hn.name]
    rfl
  · have hzip : names.zip (groupCells names n) = names.map fun name => (name, (v name).bytes) := by
      rw [hcells, List.map_prod_left_eq_zip]
    have hfst : (names.map fun name => (name, (v name).bytes)).map Prod.fst = names := by
      rw [List.map_map]
      exact List.map_id names
    rw [hvars, varsOf_emptyGroup, hzip, addVars_distinct (by rw [hfst]; exact hpair)
      (fun x hx => absurd hx List.not_mem_nil), List.nil_append, List.map_map]
    refine List.Perm.trans (List.Perm.of_eq ?_) hn.vars.symm
    refine List.map_congr_left fun name _ => ?_
    rw [Function.comp_apply, CString.ofBytes_eq]

/-- Whatever a group is, the one that is made of its line has values without quotes and variables
with different names. -/
theorem importedGroup_spec (hnames : PlainNames names) {delimiter : CString} {title : Bool}
    {n' : DbHeap} (h : importedGroup (plainConfig names delimiter title) names n = some n') :
    (varsOf n' 0).Pairwise (fun x y => strcaseEq x.1 y.1 = false) ∧
      ∀ x ∈ varsOf n' 0, ∀ y ∈ x.2, holdsQuote y = false := by
  rw [importedGroup, lineToGroup_plain, Option.map_eq_some_iff] at h
  obtain ⟨sl, hsl, rfl⟩ := h
  have hwords := Words.quote_not_mem_fromString2 (by decide) hsl
  rw [(stringListToDb_vars hnames.plain hnames.bytes_ne_nil (isGroup_emptyGroup _)).2,
    varsOf_emptyGroup]
  exact addVars_spec (fun cell hcell => hwords cell.2 (List.of_mem_zip hcell).2)
    List.Pairwise.nil fun x hx => absurd hx List.not_mem_nil

/-- The groups that are imported are those that were exported exactly when no value holds a quote
and, if there are groups, no two columns have names that differ in case only. -/
theorem roundTrips_iff (hnames : PlainNames names) {delimiter : CString} {title : Bool}
    (hd : isDelimiter (delimiterOf (plainConfig names delimiter title)) = true) {data : List DbHeap}
    (hdata : ∀ n ∈ data, ∃ v, IsLine names v n) :
    RoundTrips (plainConfig names delimiter title) data ↔
      (∀ n ∈ data, ∀ x ∈ varsOf n 0, ∀ y ∈ x.2, holdsQuote y = false) ∧
        (data = [] ∨ names.Pairwise fun a b => strcaseEq a b = false) := by
  rw [roundTrips_iff_groups hnames hd hdata]
  constructor
  · intro h
    have hback : ∀ n ∈ data, (varsOf n 0).Pairwise (fun x y => strcaseEq x.1 y.1 = false) ∧
        ∀ x ∈ varsOf n 0, ∀ y ∈ x.2, holdsQuote y = false := by
      intro n hn
      obtain ⟨n', hn', hsame⟩ := exists_of_forall₂ h n hn
      obtain ⟨m, -, hm⟩ := List.mem_flatMap.mp hn'
      obtain ⟨hpair, hvals⟩ := importedGroup_spec hnames (Option.mem_toList.mp hm)
      exact ⟨hsame.2.pairwise hpair strcaseEq_symm, fun x hx => hvals x (hsame.2.mem_iff.mpr hx)⟩
    refine ⟨fun n hn => (hback n hn).2, ?_⟩
    cases data with
    | nil => exact Or.inl rfl
    | cons n data =>
        obtain ⟨v, hv⟩ := hdata n List.mem_cons_self
        have hpair := hv.vars.pairwise (hback n List.mem_cons_self).1 strcaseEq_symm
        exact Or.inr (List.pairwise_map.mp hpair)
  · rintro ⟨hquote, hnil | hpair⟩
    · rw [hnil]
      exact List.Forall₂.nil
    · induction data with
      | nil => exact List.Forall₂.nil
      | cons n data ih =>
          rw [List.forall_mem_cons] at hquote hdata
          obtain ⟨v, hv⟩ := hdata.1
          obtain ⟨n', hn', hsame⟩ :=
            importedGroup_same hnames delimiter title hv hquote.1 hpair
          rw [List.flatMap_cons, hn', Option.toList_some, List.singleton_append]
          exact List.Forall₂.cons hsame (ih hdata.2 hquote.2)

/-! ### A column and a line -/

/-- The column `a` only. -/
def oneColumn : List CString := [str ['a']]

/-- A line with a value for the column `a`. -/
def oneLine (value : CString) : DbHeap :=
  (setCharValue (emptyGroup (str ['l', 'i', 'n', 'e'])) 0 flagsDefault (str ['a']) value).2

theorem plainNames_oneColumn : PlainNames oneColumn where
  nonempty := List.cons_ne_nil _ _
  nodup := List.nodup_singleton _
  plain := by decide
  bytes_ne_nil := by decide
  short := by decide

theorem isLine_oneLine {value : CString} (hvalue : ∀ c ∈ value.bytes, isCntrl c = false) :
    varsOf (oneLine value) 0 = [(str ['a'], [.char value])] ∧
      IsLine oneColumn (fun _ => value) (oneLine value) := by
  obtain ⟨hgroup, hname, hvars⟩ := @varsOf_setValue (emptyGroup (str ['l', 'i', 'n', 'e'])) 0
    (str ['a']) (by decide) (by decide) (isGroup_emptyGroup _) (.char value)
  exact ⟨hvars, hgroup, hname, List.Perm.of_eq hvars, fun _ _ => hvalue⟩

/-- A value with the delimiter, a backslash and blanks comes back. -/
theorem roundTrips_blanks : RoundTrips (plainConfig oneColumn (str [';']) true)
    [oneLine (str [' ', ';', '\\', ' '])] := by
  obtain ⟨hvars, hline⟩ := @isLine_oneLine (str [' ', ';', '\\', ' ']) (by decide)
  refine (roundTrips_iff plainNames_oneColumn (by decide) fun n hn => ?_).mpr ⟨?_, ?_⟩
  · rw [List.mem_singleton.mp hn]
    exact ⟨_, hline⟩
  · intro n hn
    rw [List.mem_singleton.mp hn, hvars]
    decide
  · exact Or.inr (List.pairwise_singleton _ _)

/-- A value that is a quote does not come back. -/
theorem not_roundTrips_quote : ∃ v, IsLine oneColumn v (oneLine (ofBytes [Words.quote])) ∧
    ¬ RoundTrips (plainConfig oneColumn (str [';']) true)
      [oneLine (ofBytes [Words.quote])] := by
  obtain ⟨hvars, hline⟩ := @isLine_oneLine (ofBytes [Words.quote]) (by decide)
  refine ⟨_, hline, fun h => ?_⟩
  rw [roundTrips_iff_groups plainNames_oneColumn (by decide) fun n hn => by
    rw [List.mem_singleton.mp hn]
    exact ⟨_, hline⟩] at h
  obtain ⟨n', hn', hsame⟩ := exists_of_forall₂ h _ List.mem_cons_self
  obtain ⟨m, -, hm⟩ := List.mem_flatMap.mp hn'
  have hvals := (importedGroup_spec plainNames_oneColumn (Option.mem_toList.mp hm)).2
  rw [SameGroup, hvars] at hsame
  exact absurd (hvals _ (hsame.2.mem_iff.mpr List.mem_cons_self) _ List.mem_cons_self) (by decide)

end

end Csv
end Gwenhywfar
