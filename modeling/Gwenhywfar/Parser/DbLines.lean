import Gwenhywfar.Base.FastBufferRead
import Gwenhywfar.Parser.DbRead
import Gwenhywfar.Parser.DbText

/-! # The lines of a text that is read

* `readAll`: what reading does with some lines; `readFromString_lines`: a text is read line by
  line, however the io cuts it into pieces.
* `readValuesLoop_values`: the values that were written behind an equation mark are read. -/

namespace Gwenhywfar

set_option maxRecDepth 4000

namespace Db

open Gwenhywfar.Path Text FastReader

/-! ### Lines -/

def readAll (dbflags : UInt32) : List (List UInt8) → ReadState → Option (ℤ × ReadState)
  | [], st => some (0, st)
  | line :: lines, st =>
      if line = [] then readAll dbflags lines st
      else
        (readLine dbflags line st).bind fun (rv, st) =>
          if rv ≠ 0 then some (rv, st) else readAll dbflags lines st

/-- A text that consists of these lines. -/
def unlines (lines : List (List UInt8)) : List UInt8 := lines.flatMap fun line => line ++ [0x0a]

def IsLine (line : List UInt8) : Prop := ∀ c ∈ line, c ≠ 0x0a ∧ c ≠ 0x0d

theorem IsLine.read {line : List UInt8} (h : IsLine line) :
    (0x0a : UInt8) ∉ line ∧ withoutCr line = line := by
  refine ⟨fun hmem => (h _ hmem).1 rfl, ?_⟩
  rw [withoutCr, List.filter_eq_self]
  exact fun c hc => bne_iff_ne.mpr (h c hc).2

theorem IsLine.append {l1 l2 : List UInt8} (h1 : IsLine l1) (h2 : IsLine l2) :
    IsLine (l1 ++ l2) := fun c hc => (List.mem_append.mp hc).elim (h1 c) (h2 c)

instance instDecidableIsLine (line : List UInt8) : Decidable (IsLine line) :=
  inferInstanceAs (Decidable (∀ c ∈ line, c ≠ 0x0a ∧ c ≠ 0x0d))

theorem unlines_append (l1 l2 : List (List UInt8)) :
    unlines (l1 ++ l2) = unlines l1 ++ unlines l2 := List.flatMap_append

theorem unlines_cons (line : List UInt8) (lines : List (List UInt8)) :
    unlines (line :: lines) = line ++ 0x0a :: unlines lines := by
  rw [unlines, List.flatMap_cons, List.append_assoc]
  rfl

theorem length_le_unlines : ∀ lines : List (List UInt8), lines.length ≤ (unlines lines).length
  | [] => Nat.zero_le _
  | line :: lines => by
      have ih := length_le_unlines lines
      rw [unlines_cons, List.length_append, List.length_cons, List.length_cons]
      omega

section
variable {dbflags : UInt32}

theorem readAll_append {l1 l2 : List (List UInt8)} {st st1 st2 : ReadState}
    (h1 : readAll dbflags l1 st = some (0, st1)) (h2 : readAll dbflags l2 st1 = some (0, st2)) :
    readAll dbflags (l1 ++ l2) st = some (0, st2) := by
  induction l1 generalizing st with
  | nil =>
      rw [readAll] at h1
      obtain rfl := (Prod.mk.inj (Option.some.inj h1)).2
      exact h2
  | cons line l1 ih =>
      rw [List.cons_append, readAll]
      rw [readAll] at h1
      split at h1
      · next hnil => rw [if_pos hnil, ih h1]
      · next hne =>
          obtain ⟨r, hr, h1⟩ := Option.bind_eq_some_iff.mp h1
          rw [if_neg hne, hr, Option.bind_some]
          dsimp only at h1 ⊢
          split at h1
          · next hrv => exact absurd (Prod.mk.inj (Option.some.inj h1)).1 hrv
          · next hrv => rw [if_neg hrv, ih h1]

theorem readAll_single {line : List UInt8} {st st' : ReadState} (hne : line ≠ [])
    (h : readLine dbflags line st = some (0, st')) : readAll dbflags [line] st = some (0, st') := by
  rw [readAll, if_neg hne, h]
  rfl

theorem readLines_eq (huntil : has dbflags flagsUntilEmptyLine = false) :
    ∀ {lines : List (List UInt8)} {k : ℕ} {read : Bool} {fb : FastReader} (st : ReadState),
    (∀ line ∈ lines, IsLine line) → lines.length < k → fb.Holds (unlines lines) →
    (read = true ∨ ∃ line ∈ lines, line ≠ []) →
    readLines dbflags k read fb st = readAll dbflags lines st
  | [], k + 1, read, fb, st, _, _, hfb, hread => by
      have hend := readLineToBuffer_end hfb []
      obtain rfl : read = true := hread.resolve_right fun ⟨_, hmem, _⟩ => absurd hmem (by simp)
      rw [readLines]
      dsimp only
      rw [hend, if_pos (by decide), if_pos ⟨rfl, .inl rfl⟩, readAll]
  | line :: lines, k + 1, read, fb, st, hlines, hk, hfb, hread => by
      rw [List.forall_mem_cons] at hlines
      rw [unlines_cons] at hfb
      obtain ⟨hline, hcr⟩ := hlines.1.read
      obtain ⟨fb', hstep, hfb'⟩ := readLineToBuffer_line hfb hline []
      rw [hcr, List.nil_append] at hstep
      have hk : lines.length < k := Nat.lt_of_succ_lt_succ hk
      rw [readLines, hstep, readAll]
      dsimp only
      rw [if_neg (lt_irrefl 0)]
      by_cases hnil : line = []
      · have hread' : read = true ∨ ∃ line ∈ lines, line ≠ [] := by
          refine hread.imp_right fun ⟨l, hmem, hne⟩ => ⟨l, ?_, hne⟩
          exact (List.mem_cons.mp hmem).resolve_left fun heq => hne (heq.trans hnil)
        rw [if_pos hnil, if_pos hnil, huntil, if_neg Bool.false_ne_true,
          readLines_eq huntil st hlines.2 hk hfb' hread']
      · rw [if_neg hnil, if_neg hnil]
        cases readLine dbflags line st with
        | none => rfl
        | some r =>
            rw [Option.bind_some, Option.bind_some]
            split
            · rfl
            · exact readLines_eq huntil _ hlines.2 hk hfb' (.inl rfl)

theorem holds_memoryReads {size : ℕ} (hsize : 0 < size) : ∀ {k : ℕ} {text : List UInt8},
    text.length ≤ k → (⟨[], memoryReads size k text⟩ : FastReader).Holds text
  | 0, text, hk => by
      rw [List.eq_nil_of_length_eq_zero (Nat.le_zero.mp hk)]
      exact ⟨[], ⟨rfl, fun _ hp => absurd hp List.not_mem_nil⟩, rfl⟩
  | k + 1, [], _ => ⟨[], ⟨rfl, fun _ hp => absurd hp List.not_mem_nil⟩, rfl⟩
  | k + 1, c :: text, hk => by
      have hdrop : ((c :: text).drop size).length ≤ k := by
        rw [List.length_drop]
        omega
      obtain ⟨pieces, hpieces, hflatten⟩ := holds_memoryReads hsize hdrop
      have hio : memoryReads size k ((c :: text).drop size) = pieces.map .data := hpieces.io_eq
      refine ⟨(c :: text).take size :: pieces, ⟨?_, ?_⟩, ?_⟩
      · rw [memoryReads, List.map_cons, hio]
      · rw [List.forall_mem_cons]
        refine ⟨fun hnil => ?_, hpieces.nonempty⟩
        rw [List.take_eq_nil_iff] at hnil
        rcases hnil with h0 | hnil
        · omega
        · cases hnil
      · rw [List.nil_append] at hflatten ⊢
        rw [List.flatten_cons, hflatten, List.take_append_drop]

theorem readFromFastBuffer_lines (huntil : has dbflags flagsUntilEmptyLine = false)
    {lines : List (List UInt8)} {h h' : DbHeap} {n n' k : ℕ} {fb : FastReader}
    (hlines : ∀ line ∈ lines, IsLine line) (hfb : fb.Holds (unlines lines))
    (hk : lines.length ≤ k) (hne : ∃ line ∈ lines, line ≠ [])
    (hall : readAll dbflags lines ⟨n, 0, h⟩ = some (0, ⟨n', 0, h'⟩)) :
    readFromFastBuffer h n fb dbflags k = some (0, h') := by
  rw [readFromFastBuffer, readLines_eq huntil _ hlines (Nat.lt_succ_of_le hk) hfb (.inr hne), hall]
  rfl

theorem readFromString_lines (huntil : has dbflags flagsUntilEmptyLine = false)
    {lines : List (List UInt8)} {h h' : DbHeap} {n n' : ℕ}
    (hlines : ∀ line ∈ lines, IsLine line) (hne : ∃ line ∈ lines, line ≠ [])
    (hall : readAll dbflags lines ⟨n, 0, h⟩ = some (0, ⟨n', 0, h'⟩)) :
    readFromString h n (unlines lines) dbflags = some (0, h') :=
  readFromFastBuffer_lines huntil hlines (holds_memoryReads (by decide) le_rfl)
    (length_le_unlines lines) hne hall

end

/-! ### Values -/

theorem hexValue_hexDigits (c : UInt8) :
    ((hexValue (hexDigit ((c >>> 4) &&& 0xf)) <<< 4) ||| hexValue (hexDigit (c &&& 0xf))) = c := by
  have h : ∀ c : UInt8, ((hexValue (hexDigit ((c >>> 4) &&& 0xf)) <<< 4) |||
      hexValue (hexDigit (c &&& 0xf))) = c := by decide
  exact h c

theorem readChars_cons {c : UInt8} (hc : c ≠ code '%') (wbuf p : List UInt8) :
    readChars true wbuf (c :: p) =
      if c = 0x22 then some (wbuf, p) else readChars true (wbuf ++ [c]) p := by
  conv_lhs => unfold readChars
  rw [if_neg hc, if_pos rfl]

/-- Characters between quotation marks, of which at least the mark of an escaped byte and the
quotation mark are escaped. -/
theorem readChars_escapeWith (plain : UInt8 → Bool) (hmark : plain (code '%') = false)
    (hquote : plain quotationMark = false) (rest : List UInt8) : ∀ (wbuf s : List UInt8),
    readChars true wbuf (escapeWith (code '%') plain s ++ quotationMark :: rest) =
      some (wbuf ++ s, rest)
  | wbuf, [] => by
      rw [escapeWith, List.flatMap_nil, List.nil_append, readChars_cons (by decide),
        if_pos (by decide), List.append_nil]
  | wbuf, c :: s => by
      rw [escapeWith_cons]
      by_cases hc : plain c = true
      · have hne : c ≠ code '%' ∧ c ≠ 0x22 := by
          constructor <;> rintro rfl
          · exact absurd (hc.symm.trans hmark) (by decide)
          · exact absurd (hc.symm.trans hquote) (by decide)
        rw [if_pos hc, List.cons_append, List.nil_append, List.cons_append, readChars_cons hne.1,
          if_neg hne.2, readChars_escapeWith plain hmark hquote rest, List.append_assoc,
          List.singleton_append]
      · rw [if_neg hc, hexDigits, List.cons_append, List.cons_append, List.cons_append,
          List.cons_append, List.cons_append, List.nil_append, List.cons_append, readChars,
          if_pos rfl, hexValue_hexDigits, readChars_escapeWith plain hmark hquote rest,
          List.append_assoc, List.singleton_append]

theorem escapeWith_of_plain {mark : UInt8} {plain : UInt8 → Bool} :
    ∀ {s : List UInt8}, (∀ c ∈ s, plain c = true) → escapeWith mark plain s = s
  | [], _ => rfl
  | c :: s, h => by
      rw [List.forall_mem_cons] at h
      rw [escapeWith_cons, if_pos h.1, escapeWith_of_plain h.2, List.singleton_append]

def typeOf : DbValue → Option ValueType
  | .char _ => some .char
  | .int _ => some .int
  | .bin _ => some .bin
  | .ptr _ => none

def typeName : ValueType → List UInt8
  | .char => ascii ['c', 'h', 'a', 'r']
  | .int => ascii ['i', 'n', 't']
  | .bin => ascii ['b', 'i', 'n']

def typeBlanks : ValueType → List UInt8
  | .char => ascii [' ']
  | .int | .bin => ascii [' ', ' ']

def valueBytes : DbValue → List UInt8
  | .char s => Text.escapeToBufferTolerant s.bytes
  | .int i => printInt i
  | .bin b => toHex b
  | .ptr _ => []

/-- The text of a value. -/
def quoted (v : DbValue) : List UInt8 := quotationMark :: (valueBytes v ++ [quotationMark])

def moreText (values : List DbValue) : List UInt8 :=
  values.flatMap fun v => ascii [',', ' '] ++ quoted v

section
variable {v : DbValue} {ty : ValueType}

theorem valueText_eq (hv : typeOf v = some ty) :
    valueText flagsDefault v = some (typeName ty ++ typeBlanks ty, valueBytes v) := by
  cases v with
  | ptr p => cases hv
  | char s =>
      obtain rfl := Option.some.inj hv
      rfl
  | int i =>
      obtain rfl := Option.some.inj hv
      rfl
  | bin b =>
      obtain rfl := Option.some.inj hv
      rfl

theorem valueType_typeName (ty : ValueType) :
    valueType (some (CString.ofBytes (typeName ty))) = some ty := by
  cases ty <;> decide

theorem printInt_plain (i : Int32) : ∀ c ∈ printInt i, (isDigit c || c == code '-') = true := by
  intro c hc
  by_contra hnot
  rw [Bool.or_eq_true, not_or, Bool.not_eq_true, beq_iff_eq] at hnot
  exact not_mem_printInt i hnot.1 hnot.2 hc

theorem toHex_plain (b : List UInt8) : ∀ c ∈ toHex b, isXDigit c = true := by
  intro c hc
  rw [toHex, List.mem_flatMap] at hc
  obtain ⟨d, -, hd⟩ := hc
  exact hexDigits_isXDigit hd

theorem valueBytes_plain (v : DbValue) : ∀ c ∈ valueBytes v, c ≠ 0 ∧ c ≠ 0x0a ∧ c ≠ 0x0d := by
  intro c hc
  have hbytes : ∀ c : UInt8, isTolerated c = true ∨ c = code '%' ∨ isXDigit c = true ∨
      (isDigit c || c == code '-') = true → c ≠ 0 ∧ c ≠ 0x0a ∧ c ≠ 0x0d := by decide
  cases v with
  | char s => exact hbytes c ((mem_escapeWith hc).imp_right fun h => h.imp_right .inl)
  | int i => exact hbytes c (.inr (.inr (.inr (printInt_plain i c hc))))
  | bin b => exact hbytes c (.inr (.inr (.inl (toHex_plain b c hc))))
  | ptr p => exact absurd hc List.not_mem_nil

theorem readChars_quoted (hv : typeOf v = some ty) (rest : List UInt8) :
    ∃ wbuf, readChars true [] (valueBytes v ++ quotationMark :: rest) = some (wbuf, rest) ∧
      toValue ty (CString.ofBytes wbuf) = some v := by
  have hplain (s : List UInt8) (hs : ∀ c ∈ s, c ≠ code '%' ∧ c ≠ quotationMark) :
      readChars true [] (s ++ quotationMark :: rest) = some (s, rest) := by
    have hall : ∀ c ∈ s, (c != code '%' && c != quotationMark) = true := fun c hc => by
      rw [Bool.and_eq_true, bne_iff_ne, bne_iff_ne]
      exact hs c hc
    have hread := readChars_escapeWith (fun c => c != code '%' && c != quotationMark) (by decide)
      (by decide) rest [] s
    rw [escapeWith_of_plain hall] at hread
    exact hread
  cases v with
  | ptr p => cases hv
  | char s =>
      obtain rfl := Option.some.inj hv
      refine ⟨s.bytes, readChars_escapeWith isTolerated (by decide) (by decide) rest [] s.bytes, ?_⟩
      rw [CString.ofBytes_eq]
      rfl
  | int i =>
      obtain rfl := Option.some.inj hv
      have hbytes : ∀ c : UInt8, (isDigit c || c == code '-') = true →
          c ≠ code '%' ∧ c ≠ quotationMark := by decide
      refine ⟨printInt i, hplain _ fun c hc => hbytes c (printInt_plain i c hc), ?_⟩
      have hnul : 0 ∉ printInt i := fun h0 => (valueBytes_plain (.int i) 0 h0).1 rfl
      rw [toValue, CString.ofBytes_bytes hnul, scanInt_printInt]
      rfl
  | bin b =>
      obtain rfl := Option.some.inj hv
      have hbytes : ∀ c : UInt8, isXDigit c = true → c ≠ code '%' ∧ c ≠ quotationMark := by
        decide
      refine ⟨toHex b, hplain _ fun c hc => hbytes c (toHex_plain b c hc), ?_⟩
      have hnul : 0 ∉ toHex b := fun h0 => (valueBytes_plain (.bin b) 0 h0).1 rfl
      rw [toValue, CString.ofBytes_bytes hnul, fromHexBuffer_toHex]
      rfl

def addValues (h : DbHeap) (dbVar : ℕ) (values : List DbValue) : DbHeap :=
  values.foldl (fun h val => appendValue h dbVar val) h

theorem readValuesLoop_cons (hv : typeOf v = some ty) (dbVar k : ℕ) (blanks rest : List UInt8)
    (hblanks : ∀ c ∈ blanks, isSpace c = true) (h : DbHeap) :
    readValuesLoop ty dbVar (k + 1) (blanks ++ (quoted v ++ rest)) h =
      match rest.dropWhile isSpace with
      | [] => (0, appendValue h dbVar v)
      | c :: p =>
          if c = code ';' ∨ c = code '#' then (0, appendValue h dbVar v)
          else if c ≠ code ',' then (errorBadData, appendValue h dbVar v)
          else readValuesLoop ty dbVar k p (appendValue h dbVar v) := by
  obtain ⟨wbuf, hread, hvalue⟩ := readChars_quoted hv rest
  have hquoted : quoted v ++ rest = quotationMark :: (valueBytes v ++ quotationMark :: rest) := by
    rw [quoted, List.cons_append, List.append_assoc, List.singleton_append]
  have hhead (s : List UInt8) : ((quotationMark :: s).head? == some 0x22) = true := rfl
  rw [readValuesLoop, hquoted, List.dropWhile_append_of_pos hblanks,
    List.dropWhile_cons_of_neg (by decide)]
  dsimp only
  rw [if_neg (List.cons_ne_nil _ _), hhead, if_pos rfl, List.tail_cons, hread]
  dsimp only
  generalize toValue ty (CString.ofBytes wbuf) = read at hvalue ⊢
  subst hvalue
  rfl

theorem readValuesLoop_values (dbVar : ℕ) : ∀ {values : List DbValue} {v : DbValue} {k : ℕ}
    (blanks : List UInt8) (h : DbHeap), (∀ w ∈ v :: values, typeOf w = some ty) →
    values.length < k → (∀ c ∈ blanks, isSpace c = true) →
    readValuesLoop ty dbVar k (blanks ++ (quoted v ++ moreText values)) h =
      (0, addValues h dbVar (v :: values))
  | [], v, k + 1, blanks, h, hty, _, hblanks => by
      rw [readValuesLoop_cons (hty v List.mem_cons_self) dbVar k blanks (moreText []) hblanks h]
      rfl
  | w :: values, v, k + 1, blanks, h, hty, hk, hblanks => by
      rw [List.forall_mem_cons] at hty
      have hmore : moreText (w :: values) =
          code ',' :: (ascii [' '] ++ (quoted w ++ moreText values)) := by
        rw [moreText, List.flatMap_cons, List.append_assoc]
        rfl
      have hblank : ∀ c ∈ ascii [' '], isSpace c = true := by decide
      have ih := readValuesLoop_values dbVar (ascii [' ']) (appendValue h dbVar v) hty.2
        (Nat.lt_of_succ_lt_succ hk) hblank
      rw [readValuesLoop_cons hty.1 dbVar k blanks _ hblanks h, hmore,
        List.dropWhile_cons_of_neg (by decide)]
      dsimp only
      rw [if_neg (by decide), if_neg (by decide), ih]
      rfl

end

end Db
end Gwenhywfar
