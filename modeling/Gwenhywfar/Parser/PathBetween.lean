import Gwenhywfar.Parser.Words

/-! # The path from a path to another one

* `getPathBetween`: `GWEN_Path_GetPathBetween`, which compares the segments with `strcasecmp`.
* `resolve`: a file system follows a path, and compares the segments exactly.
* `leadsTo_iff`: the path leads to its target unless the first segments that differ are equal in
  other respects than the case. -/

namespace Gwenhywfar

set_option maxRecDepth 4000

namespace PathBetween

open Words

/-! ### The functions -/

def splitFlags : UInt32 := flagsDelQuotes ||| flagsCheckBackslash

/-- `GWEN_StringList_fromString2` with a slash as the delimiter. -/
def splitPath (path : CString) : Option (List (List UInt8)) :=
  fromString2 path.bytes [code '/'] splitFlags

/-- `strcasecmp` finds no difference. -/
def caseEq (s1 s2 : List UInt8) : Bool := s1.map toLower == s2.map toLower

/-- `GWEN_StringList_RemoveCommonFirstEntries`. -/
def removeCommonFirstEntries :
    List (List UInt8) → List (List UInt8) → List (List UInt8) × List (List UInt8)
  | s1 :: sl1, s2 :: sl2 =>
      if s1 ≠ [] ∧ s2 ≠ [] ∧ caseEq s1 s2 = true then removeCommonFirstEntries sl1 sl2
      else (s1 :: sl1, s2 :: sl2)
  | sl1, sl2 => (sl1, sl2)

/-- The segment for the directory above. -/
def dotdot : List UInt8 := [code '.', code '.']

def appendSegment (buf s : List UInt8) : List UInt8 :=
  if buf ≠ [] then buf ++ [code '/'] ++ s else buf ++ s

/-- `_getPathBetween`; a path without segments has no list. -/
def getPathBetweenLists (path1 path2 : CString) (diffBuf : List UInt8) : Option (List UInt8) :=
  (splitPath path2).bind fun sl2 => (splitPath path1).map fun sl1 =>
    let r := removeCommonFirstEntries sl1 sl2
    let buf := (List.replicate r.1.length dotdot).foldl appendSegment diffBuf
    r.2.foldl (fun buf s => if s ≠ [] then appendSegment buf s else buf) buf

/-- `GWEN_Path_GetPathBetween`, which returns 0; an empty path stands for none. -/
def getPathBetween (path1 path2 : CString) (diffBuf : List UInt8) : Option (List UInt8) :=
  if path1.bytes = [] then some (diffBuf ++ path2.bytes)
  else if path2.bytes = [] then
    (splitPath path1).elim (getPathBetweenLists path1 path2 diffBuf) fun sl1 =>
      some (diffBuf ++ [code '/'].intercalate (List.replicate sl1.length dotdot))
  else getPathBetweenLists path1 path2 diffBuf

/-! ### Following a path -/

def segments (path : List UInt8) : List (List UInt8) :=
  if path = [] then [] else path.splitOn (code '/')

/-- The directory that a path leads to. -/
def resolve (base : List (List UInt8)) (path : List UInt8) : List (List UInt8) :=
  (segments path).foldl (fun dir s => if s = dotdot then dir.dropLast else dir ++ [s]) base

/-- A segment without blanks, quotes and backslashes that is neither `.` nor `..`. -/
structure IsSegment (s : List UInt8) : Prop where
  ne_nil : s ≠ []
  plain : ∀ c ∈ s, isSpace c = false ∧ c ≠ quote ∧ c ≠ code '\\'
  no_dot : s ≠ [code '.'] ∧ s ≠ dotdot

/-- A relative path of such segments. -/
structure IsPath (path : CString) : Prop where
  ne_nil : path.bytes ≠ []
  isSegment : ∀ s ∈ segments path.bytes, IsSegment s

def LeadsTo (path1 path2 : CString) : Prop :=
  ∃ text, getPathBetween path1 path2 [] = some text ∧
    resolve (segments path1.bytes) text = segments path2.bytes

def DiffersInCase (sl1 sl2 : List (List UInt8)) : Prop :=
  ∃ pre s1 s2 rest1 rest2, sl1 = pre ++ s1 :: rest1 ∧ sl2 = pre ++ s2 :: rest2 ∧ s1 ≠ s2 ∧
    caseEq s1 s2 = true

section
variable {s s1 s2 text rest buf : List UInt8} {sl sl1 sl2 : List (List UInt8)} {path : CString}

/-! ### Splitting a path -/

/-- A segment as the loop for a word sees it. -/
def Plain (s : List UInt8) : Prop :=
  s ≠ [] ∧ ∀ c ∈ s, isSpace c = false ∧ c ≠ quote ∧ c ≠ code '\\' ∧ c ≠ code '/'

/-- The end of a path, or what follows a slash. -/
def AtSlash (rest : List UInt8) : Prop := rest = [] ∨ ∃ tail, rest = code '/' :: tail

theorem wordLoop_plain (hrest : AtSlash rest) : ∀ {s : List UInt8} {st : WordState},
    (∀ c ∈ s, isSpace c = false ∧ c ≠ quote ∧ c ≠ code '\\' ∧ c ≠ code '/') →
    st.insideQuotes = false → st.lastWasEscape = false →
    ∃ st', wordLoop [code '/'] splitFlags st (s ++ rest) = some (st', rest) ∧
      st'.insideQuotes = false ∧ st'.buf = st.buf ++ s
  | [], st, _, hin, hesc => by
      refine ⟨st, ?_, hin, (List.append_nil _).symm⟩
      rw [List.nil_append]
      rcases hrest with rfl | ⟨tail, rfl⟩
      · rw [wordLoop]
      · rw [wordLoop, hesc, if_neg Bool.false_ne_true, if_neg fun h => absurd h.1 (by decide),
          hin, if_pos (by decide)]
  | c :: s, st, hs, hin, hesc => by
      rw [List.forall_mem_cons] at hs
      obtain ⟨⟨-, hquote, hbackslash, hslash⟩, hs⟩ := hs
      have hdelim : ([code '/'] : List UInt8).contains c = false := by simpa using hslash
      obtain ⟨st', hloop, hin', hbuf⟩ := @wordLoop_plain hrest s
        { insideQuotes := st.insideQuotes
          lastWasEscape := st.lastWasEscape
          lastWasBlank := isBlank c
          lastBlankPos := if isBlank c then some (st.buf ++ [c]).length else none
          buf := st.buf ++ [c] } hs hin hesc
      have hmultiple : has splitFlags flagsDelMultipleBlanks = false := by decide
      refine ⟨st', ?_, hin', ?_⟩
      · rw [List.cons_append, wordLoop, hesc, if_neg Bool.false_ne_true,
          if_neg fun h => hbackslash h.1, hin, hdelim, if_neg (by simp), if_neg hquote, hmultiple]
        rw [hesc, hin] at hloop
        simpa using hloop
      · rw [hbuf, List.append_assoc]
        rfl

theorem getWordToBuffer_plain (hs : Plain s) (hrest : AtSlash rest) :
    getWordToBuffer (s ++ rest) [code '/'] [] splitFlags = some (s, rest) := by
  obtain ⟨st', hloop, hin, hbuf⟩ := @wordLoop_plain rest hrest s ⟨false, false, false, none, []⟩
    hs.2 rfl rfl
  have hflags : has splitFlags flagsDelLeadingBlanks = false ∧
      has splitFlags flagsNeedDelimiter = false ∧
      has splitFlags flagsDelTrailingBlanks = false := by decide
  have hhead : ((s ++ rest).head? == some quote) = false := by
    obtain ⟨c, s', rfl⟩ := List.exists_cons_of_ne_nil hs.1
    have hquote := (hs.2 c List.mem_cons_self).2.1
    rw [List.cons_append, List.head?_cons]
    simpa using hquote
  rw [getWordToBuffer]
  dsimp only
  rw [hflags.1, if_neg Bool.false_ne_true, if_neg fun h => absurd h.1 Bool.false_ne_true, hhead,
    Bool.false_and, if_neg Bool.false_ne_true, hloop, Option.bind_some]
  dsimp only
  rw [hin, if_neg Bool.false_ne_true, endsWell, hflags.2.1, hflags.2.2, Bool.not_false,
    Bool.true_or, Bool.not_true, if_neg Bool.false_ne_true, if_neg Bool.false_ne_true, hbuf,
    List.nil_append]

theorem intercalate_cons (s : List UInt8) (sl : List (List UInt8)) :
    [code '/'].intercalate (s :: sl) = s ++ sl.flatMap fun s => code '/' :: s := by
  induction sl generalizing s with
  | nil => simp [List.intercalate]
  | cons s' sl ih =>
      have hcons : [code '/'].intercalate (s :: s' :: sl) =
          s ++ [code '/'] ++ [code '/'].intercalate (s' :: sl) := by
        simp [List.intercalate, List.intersperse]
      rw [hcons, ih, List.flatMap_cons, List.append_assoc]
      rfl

theorem fromString2Loop_plain : ∀ {sl : List (List UInt8)} {k : ℕ}, (∀ s ∈ sl, Plain s) →
    sl.length ≤ k →
    fromString2Loop [code '/'] splitFlags k ([code '/'].intercalate sl) = sl
  | [], 0, _, _ => rfl
  | [], k + 1, _, _ => rfl
  | s :: sl, k + 1, hsl, hk => by
      rw [List.forall_mem_cons] at hsl
      obtain ⟨c, s', rfl⟩ := List.exists_cons_of_ne_nil hsl.1.1
      have hspace := (hsl.1.2 c List.mem_cons_self).1
      have hrest : AtSlash (sl.flatMap fun s => code '/' :: s) := by
        cases sl with
        | nil => exact Or.inl rfl
        | cons s sl => exact Or.inr ⟨_, List.flatMap_cons⟩
      have htail : (sl.flatMap fun s => code '/' :: s).tail = [code '/'].intercalate sl := by
        cases sl with
        | nil => rfl
        | cons s sl =>
            rw [intercalate_cons, List.flatMap_cons]
            rfl
      have hword := getWordToBuffer_plain hsl.1 hrest
      rw [List.cons_append] at hword
      rw [fromString2Loop, intercalate_cons, List.cons_append]
      dsimp only
      rw [List.dropWhile_cons_of_neg (by rw [hspace]; exact Bool.false_ne_true),
        if_neg (List.cons_ne_nil _ _), hword, Option.elim_some]
      dsimp only
      rw [htail, fromString2Loop_plain hsl.2 (Nat.le_of_succ_le_succ hk)]

theorem slash_not_mem_splitOn : ∀ {xs : List UInt8}, ∀ s ∈ xs.splitOn (code '/'), code '/' ∉ s
  | [], s, hs => by
      rw [List.splitOn_nil, List.mem_singleton] at hs
      rw [hs]
      exact List.not_mem_nil
  | c :: xs, s, hs => by
      rw [List.splitOn_cons_eq_if_modifyHead] at hs
      obtain ⟨t, sl, hsplit⟩ := List.exists_cons_of_ne_nil (List.splitOn_ne_nil (code '/') xs)
      have ih := @slash_not_mem_splitOn xs
      rw [hsplit] at ih hs
      split at hs
      · rcases List.mem_cons.mp hs with rfl | hs
        · exact List.not_mem_nil
        · exact ih s hs
      · next hc =>
          rw [List.modifyHead_cons] at hs
          rcases List.mem_cons.mp hs with rfl | hs
          · rw [List.mem_cons, not_or]
            exact ⟨fun heq => hc (beq_iff_eq.mpr heq.symm), ih t List.mem_cons_self⟩
          · exact ih s (List.mem_cons_of_mem _ hs)

theorem segments_of_ne_nil (h : text ≠ []) : segments text = text.splitOn (code '/') := if_neg h

theorem length_le_intercalate : ∀ {sl : List (List UInt8)}, (∀ s ∈ sl, s ≠ []) →
    sl.length ≤ ([code '/'].intercalate sl).length
  | [], _ => Nat.zero_le _
  | s :: sl, h => by
      rw [List.forall_mem_cons] at h
      have hs := List.length_pos_iff.mpr h.1
      have hrest : sl.length ≤ (sl.flatMap fun s => code '/' :: s).length := by
        cases sl with
        | nil => exact Nat.zero_le _
        | cons s' sl =>
            have ih := length_le_intercalate h.2
            rw [intercalate_cons, List.length_append] at ih
            rw [List.flatMap_cons, List.length_append]
            simp only [List.length_cons] at ih ⊢
            omega
      rw [intercalate_cons, List.length_append, List.length_cons]
      omega

theorem IsPath.plain (h : IsPath path) : ∀ s ∈ segments path.bytes, Plain s := by
  intro s hs
  have hsegment := h.isSegment s hs
  rw [segments_of_ne_nil h.ne_nil] at hs
  refine ⟨hsegment.ne_nil, fun c hc => ?_⟩
  obtain ⟨h1, h2, h3⟩ := hsegment.plain c hc
  exact ⟨h1, h2, h3, fun heq => slash_not_mem_splitOn s hs (heq ▸ hc)⟩

theorem splitPath_eq (h : IsPath path) : splitPath path = some (segments path.bytes) := by
  have hbytes : [code '/'].intercalate (segments path.bytes) = path.bytes := by
    rw [segments_of_ne_nil h.ne_nil]
    exact List.intercalate_splitOn _
  have hne : segments path.bytes ≠ [] := by
    rw [segments_of_ne_nil h.ne_nil]
    exact List.splitOn_ne_nil _ _
  have hlength := length_le_intercalate fun s hs => (h.isSegment s hs).ne_nil
  rw [hbytes] at hlength
  have hloop := fromString2Loop_plain h.plain hlength
  rw [hbytes] at hloop
  unfold splitPath fromString2
  rw [hloop]
  exact if_neg hne

/-! ### The common segments -/

theorem differsInCase_cons : DiffersInCase (s1 :: sl1) (s2 :: sl2) ↔
    s1 ≠ s2 ∧ caseEq s1 s2 = true ∨ s1 = s2 ∧ DiffersInCase sl1 sl2 := by
  constructor
  · rintro ⟨pre, t1, t2, rest1, rest2, h1, h2, hne, hcase⟩
    cases pre with
    | nil =>
        obtain ⟨rfl, rfl⟩ := List.cons.inj h1
        obtain ⟨rfl, rfl⟩ := List.cons.inj h2
        exact Or.inl ⟨hne, hcase⟩
    | cons t pre =>
        obtain ⟨rfl, hrest1⟩ := List.cons.inj h1
        obtain ⟨rfl, hrest2⟩ := List.cons.inj h2
        exact Or.inr ⟨rfl, pre, t1, t2, rest1, rest2, hrest1, hrest2, hne, hcase⟩
  · rintro (⟨hne, hcase⟩ | ⟨rfl, pre, t1, t2, rest1, rest2, rfl, rfl, hne, hcase⟩)
    · exact ⟨[], s1, s2, sl1, sl2, rfl, rfl, hne, hcase⟩
    · exact ⟨s1 :: pre, t1, t2, rest1, rest2, rfl, rfl, hne, hcase⟩

theorem caseEq_self (s : List UInt8) : caseEq s s = true := beq_iff_eq.mpr rfl

theorem removeCommonFirstEntries_spec : ∀ {sl1 sl2 : List (List UInt8)}, (∀ s ∈ sl1, s ≠ []) →
    (∀ s ∈ sl2, s ≠ []) → ∃ c1 c2 rest1 rest2, sl1 = c1 ++ rest1 ∧ sl2 = c2 ++ rest2 ∧
      c1.length = c2.length ∧ removeCommonFirstEntries sl1 sl2 = (rest1, rest2) ∧
      (c1 = c2 ↔ ¬DiffersInCase sl1 sl2)
  | [], sl2, _, _ => by
      refine ⟨[], [], [], sl2, rfl, rfl, rfl, by rw [removeCommonFirstEntries]; simp, ?_⟩
      refine ⟨fun _ ⟨pre, s1, _, _, _, h1, _⟩ => ?_, fun _ => rfl⟩
      exact absurd h1.symm (by simp)
  | s1 :: sl1, [], _, _ => by
      refine ⟨[], [], s1 :: sl1, [], rfl, rfl, rfl, by rw [removeCommonFirstEntries]; simp, ?_⟩
      refine ⟨fun _ ⟨pre, _, s2, _, _, _, h2, _⟩ => ?_, fun _ => rfl⟩
      exact absurd h2.symm (by simp)
  | s1 :: sl1, s2 :: sl2, h1, h2 => by
      rw [List.forall_mem_cons] at h1 h2
      rw [removeCommonFirstEntries, differsInCase_cons]
      by_cases hcase : caseEq s1 s2 = true
      · obtain ⟨c1, c2, rest1, rest2, rfl, rfl, hlength, hremove, hiff⟩ :=
          removeCommonFirstEntries_spec h1.2 h2.2
        refine ⟨s1 :: c1, s2 :: c2, rest1, rest2, rfl, rfl, by simp [hlength], ?_, ?_⟩
        · rw [if_pos ⟨h1.1, h2.1, hcase⟩, hremove]
        · rw [List.cons.injEq, hiff]
          constructor
          · rintro ⟨heq, hnot⟩ (h | h)
            · exact h.1 heq
            · exact hnot h.2
          · intro h
            have heq : s1 = s2 := of_not_not fun hne => h (Or.inl ⟨hne, hcase⟩)
            exact ⟨heq, fun hd => h (Or.inr ⟨heq, hd⟩)⟩
      · refine ⟨[], [], s1 :: sl1, s2 :: sl2, rfl, rfl, rfl, if_neg fun h => hcase h.2.2, ?_⟩
        refine ⟨fun _ h => ?_, fun _ => rfl⟩
        rcases h with h | ⟨rfl, -⟩
        · exact hcase h.2
        · exact hcase (caseEq_self s1)

/-! ### Following the path -/

theorem foldl_appendSegment : ∀ {sl : List (List UInt8)} {buf : List UInt8}, buf ≠ [] →
    sl.foldl appendSegment buf = buf ++ sl.flatMap fun s => code '/' :: s
  | [], buf, _ => by simp
  | s :: sl, buf, hbuf => by
      have happend : appendSegment buf s = buf ++ code '/' :: s := by
        rw [appendSegment, if_pos hbuf, List.append_assoc]
        rfl
      rw [List.foldl_cons, happend, foldl_appendSegment (by simp), List.append_assoc,
        List.flatMap_cons]

theorem segments_foldl (h : ∀ s ∈ sl, s ≠ [] ∧ code '/' ∉ s) :
    segments (sl.foldl appendSegment []) = sl := by
  cases sl with
  | nil => rfl
  | cons s sl =>
      rw [List.forall_mem_cons] at h
      have hfirst : appendSegment [] s = s := if_neg (not_not_intro rfl)
      have htext : (s :: sl).foldl appendSegment [] = [code '/'].intercalate (s :: sl) := by
        rw [List.foldl_cons, hfirst, foldl_appendSegment h.1.1, intercalate_cons]
      have hne : [code '/'].intercalate (s :: sl) ≠ [] := by
        rw [intercalate_cons]
        simp [h.1.1]
      rw [htext, segments_of_ne_nil hne]
      refine List.splitOn_intercalate _ (fun t ht => ?_) (List.cons_ne_nil _ _)
      rcases List.mem_cons.mp ht with rfl | ht
      · exact h.1.2
      · exact (h.2 t ht).2

/-- Every `..` drops a segment, and the other segments are appended. -/
theorem resolve_segments (base rest : List (List UInt8)) (c : List (List UInt8))
    (hrest : ∀ s ∈ rest, s ≠ dotdot) : (List.replicate base.length dotdot ++ rest).foldl
      (fun dir s => if s = dotdot then dir.dropLast else dir ++ [s]) (c ++ base) = c ++ rest := by
  have hdrop : ∀ (base : List (List UInt8)), (List.replicate base.length dotdot).foldl
      (fun dir s => if s = dotdot then dir.dropLast else dir ++ [s]) (c ++ base) = c := by
    intro base
    induction base using List.reverseRecOn with
    | nil => exact List.append_nil c
    | append_singleton base s ih =>
        rw [List.length_append, List.length_singleton, List.replicate_succ, List.foldl_cons,
          if_pos rfl, ← List.append_assoc, List.dropLast_concat, ih]
  have happend : ∀ (rest dir : List (List UInt8)), (∀ s ∈ rest, s ≠ dotdot) → rest.foldl
      (fun dir s => if s = dotdot then dir.dropLast else dir ++ [s]) dir = dir ++ rest := by
    intro rest
    induction rest with
    | nil => exact fun dir _ => (List.append_nil dir).symm
    | cons s rest ih =>
        intro dir h
        rw [List.forall_mem_cons] at h
        rw [List.foldl_cons, if_neg h.1, ih _ h.2, List.append_assoc]
        rfl
  rw [List.foldl_append, hdrop, happend rest c hrest]

/-- The path leads to its target exactly when the first segments that differ do not differ in the
case only. -/
theorem leadsTo_iff (path1 path2 : CString) (h1 : IsPath path1) (h2 : IsPath path2) :
    LeadsTo path1 path2 ↔ ¬DiffersInCase (segments path1.bytes) (segments path2.bytes) := by
  have hplain1 := h1.plain
  have hplain2 := h2.plain
  obtain ⟨c1, c2, rest1, rest2, hs1, hs2, hlength, hremove, hiff⟩ :=
    removeCommonFirstEntries_spec (fun s hs => (hplain1 s hs).1) fun s hs => (hplain2 s hs).1
  have hmem : ∀ s ∈ rest2, s ∈ segments path2.bytes := fun s hs => by
    rw [hs2]
    exact List.mem_append_right _ hs
  have hskip : rest2.foldl (fun buf s => if s ≠ [] then appendSegment buf s else buf)
      ((List.replicate rest1.length dotdot).foldl appendSegment []) =
        (List.replicate rest1.length dotdot ++ rest2).foldl appendSegment [] := by
    rw [List.foldl_append]
    refine List.foldl_ext _ _ _ fun buf s hs => ?_
    exact if_pos (hplain2 s (hmem s hs)).1
  have hget : getPathBetween path1 path2 [] =
      some ((List.replicate rest1.length dotdot ++ rest2).foldl appendSegment []) := by
    unfold getPathBetween getPathBetweenLists
    rw [if_neg h1.ne_nil, if_neg h2.ne_nil, splitPath_eq h1, splitPath_eq h2, Option.bind_some,
      Option.map_some]
    dsimp only
    rw [hremove, hskip]
  have hall : ∀ s ∈ List.replicate rest1.length dotdot ++ rest2, s ≠ [] ∧ code '/' ∉ s := by
    intro s hs
    rcases List.mem_append.mp hs with hs | hs
    · rw [List.eq_of_mem_replicate hs]
      decide
    · have hp := hplain2 s (hmem s hs)
      exact ⟨hp.1, fun hslash => (hp.2 _ hslash).2.2.2 rfl⟩
  have hresolve : resolve (segments path1.bytes)
      ((List.replicate rest1.length dotdot ++ rest2).foldl appendSegment []) = c1 ++ rest2 := by
    unfold resolve
    rw [segments_foldl hall, hs1]
    exact resolve_segments rest1 rest2 c1 fun s hs => (h2.isSegment s (hmem s hs)).no_dot.2
  rw [← hiff]
  constructor
  · rintro ⟨text, htext, hto⟩
    obtain rfl := Option.some.inj (hget.symm.trans htext)
    rw [hresolve, hs2] at hto
    exact List.append_cancel_right hto
  · intro hc
    refine ⟨_, hget, ?_⟩
    rw [hresolve, hs2, hc]

def letters (a b : Char) : CString := CString.ofBytes [code a, code '/', code b]

theorem isPath_letters {path : CString} {a b : UInt8} (hpath : path.bytes = [a, code '/', b])
    (ha : isAlnum a = true) (hb : isAlnum b = true) : IsPath path := by
  have hletter : ∀ c : UInt8, isAlnum c = true → IsSegment [c] ∧ c ≠ code '/' := by
    intro c hc
    have hall : ∀ c : UInt8, isAlnum c = true →
        (isSpace c = false ∧ c ≠ quote ∧ c ≠ code '\\') ∧ c ≠ code '.' ∧ c ≠ code '/' := by
      decide
    obtain ⟨hplain, hdot, hslash⟩ := hall c hc
    exact ⟨⟨List.cons_ne_nil _ _, List.forall_mem_singleton.mpr hplain,
      fun heq => hdot (List.cons.inj heq).1, fun heq => hdot (List.cons.inj heq).1⟩, hslash⟩
  have hsegments : segments path.bytes = [[a], [b]] := by
    have hone : ∀ c : UInt8, isAlnum c = true → [c].splitOn (code '/') = [[c]] := fun c hc =>
      List.splitOn_eq_singleton fun hmem => (hletter c hc).2 (List.mem_singleton.mp hmem).symm
    rw [hpath, segments_of_ne_nil (List.cons_ne_nil _ _)]
    refine (List.splitOn_append_cons_self [a] [b]).trans ?_
    rw [hone a ha, hone b hb]
    rfl
  refine ⟨by rw [hpath]; exact List.cons_ne_nil _ _, fun s hs => ?_⟩
  rw [hsegments] at hs
  rcases List.mem_cons.mp hs with rfl | hs
  · exact (hletter a ha).1
  · rw [List.mem_singleton.mp hs]
    exact (hletter b hb).1

theorem leadsTo_sibling : LeadsTo (letters 'a' 'b') (letters 'a' 'c') := by
  refine (leadsTo_iff (letters 'a' 'b') (letters 'a' 'c')
    (isPath_letters rfl (by decide) (by decide))
    (isPath_letters rfl (by decide) (by decide))).mpr ?_
  have h1 : segments (letters 'a' 'b').bytes = [[code 'a'], [code 'b']] := by decide
  have h2 : segments (letters 'a' 'c').bytes = [[code 'a'], [code 'c']] := by decide
  rw [h1, h2, differsInCase_cons, differsInCase_cons]
  rintro (⟨hne, -⟩ | ⟨-, ⟨-, hcase⟩ | ⟨heq, -⟩⟩)
  · exact hne rfl
  · exact absurd hcase (by decide)
  · exact absurd heq (by decide)

/-- From `A/b` the path `../c` does not lead to `a/c`. -/
theorem not_leadsTo_case : IsPath (letters 'A' 'b') ∧ IsPath (letters 'a' 'c') ∧
    getPathBetween (letters 'A' 'b') (letters 'a' 'c') [] =
      some [code '.', code '.', code '/', code 'c'] ∧
    ¬LeadsTo (letters 'A' 'b') (letters 'a' 'c') := by
  have hget : getPathBetween (letters 'A' 'b') (letters 'a' 'c') [] =
      some [code '.', code '.', code '/', code 'c'] := by decide
  refine ⟨isPath_letters rfl (by decide) (by decide), isPath_letters rfl (by decide) (by decide),
    hget, ?_⟩
  rintro ⟨text, htext, hto⟩
  obtain rfl := Option.some.inj (hget.symm.trans htext)
  exact absurd hto (by decide)

end

end PathBetween
end Gwenhywfar
