import Gwenhywfar.Parser.Text

/-! # Splitting a string into words

* `getWordToBuffer`: `GWEN_Text_GetWordToBuffer`.  The bytes of a string are those in front of its
  NUL.
* `fromString2`: `GWEN_StringList_fromString2`, for a list that may hold a string twice.
* `fromString2_cells`: strings between quotes are read back, whatever else they hold.
* `quote_not_mem_fromString2`: no string that was read holds a quote. -/

namespace Gwenhywfar.Words

open Text

/-- The flags have a bit of `mask`. -/
def has (flags mask : UInt32) : Bool := flags &&& mask != 0

/-- `GWEN_TEXT_FLAGS_DEL_LEADING_BLANKS`. -/
def flagsDelLeadingBlanks : UInt32 := 0x00000001

/-- `GWEN_TEXT_FLAGS_DEL_TRAILING_BLANKS`. -/
def flagsDelTrailingBlanks : UInt32 := 0x00000002

/-- `GWEN_TEXT_FLAGS_DEL_MULTIPLE_BLANKS`. -/
def flagsDelMultipleBlanks : UInt32 := 0x00000004

/-- `GWEN_TEXT_FLAGS_NEED_DELIMITER`. -/
def flagsNeedDelimiter : UInt32 := 0x00000008

/-- `GWEN_TEXT_FLAGS_NULL_IS_DELIMITER`. -/
def flagsNullIsDelimiter : UInt32 := 0x00000010

/-- `GWEN_TEXT_FLAGS_DEL_QUOTES`. -/
def flagsDelQuotes : UInt32 := 0x00000020

/-- `GWEN_TEXT_FLAGS_CHECK_BACKSLASH`. -/
def flagsCheckBackslash : UInt32 := 0x00000040

def quote : UInt8 := 0x22

/-- The functions take the characters below 33 for blanks. -/
def isBlank (c : UInt8) : Bool := c < 33

/-- The variables of the loop, with the bytes of the buffer. -/
structure WordState where
  insideQuotes : Bool
  lastWasEscape : Bool
  lastWasBlank : Bool
  lastBlankPos : Option ℕ
  buf : List UInt8

def wordLoop (delims : List UInt8) (flags : UInt32) : WordState → List UInt8 →
    Option (WordState × List UInt8)
  | st, [] => some (st, [])
  | st, c :: src =>
      if st.lastWasEscape then
        wordLoop delims flags { st with
          buf := st.buf ++ [c], lastWasEscape := false, lastWasBlank := false, lastBlankPos := none } src
      else if c = code '\\' ∧ has flags flagsCheckBackslash = true then
        wordLoop delims flags { st with
          lastWasEscape := true, lastWasBlank := false, lastBlankPos := none } src
      else if !st.insideQuotes && delims.contains c then some (st, c :: src)
      else if c = quote then
        if st.insideQuotes then some ({ st with insideQuotes := false }, src) else none
      else
        let buf :=
          if st.insideQuotes || !st.lastWasBlank || !has flags flagsDelMultipleBlanks then
            st.buf ++ [c]
          else st.buf
        wordLoop delims flags { st with
          buf := buf
          lastWasBlank := isBlank c
          lastBlankPos := if isBlank c then some buf.length else none } src

/-- The end of the string or of the word is where it may be. -/
def endsWell (delims : List UInt8) (flags : UInt32) (src : List UInt8) : Bool :=
  !has flags flagsNeedDelimiter ||
    src.head?.elim (has flags flagsNullIsDelimiter) fun c => delims.contains c

/-- `GWEN_Text_GetWordToBuffer`: the buffer with the word, and what follows it. -/
def getWordToBuffer (src delims buf : List UInt8) (flags : UInt32) :
    Option (List UInt8 × List UInt8) :=
  let src :=
    if has flags flagsDelLeadingBlanks then
      src.dropWhile fun c => isBlank c && !delims.contains c
    else src
  if has flags flagsDelLeadingBlanks = true ∧ src.head?.any isBlank then some (buf, src)
  else
    let insideQuotes := src.head? == some quote
    let src := if insideQuotes && has flags flagsDelQuotes then src.tail else src
    (wordLoop delims flags ⟨insideQuotes, false, false, none, buf⟩ src).bind fun (st, src) =>
      if st.insideQuotes then none
      else if !endsWell delims flags src then none
      else
        let buf :=
          if has flags flagsDelTrailingBlanks then
            st.lastBlankPos.elim st.buf fun l => st.buf.take l
          else st.buf
        some (buf, src)

/-- The loop of `GWEN_StringList_fromString2`, in at most so many rounds. -/
def fromString2Loop (delimiters : List UInt8) (flags : UInt32) : ℕ → List UInt8 → List (List UInt8)
  | 0, _ => []
  | k + 1, s =>
      let s := s.dropWhile isSpace
      if s = [] then []
      else
        (getWordToBuffer s delimiters [] flags).elim [] fun (word, s) =>
          word :: fromString2Loop delimiters flags k s.tail

/-- `GWEN_StringList_fromString2`; a round takes a character at least, or it is the last one. -/
def fromString2 (str delimiters : List UInt8) (flags : UInt32) : Option (List (List UInt8)) :=
  let sl := fromString2Loop delimiters flags str.length str
  if sl = [] then none else some sl

/-! ### Quoted strings are read back -/

/-- The flags with which quotes are removed and a backslash stands for itself. -/
structure QuotedFlags (flags : UInt32) : Prop where
  delQuotes : has flags flagsDelQuotes = true
  noCheckBackslash : has flags flagsCheckBackslash = false

section
variable {delims : List UInt8} {flags : UInt32}

/-- The rest of the word begins in the buffer's last blank, or there is none. -/
def BlankAtEnd (st : WordState) : Prop := ∀ l ∈ st.lastBlankPos, l = st.buf.length

theorem wordLoop_quoted (hf : QuotedFlags flags) (rest : List UInt8) : ∀ {v : List UInt8}
    {st : WordState}, quote ∉ v → st.insideQuotes = true → st.lastWasEscape = false →
    BlankAtEnd st → ∃ st', wordLoop delims flags st (v ++ quote :: rest) = some (st', rest) ∧
      st'.insideQuotes = false ∧ st'.buf = st.buf ++ v ∧ BlankAtEnd st'
  | [], st, _, hin, hesc, hend => by
      refine ⟨{ st with insideQuotes := false }, ?_, rfl, (List.append_nil _).symm, hend⟩
      rw [List.nil_append, wordLoop, hesc, if_neg Bool.false_ne_true,
        if_neg fun h => absurd h.1 (by decide), hin, if_neg (by simp), if_pos rfl, if_pos rfl]
  | c :: v, st, hv, hin, hesc, hend => by
      rw [List.mem_cons, not_or] at hv
      rw [List.cons_append, wordLoop, hesc, if_neg Bool.false_ne_true,
        if_neg (by simp [hf.noCheckBackslash]), hin, if_neg (by simp), if_neg (Ne.symm hv.1),
        Bool.true_or, Bool.true_or, if_pos rfl]
      obtain ⟨st', hloop, hin', hbuf, hend'⟩ := @wordLoop_quoted hf rest v
        { insideQuotes := true
          lastWasEscape := false
          lastWasBlank := isBlank c
          lastBlankPos := if isBlank c then some (st.buf ++ [c]).length else none
          buf := st.buf ++ [c] } hv.2 rfl rfl (by
            intro l hl
            dsimp only at hl ⊢
            split at hl
            · exact (Option.some.inj hl).symm
            · cases hl)
      refine ⟨st', ?_, hin', ?_, hend'⟩
      · rw [← hloop]
      · rw [hbuf, List.append_assoc]
        rfl

/-- A word between quotes is what is between them. -/
theorem getWordToBuffer_quoted (hf : QuotedFlags flags)
    (hneed : has flags flagsNeedDelimiter = false) {v : List UInt8} (hv : quote ∉ v)
    (rest : List UInt8) :
    getWordToBuffer (quote :: (v ++ quote :: rest)) delims [] flags = some (v, rest) := by
  obtain ⟨st', hloop, hin, hbuf, hend⟩ := @wordLoop_quoted delims flags hf rest v
    ⟨true, false, false, none, []⟩ hv rfl rfl fun l hl => by cases hl
  have hskip : (if has flags flagsDelLeadingBlanks then
      (quote :: (v ++ quote :: rest)).dropWhile fun c => isBlank c && !delims.contains c
      else quote :: (v ++ quote :: rest)) = quote :: (v ++ quote :: rest) := by
    split
    · rw [List.dropWhile_cons_of_neg (by
        rw [show isBlank quote = false by decide, Bool.false_and]
        exact Bool.false_ne_true)]
    · rfl
  have hcrop : (st'.lastBlankPos.elim st'.buf fun l => st'.buf.take l) = st'.buf := by
    cases hlast : st'.lastBlankPos with
    | none => rfl
    | some l => rw [Option.elim_some, hend l hlast, List.take_length]
  rw [getWordToBuffer]
  dsimp only
  rw [hskip, List.head?_cons, Option.any_some, if_neg fun h => absurd h.2 (by decide),
    beq_self_eq_true, hf.delQuotes, Bool.and_self, if_pos rfl, List.tail_cons, hloop,
    Option.bind_some]
  dsimp only
  rw [hin, if_neg Bool.false_ne_true, endsWell, hneed, Bool.not_false, Bool.true_or, Bool.not_true,
    if_neg Bool.false_ne_true, hcrop, ite_self, hbuf, List.nil_append]

/-- Strings between quotes, one behind the other with a delimiter between them. -/
def cells (d : UInt8) : (first : Bool) → List (List UInt8) → List UInt8
  | _, [] => []
  | first, v :: vs => (if first then [] else [d]) ++ quote :: (v ++ quote :: cells d false vs)

theorem tail_cells (d : UInt8) (vs : List (List UInt8)) :
    (cells d false vs).tail = cells d true vs := by
  cases vs <;> rfl

theorem mem_cells {d c : UInt8} {first : Bool} {vs : List (List UInt8)} (h : c ∈ cells d first vs) :
    c = d ∨ c = quote ∨ ∃ v ∈ vs, c ∈ v := by
  induction vs generalizing first with
  | nil => cases h
  | cons v vs ih =>
      rw [cells, List.mem_append, List.mem_cons, List.mem_append, List.mem_cons] at h
      rcases h with h | h | h | h | h
      · cases first with
        | false => exact Or.inl (List.mem_singleton.mp h)
        | true => cases h
      · exact Or.inr (Or.inl h)
      · exact Or.inr (Or.inr ⟨v, List.mem_cons_self, h⟩)
      · exact Or.inr (Or.inl h)
      · rcases ih h with h | h | ⟨w, hw, h⟩
        · exact Or.inl h
        · exact Or.inr (Or.inl h)
        · exact Or.inr (Or.inr ⟨w, List.mem_cons_of_mem _ hw, h⟩)

theorem fromString2Loop_cells (hf : QuotedFlags flags)
    (hneed : has flags flagsNeedDelimiter = false) (d : UInt8) : ∀ {vs : List (List UInt8)} {k : ℕ},
    (∀ v ∈ vs, quote ∉ v) → vs.length ≤ k →
    fromString2Loop delims flags k (cells d true vs) = vs
  | [], 0, _, _ => rfl
  | [], k + 1, _, _ => rfl
  | v :: vs, k + 1, hvs, hk => by
      rw [List.forall_mem_cons] at hvs
      rw [fromString2Loop, cells, if_pos rfl, List.nil_append,
        List.dropWhile_cons_of_neg (by decide), if_neg (List.cons_ne_nil _ _),
        getWordToBuffer_quoted hf hneed hvs.1, Option.elim_some]
      dsimp only
      rw [tail_cells, fromString2Loop_cells hf hneed d hvs.2 (Nat.le_of_succ_le_succ hk)]

theorem length_cells (d : UInt8) (first : Bool) (vs : List (List UInt8)) :
    vs.length ≤ (cells d first vs).length := by
  induction vs generalizing first with
  | nil => exact Nat.zero_le _
  | cons v vs ih =>
      have := ih false
      simp only [cells, List.length_append, List.length_cons]
      omega

theorem fromString2_cells (hf : QuotedFlags flags) (hneed : has flags flagsNeedDelimiter = false)
    (d : UInt8) {vs : List (List UInt8)} (hvs : ∀ v ∈ vs, quote ∉ v) (hne : vs ≠ []) :
    fromString2 (cells d true vs) delims flags = some vs := by
  rw [fromString2, fromString2Loop_cells hf hneed d hvs (length_cells d true vs), if_neg hne]

/-! ### Words hold no quotes -/

theorem quote_not_mem_wordLoop (hf : has flags flagsCheckBackslash = false) :
    ∀ {src : List UInt8} {st : WordState} {r : WordState × List UInt8}, st.lastWasEscape = false →
    quote ∉ st.buf → wordLoop delims flags st src = some r → quote ∉ r.1.buf
  | [], st, r, _, hbuf, h => by
      rw [wordLoop] at h
      obtain rfl := Option.some.inj h
      exact hbuf
  | c :: src, st, r, hesc, hbuf, h => by
      rw [wordLoop, hesc, if_neg Bool.false_ne_true, if_neg (by simp [hf])] at h
      split at h
      · obtain rfl := Option.some.inj h
        exact hbuf
      · split at h
        · split at h
          · obtain rfl := Option.some.inj h
            exact hbuf
          · cases h
        · next hc =>
            refine quote_not_mem_wordLoop hf rfl ?_ h
            dsimp only
            split
            · rw [List.mem_append, List.mem_singleton, not_or]
              exact ⟨hbuf, Ne.symm hc⟩
            · exact hbuf

theorem quote_not_mem_getWordToBuffer (hf : has flags flagsCheckBackslash = false)
    {src buf : List UInt8} {r : List UInt8 × List UInt8} (hbuf : quote ∉ buf)
    (h : getWordToBuffer src delims buf flags = some r) : quote ∉ r.1 := by
  rw [getWordToBuffer] at h
  dsimp only at h
  generalize (if has flags flagsDelLeadingBlanks then
    src.dropWhile fun c => isBlank c && !delims.contains c else src) = src at h
  split at h
  · obtain rfl := Option.some.inj h
    exact hbuf
  · rw [Option.bind_eq_some_iff] at h
    obtain ⟨st, hst, h⟩ := h
    have hmem := quote_not_mem_wordLoop hf rfl hbuf hst
    split at h
    · cases h
    · split at h
      · cases h
      · obtain rfl := Option.some.inj h
        dsimp only
        split
        · cases hlast : st.1.lastBlankPos with
          | none => exact hmem
          | some l => exact fun hq => hmem (List.mem_of_mem_take hq)
        · exact hmem

theorem quote_not_mem_fromString2Loop (hf : has flags flagsCheckBackslash = false) :
    ∀ {k : ℕ} {s : List UInt8}, ∀ w ∈ fromString2Loop delims flags k s, quote ∉ w
  | 0, s, w, hw => by
      rw [fromString2Loop] at hw
      cases hw
  | k + 1, s, w, hw => by
      rw [fromString2Loop] at hw
      dsimp only at hw
      split at hw
      · cases hw
      · cases hget : getWordToBuffer (s.dropWhile isSpace) delims [] flags with
        | none =>
            rw [hget, Option.elim_none] at hw
            cases hw
        | some r =>
            rw [hget, Option.elim_some] at hw
            rcases List.mem_cons.mp hw with rfl | hw
            · exact quote_not_mem_getWordToBuffer hf List.not_mem_nil hget
            · exact quote_not_mem_fromString2Loop hf w hw

theorem quote_not_mem_fromString2 (hf : has flags flagsCheckBackslash = false)
    {str : List UInt8} {sl : List (List UInt8)} (h : fromString2 str delims flags = some sl) :
    ∀ w ∈ sl, quote ∉ w := by
  rw [fromString2] at h
  split at h
  · cases h
  · obtain rfl := Option.some.inj h
    exact quote_not_mem_fromString2Loop hf

end
end Gwenhywfar.Words
