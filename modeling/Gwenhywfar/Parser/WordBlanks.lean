import Gwenhywfar.Parser.Words
import Mathlib.Data.List.DropRight

/-! # Blanks of a word

* `getWord`: `GWEN_Text_GetWord`, the copy of `GWEN_Text_GetWordToBuffer` for a buffer of a fixed
  size; blanks are what `isspace` says, and the blanks in front may be delimiters.
* The place of the last blank is remembered when the blank has been stored, so that nothing is
  cut off at the end; and of several blanks none but the first is stored, nor is the character
  behind a blank (`stored`).
* `wordRight_iff`: the word is right unless the text ends in a blank, or repeated blanks are to be
  removed and there is one. -/

namespace Gwenhywfar

set_option maxRecDepth 4000

namespace Words

open Text

/-! ### The functions -/

/-- The loop of both functions: what they take for a blank, and when the buffer is full. -/
def textLoop (blank : UInt8 → Bool) (full : ℕ → Bool) (delims : List UInt8) (flags : UInt32) :
    WordState → List UInt8 → Option (WordState × List UInt8)
  | st, [] => some (st, [])
  | st, c :: src =>
      if full st.buf.length then some (st, c :: src)
      else if st.lastWasEscape then
        textLoop blank full delims flags { st with
          buf := st.buf ++ [c], lastWasEscape := false, lastWasBlank := false
          lastBlankPos := none } src
      else if c = code '\\' ∧ has flags flagsCheckBackslash = true then
        textLoop blank full delims flags { st with
          lastWasEscape := true, lastWasBlank := false, lastBlankPos := none } src
      else if !st.insideQuotes && delims.contains c then some (st, c :: src)
      else if c = quote then
        if st.insideQuotes then some ({ st with insideQuotes := false }, src) else none
      else
        let buf :=
          if st.insideQuotes || !st.lastWasBlank || !has flags flagsDelMultipleBlanks then
            st.buf ++ [c]
          else st.buf
        textLoop blank full delims flags { st with
          buf := buf
          lastWasBlank := blank c
          lastBlankPos := if blank c then some buf.length else none } src

/-- `GWEN_Text_GetWord`: the word, and what follows it. -/
def getWord (src delims : List UInt8) (maxsize : ℕ) (flags : UInt32) :
    Option (List UInt8 × List UInt8) :=
  -- assert(maxsize)
  if maxsize = 0 then none
  else
    let src := if has flags flagsDelLeadingBlanks then src.dropWhile isBlank else src
    let insideQuotes := src.head? == some quote
    let src := if insideQuotes && has flags flagsDelQuotes then src.tail else src
    (textLoop isSpace (fun size => maxsize - 1 ≤ size) delims flags
      ⟨insideQuotes, false, false, none, []⟩ src).bind fun (st, src) =>
        if st.insideQuotes then none
        else if !endsWell delims flags src then none
        else
          let buf :=
            if has flags flagsDelTrailingBlanks then
              st.lastBlankPos.elim st.buf fun l => st.buf.take l
            else st.buf
          some (buf, src)

section
variable {blank : UInt8 → Bool} {full : ℕ → Bool} {delims src t rest buf buf' : List UInt8}
  {flags : UInt32} {st : WordState}

theorem wordLoop_eq : ∀ {src : List UInt8} {st : WordState},
    wordLoop delims flags st src = textLoop isBlank (fun _ => false) delims flags st src
  | [], _ => rfl
  | c :: src, st => by
      rw [wordLoop, textLoop, if_neg Bool.false_ne_true]
      simp only [wordLoop_eq]

/-! ### What the loop stores -/

/-- The characters that are stored; of several blanks, and behind one, none but the first if
`multiple` is set. -/
def stored (blank : UInt8 → Bool) (multiple : Bool) : (last : Bool) → List UInt8 → List UInt8
  | _, [] => []
  | last, c :: t =>
      if last && multiple then stored blank multiple (blank c) t
      else c :: stored blank multiple (blank c) t

/-- A text that the loop takes character after character. -/
structure Plain (delims : List UInt8) (flags : UInt32) (t rest : List UInt8) : Prop where
  noDelim : ∀ c ∈ t, delims.contains c = false
  noBackslash : has flags flagsCheckBackslash = true →
    code '\\' ∉ t ∧ rest.head? ≠ some (code '\\')
  delim : ∀ c ∈ rest.head?, delims.contains c = true

theorem Plain.tail {c : UInt8} (h : Plain delims flags (c :: t) rest) :
    Plain delims flags t rest where
  noDelim d hd := h.noDelim d (List.mem_cons_of_mem c hd)
  noBackslash hf := ⟨fun hd => (h.noBackslash hf).1 (List.mem_cons_of_mem c hd),
    (h.noBackslash hf).2⟩
  delim := h.delim

theorem textLoop_stop (h : Plain delims flags [] rest) (hin : st.insideQuotes = false)
    (hesc : st.lastWasEscape = false) :
    textLoop blank full delims flags st rest = some (st, rest) := by
  cases rest with
  | nil => rfl
  | cons c rest =>
      have hc := h.delim c rfl
      have hback : ¬(c = code '\\' ∧ has flags flagsCheckBackslash = true) :=
        fun hback => (h.noBackslash hback.2).2 (by rw [List.head?_cons, hback.1])
      rw [textLoop, hesc, if_neg Bool.false_ne_true, if_neg hback, hin, hc]
      split <;> rfl

/-- One character of the text. -/
theorem textLoop_cons {c : UInt8} (h : Plain delims flags (c :: t) rest)
    (hin : st.insideQuotes = false) (hesc : st.lastWasEscape = false)
    (hfull : full st.buf.length = false) :
    textLoop blank full delims flags st (c :: t ++ rest) =
      if c = quote then none
      else
        let buf := if st.lastWasBlank && has flags flagsDelMultipleBlanks then st.buf
          else st.buf ++ [c]
        textLoop blank full delims flags ⟨false, false, blank c,
          if blank c then some buf.length else none, buf⟩ (t ++ rest) := by
  have hback : ¬(c = code '\\' ∧ has flags flagsCheckBackslash = true) :=
    fun hback => (h.noBackslash hback.2).1 (hback.1 ▸ List.mem_cons_self)
  rw [List.cons_append, textLoop, hfull, if_neg Bool.false_ne_true, hesc,
    if_neg Bool.false_ne_true, if_neg hback, hin, h.noDelim c List.mem_cons_self, Bool.and_false,
    if_neg Bool.false_ne_true, if_neg Bool.false_ne_true]
  split
  · rfl
  · cases st.lastWasBlank <;> cases has flags flagsDelMultipleBlanks <;> rfl

theorem textLoop_quote : ∀ {t : List UInt8} {st : WordState}, Plain delims flags t rest →
    st.insideQuotes = false → st.lastWasEscape = false → quote ∈ t →
      textLoop blank (fun _ => false) delims flags st (t ++ rest) = none
  | [], _, _, _, _, hq => absurd hq List.not_mem_nil
  | c :: t, st, h, hin, hesc, hq => by
      rw [textLoop_cons h hin hesc rfl]
      by_cases hc : c = quote
      · rw [if_pos hc]
      · rw [if_neg hc]
        exact textLoop_quote h.tail rfl rfl ((List.mem_cons.mp hq).resolve_left (Ne.symm hc))

/-- A text without quotes is taken to its end. -/
theorem textLoop_text : ∀ {t : List UInt8} {st : WordState}, Plain delims flags t rest →
    quote ∉ t → st.insideQuotes = false → st.lastWasEscape = false → BlankAtEnd st →
    (∀ size < st.buf.length + t.length, full size = false) →
      ∃ st', textLoop blank full delims flags st (t ++ rest) = some (st', rest) ∧
        st'.insideQuotes = false ∧ BlankAtEnd st' ∧
        st'.buf = st.buf ++ stored blank (has flags flagsDelMultipleBlanks) st.lastWasBlank t
  | [], st, h, _, hin, hesc, hend, _ =>
      ⟨st, textLoop_stop h hin hesc, hin, hend, (List.append_nil _).symm⟩
  | c :: t, st, h, hq, hin, hesc, hend, hfull => by
      rw [List.mem_cons, not_or] at hq
      rw [List.length_cons] at hfull
      rw [textLoop_cons h hin hesc (hfull _ (by omega)), if_neg (Ne.symm hq.1), stored]
      dsimp only
      generalize hbuf : (if st.lastWasBlank && has flags flagsDelMultipleBlanks then st.buf
        else st.buf ++ [c]) = buf
      have hlength : buf.length ≤ st.buf.length + 1 := by
        rw [← hbuf]
        split
        · exact Nat.le_succ _
        · rw [List.length_append, List.length_singleton]
      obtain ⟨st', hloop, hin', hend', hbuf'⟩ := @textLoop_text t
        ⟨false, false, blank c, if blank c then some buf.length else none, buf⟩ h.tail hq.2 rfl rfl
        (fun l hl => by
          dsimp only at hl ⊢
          split at hl
          · exact (Option.some.inj hl).symm
          · cases hl)
        (fun size hsize => hfull size (by
          dsimp only at hsize
          omega))
      refine ⟨st', hloop, hin', hend', ?_⟩
      rw [hbuf', ← hbuf]
      dsimp only
      split
      · rfl
      · rw [List.append_assoc]
        rfl

/-! ### The words -/

/-- The text without the blanks in front of it, as far as they are no delimiters. -/
def skipped (src delims : List UInt8) (flags : UInt32) : List UInt8 :=
  if has flags flagsDelLeadingBlanks then src.dropWhile fun c => isBlank c && !delims.contains c
  else src

def wordText (delims src : List UInt8) : List UInt8 := src.takeWhile (!delims.contains ·)

/-- What begins with that delimiter. -/
def behindWord (delims src : List UInt8) : List UInt8 := src.dropWhile (!delims.contains ·)

theorem BlankAtEnd.crop (h : BlankAtEnd st) (trailing : Bool) :
    (if trailing then st.lastBlankPos.elim st.buf fun l => st.buf.take l else st.buf) = st.buf := by
  split
  · cases hlast : st.lastBlankPos with
    | none => rfl
    | some l => rw [Option.elim_some, h l hlast, List.take_length]
  · rfl

theorem wordText_append (delims src : List UInt8) :
    wordText delims src ++ behindWord delims src = src := List.takeWhile_append_dropWhile

theorem plain_wordText (hback : has flags flagsCheckBackslash = true →
    code '\\' ∉ wordText delims src ∧ (behindWord delims src).head? ≠ some (code '\\')) :
    Plain delims flags (wordText delims src) (behindWord delims src) where
  noDelim c hc := by simpa using List.mem_takeWhile_imp hc
  noBackslash := hback
  delim c hc := by
    have hhead := List.head?_dropWhile_not (!delims.contains ·) src
    rw [← behindWord, hc] at hhead
    simpa using hhead

/-- A word of which no character is quoted or escaped. -/
structure Unquoted (src delims : List UInt8) (flags : UInt32) : Prop where
  noQuote : (skipped src delims flags).head? ≠ some quote
  noBackslash : has flags flagsCheckBackslash = true →
    code '\\' ∉ wordText delims (skipped src delims flags) ∧
      (behindWord delims (skipped src delims flags)).head? ≠ some (code '\\')

theorem Unquoted.head (hu : Unquoted src delims flags) :
    ((skipped src delims flags).head? == some quote) = false :=
  beq_eq_false_iff_ne.mpr hu.noQuote

def EndsAtOnce (src delims : List UInt8) (flags : UInt32) : Prop :=
  has flags flagsDelLeadingBlanks = true ∧ (skipped src delims flags).head?.any isBlank = true

theorem EndsAtOnce.wordText_eq (h : EndsAtOnce src delims flags) :
    wordText delims (skipped src delims flags) = [] := by
  obtain ⟨hlead, hblank⟩ := h
  have hhead := List.head?_dropWhile_not (fun c => isBlank c && !delims.contains c) src
  rw [skipped, if_pos hlead] at hblank ⊢
  cases hdrop : src.dropWhile fun c => isBlank c && !delims.contains c with
  | nil => rfl
  | cons c rest =>
      rw [hdrop, List.head?_cons, Option.any_some] at hblank
      rw [hdrop, List.head?_cons] at hhead
      simp only [hblank, Bool.true_and] at hhead
      exact List.takeWhile_cons_of_neg (by rw [hhead]; exact Bool.false_ne_true)

theorem blankAtEnd_init (b : Bool) (buf : List UInt8) : BlankAtEnd ⟨b, false, false, none, buf⟩ :=
  fun l hl => by cases hl

/-- Without quotes `GWEN_Text_GetWordToBuffer` appends what is stored of the text. -/
theorem getWordToBuffer_spec {next : List UInt8} (hu : Unquoted src delims flags)
    (h : getWordToBuffer src delims buf flags = some (buf', next)) :
    (EndsAtOnce src delims flags ∨ quote ∉ wordText delims (skipped src delims flags) ∧
      endsWell delims flags (behindWord delims (skipped src delims flags)) = true) ∧
    buf' = buf ++ stored isBlank (has flags flagsDelMultipleBlanks) false
      (wordText delims (skipped src delims flags)) := by
  unfold getWordToBuffer at h
  dsimp only at h
  rw [← skipped] at h
  split at h
  · next hblank =>
      refine ⟨Or.inl hblank, ?_⟩
      obtain ⟨rfl, -⟩ := Prod.mk.injEq _ _ _ _ ▸ Option.some.inj h
      rw [EndsAtOnce.wordText_eq hblank, stored, List.append_nil]
  · have hplain := plain_wordText hu.noBackslash
    have hsplit := wordText_append delims (skipped src delims flags)
    rw [hu.head, Bool.false_and, if_neg Bool.false_ne_true, wordLoop_eq, ← hsplit] at h
    by_cases hq : quote ∈ wordText delims (skipped src delims flags)
    · rw [textLoop_quote hplain rfl rfl hq] at h
      cases h
    · obtain ⟨st, hloop, hin, hend, hbuf⟩ := textLoop_text hplain hq rfl rfl
        (blankAtEnd_init false buf) (fun _ _ => rfl)
      rw [hloop, Option.bind_some] at h
      dsimp only at h
      rw [hin, if_neg Bool.false_ne_true, hend.crop] at h
      split at h
      · cases h
      · next hwell =>
          rw [Bool.not_eq_true, Bool.not_eq_false'] at hwell
          rw [Option.some.injEq, Prod.mk.injEq] at h
          exact ⟨Or.inr ⟨hq, hwell⟩, by rw [← h.1, hbuf]⟩

theorem dropWhile_and {p q : UInt8 → Bool} : ∀ {src : List UInt8},
    (∀ c ∈ src.takeWhile p, q c = false) → src.dropWhile p = src.dropWhile fun c => p c && !q c
  | [], _ => rfl
  | c :: src, h => by
      by_cases hc : p c = true
      · rw [List.takeWhile_cons_of_pos hc] at h
        rw [List.dropWhile_cons_of_pos hc, List.dropWhile_cons_of_pos
          (by rw [hc, h c List.mem_cons_self]; rfl),
          dropWhile_and fun d hd => h d (List.mem_cons_of_mem c hd)]
      · rw [List.dropWhile_cons_of_neg hc, List.dropWhile_cons_of_neg]
        rw [Bool.not_eq_true] at hc
        rw [hc, Bool.false_and]
        exact Bool.false_ne_true

def SkipsBlanks (src delims : List UInt8) (flags : UInt32) : Prop :=
  has flags flagsDelLeadingBlanks = true → ∀ c ∈ src.takeWhile isBlank, delims.contains c = false

theorem SkipsBlanks.skipped_eq (h : SkipsBlanks src delims flags) : skipped src delims flags =
    if has flags flagsDelLeadingBlanks then src.dropWhile isBlank else src := by
  unfold skipped
  split
  · next hlead => rw [dropWhile_and (h hlead)]
  · rfl

theorem SkipsBlanks.not_endsAtOnce (h : SkipsBlanks src delims flags) :
    ¬EndsAtOnce src delims flags := by
  rintro ⟨hlead, hblank⟩
  rw [h.skipped_eq, if_pos hlead] at hblank
  have hhead := List.head?_dropWhile_not isBlank src
  cases hdrop : (src.dropWhile isBlank).head? with
  | none =>
      rw [hdrop] at hblank
      cases hblank
  | some c =>
      rw [hdrop] at hhead hblank
      rw [Option.any_some] at hblank
      simp only at hhead
      rw [hblank] at hhead
      cases hhead

/-- `GWEN_Text_GetWord` with a buffer that is large enough. -/
theorem getWord_spec {maxsize : ℕ} (hu : Unquoted src delims flags)
    (hskip : SkipsBlanks src delims flags) (hq : quote ∉ wordText delims (skipped src delims flags))
    (hwell : endsWell delims flags (behindWord delims (skipped src delims flags)) = true)
    (hsize : (wordText delims (skipped src delims flags)).length < maxsize) :
    getWord src delims maxsize flags = some (stored isSpace (has flags flagsDelMultipleBlanks) false
      (wordText delims (skipped src delims flags)),
        behindWord delims (skipped src delims flags)) := by
  have hplain := plain_wordText hu.noBackslash
  have hsplit := wordText_append delims (skipped src delims flags)
  obtain ⟨st, hloop, hin, hend, hbuf⟩ := @textLoop_text isSpace (fun size => maxsize - 1 ≤ size)
    delims _ flags _ _ hplain hq rfl rfl (blankAtEnd_init false []) (fun size hsize' => by
      rw [List.length_nil] at hsize'
      rw [decide_eq_false_iff_not]
      omega)
  unfold getWord
  dsimp only
  rw [if_neg (by omega), ← hskip.skipped_eq, hu.head, Bool.false_and, if_neg Bool.false_ne_true]
  nth_rewrite 1 [← hsplit]
  rw [hloop, Option.bind_some]
  dsimp only
  rw [hin, if_neg Bool.false_ne_true, hwell, Bool.not_true, if_neg Bool.false_ne_true, hend.crop,
    hbuf]
  rfl

/-! ### Blanks -/

/-- Of several blanks the first is kept. -/
def squeeze : (last : Bool) → List UInt8 → List UInt8
  | _, [] => []
  | last, c :: t =>
      if last && isBlank c then squeeze true t else c :: squeeze (isBlank c) t

def expectedWord (flags : UInt32) (text : List UInt8) : List UInt8 :=
  (if has flags flagsDelMultipleBlanks then squeeze false text else text).rdropWhile isBlank

def endsInBlank (text : List UInt8) : Bool := text.getLast?.any isBlank

theorem stored_false (last : Bool) : stored blank false last t = t := by
  induction t generalizing last with
  | nil => rfl
  | cons c t ih => rw [stored, Bool.and_false, if_neg Bool.false_ne_true, ih]

theorem stored_of_no_blank (multiple : Bool) (h : ∀ c ∈ t, blank c = false) :
    stored blank multiple false t = t := by
  induction t with
  | nil => rfl
  | cons c t ih =>
      rw [stored, Bool.false_and, if_neg Bool.false_ne_true, h c List.mem_cons_self,
        ih fun d hd => h d (List.mem_cons_of_mem c hd)]

theorem squeeze_of_no_blank (h : ∀ c ∈ t, isBlank c = false) : squeeze false t = t := by
  induction t with
  | nil => rfl
  | cons c t ih =>
      rw [squeeze, Bool.false_and, if_neg Bool.false_ne_true, h c List.mem_cons_self,
        ih fun d hd => h d (List.mem_cons_of_mem c hd)]

theorem endsInBlank_cons {c : UInt8} (h : t ≠ []) : endsInBlank (c :: t) = endsInBlank t := by
  obtain ⟨d, t, rfl⟩ := List.exists_cons_of_ne_nil h
  rw [endsInBlank, endsInBlank, List.getLast?_cons_cons]

theorem rdropWhile_of_not_endsInBlank (h : endsInBlank t = false) : t.rdropWhile isBlank = t := by
  rw [List.rdropWhile_eq_self_iff]
  intro hne hlast
  rw [endsInBlank, List.getLast?_eq_some_getLast hne, Option.any_some, hlast] at h
  cases h

/-- A blank at the end is stored, or it follows one that has been stored. -/
theorem stored_endsInBlank (multiple : Bool) : ∀ {t : List UInt8} {last : Bool},
    endsInBlank t = true → endsInBlank (stored isBlank multiple last t) = true ∨
      stored isBlank multiple last t = [] ∧ last = true
  | [], _, h => absurd h (by decide)
  | [c], last, h => by
      rw [stored]
      split
      · next hskip =>
          rw [Bool.and_eq_true] at hskip
          exact Or.inr ⟨rfl, hskip.1⟩
      · exact Or.inl h
  | c :: d :: t, last, h => by
      rw [endsInBlank_cons (List.cons_ne_nil d t)] at h
      have ih := @stored_endsInBlank multiple (d :: t) (isBlank c) h
      rw [stored]
      generalize stored isBlank multiple (isBlank c) (d :: t) = s at ih
      split
      · next hskip =>
          rw [Bool.and_eq_true] at hskip
          exact ih.imp_right fun hs => ⟨hs.1, hskip.1⟩
      · left
        rcases ih with hs | ⟨rfl, hc⟩
        · rw [endsInBlank_cons]
          · exact hs
          · rintro rfl
            exact absurd hs (by decide)
        · exact hc

theorem length_stored_le : ∀ {t : List UInt8} {last : Bool},
    (stored isBlank true last t).length ≤ (squeeze last t).length
  | [], _ => Nat.le_refl 0
  | c :: t, last => by
      have ih := @length_stored_le t (isBlank c)
      rw [stored, squeeze, Bool.and_true]
      cases last
      · rw [if_neg Bool.false_ne_true, Bool.false_and, if_neg Bool.false_ne_true]
        exact Nat.succ_le_succ ih
      · rw [if_pos rfl, Bool.true_and]
        split
        · next hc => rwa [hc] at ih ⊢
        · exact Nat.le_succ_of_le ih

/-- The character behind a blank is missing. -/
theorem length_stored_lt : ∀ {t : List UInt8} {last : Bool}, t ≠ [] → endsInBlank t = false →
    (last = true ∨ ∃ c ∈ t, isBlank c = true) →
      (stored isBlank true last t).length < (squeeze last t).length
  | [], _, hne, _, _ => absurd rfl hne
  | c :: t, last, _, hend, hblank => by
      have htail : isBlank c = true → t ≠ [] := by
        rintro hc rfl
        rw [endsInBlank, List.getLast?_singleton, Option.any_some, hc] at hend
        cases hend
      have hrest : ∀ last, t ≠ [] → (last = true ∨ ∃ d ∈ t, isBlank d = true) →
          (stored isBlank true last t).length < (squeeze last t).length := by
        intro last hne hlast
        rw [endsInBlank_cons hne] at hend
        exact length_stored_lt hne hend hlast
      rw [stored, squeeze, Bool.and_true]
      by_cases hc : isBlank c = true
      · rw [hc, Bool.and_true]
        have := hrest true (htail hc) (Or.inl rfl)
        split
        · exact this
        · exact Nat.succ_lt_succ this
      · rw [Bool.not_eq_true] at hc
        rw [hc, Bool.and_false, if_neg Bool.false_ne_true]
        split
        · exact Nat.lt_succ_of_le length_stored_le
        · next hlast =>
            obtain ⟨d, hd, hdblank⟩ := hblank.resolve_left hlast
            have hdt : d ∈ t := by
              refine (List.mem_cons.mp hd).resolve_left ?_
              rintro rfl
              rw [hc] at hdblank
              cases hdblank
            exact Nat.succ_lt_succ (hrest false (List.ne_nil_of_mem hdt) (Or.inr ⟨d, hdt, hdblank⟩))

theorem squeeze_endsInBlank : ∀ {t : List UInt8} {last : Bool}, endsInBlank t = false →
    endsInBlank (squeeze last t) = false ∧ (t ≠ [] → squeeze last t ≠ [])
  | [], _, _ => ⟨rfl, fun h => absurd rfl h⟩
  | [c], last, h => by
      have hc : isBlank c = false := h
      rw [squeeze, hc, Bool.and_false, if_neg Bool.false_ne_true]
      exact ⟨h, fun _ => List.cons_ne_nil _ _⟩
  | c :: d :: t, last, h => by
      rw [endsInBlank_cons (List.cons_ne_nil d t)] at h
      have ih := fun last => @squeeze_endsInBlank (d :: t) last h
      rw [squeeze]
      split
      · exact ⟨(ih true).1, fun _ => (ih true).2 (List.cons_ne_nil d t)⟩
      · obtain ⟨hend, hne⟩ := ih (isBlank c)
        rw [endsInBlank_cons (hne (List.cons_ne_nil d t))]
        exact ⟨hend, fun _ => List.cons_ne_nil _ _⟩

/-- The stored text is the word that is asked for. -/
theorem stored_eq_expectedWord (hend : endsInBlank t = false) :
    stored isBlank (has flags flagsDelMultipleBlanks) false t = expectedWord flags t ↔
      (has flags flagsDelMultipleBlanks = true → ∀ c ∈ t, isBlank c = false) := by
  rw [expectedWord]
  cases hm : has flags flagsDelMultipleBlanks with
  | false =>
      rw [if_neg Bool.false_ne_true, rdropWhile_of_not_endsInBlank hend, stored_false]
      exact ⟨fun _ h => absurd h Bool.false_ne_true, fun _ => rfl⟩
  | true =>
      rw [if_pos rfl, rdropWhile_of_not_endsInBlank (squeeze_endsInBlank hend).1]
      constructor
      · intro heq _ c hc
        by_contra hblank
        rw [Bool.not_eq_false] at hblank
        have hlt : (stored isBlank true false t).length < (squeeze false t).length :=
          length_stored_lt (List.ne_nil_of_mem hc) hend (Or.inr ⟨c, hc, hblank⟩)
        rw [heq] at hlt
        exact Nat.lt_irrefl _ hlt
      · intro h
        rw [stored_of_no_blank true (h rfl), squeeze_of_no_blank (h rfl)]

/-- The word that was appended is the one that is asked for, it does not end in a blank, and
`GWEN_Text_GetWord` gets it too. -/
def WordRight (src delims : List UInt8) (flags : UInt32) (buf buf' : List UInt8) : Prop :=
  ∃ word, buf' = buf ++ word ∧ endsInBlank word = false ∧
    word = expectedWord flags (wordText delims (skipped src delims flags)) ∧
    (SkipsBlanks src delims flags → ∀ maxsize,
      (wordText delims (skipped src delims flags)).length < maxsize →
        ∃ next, getWord src delims maxsize flags = some (word, next))

/-- The word is right if the text up to the delimiter does not end in a blank, and holds none
where multiple blanks are to be removed. -/
theorem wordRight_iff {next : List UInt8} (hu : Unquoted src delims flags)
    (h : getWordToBuffer src delims buf flags = some (buf', next)) :
    WordRight src delims flags buf buf' ↔
      endsInBlank (wordText delims (skipped src delims flags)) = false ∧
        (has flags flagsDelMultipleBlanks = true →
          ∀ c ∈ wordText delims (skipped src delims flags), isBlank c = false) := by
  obtain ⟨hsuccess, rfl⟩ := getWordToBuffer_spec hu h
  generalize htext : wordText delims (skipped src delims flags) = text at *
  constructor
  · rintro ⟨word, hword, hend, heq, -⟩
    rw [htext] at heq
    rw [← List.append_cancel_left hword] at hend heq
    have htend : endsInBlank text = false := by
      by_contra hne
      rw [Bool.not_eq_false] at hne
      rcases stored_endsInBlank (has flags flagsDelMultipleBlanks) hne with hs | ⟨-, hlast⟩
      · rw [hend] at hs
        cases hs
      · cases hlast
    exact ⟨htend, (stored_eq_expectedWord htend).mp heq⟩
  · rintro ⟨hend, hblank⟩
    have heq := (stored_eq_expectedWord hend).mpr hblank
    have hall : ∀ blank : UInt8 → Bool, (∀ c, isBlank c = false → blank c = false) →
        stored blank (has flags flagsDelMultipleBlanks) false text = text := by
      intro blank hsub
      cases hm : has flags flagsDelMultipleBlanks with
      | false => exact stored_false false
      | true => exact stored_of_no_blank true fun c hc => hsub c (hblank hm c hc)
    refine ⟨text, by rw [hall isBlank fun _ hc => hc], hend, ?_, fun hskip maxsize hsize => ?_⟩
    · rw [htext, ← heq, hall isBlank fun _ hc => hc]
    · have hsome := hsuccess.resolve_left hskip.not_endsAtOnce
      have hget := getWord_spec hu hskip (htext ▸ hsome.1) hsome.2 hsize
      have hspace : ∀ c, isBlank c = false → isSpace c = false := by decide
      rw [htext, hall isSpace hspace] at hget
      exact ⟨_, hget⟩

/-- `" a b,"` with the delimiter `","`. -/
theorem wordRight_letter : WordRight (ascii [' ', 'a', ' ', 'b', ',']) (ascii [','])
    (flagsDelLeadingBlanks ||| flagsDelTrailingBlanks) [] (ascii ['a', ' ', 'b']) :=
  (@wordRight_iff _ _ _ _ _ (ascii [',']) ⟨by decide, fun h => absurd h (by decide)⟩
    (by decide)).mpr ⟨by decide, fun h => absurd h (by decide)⟩

/-- Of `"a ,"` the blank is appended too. -/
theorem not_wordRight_blank : ¬∀ src delims flags buf buf' next,
    has flags flagsDelTrailingBlanks = true → Unquoted src delims flags →
      getWordToBuffer src delims buf flags = some (buf', next) →
        WordRight src delims flags buf buf' := by
  intro h
  have hright := h (ascii ['a', ' ', ',']) (ascii [',']) flagsDelTrailingBlanks []
    (ascii ['a', ' ']) (ascii [',']) (by decide) ⟨by decide, fun h => absurd h (by decide)⟩
    (by decide)
  obtain ⟨word, hword, hend, -⟩ := hright
  rw [← show ascii ['a', ' '] = word from hword] at hend
  exact absurd hend (by decide)

end

end Words
end Gwenhywfar
