import Gwenhywfar.Base.BufferFilled
import Gwenhywfar.Base.FastBufferRead

/-! # All lines of a stream

* `linesOf`: a stream is split at LF.
* `readLineInto`: `GWEN_FastBuffer_ReadLineToBuffer` with its buffer, which aborts beyond its limit;
  below it the line is that of `readLineToBuffer` (`readLineInto_spec`).
* `lineResults_eq`: the lines do not depend on the pieces in which the io hands out the stream, if
  none of them comes near the limit of a buffer. -/

namespace Gwenhywfar.FastReader

def linesOf : List UInt8 → List (List UInt8)
  | [] => []
  | c :: bytes =>
      if c = 0x0a then [] :: linesOf bytes
      else (c :: (linesOf bytes).headD []) :: (linesOf bytes).tail

/-- Bytes up to a CR, an LF or the end are appended to the buffer, if there are some; what
`GWEN_Buffer_AppendBytes` returns is ignored. -/
def appendPart (part : List UInt8) (buf : Buffer) : Option Buffer :=
  if part = [] then some buf else (buf.appendBytes part).map (·.2)

/-- The bytes that are there are copied up to the end of the line, after a part of them; whether the
end is there, the buffer and the bytes behind it. -/
def copyLine (part : List UInt8) : List UInt8 → Buffer → Option (Bool × Buffer × List UInt8)
  | [], buf => (appendPart part buf).map fun buf => (false, buf, [])
  | c :: bytes, buf =>
      if c = 0x0a then (appendPart part buf).map fun buf => (true, buf, bytes)
      else if c = 0x0d then (appendPart part buf).bind fun buf => copyLine [] bytes buf
      else copyLine (part ++ [c]) bytes buf

/-- The rounds of `GWEN_FastBuffer_ReadLineToBuffer` that begin with an empty fast buffer. -/
def readRoundsInto (hadSome : Bool) (buf : Buffer) :
    List ReadResult → Option (ℤ × Buffer × FastReader)
  | [] => some (if hadSome then 0 else errorEof, buf, ⟨[], []⟩)
  | .failed rv :: io => some
      (if -(rv + 1 : ℤ) = errorEof ∧ hadSome then (0, buf, ⟨[], io⟩) else (-(rv + 1), buf, ⟨[], io⟩))
  | .data [] :: io => some (if hadSome then 0 else errorEof, buf, ⟨[], io⟩)
  | .data (c :: bytes) :: io =>
      (copyLine [] (c :: bytes) buf).bind fun r =>
        if r.1 then some (0, r.2.1, ⟨r.2.2, io⟩) else readRoundsInto true r.2.1 io

/-- `GWEN_FastBuffer_ReadLineToBuffer`. -/
def readLineInto (fb : FastReader) (buf : Buffer) : Option (ℤ × Buffer × FastReader) :=
  (copyLine [] fb.unread buf).bind fun r =>
    if r.1 then some (0, r.2.1, ⟨r.2.2, fb.io⟩) else readRoundsInto (fb.unread != []) r.2.1 fb.io

/-- The results of calls of `GWEN_FastBuffer_ReadLineToBuffer`, each with a new buffer of some size,
and the bytes that are in the buffer afterwards. -/
def lineResults (size : ℕ) : ℕ → FastReader → Option (List (ℤ × List (Option UInt8)))
  | 0, _ => some []
  | k + 1, fb =>
      (Buffer.new size).bind fun buf =>
        (fb.readLineInto buf).bind fun r =>
          (lineResults size k r.2.2).map ((r.1, r.2.1.data) :: ·)

/-- What `GWEN_SyncIo_Read` returns at the end of a stream: 0 or `GWEN_ERROR_EOF`. -/
def EndMark (r : ReadResult) : Prop :=
  r = .data [] ∨ ∃ rv : ℕ, r = .failed rv ∧ -(rv + 1 : ℤ) = errorEof

section
variable {fb : FastReader} {tail : List ReadResult} {bytes line rest buf : List UInt8}
  {pieces : List (List UInt8)}

/-! ### The lines of a stream -/

theorem linesOf_line : ∀ {line : List UInt8} (rest : List UInt8), 0x0a ∉ line →
    linesOf (line ++ 0x0a :: rest) = line :: linesOf rest
  | [], rest, _ => by rw [List.nil_append, linesOf, if_pos rfl]
  | c :: line, rest, h => by
      rw [List.mem_cons, not_or] at h
      rw [List.cons_append, linesOf, if_neg (Ne.symm h.1), linesOf_line rest h.2]
      rfl

theorem linesOf_last : ∀ {line : List UInt8}, line ≠ [] → 0x0a ∉ line → linesOf line = [line]
  | [], hne, _ => absurd rfl hne
  | [c], _, h => by
      rw [List.mem_singleton] at h
      rw [linesOf, if_neg (Ne.symm h)]
      rfl
  | c :: d :: line, _, h => by
      rw [List.mem_cons, not_or] at h
      rw [linesOf, if_neg (Ne.symm h.1), linesOf_last (List.cons_ne_nil d line) h.2]
      rfl

/-! ### The end of the stream -/

theorem readRounds_end (htail : ∀ r ∈ tail, EndMark r) (hadSome : Bool) (buf : List UInt8) :
    ∃ tail', readRounds hadSome buf tail = (if hadSome then 0 else errorEof, buf, ⟨[], tail'⟩) ∧
      ∀ r ∈ tail', EndMark r := by
  cases tail with
  | nil => exact ⟨[], rfl, htail⟩
  | cons r tail =>
      rw [List.forall_mem_cons] at htail
      refine ⟨tail, ?_, htail.2⟩
      rcases htail.1 with rfl | ⟨rv, rfl, hrv⟩
      · rfl
      · rw [readRounds, hrv]
        cases hadSome <;> rfl

theorem readRounds_last (htail : ∀ r ∈ tail, EndMark r) :
    ∀ {pieces : List (List UInt8)} (hadSome : Bool) (buf : List UInt8), (∀ p ∈ pieces, p ≠ []) →
    0x0a ∉ pieces.flatten → ∃ tail', readRounds hadSome buf (pieces.map .data ++ tail) =
      (if hadSome ∨ pieces ≠ [] then 0 else errorEof, buf ++ withoutCr pieces.flatten,
        ⟨[], tail'⟩) ∧ ∀ r ∈ tail', EndMark r
  | [], hadSome, buf, _, _ => by
      obtain ⟨tail', hread, htail'⟩ := readRounds_end htail hadSome buf
      refine ⟨tail', ?_, htail'⟩
      rw [List.map_nil, List.nil_append, hread, List.flatten_nil]
      simp [withoutCr]
  | [] :: pieces, _, _, hne, _ => absurd rfl (hne [] List.mem_cons_self)
  | (c :: p) :: pieces, hadSome, buf, hne, hline => by
      rw [List.forall_mem_cons] at hne
      rw [List.flatten_cons, List.mem_append, not_or] at hline
      obtain ⟨tail', hread, htail'⟩ :=
        readRounds_last htail true (buf ++ withoutCr (c :: p)) hne.2 hline.2
      refine ⟨tail', ?_, htail'⟩
      rw [List.map_cons, List.cons_append, readRounds, takeLine_part hline.1]
      dsimp only
      rw [if_neg Bool.false_ne_true, hread, if_pos (Or.inl rfl),
        if_pos (Or.inr (List.cons_ne_nil _ _)), List.flatten_cons, withoutCr_append,
        List.append_assoc]

theorem readLineToBuffer_last (htail : ∀ r ∈ tail, EndMark r) (hfb : fb.HoldsBefore tail line)
    (hline : 0x0a ∉ line) (buf : List UInt8) : ∃ fb' tail', fb.readLineToBuffer buf =
      (if line = [] then errorEof else 0, buf ++ withoutCr line, fb') ∧
      (∀ r ∈ tail', EndMark r) ∧ fb'.HoldsBefore tail' [] := by
  obtain ⟨pieces, hio, hne, h⟩ := hfb
  rw [← h, List.mem_append, not_or] at hline
  obtain ⟨tail', hread, htail'⟩ := readRounds_last htail (fb.unread != [])
    (buf ++ withoutCr fb.unread) hne hline.2
  refine ⟨⟨[], tail'⟩, tail', ?_, htail', [], rfl, fun _ hp => absurd hp List.not_mem_nil, rfl⟩
  have hempty : line = [] ↔ ¬((fb.unread != []) = true ∨ pieces ≠ []) := by
    have hpieces : pieces.flatten = [] ↔ pieces = [] := by
      constructor
      · intro hflat
        rw [List.flatten_eq_nil_iff] at hflat
        exact List.eq_nil_iff_forall_not_mem.mpr fun p hp => hne p hp (hflat p hp)
      · rintro rfl
        rfl
    rw [← h, List.append_eq_nil_iff, hpieces, not_or, not_not, bne_iff_ne, not_not]
  rw [readLineToBuffer, takeLine_part hline.1]
  dsimp only
  rw [if_neg Bool.false_ne_true, hio, hread, List.append_assoc, ← withoutCr_append, h]
  by_cases hnil : line = []
  · rw [if_pos hnil, if_neg (hempty.mp hnil)]
  · rw [if_neg hnil, if_pos (not_not.mp (mt hempty.mpr hnil))]

/-! ### Lines in a buffer -/

section
variable {buf : Buffer} {s part : List UInt8}

theorem appendPart_spec (h : buf.Filled s) (hlen : (s ++ part).length + 1025 ≤ 2 ^ 24) :
    ∃ b, appendPart part buf = some b ∧ b.Filled (s ++ part) := by
  rw [List.length_append] at hlen
  rw [appendPart]
  split
  · next hnil => exact ⟨buf, rfl, by rwa [hnil, List.append_nil]⟩
  · obtain ⟨b, hb, hf⟩ := h.appendBytes (h.noHit (by omega))
    exact ⟨b, by rw [hb]; rfl, hf⟩

/-- The bytes are those of the line, by induction on the bytes that are there. -/
theorem copyLine_spec : ∀ {bytes s part : List UInt8} {buf : Buffer}, buf.Filled s →
    (s ++ part ++ (takeLine bytes).2.1).length + 1025 ≤ 2 ^ 24 →
    ∃ b, copyLine part bytes buf = some ((takeLine bytes).1, b, (takeLine bytes).2.2) ∧
      b.Filled (s ++ part ++ (takeLine bytes).2.1)
  | [], s, part, buf, h, hlen => by
      rw [takeLine, List.append_nil] at hlen ⊢
      obtain ⟨b, hb, hf⟩ := appendPart_spec h hlen
      exact ⟨b, by rw [copyLine, hb]; rfl, hf⟩
  | c :: bytes, s, part, buf, h, hlen => by
      rw [takeLine] at hlen ⊢
      rw [copyLine]
      by_cases hlf : c = 0x0a
      · rw [if_pos hlf, List.append_nil] at hlen
        rw [if_pos hlf, if_pos hlf, List.append_nil]
        obtain ⟨b, hb, hf⟩ := appendPart_spec h hlen
        exact ⟨b, by rw [hb]; rfl, hf⟩
      rw [if_neg hlf] at hlen
      rw [if_neg hlf, if_neg hlf]
      dsimp only at hlen ⊢
      by_cases hcr : c = 0x0d
      · rw [if_pos hcr] at hlen
        rw [if_pos hcr, if_pos hcr]
        obtain ⟨b, hb, hf⟩ := @appendPart_spec buf s part h (by
          rw [List.length_append] at hlen
          omega)
        obtain ⟨b', hb', hf'⟩ := @copyLine_spec bytes (s ++ part) [] b hf (by rwa [List.append_nil])
        rw [List.append_nil] at hf'
        exact ⟨b', by rw [hb, Option.bind_some, hb'], hf'⟩
      · rw [if_neg hcr] at hlen
        rw [if_neg hcr, if_neg hcr]
        have hmove : s ++ (part ++ [c]) ++ (takeLine bytes).2.1 =
            s ++ part ++ c :: (takeLine bytes).2.1 := by simp
        obtain ⟨b, hb, hf⟩ := @copyLine_spec bytes s (part ++ [c]) buf h (by rwa [hmove])
        exact ⟨b, hb, hmove ▸ hf⟩

theorem length_le_readRounds : ∀ (io : List ReadResult) (hadSome : Bool) (s : List UInt8),
    s.length ≤ (readRounds hadSome s io).2.1.length
  | [], _, _ => le_rfl
  | .failed _ :: _, _, _ => by
      rw [readRounds]
      split <;> exact le_rfl
  | .data [] :: _, _, _ => le_rfl
  | .data (c :: bytes) :: io, _, s => by
      rw [readRounds]
      dsimp only
      split
      · exact (List.length_append ▸ Nat.le_add_right _ _)
      · refine le_trans ?_ (length_le_readRounds io true _)
        exact (List.length_append ▸ Nat.le_add_right _ _)

theorem readRoundsInto_spec : ∀ {io : List ReadResult} {hadSome : Bool} {s : List UInt8}
    {buf : Buffer}, buf.Filled s → (readRounds hadSome s io).2.1.length + 1025 ≤ 2 ^ 24 →
    ∃ b, readRoundsInto hadSome buf io =
      some ((readRounds hadSome s io).1, b, (readRounds hadSome s io).2.2) ∧
      b.Filled (readRounds hadSome s io).2.1
  | [], _, _, buf, h, _ => ⟨buf, rfl, h⟩
  | .failed _ :: _, _, _, buf, h, _ => by
      rw [readRounds, readRoundsInto]
      split <;> exact ⟨buf, rfl, h⟩
  | .data [] :: _, _, _, buf, h, _ => ⟨buf, rfl, h⟩
  | .data (c :: bytes) :: io, _, s, buf, h, hlen => by
      rw [readRounds] at hlen ⊢
      rw [readRoundsInto]
      dsimp only at hlen ⊢
      have hline : (s ++ (takeLine (c :: bytes)).2.1).length + 1025 ≤ 2 ^ 24 := by
        refine le_trans (Nat.add_le_add_right ?_ _) hlen
        split
        · exact le_rfl
        · exact length_le_readRounds io true _
      obtain ⟨b, hb, hf⟩ := @copyLine_spec (c :: bytes) s [] buf h (by rwa [List.append_nil])
      rw [List.append_nil] at hf
      rw [hb, Option.bind_some]
      dsimp only
      split at hlen
      · next hend =>
          rw [if_pos hend, if_pos hend]
          exact ⟨b, rfl, hf⟩
      · next hend =>
          rw [if_neg hend, if_neg hend]
          exact readRoundsInto_spec hf hlen

theorem readLineInto_spec (h : buf.Filled s)
    (hlen : (fb.readLineToBuffer s).2.1.length + 1025 ≤ 2 ^ 24) :
    ∃ b, fb.readLineInto buf = some ((fb.readLineToBuffer s).1, b, (fb.readLineToBuffer s).2.2) ∧
      b.Filled (fb.readLineToBuffer s).2.1 := by
  rw [readLineToBuffer] at hlen ⊢
  rw [readLineInto]
  dsimp only at hlen ⊢
  have hline : (s ++ (takeLine fb.unread).2.1).length + 1025 ≤ 2 ^ 24 := by
    refine le_trans (Nat.add_le_add_right ?_ _) hlen
    split
    · exact le_rfl
    · exact length_le_readRounds _ _ _
  obtain ⟨b, hb, hf⟩ := @copyLine_spec fb.unread s [] buf h (by rwa [List.append_nil])
  rw [List.append_nil] at hf
  rw [hb, Option.bind_some]
  dsimp only
  split at hlen
  · next hend =>
      rw [if_pos hend, if_pos hend]
      exact ⟨b, rfl, hf⟩
  · next hend =>
      rw [if_neg hend, if_neg hend]
      exact readRoundsInto_spec hf hlen

end

/-! ### All lines -/

theorem line_or_last (bytes : List UInt8) :
    (∃ line rest, bytes = line ++ 0x0a :: rest ∧ 0x0a ∉ line) ∨ 0x0a ∉ bytes := by
  by_cases h : 0x0a ∈ bytes
  · obtain ⟨line, rest, hbytes, hline⟩ := List.eq_append_cons_of_mem h
    exact Or.inl ⟨line, rest, hbytes, hline⟩
  · exact Or.inr h

theorem lineResults_succ {size : ℕ} (hsize : Buffer.SizeOk size) (k : ℕ) {rv : ℤ} {fb' : FastReader}
    (hread : fb.readLineToBuffer [] = (rv, line, fb')) (hlen : line.length + 1025 ≤ 2 ^ 24) :
    lineResults size (k + 1) fb = (lineResults size k fb').map ((rv, line.map some) :: ·) := by
  obtain ⟨buf, hbuf, hf⟩ := Buffer.filled_new hsize.1 hsize.2
  obtain ⟨b, hb, hfb⟩ := @readLineInto_spec fb buf [] hf (by rwa [hread])
  rw [hread] at hb hfb
  rw [lineResults, hbuf, Option.bind_some, hb, Option.bind_some]
  dsimp only
  rw [hfb.data_eq]

theorem lineResults_end {size : ℕ} (hsize : Buffer.SizeOk size) : ∀ (k : ℕ) {fb : FastReader}
    {tail : List ReadResult}, (∀ r ∈ tail, EndMark r) → fb.HoldsBefore tail [] →
    lineResults size k fb = some (List.replicate k (errorEof, []))
  | 0, _, _, _, _ => rfl
  | k + 1, fb, tail, htail, hfb => by
      obtain ⟨fb', tail', hread, htail', hfb'⟩ :=
        readLineToBuffer_last htail hfb List.not_mem_nil []
      rw [lineResults_succ hsize k hread (by decide), lineResults_end hsize k htail' hfb',
        List.replicate_succ]
      rfl

/-- The results that are expected of `k` calls. -/
def expected (k : ℕ) (bytes : List UInt8) : List (ℤ × List (Option UInt8)) :=
  ((linesOf bytes).map (fun line => (0, (withoutCr line).map some)) ++
    List.replicate k (errorEof, [])).take k

/-- No line comes near the limit of a buffer. -/
def LinesFit (bytes : List UInt8) : Prop :=
  ∀ line ∈ linesOf bytes, (withoutCr line).length + 1025 ≤ 2 ^ 24

instance (bytes : List UInt8) : Decidable (LinesFit bytes) :=
  inferInstanceAs (Decidable (∀ line ∈ linesOf bytes, _))

theorem expected_cons {lines : List (List UInt8)} (k : ℕ) (hlines : linesOf bytes = line :: lines)
    (hrest : linesOf rest = lines) :
    expected (k + 1) bytes = (0, (withoutCr line).map some) :: expected k rest := by
  have htake : ∀ (xs : List (ℤ × List (Option UInt8))) (x : ℤ × List (Option UInt8)),
      (xs ++ List.replicate (k + 1) x).take k = (xs ++ List.replicate k x).take k := by
    intro xs x
    rw [List.take_append, List.take_append, List.take_replicate, List.take_replicate]
    congr 2
    omega
  unfold expected
  rw [hlines, hrest, List.map_cons, List.cons_append, List.take_succ_cons, htake]

/-- The lines are read, by induction on the calls. -/
theorem lineResults_holds {size : ℕ} (hsize : Buffer.SizeOk size) : ∀ (k : ℕ) {fb : FastReader}
    {tail : List ReadResult} {bytes : List UInt8}, (∀ r ∈ tail, EndMark r) →
    fb.HoldsBefore tail bytes → LinesFit bytes →
    lineResults size k fb = some (expected k bytes)
  | 0, _, _, _, _, _, _ => rfl
  | k + 1, fb, tail, bytes, htail, hfb, hfit => by
      rcases line_or_last bytes with ⟨line, rest, rfl, hline⟩ | hlast
      · obtain ⟨fb', hread, hfb'⟩ := readLineToBuffer_lineBefore hfb hline []
        rw [List.nil_append] at hread
        rw [LinesFit, linesOf_line rest hline, List.forall_mem_cons] at hfit
        rw [lineResults_succ hsize k hread hfit.1, expected_cons k (linesOf_line rest hline) rfl,
          lineResults_holds hsize k htail hfb' hfit.2]
        rfl
      · by_cases hnil : bytes = []
        · subst hnil
          rw [lineResults_end hsize (k + 1) htail hfb]
          exact congrArg some (List.take_of_length_le (by simp)).symm
        · obtain ⟨fb', tail', hread, htail', hfb'⟩ := readLineToBuffer_last htail hfb hlast []
          rw [List.nil_append, if_neg hnil] at hread
          have hend : lineResults size k fb' = some (expected k []) :=
            lineResults_holds hsize k htail' hfb' fun _ h => absurd h List.not_mem_nil
          rw [LinesFit, linesOf_last hnil hlast, List.forall_mem_singleton] at hfit
          rw [lineResults_succ hsize k hread hfit, hend,
            @expected_cons bytes bytes [] [] k (linesOf_last hnil hlast) rfl]
          rfl

/-- The io hands out a stream in pieces, and then it reports the end forever. -/
structure HandsOut (bufferSize : ℕ) (io : ℕ → ReadResult) (pieces : List (List UInt8)) : Prop where
  size : ∀ p ∈ pieces, 1 ≤ p.length ∧ p.length ≤ bufferSize
  data : ∀ i p, pieces[i]? = some p → io i = .data p
  ending : ∀ i, pieces.length ≤ i → EndMark (io i)

/-- Of the results of the io the first `m` are known, which are not fewer than the pieces.  The calls
return the lines, and then the end of the stream. -/
theorem lineResults_eq {bufferSize size : ℕ} {io : ℕ → ReadResult} {pieces : List (List UInt8)}
    (hio : HandsOut bufferSize io pieces) (hsize : Buffer.SizeOk size) (hfit : LinesFit pieces.flatten)
    (m : ℕ) (hm : pieces.length ≤ m) (k : ℕ) :
    lineResults size k ⟨[], (List.range m).map io⟩ = some (expected k pieces.flatten) := by
  obtain ⟨j, rfl⟩ := Nat.exists_eq_add_of_le hm
  have hdata : (List.range pieces.length).map io = pieces.map .data := by
    apply List.ext_getElem
    · rw [List.length_map, List.length_map, List.length_range]
    · intro i _ h
      rw [List.length_map] at h
      rw [List.getElem_map, List.getElem_map, List.getElem_range]
      exact hio.data i _ (List.getElem?_eq_getElem h)
  have htail : ∀ r ∈ (List.range j).map fun i => io (pieces.length + i), EndMark r := by
    intro r hr
    obtain ⟨i, -, rfl⟩ := List.mem_map.mp hr
    exact hio.ending _ (Nat.le_add_right _ _)
  refine lineResults_holds hsize k htail ⟨pieces, ?_, fun p hp => ?_, rfl⟩ hfit
  · rw [List.range_add, List.map_append, List.map_map, hdata]
    rfl
  · exact List.ne_nil_of_length_pos (hio.size p hp).1

def twoPieces : ℕ → ReadResult
  | 0 => .data [97, 13]
  | 1 => .data [10, 98]
  | _ => .data []

theorem handsOut_twoPieces : HandsOut 2 twoPieces [[97, 13], [10, 98]] where
  size := by simp
  data i p h := by
    rcases i with _ | _ | i
    · exact congrArg ReadResult.data (Option.some.inj h)
    · exact congrArg ReadResult.data (Option.some.inj h)
    · simp at h
  ending i hi := by
    obtain ⟨j, rfl⟩ := Nat.exists_eq_add_of_le hi
    rw [Nat.add_comm]
    exact .inl rfl

/-- Two pieces that are separated between CR and LF. -/
theorem lineResults_eq_pieces : lineResults 16 3 ⟨[], (List.range 2).map twoPieces⟩ =
    some [(0, [some 97]), (0, [some 98]), (errorEof, [])] :=
  lineResults_eq handsOut_twoPieces (by decide) (by decide) 2 (by decide) 3

theorem copyLine_plain {buf : Buffer} : ∀ {bytes part : List UInt8},
    (∀ c ∈ bytes, c ≠ 0x0a ∧ c ≠ 0x0d) →
    copyLine part bytes buf = (appendPart (part ++ bytes) buf).map fun buf => (false, buf, [])
  | [], part, _ => by rw [copyLine, List.append_nil]
  | c :: bytes, part, h => by
      rw [List.forall_mem_cons] at h
      rw [copyLine, if_neg h.1.1, if_neg h.1.2, copyLine_plain h.2, List.append_assoc,
        List.singleton_append]

theorem readLineInto_long {buf : Buffer} (h : buf.Filled []) (hl : buf.Limited)
    (hplain : ∀ c ∈ line, c ≠ 0x0a ∧ c ≠ 0x0d) (hlen : line.length = 2 ^ 24)
    (io : List ReadResult) : readLineInto ⟨[], .data line :: io⟩ buf = none := by
  have hnone : appendPart line buf = none := by
    rw [appendPart, if_neg (List.ne_nil_of_length_pos (by omega)), Option.map_eq_none_iff]
    rw [Option.eq_none_iff_forall_ne_some]
    rintro ⟨rv, b⟩ hb
    obtain ⟨hf, hl'⟩ := h.of_appendBytes hl (by omega) hb
    have hlt := hf.lt_limit hl'
    rw [List.nil_append, hlen] at hlt
    exact lt_irrefl _ hlt
  have hcopy := @copyLine_plain buf line [] hplain
  rw [List.nil_append, hnone, Option.map_none] at hcopy
  obtain ⟨c, bytes, rfl⟩ := List.exists_cons_of_length_pos (l := line) (by omega)
  rw [readLineInto, copyLine, appendPart, if_pos rfl]
  simp only [Option.map_some, Option.bind_some]
  rw [if_neg Bool.false_ne_true, readRoundsInto, hcopy, Option.bind_none]

/-- A stream of one line, which is too long for a buffer. -/
theorem not_lineResults_long : ¬∀ (bufferSize size : ℕ) (io : ℕ → ReadResult)
    (pieces : List (List UInt8)), HandsOut bufferSize io pieces → Buffer.SizeOk size →
      lineResults size 1 ⟨[], (List.range pieces.length).map io⟩ =
        some (expected 1 pieces.flatten) := by
  intro h
  have hlong : HandsOut (2 ^ 24) (fun i => if i = 0 then .data (List.replicate (2 ^ 24) 97)
      else .data []) [List.replicate (2 ^ 24) 97] := by
    refine ⟨?_, ?_, fun i hi => .inl (if_neg (Nat.ne_of_gt hi))⟩
    · rw [List.forall_mem_singleton, List.length_replicate]
      exact ⟨by decide, le_rfl⟩
    · intro i p hp
      rcases i with _ | i
      · exact congrArg ReadResult.data (Option.some.inj hp)
      · cases hp
  have hrun := h (2 ^ 24) 1 _ _ hlong (by decide)
  obtain ⟨buf, hbuf, hf⟩ := @Buffer.filled_new 1 (by decide) (by decide)
  have hplain : ∀ c ∈ List.replicate (2 ^ 24) (97 : UInt8), c ≠ 0x0a ∧ c ≠ 0x0d := by
    intro c hc
    rw [List.eq_of_mem_replicate hc]
    decide
  rw [lineResults, hbuf, Option.bind_some, List.length_singleton, List.range_one,
    List.map_singleton, if_pos rfl, readLineInto_long hf (Buffer.limited_new (by decide) hbuf)
      hplain List.length_replicate] at hrun
  cases hrun

end
end Gwenhywfar.FastReader
