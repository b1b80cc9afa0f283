import Gwenhywfar.Base.FastBuffer

/-! # Reading lines through a `GWEN_FAST_BUFFER`

* `Holds`: the bytes that are still to come, in the buffer and in the pieces of the io.
* `readLineToBuffer_line`, `readLineToBuffer_end`: a line is read without its CRs, whatever the
  pieces are; behind the last one there is the end of the stream. -/

namespace Gwenhywfar.FastReader

/-- The io hands out these pieces, none of which is empty, and then it has no bytes. -/
structure Pieces (io : List ReadResult) (pieces : List (List UInt8)) : Prop where
  io_eq : io = pieces.map .data
  nonempty : ∀ p ∈ pieces, p ≠ []

/-- The bytes that are still to come. -/
def Holds (fb : FastReader) (bytes : List UInt8) : Prop :=
  ∃ pieces, Pieces fb.io pieces ∧ fb.unread ++ pieces.flatten = bytes

/-- The bytes that are still to come, behind which the io has these results. -/
def HoldsBefore (tail : List ReadResult) (fb : FastReader) (bytes : List UInt8) : Prop :=
  ∃ pieces : List (List UInt8), fb.io = pieces.map .data ++ tail ∧ (∀ p ∈ pieces, p ≠ []) ∧
    fb.unread ++ pieces.flatten = bytes

theorem holds_iff {fb : FastReader} {bytes : List UInt8} :
    fb.Holds bytes ↔ fb.HoldsBefore [] bytes := by
  constructor
  · rintro ⟨pieces, hpieces, h⟩
    exact ⟨pieces, by rw [List.append_nil, hpieces.io_eq], hpieces.nonempty, h⟩
  · rintro ⟨pieces, hio, hne, h⟩
    exact ⟨pieces, ⟨by rw [hio, List.append_nil], hne⟩, h⟩

def withoutCr (line : List UInt8) : List UInt8 := line.filter (· != 0x0d)

theorem withoutCr_cons (c : UInt8) (line : List UInt8) :
    withoutCr (c :: line) = if c = 0x0d then withoutCr line else c :: withoutCr line := by
  rw [withoutCr, withoutCr, List.filter_cons]
  by_cases hc : c = 0x0d
  · rw [if_pos hc, if_neg (by simp [hc])]
  · rw [if_neg hc, if_pos (by simpa using hc)]

theorem takeLine_cons {c : UInt8} (hc : c ≠ 0x0a) {bytes line rest : List UInt8} {complete : Bool}
    (h : takeLine bytes = (complete, withoutCr line, rest)) :
    takeLine (c :: bytes) = (complete, withoutCr (c :: line), rest) := by
  rw [takeLine, if_neg hc, h, withoutCr_cons]
  dsimp only
  split <;> rfl

theorem takeLine_line : ∀ {line : List UInt8} (rest : List UInt8), 0x0a ∉ line →
    takeLine (line ++ 0x0a :: rest) = (true, withoutCr line, rest)
  | [], _, _ => rfl
  | c :: line, rest, h => by
      rw [List.mem_cons, not_or] at h
      exact takeLine_cons (Ne.symm h.1) (takeLine_line rest h.2)

theorem takeLine_part : ∀ {bytes : List UInt8}, 0x0a ∉ bytes →
    takeLine bytes = (false, withoutCr bytes, [])
  | [], _ => rfl
  | c :: bytes, h => by
      rw [List.mem_cons, not_or] at h
      exact takeLine_cons (Ne.symm h.1) (takeLine_part h.2)

theorem withoutCr_append (xs ys : List UInt8) :
    withoutCr (xs ++ ys) = withoutCr xs ++ withoutCr ys := List.filter_append ..

/-- Some bytes at the begin of a text with a line end either hold it, or they are part of the
line. -/
theorem append_eq_line {xs ys line rest : List UInt8} (h : xs ++ ys = line ++ 0x0a :: rest) :
    (∃ more, xs = line ++ 0x0a :: more ∧ more ++ ys = rest) ∨
      ∃ more, line = xs ++ more ∧ ys = more ++ 0x0a :: rest := by
  rcases List.append_eq_append_iff.mp h with ⟨more, hl, hy⟩ | ⟨more, hx, hr⟩
  · exact Or.inr ⟨more, hl, hy⟩
  · cases more with
    | nil => exact Or.inr ⟨[], by rw [hx, List.append_nil, List.append_nil], hr.symm⟩
    | cons c more =>
        obtain ⟨rfl, hmore⟩ := List.cons.inj hr
        exact Or.inl ⟨more, hx, hmore.symm⟩

theorem readRounds_line {rest : List UInt8} (tail : List ReadResult) :
    ∀ {pieces : List (List UInt8)} {line : List UInt8} (hadSome : Bool) (buf : List UInt8),
    (∀ p ∈ pieces, p ≠ []) → pieces.flatten = line ++ 0x0a :: rest → 0x0a ∉ line →
    ∃ fb, readRounds hadSome buf (pieces.map .data ++ tail) = (0, buf ++ withoutCr line, fb) ∧
      fb.HoldsBefore tail rest
  | [], line, _, _, _, h, _ => by
      rw [List.flatten_nil] at h
      exact absurd h.symm (by simp)
  | [] :: pieces, _, _, _, hne, _, _ => absurd rfl (hne [] List.mem_cons_self)
  | (c :: p) :: pieces, line, hadSome, buf, hne, h, hline => by
      rw [List.forall_mem_cons] at hne
      rw [List.flatten_cons] at h
      rw [List.map_cons, List.cons_append, readRounds]
      rcases append_eq_line h with ⟨more, hp, hmore⟩ | ⟨more, hl, hrest⟩
      · rw [hp, takeLine_line more hline]
        dsimp only
        rw [if_pos rfl]
        exact ⟨_, rfl, pieces, rfl, hne.2, hmore⟩
      · have hpart : 0x0a ∉ c :: p := fun hmem => hline (hl ▸ List.mem_append_left _ hmem)
        have hmore : 0x0a ∉ more := fun hmem => hline (hl ▸ List.mem_append_right _ hmem)
        obtain ⟨fb, hread, hholds⟩ :=
          readRounds_line tail true (buf ++ withoutCr (c :: p)) hne.2 hrest hmore
        rw [takeLine_part hpart]
        dsimp only
        rw [if_neg Bool.false_ne_true, hread, hl, withoutCr_append, List.append_assoc]
        exact ⟨fb, rfl, hholds⟩

/-- A line is read, whatever the io has behind it. -/
theorem readLineToBuffer_lineBefore {fb : FastReader} {tail : List ReadResult}
    {line rest : List UInt8} (hfb : fb.HoldsBefore tail (line ++ 0x0a :: rest))
    (hline : 0x0a ∉ line) (buf : List UInt8) :
    ∃ fb', fb.readLineToBuffer buf = (0, buf ++ withoutCr line, fb') ∧
      fb'.HoldsBefore tail rest := by
  obtain ⟨pieces, hio, hne, h⟩ := hfb
  rw [readLineToBuffer]
  rcases append_eq_line h with ⟨more, hp, hmore⟩ | ⟨more, hl, hrest⟩
  · rw [hp, takeLine_line more hline]
    dsimp only
    rw [if_pos rfl]
    exact ⟨_, rfl, pieces, hio, hne, hmore⟩
  · have hpart : 0x0a ∉ fb.unread := fun hmem => hline (hl ▸ List.mem_append_left _ hmem)
    have hmore : 0x0a ∉ more := fun hmem => hline (hl ▸ List.mem_append_right _ hmem)
    obtain ⟨fb', hread, hholds⟩ := readRounds_line tail (fb.unread != [])
      (buf ++ withoutCr fb.unread) hne hrest hmore
    rw [takeLine_part hpart]
    dsimp only
    rw [if_neg Bool.false_ne_true, hio, hread, hl, withoutCr_append, List.append_assoc]
    exact ⟨fb', rfl, hholds⟩

theorem readLineToBuffer_line {fb : FastReader} {line rest : List UInt8}
    (hfb : fb.Holds (line ++ 0x0a :: rest)) (hline : 0x0a ∉ line) (buf : List UInt8) :
    ∃ fb', fb.readLineToBuffer buf = (0, buf ++ withoutCr line, fb') ∧ fb'.Holds rest := by
  simp only [holds_iff] at hfb ⊢
  exact readLineToBuffer_lineBefore hfb hline buf

theorem readLineToBuffer_end {fb : FastReader} (hfb : fb.Holds []) (buf : List UInt8) :
    (fb.readLineToBuffer buf).1 = errorEof := by
  obtain ⟨pieces, hpieces, h⟩ := hfb
  rw [List.append_eq_nil_iff, List.flatten_eq_nil_iff] at h
  have hnone : pieces = [] := List.eq_nil_iff_forall_not_mem.mpr fun p hp =>
    hpieces.nonempty p hp (h.2 p hp)
  rw [readLineToBuffer, h.1, hpieces.io_eq, hnone]
  rfl
end Gwenhywfar.FastReader
