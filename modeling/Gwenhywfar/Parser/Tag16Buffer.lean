import Gwenhywfar.Parser.Tag16

/-! # Tags at a position of a buffer

A buffer is its used bytes and a position.  A call has no outcome when it reads bytes behind the
used ones.

* `fromBuffer`: `GWEN_Tag16_fromBuffer`, which takes the number of all used bytes for that of the
  bytes left.
* `readAll`: a caller that reads a buffer tag by tag.
* `decodes_iff`: what is left is decoded unless it ends inside of a tag that would fit into the whole
  buffer. -/

namespace Gwenhywfar.Tag16

/-! ### Reading at a position -/

/-- `GWEN_Tag16_fromBuffer2` for the bytes from a pointer on, and the number of bytes it is told. -/
def fromPointer (p : List UInt8) (bufferLen : ℕ) : Option (Option Tag16) :=
  if bufferLen < 3 then some none
  else
    match p with
    | t :: l0 :: l1 :: data =>
        let tagLength := l0.toNat + l1.toNat <<< 8
        if bufferLen - 3 < tagLength then some none
        else if data.length < tagLength then none
        else some (some ⟨t.toNat, data.take tagLength⟩)
    | _ => none

/-- `GWEN_Tag16_fromBuffer`: the result and the position. -/
def fromBuffer (mbuf : List UInt8) (pos : ℕ) : Option (Option Tag16 × ℕ) :=
  (fromPointer (mbuf.drop pos) mbuf.length).map fun tag =>
    (tag, pos + (tag.map tagSize).getD 0)

/-- A caller reads tags until the buffer is used up, or until there is none. -/
def readAll (mbuf : List UInt8) : ℕ → ℕ → Option (Option (List Tag16))
  | 0, _ => none
  | fuel + 1, pos =>
      if pos < mbuf.length then
        (fromBuffer mbuf pos).bind fun r =>
          match r.1 with
          | none => some none
          | some tag => (readAll mbuf fuel r.2).map fun tags => tags.map (tag :: ·)
      else some (some [])

/-! ### What is left -/

def Begins (p : List UInt8) (tag : Tag16) : Prop :=
  ∃ (tagType : UInt8) (rest : List UInt8), tag.tagType = tagType.toNat ∧
    tag.tagData.length ≤ 65535 ∧ p = header tagType tag.tagData.length ++ tag.tagData ++ rest

/-- There is a tag exactly when the bytes left begin with one, and the position is behind it. -/
def DecodesLeft (mbuf : List UInt8) (pos : ℕ) : Prop :=
  ∃ r pos', fromBuffer mbuf pos = some (r, pos') ∧
    (r.isSome ↔ ∃ tag, Begins (mbuf.drop pos) tag) ∧
    ∀ tag, r = some tag → Begins (mbuf.drop pos) tag ∧ pos' = pos + tag.tagSize ∧
      pos' ≤ mbuf.length

/-- The tags are those that `GWEN_Tag16_List_fromBuffer` makes of the bytes left. -/
def SameList (mbuf : List UInt8) (pos : ℕ) : Prop :=
  readAll mbuf (mbuf.length + 1) pos = some (listFromBuffer (mbuf.drop pos))

/-- The bytes left end inside of a tag, which would fit between all used bytes. -/
def Misread (mbuf : List UInt8) (pos : ℕ) : Prop :=
  3 ≤ mbuf.length ∧
    match mbuf.drop pos with
    | _ :: l0 :: l1 :: data =>
        data.length < l0.toNat + l1.toNat <<< 8 ∧ l0.toNat + l1.toNat <<< 8 + 3 ≤ mbuf.length
    | _ => True

/-- Where the tags end that are read one after the other. -/
inductive Reaches (mbuf : List UInt8) : ℕ → ℕ → Prop
  | refl (pos : ℕ) : Reaches mbuf pos pos
  | step {pos q : ℕ} {tag : Tag16} (h : Begins (mbuf.drop pos) tag)
      (hrest : Reaches mbuf (pos + tag.tagSize) q) : Reaches mbuf pos q

section
variable {p mbuf : List UInt8} {pos fuel : ℕ} {tag : Tag16}

theorem begins_of_fromBuffer2 : ∀ {p : List UInt8} {tag : Tag16}, fromBuffer2 p = some tag →
    Begins p tag
  | t :: l0 :: l1 :: data, tag, h => by
      have hfits := fromBuffer2_fits h
      rw [fromBuffer2] at h
      split at h
      · cases h
      · next hle =>
          obtain rfl := Option.some.inj h
          have h0 := l0.toNat_lt
          have h1 := l1.toNat_lt
          have hlen : (data.take (l0.toNat + l1.toNat <<< 8)).length =
              l0.toNat + l1.toNat <<< 8 := List.length_take_of_le (Nat.le_of_not_lt hle)
          have hlow : UInt8.ofNat (l0.toNat + l1.toNat <<< 8) = l0 := by
            apply UInt8.toNat_inj.mp
            rw [UInt8.toNat_ofNat', Nat.shiftLeft_eq]
            omega
          have hhigh : UInt8.ofNat ((l0.toNat + l1.toNat <<< 8) >>> 8) = l1 := by
            apply UInt8.toNat_inj.mp
            rw [UInt8.toNat_ofNat', Nat.shiftRight_eq_div_pow, Nat.shiftLeft_eq]
            omega
          refine ⟨t, data.drop (l0.toNat + l1.toNat <<< 8), rfl, hfits, ?_⟩
          simp [header, hlen, hlow, hhigh]
  | [], _, h => by cases h
  | [_], _, h => by cases h
  | [_, _], _, h => by cases h

theorem begins_iff : Begins p tag ↔ fromBuffer2 p = some tag := by
  refine ⟨?_, begins_of_fromBuffer2⟩
  rintro ⟨tagType, rest, htype, hfits, rfl⟩
  rw [fromBuffer2_header hfits, ← htype]

theorem Begins.tagSize_le (h : Begins p tag) : tag.tagSize ≤ p.length := by
  obtain ⟨tagType, rest, -, -, rfl⟩ := h
  simp only [List.length_append, length_header, tagSize]
  omega

/-- The bytes left are read like a whole buffer, or bytes behind them are read. -/
theorem fromPointer_eq (mbuf : List UInt8) (pos : ℕ) :
    Misread mbuf pos ∧ fromPointer (mbuf.drop pos) mbuf.length = none ∨ ¬Misread mbuf pos ∧
        fromPointer (mbuf.drop pos) mbuf.length = some (fromBuffer2 (mbuf.drop pos)) := by
  have hle : (mbuf.drop pos).length ≤ mbuf.length := by simp
  unfold Misread
  generalize mbuf.drop pos = p at hle ⊢
  generalize mbuf.length = n at hle ⊢
  have hshort : ∀ p : List UInt8, fromPointer p n = (if n < 3 then some none else none) →
      fromBuffer2 p = none →
      (3 ≤ n ∧ True) ∧ fromPointer p n = none ∨
        ¬(3 ≤ n ∧ True) ∧ fromPointer p n = some (fromBuffer2 p) := by
    intro p hp hnone
    rw [hp, hnone]
    split <;> simp <;> omega
  rcases p with _ | ⟨t, _ | ⟨l0, _ | ⟨l1, data⟩⟩⟩
  · exact hshort [] rfl rfl
  · exact hshort [t] rfl rfl
  · exact hshort [t, l0] rfl rfl
  · simp only [List.length_cons] at hle
    simp only [fromPointer, fromBuffer2, if_neg (show ¬n < 3 by omega)]
    by_cases hcut : data.length < l0.toNat + l1.toNat <<< 8
    · by_cases hn : n - 3 < l0.toNat + l1.toNat <<< 8
      · simp [hcut, hn]
        omega
      · simp [hcut, hn]
        omega
    · rw [if_neg hcut, if_neg hcut, if_neg (by omega)]
      exact Or.inr ⟨fun h => hcut h.2.1, rfl⟩

theorem fromBuffer_misread (h : Misread mbuf pos) : fromBuffer mbuf pos = none := by
  rcases fromPointer_eq mbuf pos with ⟨-, hread⟩ | ⟨hno, -⟩
  · rw [fromBuffer, hread, Option.map_none]
  · exact absurd h hno

theorem fromBuffer_left (h : ¬Misread mbuf pos) : fromBuffer mbuf pos =
    some (fromBuffer2 (mbuf.drop pos),
      pos + ((fromBuffer2 (mbuf.drop pos)).map tagSize).getD 0) := by
  rcases fromPointer_eq mbuf pos with ⟨hmis, -⟩ | ⟨-, hread⟩
  · exact absurd hmis h
  · rw [fromBuffer, hread, Option.map_some]

theorem not_misread (h : Begins (mbuf.drop pos) tag) : ¬Misread mbuf pos := by
  have hle := h.tagSize_le
  obtain ⟨tagType, rest, -, hfits, hp⟩ := h
  have hlow : (UInt8.ofNat tag.tagData.length).toNat +
      (UInt8.ofNat (tag.tagData.length >>> 8)).toNat <<< 8 = tag.tagData.length := by
    rw [UInt8.toNat_ofNat', UInt8.toNat_ofNat', Nat.shiftRight_eq_div_pow, Nat.shiftLeft_eq]
    omega
  unfold Misread
  rw [hp]
  rintro ⟨-, hlt, -⟩
  change (tag.tagData ++ rest).length < _ at hlt
  rw [hlow, List.length_append] at hlt
  omega

/-! ### Tag by tag -/

theorem drop_ne_nil (h : pos < mbuf.length) : mbuf.drop pos ≠ [] := by
  simp
  omega

theorem readAll_eq (hmis : ∀ q, Reaches mbuf pos q → q < mbuf.length → ¬Misread mbuf q)
    (hfuel : mbuf.length - pos < fuel) {k : ℕ} (hk : mbuf.length - pos ≤ k) :
    readAll mbuf fuel pos = some (listLoop k (mbuf.drop pos)) := by
  induction fuel generalizing pos k with
  | zero => exact absurd hfuel (Nat.not_lt_zero _)
  | succ fuel ih =>
      unfold readAll
      by_cases hpos : pos < mbuf.length
      · obtain ⟨k, rfl⟩ := Nat.exists_eq_succ_of_ne_zero (show k ≠ 0 by omega)
        obtain ⟨c, rest, hrest⟩ := List.exists_cons_of_ne_nil (drop_ne_nil hpos)
        rw [if_pos hpos, fromBuffer_left (hmis pos (.refl pos) hpos), Option.bind_some]
        dsimp only
        cases htag : fromBuffer2 (mbuf.drop pos) with
        | none =>
            rw [hrest] at htag ⊢
            rw [listLoop, htag]
            rfl
        | some tag =>
            have hbegins := begins_of_fromBuffer2 htag
            have hsize := hbegins.tagSize_le
            have hthree : 3 ≤ tag.tagSize := Nat.le_add_left 3 _
            have htail := @ih (pos + tag.tagSize)
              (fun q hq => hmis q (.step hbegins hq)) (by omega) k (by omega)
            rw [← List.drop_drop] at htail
            rw [Option.map_some, Option.getD_some, htail]
            rw [hrest] at htag hsize ⊢
            rw [listLoop, htag, Option.bind_some, if_neg (Nat.not_lt_of_le hsize)]
            rfl
      · have hnil : mbuf.drop pos = [] := List.drop_eq_nil_of_le (Nat.le_of_not_lt hpos)
        rw [if_neg hpos, hnil]
        cases k <;> rfl

theorem readAll_misread {q : ℕ} (h : Reaches mbuf pos q) (hq : q < mbuf.length)
    (hmis : Misread mbuf q) : readAll mbuf fuel pos = none := by
  induction h generalizing fuel with
  | refl pos =>
      cases fuel with
      | zero => rfl
      | succ fuel => rw [readAll, if_pos hq, fromBuffer_misread hmis, Option.bind_none]
  | @step pos q tag hbegins _ ih =>
      have hlt : pos < mbuf.length := by
        have hsize := hbegins.tagSize_le
        rw [List.length_drop, tagSize] at hsize
        omega
      cases fuel with
      | zero => rfl
      | succ fuel =>
          rw [readAll, if_pos hlt, fromBuffer_left (not_misread hbegins), begins_iff.mp hbegins,
            Option.bind_some]
          simp only [Option.map_some, Option.getD_some, ih hq hmis, Option.map_none]

theorem listFromBuffer_eq (h : p ≠ []) : listFromBuffer p = listLoop p.length p := by
  cases hloop : listLoop p.length p with
  | none => rw [listFromBuffer, hloop, Option.bind_none]
  | some tags =>
      refine listFromBuffer_of_loop hloop ?_
      rintro rfl
      have hsizes := (listLoop_spec hloop).1
      exact h (List.length_eq_zero_iff.mp hsizes.symm)

theorem decodesLeft_iff (mbuf : List UInt8) (pos : ℕ) :
    DecodesLeft mbuf pos ↔ ¬Misread mbuf pos := by
  constructor
  · rintro ⟨r, pos', hread, -⟩ hmis
    rw [fromBuffer_misread hmis] at hread
    cases hread
  · intro h
    refine ⟨_, _, fromBuffer_left h, ?_, ?_⟩
    · simp only [begins_iff, Option.isSome_iff_exists]
    · intro tag htag
      have hbegins := begins_of_fromBuffer2 htag
      have hsize := hbegins.tagSize_le
      have hthree : 3 ≤ tag.tagSize := Nat.le_add_left 3 _
      rw [List.length_drop] at hsize
      rw [htag, Option.map_some, Option.getD_some]
      exact ⟨hbegins, rfl, by omega⟩

theorem sameList_iff (hpos : pos < mbuf.length) :
    SameList mbuf pos ↔ ∀ q, Reaches mbuf pos q → q < mbuf.length → ¬Misread mbuf q := by
  constructor
  · intro h q hq hlt hmis
    rw [SameList, readAll_misread hq hlt hmis] at h
    cases h
  · intro h
    rw [SameList, listFromBuffer_eq (drop_ne_nil hpos),
      readAll_eq h (by omega) (List.length_drop.symm.le)]

end

/-- What is left is decoded unless it ends inside of a tag that would fit between all used bytes; so
are all tags behind a position, unless they end so. -/
theorem decodes_iff (mbuf : List UInt8) (pos : ℕ) : (DecodesLeft mbuf pos ↔ ¬Misread mbuf pos) ∧
      (pos < mbuf.length → (SameList mbuf pos ↔
        ∀ q, Reaches mbuf pos q → q < mbuf.length → ¬Misread mbuf q)) :=
  ⟨decodesLeft_iff mbuf pos, sameList_iff⟩

/-- A tag without data, and the first three bytes of a tag with one byte. -/
theorem not_decodes_cut : ¬∀ (mbuf : List UInt8) (pos : ℕ), pos ≤ mbuf.length →
    DecodesLeft mbuf pos ∧ (pos < mbuf.length → SameList mbuf pos) := by
  intro h
  refine (decodesLeft_iff [1, 0, 0, 2, 1, 0] 3).mp (h _ 3 (by decide)).1 ?_
  exact ⟨by decide, by decide, by decide⟩
end Gwenhywfar.Tag16
