import Gwenhywfar.Base.BufferInv

/-! # The bytes of a `GWEN_BUFFER`

* `data`: the bytes that a buffer holds.  `InBlock`: they lie in its block, with a place for the
  NUL.  Mode and limits are those that the caller has set.
* `cropMeets_iff`: a crop takes a part of the data, unless the position is behind the data and
  before the end of the buffer; the test of the length wraps around there. -/

namespace Gwenhywfar.Buffer

def data (bf : Buffer) : List (Option UInt8) := (bf.block.drop bf.ptr).take bf.bytesUsed

/-- The buffer lies in its block, and there is a place for the terminating NUL. -/
structure InBlock (bf : Buffer) : Prop where
  inside : bf.ptr + bf.bufferSize ≤ bf.block.length
  size_lt : bf.bufferSize < 2 ^ 32
  used_lt : bf.bytesUsed < bf.bufferSize

theorem RepInv.inBlock {bf : Buffer} (h : RepInv bf) : InBlock bf where
  inside := by
    have hfront := h.front
    have hinside := h.inside
    omega
  size_lt := by
    have hsizes := h.sizes
    omega
  used_lt := h.room

variable {bf bf' : Buffer}

theorem getElem?_data_of_lt {i : ℕ} (h : i < bf.bytesUsed) :
    bf.data[i]? = bf.block[bf.ptr + i]? := by
  unfold data
  rw [List.getElem?_take, if_pos h, List.getElem?_drop]

theorem getElem?_data_of_le {i : ℕ} (h : bf.bytesUsed ≤ i) : bf.data[i]? = none := by
  unfold data
  rw [List.getElem?_take, if_neg (Nat.not_lt.mpr h)]

theorem data_adjustBookmarks (bf : Buffer) (pos : ℕ) (offset : ℤ) :
    (bf.adjustBookmarks pos offset).data = bf.data := rfl

theorem putNul_cells (h : bf.ptr + bf.bytesUsed < bf.block.length) :
    ∃ m, bf.putNul = some { bf with block := m } ∧ m.length = bf.block.length ∧
      ∀ j, m[j]? = if j = bf.ptr + bf.bytesUsed then some (some 0) else bf.block[j]? := by
  obtain ⟨m, hm, hlength, hcells⟩ := @Block.store_of_le _ bf.block [some 0]
    (bf.ptr + bf.bytesUsed) (by rw [List.length_singleton]; omega)
  refine ⟨m, ?_, hlength, fun j => ?_⟩
  · unfold putNul put
    rw [hm, Option.map_some]
  · rw [hcells, List.length_singleton]
    by_cases hj : j = bf.ptr + bf.bytesUsed
    · subst hj
      rw [if_pos (by omega), if_pos rfl, Nat.sub_self]
      rfl
    · rw [if_neg (by omega), if_neg hj]

theorem putNul_outside (h : bf.block.length ≤ bf.ptr + bf.bytesUsed) : bf.putNul = none := by
  unfold putNul put Block.store
  rw [if_neg (by rw [List.length_singleton]; omega), Option.map_none]

/-! ### Cropping -/

/-- The buffer that `GWEN_Buffer_Crop` leaves when it does not fail, before the NUL is written. -/
def cropped (bf : Buffer) (pos l : ℕ) : Buffer :=
  let offset := if pos < bf.pos then pos else bf.pos
  { bf with
    ptr := bf.ptr + pos, bufferSize := bf.bufferSize - pos
    pos := if l < bf.pos - offset then l else bf.pos - offset
    bytesUsed := l }

/-- How far `GWEN_Buffer_Crop` moves the position and the bookmarks. -/
def cropOffset (bf : Buffer) (pos : ℕ) : ℕ := if pos < bf.pos then pos else bf.pos

theorem crop_eq (hmode : bf.hasMode modeReadOnly = false) {pos l : ℕ}
    (hpos : pos < bf.bufferSize) (hl : l ≤ wsub bf.bytesUsed pos) :
    bf.crop pos l = (bf.cropped pos l).putNul.map fun b =>
      (0, b.adjustBookmarks (bf.cropOffset pos) (-(bf.cropOffset pos : ℤ))) := by
  unfold crop
  rw [hmode, if_neg Bool.false_ne_true, if_neg (Nat.not_le.mpr hpos), if_neg (Nat.not_lt.mpr hl)]
  simp only [bind]
  change ((bf.cropped pos l).putNul).bind _ = _
  cases (bf.cropped pos l).putNul <;> rfl

theorem crop_of_le (h : InBlock bf) (hmode : bf.hasMode modeReadOnly = false) {pos l : ℕ}
    (hle : pos + l ≤ bf.bytesUsed) :
    ∃ bf', bf.crop pos l = some (0, bf') ∧ bf'.data = (bf.data.drop pos).take l ∧
      bf'.bytesUsed + 1 ≤ bf'.bufferSize ∧
      bf'.bookmarks = (bf.adjustBookmarks (bf.cropOffset pos) (-(bf.cropOffset pos : ℤ))).bookmarks
        := by
  have hinside := h.inside
  have hsize := h.size_lt
  have hused := h.used_lt
  have hwsub : wsub bf.bytesUsed pos = bf.bytesUsed - pos := wsub_of_le (by omega) (by omega)
  obtain ⟨m, hm, -, hcells⟩ := @putNul_cells (bf.cropped pos l) (by
    simp only [cropped]
    omega)
  have hcrop := @crop_eq bf hmode pos l (by omega) (by rw [hwsub]; omega)
  rw [hm, Option.map_some] at hcrop
  refine ⟨_, hcrop, ?_, ?_, rfl⟩
  · rw [data_adjustBookmarks]
    refine List.ext_getElem? fun i => ?_
    rw [List.getElem?_take, List.getElem?_drop]
    by_cases hi : i < l
    · rw [if_pos hi, getElem?_data_of_lt (show i < l from hi), getElem?_data_of_lt (by omega)]
      refine (hcells _).trans ((if_neg ?_).trans ?_)
      · simp only [cropped]
        omega
      · simp only [cropped]
        rw [Nat.add_assoc]
    · rw [if_neg hi, getElem?_data_of_le (show l ≤ i from Nat.not_lt.mp hi)]
  · change l + 1 ≤ bf.bufferSize - pos
    omega

/-- What a call of `GWEN_Buffer_Crop` promises: a part of the data is kept, or nothing changes, or
the mode asks for an abort. -/
def CropMeets (bf : Buffer) (pos l : ℕ) : Prop :=
  (bf.crop pos l = none → bf.hasMode modeReadOnly = true ∧
    bf.hasMode modeAbortOnMemFull = true) ∧
  ∀ rv bf', bf.crop pos l = some (rv, bf') →
    (rv = 0 → pos + l ≤ bf.bytesUsed ∧ bf'.data = (bf.data.drop pos).take l ∧
      bf'.bytesUsed + 1 ≤ bf'.bufferSize) ∧
    (rv ≠ 0 → bf' = bf)

/-- The position is not behind the data, or it is rejected, or the length does not pass the test
that wraps around. -/
def CropAccepts (bf : Buffer) (pos l : ℕ) : Prop :=
  bf.hasMode modeReadOnly = true ∨ bf.bufferSize ≤ pos ∨ pos ≤ bf.bytesUsed ∨
    2 ^ 32 + bf.bytesUsed < pos + l

instance (bf : Buffer) (pos l : ℕ) : Decidable (CropAccepts bf pos l) :=
  inferInstanceAs (Decidable (_ ∨ _))

theorem cropMeets_of_fails {rv : ℤ} {pos l : ℕ} (hcrop : bf.crop pos l = some (rv, bf))
    (hrv : rv ≠ 0) : CropMeets bf pos l := by
  refine ⟨fun hnone => ?_, fun rv' bf' h => ?_⟩
  · rw [hcrop] at hnone
    cases hnone
  · rw [hcrop] at h
    cases h
    exact ⟨fun h0 => absurd h0 hrv, fun _ => rfl⟩

theorem cropMeets_readOnly (hmode : bf.hasMode modeReadOnly = true) (pos l : ℕ) :
    CropMeets bf pos l := by
  have hcrop : bf.crop pos l = bf.failure errorPermissions := by
    unfold crop
    rw [if_pos hmode]
  by_cases habort : bf.hasMode modeAbortOnMemFull = true
  · rw [failure, if_pos habort] at hcrop
    refine ⟨fun _ => ⟨hmode, habort⟩, fun rv bf' h => ?_⟩
    rw [hcrop] at h
    cases h
  · rw [failure, if_neg habort] at hcrop
    exact cropMeets_of_fails hcrop (by decide)

theorem cropMeets_iff (h : InBlock bf) {pos l : ℕ} (hpos : pos < 2 ^ 32) (hl : l < 2 ^ 32) :
    CropMeets bf pos l ↔ CropAccepts bf pos l := by
  have hinside := h.inside
  have hsize := h.size_lt
  have hused := h.used_lt
  unfold CropAccepts
  by_cases hmode : bf.hasMode modeReadOnly = true
  · exact iff_of_true (cropMeets_readOnly hmode pos l) (.inl hmode)
  have hmode' : bf.hasMode modeReadOnly = false := by simpa using hmode
  by_cases hout : bf.bufferSize ≤ pos
  · refine iff_of_true (@cropMeets_of_fails bf (-1) pos l ?_ (by decide)) (.inr (.inl hout))
    unfold crop
    rw [if_neg hmode, if_pos hout]
  by_cases hfit : l ≤ wsub bf.bytesUsed pos
  · by_cases hle : pos ≤ bf.bytesUsed
    · have hwsub : wsub bf.bytesUsed pos = bf.bytesUsed - pos := wsub_of_le hle (by omega)
      obtain ⟨b, hb, hdata, hroom, -⟩ := @crop_of_le bf h hmode' pos l (by omega)
      refine iff_of_true ⟨fun hnone => ?_, fun rv bf' hcrop => ?_⟩ (.inr (.inr (.inl hle)))
      · rw [hb] at hnone
        cases hnone
      · rw [hb] at hcrop
        cases hcrop
        exact ⟨fun _ => ⟨by omega, hdata, hroom⟩, fun h0 => absurd rfl h0⟩
    · have hwsub : wsub bf.bytesUsed pos + pos = 2 ^ 32 + bf.bytesUsed := by
        unfold wsub
        omega
      refine iff_of_false (fun hmeets => ?_) ?_
      swap
      · rintro (hro | hge | hge | hgt)
        · exact hmode hro
        · exact hout hge
        · exact hle hge
        · omega
      cases hcrop : bf.crop pos l with
      | none => exact hmode (hmeets.1 hcrop).1
      | some r =>
          have hrv : r.1 = 0 := by
            rw [crop_eq hmode' (by omega) hfit, Option.map_eq_some_iff] at hcrop
            obtain ⟨b, -, rfl⟩ := hcrop
            rfl
          have hpart := ((hmeets.2 r.1 r.2 hcrop).1 hrv).1
          omega
  · have hcrop : bf.crop pos l = some (-1, bf) := by
      unfold crop
      rw [if_neg hmode, if_neg hout, if_pos (by omega)]
    refine iff_of_true (cropMeets_of_fails hcrop (by decide)) ?_
    by_cases hle : pos ≤ bf.bytesUsed
    · exact .inr (.inr (.inl hle))
    · unfold wsub at hfit
      omega

def oneByte : Buffer where
  block := [some 97, some 0, none, none, none]
  ptr := 0
  pos := 1
  bufferSize := 5
  realBufferSize := 5
  bytesUsed := 1
  mode := modeDefault
  hardLimit := defaultHardLimit
  step := dynamicStep
  bookmarks := List.replicate maxBookmarks 0

theorem cropMeets_oneByte : CropMeets oneByte 1 0 :=
  (cropMeets_iff ⟨by decide, by decide, by decide⟩ (by decide) (by decide)).mpr (by decide)

/-- A position behind the data is accepted, with a length. -/
theorem not_cropMeets_oneByte : ¬ CropMeets oneByte 2 1 := by
  intro h
  have hcrop : ∃ b, oneByte.crop 2 1 = some (0, b) := ⟨_, rfl⟩
  obtain ⟨b, hb⟩ := hcrop
  exact absurd ((h.2 0 b hb).1 rfl).1 (by decide)
end Gwenhywfar.Buffer
