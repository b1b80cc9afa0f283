import Gwenhywfar.Base.BufferBytes

/-! # The bookmarks of a `GWEN_BUFFER`

* `moved`: where a byte of the data is after room was inserted or removed, or after a crop.
* `followBytes_iff`: the bookmarks follow their bytes, unless a crop begins behind the position; it
  then moves the bookmarks by the position, and not by the bytes that it removes. -/

namespace Gwenhywfar.Buffer

/-- An operation that edits the data. -/
inductive Edit where
  | insertRoom (size : ℕ)
  | removeRoom (size : ℕ)
  | crop (pos l : ℕ)
deriving DecidableEq, Repr

/-- The operation. -/
def edit (bf : Buffer) : Edit → Option (ℤ × Buffer)
  | .insertRoom size => bf.insertRoom size
  | .removeRoom size => bf.removeRoom size
  | .crop pos l => bf.crop pos l

/-- The arguments are those of a `uint32_t`. -/
def Edit.IsUint32 : Edit → Prop
  | .insertRoom size | .removeRoom size => size < 2 ^ 32
  | .crop pos l => pos < 2 ^ 32 ∧ l < 2 ^ 32

/-- Where the byte `i` is after the operation, if it is still there. -/
def moved (bf : Buffer) : Edit → ℕ → Option ℕ
  | .insertRoom size, i => some (if i < bf.pos then i else i + size)
  | .removeRoom size, i =>
      if i < bf.pos then some i else if i < bf.pos + size then none else some (i - size)
  | .crop pos l, i => if pos ≤ i ∧ i < pos + l then some (i - pos) else none

def FollowBytes (bf : Buffer) (e : Edit) (bf' : Buffer) : Prop :=
  ∀ k b : ℕ, bf.bookmarks[k]? = some b → b < bf.bytesUsed → ∀ b', bf.moved e b = some b' →
    bf'.bookmarks[k]? = some b' ∧ bf'.data[b']? = bf.data[b]?

def KeepsTrack (bf : Buffer) : Edit → Prop
  | .crop pos l => pos ≤ bf.pos ∨
      ∀ b ∈ bf.bookmarks, ¬ (b < bf.bytesUsed ∧ pos ≤ b ∧ b < pos + l)
  | _ => True

instance (bf : Buffer) (e : Edit) : Decidable (KeepsTrack bf e) := by
  cases e <;> dsimp only [KeepsTrack] <;> infer_instance

variable {bf bf' : Buffer} {size : ℕ}

theorem getElem?_adjustBookmarks (bf : Buffer) (pos : ℕ) (offset : ℤ) {k b : ℕ}
    (h : bf.bookmarks[k]? = some b) : (bf.adjustBookmarks pos offset).bookmarks[k]? =
      some (if pos ≤ b then ((b + offset) % 2 ^ 32).toNat else b) := by
  unfold adjustBookmarks
  rw [List.getElem?_map, h, Option.map_some]

theorem failure_ne_zero {err : ℤ} (herr : err ≠ 0) : bf.failure err ≠ some (0, bf') := by
  intro h
  unfold failure at h
  split at h
  · cases h
  · exact herr (congrArg Prod.fst (Option.some.inj h))

/-! ### Inserting -/

/-- A buffer with another block: the cells that are in both blocks are the same. -/
structure SameData (bf b : Buffer) : Prop where
  ptr_eq : b.ptr = bf.ptr
  pos_eq : b.pos = bf.pos
  bytesUsed_eq : b.bytesUsed = bf.bytesUsed
  bookmarks_eq : b.bookmarks = bf.bookmarks
  block_lt : b.block.length < 2 ^ 32 ∨ b.block.length = bf.block.length
  cells_eq : ∀ j, j < bf.block.length → j < b.block.length → b.block[j]? = bf.block[j]?

theorem allocRoom_sameData {n : ℕ} {rv : ℤ} {b : Buffer} (h : bf.allocRoom n = some (rv, b)) :
    SameData bf b := by
  have hfail : ∀ {err : ℤ}, bf.failure err = some (rv, b) → b = bf := by
    intro err hf
    unfold failure at hf
    split at hf
    · cases hf
    · exact (congrArg Prod.snd (Option.some.inj hf)).symm
  have hrefl : b = bf → SameData bf b := by
    rintro rfl
    exact ⟨rfl, rfl, rfl, rfl, .inr rfl, fun _ _ _ => rfl⟩
  unfold allocRoom at h
  split at h
  · exact hrefl (hfail h)
  · dsimp only at h
    split at h
    · split at h
      · split at h
        · exact hrefl (hfail h)
        · split at h
          · cases h
          · obtain rfl := congrArg Prod.snd (Option.some.inj h)
            refine ⟨rfl, rfl, rfl, rfl, .inl ?_, fun j hj hj' => ?_⟩
            · simp only [Block.length_resize]
              exact Nat.mod_lt _ (by decide)
            · simp only [Block.length_resize] at hj'
              exact Block.getElem?_resize_of_lt none hj hj'
      · exact hrefl (hfail h)
    · exact hrefl (congrArg Prod.snd (Option.some.inj h)).symm

theorem moveBytes_cells {dst src n : ℕ} (h : bf.moveBytes dst src n = some bf') :
    bf.ptr + src + n ≤ bf.block.length ∧ bf.ptr + dst + n ≤ bf.block.length ∧
    ∃ m, bf' = { bf with block := m } ∧ m.length = bf.block.length ∧
      ∀ j, m[j]? = if bf.ptr + dst ≤ j ∧ j < bf.ptr + dst + n
        then bf.block[j - dst + src]? else bf.block[j]? := by
  unfold moveBytes at h
  obtain ⟨xs, hload, hput⟩ := Option.bind_eq_some_iff.mp h
  have hsrc : bf.ptr + src + n ≤ bf.block.length := by
    by_contra hlt
    rw [Block.load, if_neg hlt] at hload
    cases hload
  obtain ⟨ys, hys, hlen, hcells⟩ := Block.load_of_le hsrc
  obtain rfl : ys = xs := Option.some.inj (hys.symm.trans hload)
  unfold put at hput
  obtain ⟨m, hm, rfl⟩ := Option.map_eq_some_iff.mp hput
  have hdst : bf.ptr + dst + n ≤ bf.block.length := by
    by_contra hlt
    rw [Block.store, hlen, if_neg hlt] at hm
    cases hm
  obtain ⟨m', hm', hlength, hstore⟩ := @Block.store_of_le _ bf.block ys (bf.ptr + dst) (by omega)
  obtain rfl : m' = m := Option.some.inj (hm'.symm.trans hm)
  refine ⟨hsrc, hdst, m', rfl, hlength, fun j => ?_⟩
  rw [hstore, hlen]
  split
  · rw [hcells _ (by omega)]
    congr 1
    omega
  · rfl

theorem putNul_eq_some (h : bf.putNul = some bf') : bf.ptr + bf.bytesUsed < bf.block.length ∧
    ∃ m, bf' = { bf with block := m } ∧
      ∀ j, m[j]? = if j = bf.ptr + bf.bytesUsed then some (some 0) else bf.block[j]? := by
  by_cases hlt : bf.ptr + bf.bytesUsed < bf.block.length
  · obtain ⟨m, hm, -, hcells⟩ := putNul_cells hlt
    exact ⟨hlt, m, Option.some.inj (h.symm.trans hm), hcells⟩
  · rw [putNul_outside (Nat.not_lt.mp hlt)] at h
    cases h

theorem followBytes_adjust {e : Edit} {c : Buffer} {p : ℕ} {offset : ℤ}
    (hbookmarks : c.bookmarks = bf.bookmarks)
    (h : ∀ b b', b < bf.bytesUsed → bf.moved e b = some b' →
      (if p ≤ b then ((b + offset) % 2 ^ 32).toNat else b) = b' ∧ b' < c.bytesUsed ∧
        c.block[c.ptr + b']? = bf.block[bf.ptr + b]?) :
    FollowBytes bf e (c.adjustBookmarks p offset) := by
  intro k b hk hb b' hmoved
  obtain ⟨hbookmark, hlt, hcell⟩ := h b b' hb hmoved
  refine ⟨?_, ?_⟩
  · rw [getElem?_adjustBookmarks c p offset (hbookmarks ▸ hk), hbookmark]
  · rw [data_adjustBookmarks, getElem?_data_of_lt hb, getElem?_data_of_lt hlt, hcell]

theorem followBytes_insertRoom (h : InBlock bf) (hsmall : bf.block.length ≤ 2 ^ 31)
    (hsize : size < 2 ^ 32) (hinsert : bf.insertRoom size = some (0, bf')) :
    FollowBytes bf (.insertRoom size) bf' := by
  have hinside := h.inside
  have hlt := h.used_lt
  unfold insertRoom at hinsert
  split at hinsert
  · exact absurd hinsert (failure_ne_zero (by decide))
  split at hinsert
  · rename_i hempty
    intro k b _ hb
    omega
  split at hinsert
  · rename_i hreserved
    split at hinsert
    · cases hinsert
    · have hused : wadd bf.bytesUsed size = bf.bytesUsed + size := wadd_of_lt (by omega)
      obtain rfl := congrArg Prod.snd (Option.some.inj hinsert)
      refine followBytes_adjust rfl fun b b' hb hmoved => ?_
      rw [moved, if_neg (by omega)] at hmoved
      obtain rfl := Option.some.inj hmoved
      simp only [hused]
      refine ⟨?_, by omega, ?_⟩
      · rw [if_pos (by omega)]
        omega
      · congr 1
        omega
  · simp only [bind] at hinsert
    obtain ⟨⟨rv, b1⟩, halloc, hrest⟩ := Option.bind_eq_some_iff.mp hinsert
    have hsame := allocRoom_sameData halloc
    dsimp only at hrest
    split at hrest
    · rename_i hneg
      rw [Option.some.injEq, Prod.mk.injEq] at hrest
      omega
    split at hrest
    · cases hrest
    rename_i hpos
    obtain ⟨b2, hmove, hrest⟩ := Option.bind_eq_some_iff.mp hrest
    obtain ⟨b3, hnul, hrest⟩ := Option.bind_eq_some_iff.mp hrest
    obtain rfl := congrArg Prod.snd (Option.some.inj hrest)
    obtain ⟨hsrc, hdst, m, rfl, hlength, hm⟩ := moveBytes_cells hmove
    have hptr := hsame.ptr_eq
    have hpos' := hsame.pos_eq
    have hused' := hsame.bytesUsed_eq
    have hblock := hsame.block_lt
    rw [toInt_of_lt (by omega), Int.toNat_natCast] at hsrc hdst hm
    have hsum : wadd bf.bytesUsed size = bf.bytesUsed + size := wadd_of_lt (by omega)
    obtain ⟨-, m', rfl, hm'⟩ := putNul_eq_some hnul
    refine followBytes_adjust hsame.bookmarks_eq fun b b' hb hmoved => ?_
    rw [moved] at hmoved
    obtain rfl := Option.some.inj hmoved
    simp only [hpos', hptr, hused', hsum] at hm hm' ⊢
    by_cases hbefore : b < bf.pos
    · rw [if_pos hbefore, if_neg (by omega)]
      refine ⟨rfl, by omega, ?_⟩
      rw [hm', if_neg (by omega), hm, if_neg (by omega), hsame.cells_eq _ (by omega) (by omega)]
    · rw [if_neg hbefore, if_pos (by omega)]
      refine ⟨by omega, by omega, ?_⟩
      rw [hm', if_neg (by omega), hm, if_pos (by omega),
        show bf.ptr + (b + size) - (bf.pos + size) + bf.pos = bf.ptr + b by omega,
        hsame.cells_eq _ (by omega) (by omega)]

/-! ### Removing -/

theorem followBytes_removeRoom (h : InBlock bf) (hsmall : bf.block.length ≤ 2 ^ 31)
    (hsize : size < 2 ^ 32) (hremove : bf.removeRoom size = some (0, bf')) :
    FollowBytes bf (.removeRoom size) bf' := by
  have hinside := h.inside
  have hlt := h.used_lt
  unfold removeRoom at hremove
  split at hremove
  · exact absurd hremove (failure_ne_zero (by decide))
  split at hremove
  · have hrv : errorInvalid = 0 := congrArg Prod.fst (Option.some.inj hremove)
    exact absurd hrv (by decide)
  rename_i hfits
  simp only [bind] at hremove
  split at hremove
  · rename_i hpos
    have hle : size ≤ bf.bytesUsed := by
      rw [hpos, wadd_of_lt (by omega)] at hfits
      omega
    obtain ⟨b1, hnul, hrest⟩ := Option.bind_eq_some_iff.mp hremove
    obtain rfl := congrArg Prod.snd (Option.some.inj hrest)
    obtain ⟨-, m, rfl, hm⟩ := putNul_eq_some hnul
    have hused : wsub bf.bytesUsed size = bf.bytesUsed - size := wsub_of_le hle (by omega)
    have hint : toInt size = size := toInt_of_lt (by omega)
    refine followBytes_adjust rfl fun b b' hb hmoved => ?_
    rw [moved, if_neg (by omega)] at hmoved
    split at hmoved
    · cases hmoved
    obtain rfl := Option.some.inj hmoved
    simp only [hused, hint] at hm ⊢
    refine ⟨?_, by omega, ?_⟩
    · rw [if_pos (by omega)]
      omega
    · rw [hm, if_neg (by omega)]
      congr 1
      omega
  · split at hremove
    · cases hremove
    rename_i hpos hcount
    obtain ⟨b1, hmove, hrest⟩ := Option.bind_eq_some_iff.mp hremove
    obtain ⟨b2, hnul, hrest⟩ := Option.bind_eq_some_iff.mp hrest
    obtain rfl := congrArg Prod.snd (Option.some.inj hrest)
    obtain ⟨hsrc, hdst, m, rfl, hlength, hm⟩ := moveBytes_cells hmove
    have hle : size + bf.pos ≤ bf.bytesUsed := by
      rw [wadd_of_lt (by omega)] at hfits
      omega
    have hused : wsub bf.bytesUsed size = bf.bytesUsed - size := wsub_of_le (by omega) (by omega)
    have hint : toInt size = size := toInt_of_lt (by omega)
    have hrest : wsub (wsub bf.bytesUsed bf.pos) size = bf.bytesUsed - bf.pos - size := by
      rw [wsub_of_le (b := bf.pos) (by omega) (by omega), wsub_of_le (by omega) (by omega)]
    rw [hrest, toInt_of_lt (by omega), Int.toNat_natCast] at hsrc hdst hm
    obtain ⟨-, m', rfl, hm'⟩ := putNul_eq_some hnul
    refine followBytes_adjust rfl fun b b' hb hmoved => ?_
    rw [moved] at hmoved
    simp only [hused, hint] at hm' ⊢
    by_cases hbefore : b < bf.pos
    · rw [if_pos hbefore] at hmoved
      obtain rfl := Option.some.inj hmoved
      rw [if_neg (by omega)]
      refine ⟨rfl, by omega, ?_⟩
      rw [hm', if_neg (by omega), hm, if_neg (by omega)]
    · rw [if_neg hbefore] at hmoved
      split at hmoved
      · cases hmoved
      obtain rfl := Option.some.inj hmoved
      rw [if_pos (by omega)]
      refine ⟨by omega, by omega, ?_⟩
      rw [hm', if_neg (by omega), hm, if_pos (by omega)]
      congr 1
      omega

/-! ### Cropping -/

theorem crop_eq_some {pos l : ℕ} (hcrop : bf.crop pos l = some (0, bf')) :
    bf.hasMode modeReadOnly = false ∧ pos < bf.bufferSize ∧ l ≤ wsub bf.bytesUsed pos := by
  unfold crop at hcrop
  split at hcrop
  · exact absurd hcrop (failure_ne_zero (by decide))
  rename_i hmode
  split at hcrop
  · have hrv : (-1 : ℤ) = 0 := congrArg Prod.fst (Option.some.inj hcrop)
    exact absurd hrv (by decide)
  rename_i hpos
  split at hcrop
  · have hrv : (-1 : ℤ) = 0 := congrArg Prod.fst (Option.some.inj hcrop)
    exact absurd hrv (by decide)
  rename_i hl
  exact ⟨by simpa using hmode, Nat.not_le.mp hpos, Nat.not_lt.mp hl⟩

theorem crop_bookmarks (h : InBlock bf) {pos l : ℕ} (hcrop : bf.crop pos l = some (0, bf'))
    {k b : ℕ} (hk : bf.bookmarks[k]? = some b) (hb : b < bf.bytesUsed) (hpos : pos ≤ b) :
    bf'.bookmarks[k]? = some (b - bf.cropOffset pos) := by
  have hsize := h.size_lt
  have hlt := h.used_lt
  obtain ⟨hmode, hin, hl⟩ := crop_eq_some hcrop
  rw [crop_eq hmode hin hl, Option.map_eq_some_iff] at hcrop
  obtain ⟨c, hc, hr⟩ := hcrop
  obtain rfl := congrArg Prod.snd hr
  have hoffset : bf.cropOffset pos ≤ pos := by
    unfold cropOffset
    split <;> omega
  have hbookmarks : c.bookmarks = bf.bookmarks := by
    obtain ⟨-, m, rfl, -⟩ := putNul_eq_some hc
    rfl
  rw [getElem?_adjustBookmarks c _ _ (hbookmarks ▸ hk), if_pos (by omega)]
  congr 1
  omega

theorem crop_data (h : InBlock bf) {pos l : ℕ} (hcrop : bf.crop pos l = some (0, bf'))
    (hpos : pos ≤ bf.bytesUsed) : bf'.data = (bf.data.drop pos).take l := by
  have hlt := h.used_lt
  have hsize := h.size_lt
  obtain ⟨hmode, hin, hl⟩ := crop_eq_some hcrop
  rw [wsub_of_le hpos (by omega)] at hl
  obtain ⟨b, hb, hdata, -⟩ := @crop_of_le bf h hmode pos l (by omega)
  rw [hcrop] at hb
  obtain rfl := congrArg Prod.snd (Option.some.inj hb)
  exact hdata

theorem followBytes_crop_iff (h : InBlock bf) {pos l : ℕ} (hcrop : bf.crop pos l = some (0, bf')) :
    FollowBytes bf (.crop pos l) bf' ↔ KeepsTrack bf (.crop pos l) := by
  constructor
  · intro hfollow
    by_contra hnot
    rw [KeepsTrack, not_or] at hnot
    obtain ⟨hpos, hbookmark⟩ := hnot
    push Not at hbookmark
    obtain ⟨b, hmem, hb, hge, hlt⟩ := hbookmark
    obtain ⟨k, hk⟩ := List.mem_iff_getElem?.mp hmem
    obtain ⟨hnew, -⟩ := hfollow k b hk hb (b - pos) (if_pos ⟨hge, hlt⟩)
    have hoffset := crop_bookmarks h hcrop hk hb hge
    rw [hnew, Option.some.injEq, cropOffset, if_neg (by omega)] at hoffset
    omega
  · intro htrack k b hk hb b' hmoved
    rw [moved] at hmoved
    split at hmoved
    swap
    · cases hmoved
    rename_i hin
    obtain rfl := Option.some.inj hmoved
    have hpos : pos ≤ bf.pos := htrack.resolve_right fun hnone =>
      hnone b (List.mem_of_getElem? hk) ⟨hb, hin⟩
    have hoffset : bf.cropOffset pos = pos := by
      unfold cropOffset
      split <;> omega
    refine ⟨?_, ?_⟩
    · rw [crop_bookmarks h hcrop hk hb hin.1, hoffset]
    · rw [crop_data h hcrop (by omega), List.getElem?_take, if_pos (by omega), List.getElem?_drop]
      congr 1
      omega

/-- The bookmarks follow their bytes, unless a crop that keeps some of these begins behind the
position. -/
theorem followBytes_iff (h : InBlock bf) (hsmall : bf.block.length ≤ 2 ^ 31) {e : Edit}
    (he : e.IsUint32) (hedit : bf.edit e = some (0, bf')) :
    FollowBytes bf e bf' ↔ KeepsTrack bf e := by
  cases e with
  | insertRoom size => exact iff_of_true (followBytes_insertRoom h hsmall he hedit) trivial
  | removeRoom size => exact iff_of_true (followBytes_removeRoom h hsmall he hedit) trivial
  | crop pos l => exact followBytes_crop_iff h hedit

def fourBytes (pos : ℕ) : Buffer where
  block := [some 97, some 98, some 99, some 100, some 0]
  ptr := 0
  pos := pos
  bufferSize := 5
  realBufferSize := 5
  bytesUsed := 4
  mode := modeDefault
  hardLimit := defaultHardLimit
  step := dynamicStep
  bookmarks := 2 :: List.replicate 63 0

/-- With the position at the end of the data the bookmarks follow. -/
theorem followBytes_fourBytes : ∃ bf', (fourBytes 4).edit (.crop 1 3) = some (0, bf') ∧
    FollowBytes (fourBytes 4) (.crop 1 3) bf' :=
  ⟨_, rfl, (@followBytes_iff (fourBytes 4) _ ⟨by decide, by decide, by decide⟩ (by decide)
    (.crop 1 3) ⟨by decide, by decide⟩ rfl).mpr (.inl (by decide))⟩

/-- With the position at the begin they stay where they are. -/
theorem not_followBytes_fourBytes : ∃ bf', (fourBytes 0).edit (.crop 1 3) = some (0, bf') ∧
    ¬ FollowBytes (fourBytes 0) (.crop 1 3) bf' := by
  refine ⟨_, rfl, fun h => ?_⟩
  obtain ⟨hbookmark, -⟩ := h 0 2 rfl (by decide) 1 rfl
  exact absurd hbookmark (by decide)
end Gwenhywfar.Buffer
