import Mathlib.Data.Nat.Bitwise
import Gwenhywfar.Base.Buffer

/-! # The representation invariant of `GWEN_BUFFER`

* `Framed`: the reserved bytes and the buffer make up the real buffer, which lies in the block.
* `RepInv`: there is also room for the terminating NUL, and it is there.
* Every function keeps the invariant under the condition that its `…_spec` states; the counts
  that are converted to `int` and the positions that `GWEN_Buffer_Crop` accepts matter. -/

namespace Gwenhywfar.Buffer

/-! ### Arithmetic of `uint32_t` -/

theorem wadd_of_lt {a b : ℕ} (h : a + b < 2 ^ 32) : wadd a b = a + b := Nat.mod_eq_of_lt h

theorem wsub_of_le {a b : ℕ} (h : b ≤ a) (ha : a < 2 ^ 32) : wsub a b = a - b := by
  unfold wsub
  omega

theorem toInt_of_lt {n : ℕ} (h : n < 2 ^ 31) : toInt n = n := if_pos h

theorem and_highBits {x w k : ℕ} (hx : x < 2 ^ w) (hk : k ≤ w) :
    x &&& (2 ^ w - 2 ^ k) = x / 2 ^ k * 2 ^ k := by
  have hm : 2 ^ w - 2 ^ k = (2 ^ (w - k) - 1) * 2 ^ k := by
    rw [Nat.sub_mul, ← Nat.pow_add, Nat.sub_add_cancel hk, Nat.one_mul]
  apply Nat.eq_of_testBit_eq
  intro i
  rw [hm, Nat.testBit_and, Nat.testBit_mul_two_pow, Nat.testBit_mul_two_pow,
    Nat.testBit_two_pow_sub_one, Nat.testBit_div_two_pow]
  by_cases hi : k ≤ i
  · by_cases hw : i < w
    · simp [hi, Nat.sub_add_cancel hi, show i - k < w - k by omega]
    · have hlt : x < 2 ^ i := lt_of_lt_of_le hx (Nat.pow_le_pow_right (by omega) (by omega))
      simp [hi, Nat.sub_add_cancel hi, Nat.testBit_lt_two_pow hlt]
  · simp [hi]

/-- What the buffer grows by when `n` bytes are missing: a multiple of the step. -/
def growth (n : ℕ) : ℕ := (n + 1023) / 1024 * 1024

theorem le_growth (n : ℕ) : n ≤ growth n := by
  unfold growth
  omega

theorem noffs_eq {n : ℕ} (h : n + 1023 < 2 ^ 32) :
    (wadd n (wsub 1024 1) &&& (2 ^ 32 - 1 - wsub 1024 1)) = growth n := by
  have hstep : wsub 1024 1 = 1023 := rfl
  rw [hstep, wadd_of_lt h]
  exact @and_highBits (n + 1023) 32 10 h (by omega)

/-! ### The invariant -/

/-- The data lies in the block, and the settings are those of a new buffer. -/
structure Framed (bf : Buffer) : Prop where
  front : bf.ptr + bf.bufferSize = bf.realBufferSize
  inside : bf.realBufferSize ≤ bf.block.length
  block_le : bf.block.length ≤ bf.realBufferSize + 1
  real_lt : bf.realBufferSize < 2 ^ 32
  pos_lt : bf.pos < 2 ^ 32
  mode_eq : bf.mode = modeDefault
  step_eq : bf.step = dynamicStep
  hardLimit_eq : bf.hardLimit = defaultHardLimit

/-- The representation invariant: also the terminating NUL has its place and is there. -/
structure RepInv (bf : Buffer) : Prop extends Framed bf where
  room : bf.bytesUsed + 1 ≤ bf.bufferSize
  nul : bf.block[bf.ptr + bf.bytesUsed]? = some (some 0)

/-- `GWEN_Buffer_AllocRoom(bf, n)` neither overflows nor hits the hard limit. -/
def NoHit (bf : Buffer) (n : ℕ) : Prop :=
  bf.bytesUsed + (n + 1) ≤ bf.bufferSize ∨
    growth (bf.bytesUsed + (n + 1) - bf.bufferSize) + bf.realBufferSize ≤ bf.hardLimit

instance (bf : Buffer) (n : ℕ) : Decidable (NoHit bf n) := inferInstanceAs (Decidable (_ ∨ _))

/-- `bf'` is `bf` with more room in a block that begins with the old one. -/
structure Grown (bf bf' : Buffer) : Prop where
  ptr_eq : bf'.ptr = bf.ptr
  pos_eq : bf'.pos = bf.pos
  bytesUsed_eq : bf'.bytesUsed = bf.bytesUsed
  bookmarks_eq : bf'.bookmarks = bf.bookmarks
  bufferSize_le : bf.bufferSize ≤ bf'.bufferSize
  cells_eq : ∀ j, j < bf.block.length → bf'.block[j]? = bf.block[j]?

theorem Grown.refl (bf : Buffer) : Grown bf bf :=
  ⟨rfl, rfl, rfl, rfl, le_refl _, fun _ _ => rfl⟩

variable {bf : Buffer}

theorem Framed.writable (h : Framed bf) : ¬ bf.hasMode modeReadOnly = true := by
  unfold hasMode
  rw [h.mode_eq]
  decide

theorem Framed.dynamic (h : Framed bf) : bf.hasMode modeDynamic = true := by
  unfold hasMode
  rw [h.mode_eq]
  decide

theorem RepInv.used_lt (h : RepInv bf) : bf.ptr + bf.bytesUsed < bf.block.length := by
  have := h.front
  have := h.inside
  have := h.room
  omega

theorem RepInv.sizes (h : RepInv bf) :
    bf.ptr + bf.bufferSize < 2 ^ 32 ∧ bf.bytesUsed < bf.bufferSize :=
  ⟨by rw [h.front]; exact h.real_lt, h.room⟩

theorem NoHit.lt {n : ℕ} (hn : NoHit bf n) (h : RepInv bf) : bf.bytesUsed + (n + 1) < 2 ^ 32 := by
  have hsizes := h.sizes
  have hfront := h.front
  have hlim : bf.hardLimit = 16777216 := h.hardLimit_eq
  have hg := le_growth (bf.bytesUsed + (n + 1) - bf.bufferSize)
  unfold NoHit at hn
  omega

/-! ### Writing and moving bytes -/

variable {bytes : List (Option UInt8)}

theorem put_spec (h : Framed bf) {i : ℕ}
    (hi : i + bytes.length ≤ bf.bufferSize) :
    ∃ m, bf.put i bytes = some { bf with block := m } ∧ m.length = bf.block.length ∧
      ∀ j, m[j]? = if bf.ptr + i ≤ j ∧ j < bf.ptr + i + bytes.length
        then bytes[j - (bf.ptr + i)]? else bf.block[j]? := by
  have hin : bf.ptr + i + bytes.length ≤ bf.block.length := by
    have := h.front
    have := h.inside
    omega
  obtain ⟨m, hm, hl, hc⟩ := Block.store_of_le hin
  refine ⟨m, ?_, hl, hc⟩
  unfold put
  rw [hm, Option.map_some]

theorem Framed.withBlock (h : Framed bf) {m : List (Option UInt8)}
    (hm : m.length = bf.block.length) : Framed { bf with block := m } :=
  ⟨h.front, hm ▸ h.inside, hm ▸ h.block_le, h.real_lt, h.pos_lt, h.mode_eq, h.step_eq, h.hardLimit_eq⟩

theorem putNul_spec (h : Framed bf) (hu : bf.bytesUsed + 1 ≤ bf.bufferSize) :
    ∃ m, bf.putNul = some { bf with block := m } ∧ RepInv { bf with block := m } := by
  obtain ⟨m, hm, hl, hc⟩ := @put_spec bf [some 0] h bf.bytesUsed hu
  refine ⟨m, hm, h.withBlock hl, hu, ?_⟩
  rw [hc, if_pos (by simp only [List.length_cons, List.length_nil]; omega), Nat.sub_self]
  rfl

theorem put_keeps (h : RepInv bf) {i : ℕ}
    (hi : i + bytes.length ≤ bf.bytesUsed) : ∃ bf', bf.put i bytes = some bf' ∧ RepInv bf' := by
  have hroom := h.room
  obtain ⟨m, hm, hl, hc⟩ := @put_spec bf bytes h.toFramed i (by omega)
  refine ⟨_, hm, h.toFramed.withBlock hl, hroom, ?_⟩
  rw [hc, if_neg (by simp only []; omega)]
  exact h.nul

theorem moveBytes_spec (h : Framed bf) {dst src n : ℕ} (hs : src + n ≤ bf.bufferSize)
    (hd : dst + n ≤ bf.bufferSize) :
    ∃ m, bf.moveBytes dst src n = some { bf with block := m } ∧ m.length = bf.block.length ∧
      ∀ j, j < bf.ptr + dst ∨ bf.ptr + dst + n ≤ j → m[j]? = bf.block[j]? := by
  have hin : bf.ptr + src + n ≤ bf.block.length := by
    have := h.front
    have := h.inside
    omega
  obtain ⟨xs, hxs, hl, -⟩ := Block.load_of_le hin
  obtain ⟨m, hm, hml, hc⟩ := @put_spec bf xs h dst (by omega)
  refine ⟨m, ?_, hml, fun j hj => ?_⟩
  · unfold moveBytes
    rw [hxs, Option.bind_some, hm]
  · rw [hc, if_neg (by omega)]

/-- Room can be made where the limits allow it. -/
theorem allocRoom_spec (h : RepInv bf) {n : ℕ} (hn : NoHit bf n) :
    ∃ bf', bf.allocRoom n = some (0, bf') ∧ RepInv bf' ∧ Grown bf bf' ∧
      bf.bytesUsed + n + 1 ≤ bf'.bufferSize := by
  have hfront := h.front
  have hin := h.inside
  have hreal := h.real_lt
  have hroom := h.room
  have hlim : bf.hardLimit = 16777216 := h.hardLimit_eq
  have hg := le_growth (bf.bytesUsed + (n + 1) - bf.bufferSize)
  have hneed := hn.lt h
  unfold allocRoom
  rw [if_neg h.writable, wadd_of_lt (a := n) (by omega), wadd_of_lt (a := bf.bytesUsed) (by omega)]
  by_cases hb : bf.bufferSize < bf.bytesUsed + (n + 1)
  · have hle : growth (bf.bytesUsed + (n + 1) - bf.bufferSize) + bf.realBufferSize ≤ 16777216 := by
      unfold NoHit at hn
      omega
    rw [if_pos hb, if_pos h.dynamic, wsub_of_le (by omega) hneed]
    have hstep : bf.step = 1024 := h.step_eq
    rw [hstep]
    simp only []
    rw [noffs_eq (by omega), wadd_of_lt (by omega), if_neg (by omega), if_neg (by omega),
      wadd_of_lt (a := bf.bufferSize) (by omega), wadd_of_lt (b := 1) (by omega)]
    generalize growth (bf.bytesUsed + (n + 1) - bf.bufferSize) = g at hg hle ⊢
    have hcells : ∀ j, j < bf.block.length →
        (Block.resize bf.block (g + bf.realBufferSize + 1) none)[j]? = bf.block[j]? :=
      fun j hj => Block.getElem?_resize none (by have := h.block_le; omega) hj
    have hsize : (Block.resize bf.block (g + bf.realBufferSize + 1) none).length =
        g + bf.realBufferSize + 1 := Block.length_resize ..
    refine ⟨_, rfl, ⟨⟨?_, ?_, ?_, ?_, h.pos_lt, h.mode_eq, rfl, h.hardLimit_eq⟩, ?_, ?_⟩,
      ⟨rfl, rfl, rfl, rfl, Nat.le_add_right _ _, hcells⟩, ?_⟩ <;> simp only [hsize]
    · omega
    · omega
    · omega
    · omega
    · omega
    · rw [hcells _ h.used_lt]
      exact h.nul
    · omega
  · rw [if_neg hb]
    exact ⟨bf, rfl, h, Grown.refl bf, by omega⟩

/-! ### Appending -/

variable {size : ℕ}

theorem appended_spec (h : Framed bf) (hs : bf.bytesUsed + size + 1 ≤ bf.bufferSize) :
    ∃ bf', bf.appended size = some bf' ∧ RepInv bf' := by
  have hfront := h.front
  have hreal := h.real_lt
  have hused : wadd bf.bytesUsed size = bf.bytesUsed + size := wadd_of_lt (by omega)
  have hpos : (if bf.pos = bf.bytesUsed then wadd bf.pos size else bf.pos) < 2 ^ 32 := by
    split
    · exact Nat.mod_lt _ (by decide)
    · exact h.pos_lt
  unfold appended
  rw [hused]
  have hframe : Framed { bf with
      pos := if bf.pos = bf.bytesUsed then wadd bf.pos size else bf.pos
      bytesUsed := bf.bytesUsed + size } :=
    ⟨h.front, h.inside, h.block_le, h.real_lt, hpos, h.mode_eq, h.step_eq, h.hardLimit_eq⟩
  obtain ⟨m, hm, hr⟩ := putNul_spec hframe hs
  exact ⟨_, hm, hr⟩

theorem put_appended (h : Framed bf)
    (hs : bf.bytesUsed + bytes.length + 1 ≤ bf.bufferSize) :
    ∃ bf', (bf.put bf.bytesUsed bytes).bind (fun bf => bf.appended bytes.length) = some bf' ∧
      RepInv bf' := by
  obtain ⟨m, hm, hl, -⟩ := @put_spec bf bytes h bf.bytesUsed (by omega)
  rw [hm, Option.bind_some]
  exact appended_spec (h.withBlock hl) hs

theorem appendBytes_spec (h : RepInv bf) {bytes : List UInt8} (hn : NoHit bf (bytes.length + 1)) :
    ∃ bf', bf.appendBytes bytes = some (0, bf') ∧ RepInv bf' := by
  have hlt := hn.lt h
  obtain ⟨b, hb, hr, hg, hroom⟩ := allocRoom_spec h hn
  have hfit : b.bytesUsed + (bytes.map some).length + 1 ≤ b.bufferSize := by
    rw [hg.bytesUsed_eq, List.length_map]
    omega
  obtain ⟨bf', hbf', hr'⟩ := put_appended hr.toFramed hfit
  refine ⟨bf', ?_, hr'⟩
  unfold appendBytes
  rw [if_neg h.writable, wadd_of_lt (by omega), hb]
  rw [List.length_map] at hbf'
  simp only [bind, Option.bind_some]
  rw [if_neg (Int.lt_irrefl 0), ← Option.bind_assoc, hbf', Option.bind_some]

theorem fillWithBytes_spec (h : RepInv bf) (c : UInt8) (hn : NoHit bf (size + 1)) :
    ∃ bf', bf.fillWithBytes c size = some (0, bf') ∧ RepInv bf' := by
  have hlt := hn.lt h
  obtain ⟨b, hb, hr, hg, hroom⟩ := allocRoom_spec h hn
  have hfit : b.bytesUsed + (List.replicate size (some c)).length + 1 ≤ b.bufferSize := by
    rw [hg.bytesUsed_eq, List.length_replicate]
    omega
  obtain ⟨bf', hbf', hr'⟩ := put_appended hr.toFramed hfit
  refine ⟨bf', ?_, hr'⟩
  unfold fillWithBytes
  rw [if_neg h.writable, wadd_of_lt (by omega), hb]
  rw [List.length_replicate] at hbf'
  simp only [bind, Option.bind_some]
  rw [if_neg (Int.lt_irrefl 0), ← Option.bind_assoc, hbf', Option.bind_some]

theorem appendByteRoom_spec (h : RepInv bf) (hn : bf.bytesUsed + 2 ≤ bf.bufferSize ∨ NoHit bf 2) :
    ∃ b, bf.appendByteRoom = some (0, b) ∧ RepInv b ∧ b.bytesUsed + 2 ≤ b.bufferSize := by
  have hsizes := h.sizes
  unfold appendByteRoom
  rw [wadd_of_lt (a := bf.bytesUsed) (by omega)]
  by_cases hb : bf.bytesUsed + 2 ≤ bf.bufferSize
  · rw [if_neg (by unfold wadd; omega)]
    exact ⟨bf, rfl, h, hb⟩
  · have hn := hn.resolve_left hb
    have hlt := hn.lt h
    rw [wadd_of_lt (by omega), if_pos (by omega)]
    obtain ⟨b, he, hr, hg, hroom⟩ := allocRoom_spec h hn
    exact ⟨b, he, hr, by rw [hg.bytesUsed_eq]; omega⟩

theorem appendByte_spec (h : RepInv bf) (c : UInt8)
    (hn : bf.bytesUsed + 2 ≤ bf.bufferSize ∨ NoHit bf 2) :
    ∃ bf', bf.appendByte c = some (0, bf') ∧ RepInv bf' := by
  obtain ⟨b, hb, hr, hroom⟩ := appendByteRoom_spec h hn
  obtain ⟨bf', hbf', hr'⟩ := @put_appended b [some c] hr.toFramed hroom
  refine ⟨bf', ?_, hr'⟩
  unfold appendByte
  rw [if_neg h.writable, hb]
  simp only [bind, Option.bind_some]
  rw [if_neg (Int.lt_irrefl 0), ← Option.bind_assoc, show (1 : ℕ) = [some c].length from rfl, hbf', Option.bind_some]

/-! ### Reserved bytes -/

/-- Where the NUL will be after `res` bytes are reserved there is one already. -/
def ReserveSafe (bf : Buffer) (res : ℕ) : Prop :=
  res = 0 ∨ bf.bytesUsed = 0 ∨ bf.block[bf.ptr + bf.bytesUsed + res]? = some (some 0)

instance (bf : Buffer) (res : ℕ) : Decidable (ReserveSafe bf res) :=
  inferInstanceAs (Decidable (_ ∨ _))

theorem Framed.reserved (h : Framed bf) {res : ℕ} (hres : res ≤ bf.bufferSize) :
    Framed { bf with ptr := bf.ptr + res, bufferSize := wsub bf.bufferSize res } := by
  have hfront := h.front
  have hreal := h.real_lt
  refine ⟨?_, h.inside, h.block_le, h.real_lt, h.pos_lt, h.mode_eq, h.step_eq, h.hardLimit_eq⟩
  simp only [wsub_of_le hres (by omega)]
  omega

theorem reserveBytes_spec (h : RepInv bf) {res : ℕ} (hn : res = 0 ∨ NoHit bf res)
    (hs : ReserveSafe bf res) : ∃ bf', bf.reserveBytes res = some (0, bf') ∧ RepInv bf' := by
  unfold reserveBytes
  by_cases h0 : res = 0
  · rw [if_pos h0]
    exact ⟨bf, rfl, h⟩
  rw [if_neg h0]
  have hn := hn.resolve_left h0
  have hlt := hn.lt h
  obtain ⟨b, hb, hr, hg, hroom⟩ := allocRoom_spec h hn
  have hsizes := hr.sizes
  have hsub : wsub b.bufferSize res = b.bufferSize - res := wsub_of_le (by omega) (by omega)
  rw [hb]
  simp only [bind, Option.bind_some, ne_eq, not_true_eq_false, if_false]
  by_cases hu : bf.bytesUsed = 0
  · have hframe := @Framed.reserved b hr.toFramed res (by omega)
    rw [if_neg (by simp only [hu, not_true_eq_false, not_false_eq_true]),
      if_pos (by simp only [hsub]; omega)]
    obtain ⟨m, hm, hinv⟩ := putNul_spec hframe (by
      simp only [hg.bytesUsed_eq, hu, hsub]
      omega)
    have hz : b.bytesUsed = 0 := hg.bytesUsed_eq.trans hu
    unfold putNul at hm
    simp only [hz] at hm hinv ⊢
    rw [hm]
    exact ⟨_, rfl, hinv⟩
  · rw [if_pos hu]
    obtain ⟨m, hm, hl, hc⟩ := @moveBytes_spec b hr.toFramed res 0 b.bytesUsed (by omega)
      (by rw [hg.bytesUsed_eq]; omega)
    rw [hm, Option.bind_some]
    refine ⟨_, rfl, (hr.toFramed.withBlock hl).reserved (by simp only []; omega), ?_, ?_⟩
    · simp only [hg.bytesUsed_eq, hsub]
      omega
    · -- the cell of the new NUL is not one of those that the bytes were moved to
      have hcell := (hs.resolve_left h0).resolve_left hu
      have hin : bf.ptr + bf.bytesUsed + res < bf.block.length := by
        rcases Nat.lt_or_ge (bf.ptr + bf.bytesUsed + res) bf.block.length with hlt | hge
        · exact hlt
        · rw [List.getElem?_eq_none hge] at hcell
          exact absurd hcell (by simp)
      simp only []
      rw [hc _ (Or.inr (by omega)), hg.ptr_eq, hg.bytesUsed_eq,
        show bf.ptr + res + bf.bytesUsed = bf.ptr + bf.bytesUsed + res by omega, hg.cells_eq _ hin]
      exact hcell

/-! ### Inserting -/

theorem RepInv.adjustBookmarks (h : RepInv bf) (pos : ℕ) (offset : ℤ) :
    RepInv (bf.adjustBookmarks pos offset) :=
  ⟨⟨h.front, h.inside, h.block_le, h.real_lt, h.pos_lt, h.mode_eq, h.step_eq, h.hardLimit_eq⟩,
    h.room, h.nul⟩

/-- `GWEN_Buffer_InsertRoom(bf, size)` takes the reserved bytes, or room can be made. -/
def InsertAllowed (bf : Buffer) (size : ℕ) : Prop :=
  bf.pos ≤ bf.bytesUsed ∧
    ((bf.pos = 0 ∧ bf.bytesUsed ≠ 0 ∧ bf.hasReserved size = true) ∨ NoHit bf size)

/-- The count that is compared with the reserved bytes fits an `int`, or they suffice. -/
def InsertSafe (bf : Buffer) (size : ℕ) : Prop :=
  bf.pos = 0 → bf.bytesUsed ≠ 0 → size < 2 ^ 31 ∨ size ≤ bf.ptr

instance (bf : Buffer) (size : ℕ) : Decidable (InsertAllowed bf size) :=
  inferInstanceAs (Decidable (_ ∧ _))

instance (bf : Buffer) (size : ℕ) : Decidable (InsertSafe bf size) :=
  inferInstanceAs (Decidable (_ → _))

/-- The data has become `size` bytes longer at the position. -/
structure Widened (bf bf' : Buffer) (size : ℕ) : Prop where
  inv : RepInv bf'
  pos_eq : bf'.pos = bf.pos
  bytesUsed_eq : bf'.bytesUsed = bf.bytesUsed + size

theorem hasReserved_iff (hs : size < 2 ^ 31 ∨ size ≤ bf.ptr) :
    bf.hasReserved size = true ↔ size ≤ bf.ptr := by
  unfold hasReserved toInt
  rw [decide_eq_true_iff]
  split <;> omega

theorem widen_spec (h : Framed bf) (hs : bf.bytesUsed + size + 1 ≤ bf.bufferSize) :
    ∃ bf', putNul { bf with bytesUsed := wadd bf.bytesUsed size } = some bf' ∧
      Widened bf bf' size := by
  have hfront := h.front
  have hreal := h.real_lt
  rw [wadd_of_lt (by omega)]
  have hframe : Framed { bf with bytesUsed := bf.bytesUsed + size } :=
    ⟨h.front, h.inside, h.block_le, h.real_lt, h.pos_lt, h.mode_eq, h.step_eq, h.hardLimit_eq⟩
  obtain ⟨m, hm, hr⟩ := putNul_spec hframe hs
  exact ⟨_, hm, hr, rfl, rfl⟩

theorem Widened.ofReserved (h : RepInv bf) (hs : size ≤ bf.ptr) : Widened bf { bf with
      ptr := bf.ptr - size, bytesUsed := wadd bf.bytesUsed size
      bufferSize := wadd bf.bufferSize size } size := by
  have hsizes := h.sizes
  have hfront := h.front
  have hu : wadd bf.bytesUsed size = bf.bytesUsed + size := wadd_of_lt (by omega)
  have hb : wadd bf.bufferSize size = bf.bufferSize + size := wadd_of_lt (by omega)
  refine ⟨⟨⟨?_, h.inside, h.block_le, h.real_lt, h.pos_lt, h.mode_eq, h.step_eq,
    h.hardLimit_eq⟩, ?_, ?_⟩, rfl, hu⟩
  · simp only [hb]
    omega
  · simp only [hb, hu]
    omega
  · simp only [hu]
    rw [show bf.ptr - size + (bf.bytesUsed + size) = bf.ptr + bf.bytesUsed by omega]
    exact h.nul

theorem insertRoom_spec (h : RepInv bf) (ha : InsertAllowed bf size)
    (hs : InsertSafe bf size) :
    ∃ bf', bf.insertRoom size = some (0, bf') ∧ Widened bf bf' size := by
  obtain ⟨hpos, ha⟩ := ha
  unfold insertRoom
  rw [if_neg h.writable]
  by_cases h1 : bf.pos = 0 ∧ bf.bytesUsed = 0
  · have hn := ha.resolve_left (fun hr => hr.2.1 h1.2)
    obtain ⟨b, hb, hr, hg, hroom⟩ := allocRoom_spec h hn
    obtain ⟨bf', hbf', hw⟩ := @widen_spec b size hr.toFramed (by
      rw [hg.bytesUsed_eq]
      omega)
    rw [if_pos h1, hb]
    simp only [bind, Option.bind_some, ne_eq, not_true_eq_false, if_false]
    rw [hbf', Option.bind_some]
    exact ⟨bf', rfl, hw.inv, hw.pos_eq.trans hg.pos_eq, by rw [hw.bytesUsed_eq, hg.bytesUsed_eq]⟩
  rw [if_neg h1]
  by_cases h2 : bf.pos = 0 ∧ bf.hasReserved size = true
  · have hu : bf.bytesUsed ≠ 0 := fun hu => h1 ⟨h2.1, hu⟩
    have hle : size ≤ bf.ptr := (hasReserved_iff (hs h2.1 hu)).mp h2.2
    have hw := Widened.ofReserved h hle
    rw [if_pos h2, if_neg (by omega)]
    exact ⟨_, rfl, hw.inv.adjustBookmarks _ _, rfl, hw.bytesUsed_eq⟩
  · have hn := ha.resolve_left (fun hr => h2 ⟨hr.1, hr.2.2⟩)
    obtain ⟨b, hb, hr, hg, hroom⟩ := allocRoom_spec h hn
    have hmove : (toInt (b.bytesUsed - b.pos)).toNat ≤ b.bytesUsed - b.pos := by
      unfold toInt
      split <;> omega
    obtain ⟨m, hm, hl, -⟩ := @moveBytes_spec b hr.toFramed (b.pos + size) b.pos
      (toInt (b.bytesUsed - b.pos)).toNat
      (by have := hr.room; rw [hg.pos_eq, hg.bytesUsed_eq] at *; omega)
      (by rw [hg.pos_eq, hg.bytesUsed_eq] at *; omega)
    obtain ⟨bf', hbf', hw⟩ := @widen_spec _ size (hr.toFramed.withBlock hl) (by
      simp only [hg.bytesUsed_eq]
      omega)
    rw [if_neg h2, hb]
    simp only [bind, Option.bind_some]
    rw [if_neg (Int.lt_irrefl 0), if_neg (by rw [hg.pos_eq, hg.bytesUsed_eq]; omega), hm,
      Option.bind_some, hbf', Option.bind_some]
    exact ⟨_, rfl, hw.inv.adjustBookmarks _ _, hw.pos_eq.trans hg.pos_eq, by
      rw [← hg.bytesUsed_eq]
      exact hw.bytesUsed_eq⟩

theorem put_widened {bf' : Buffer} (hpos : bf.pos ≤ bf.bytesUsed)
    (h : Widened bf bf' bytes.length) : ∃ b, bf'.put bf'.pos bytes = some b ∧ RepInv b :=
  put_keeps h.inv (by rw [h.pos_eq, h.bytesUsed_eq]; omega)

theorem insertBytes_spec (h : RepInv bf) {bytes : List UInt8}
    (ha : InsertAllowed bf bytes.length) (hs : InsertSafe bf bytes.length) :
    ∃ bf', bf.insertBytes bytes = some (0, bf') ∧ RepInv bf' := by
  obtain ⟨b, hb, hw⟩ := insertRoom_spec h ha hs
  rw [← List.length_map some] at hw
  obtain ⟨bf', hbf', hr⟩ := put_widened ha.1 hw
  refine ⟨bf', ?_, hr⟩
  unfold insertBytes
  rw [if_neg h.writable, hb]
  simp only [bind, Option.bind_some]
  rw [if_neg (Int.lt_irrefl 0), hbf', Option.bind_some]

theorem insertByte_spec (h : RepInv bf) (c : UInt8) (ha : InsertAllowed bf 1) :
    ∃ bf', bf.insertByte c = some (0, bf') ∧ RepInv bf' := by
  obtain ⟨b, hb, hw⟩ := insertRoom_spec h ha (fun _ _ => Or.inl (by decide))
  obtain ⟨bf', hbf', hr⟩ := @put_widened bf [some c] b ha.1 hw
  refine ⟨bf', ?_, hr⟩
  unfold insertByte
  rw [if_neg h.writable, hb]
  simp only [bind, Option.bind_some]
  rw [if_neg (Int.lt_irrefl 0), hbf', Option.bind_some]

theorem fillLeftWithBytes_spec (h : RepInv bf) (c : UInt8)
    (ha : InsertAllowed bf size) (hs : InsertSafe bf size) :
    ∃ bf', bf.fillLeftWithBytes c size = some (0, bf') ∧ RepInv bf' := by
  obtain ⟨b, hb, hw⟩ := insertRoom_spec h ha hs
  rw [← List.length_replicate (n := size) (a := some c)] at hw
  obtain ⟨bf', hbf', hr⟩ := put_widened ha.1 hw
  refine ⟨bf', ?_, hr⟩
  unfold fillLeftWithBytes
  rw [if_neg h.writable, hb]
  simp only [bind, Option.bind_some]
  rw [if_neg (Int.lt_irrefl 0), hbf', Option.bind_some]

/-! ### Removing and replacing -/

/-- The count of the bytes that are moved closer fits an `int`. -/
def RemoveSafe (bf : Buffer) (size : ℕ) : Prop :=
  bf.pos ≠ 0 → size + bf.pos ≤ bf.bytesUsed → bf.bytesUsed - bf.pos - size < 2 ^ 31

instance (bf : Buffer) (size : ℕ) : Decidable (RemoveSafe bf size) :=
  inferInstanceAs (Decidable (_ → _))

/-- The data has become `size` bytes shorter at the position. -/
structure Narrowed (bf bf' : Buffer) (size : ℕ) : Prop where
  inv : RepInv bf'
  pos_eq : bf'.pos = bf.pos
  bytesUsed_eq : bf'.bytesUsed = bf.bytesUsed - size

theorem removeRoom_of_le (h : RepInv bf) (hle : size + bf.pos ≤ bf.bytesUsed)
    (hs : RemoveSafe bf size) :
    ∃ bf', bf.removeRoom size = some (0, bf') ∧ Narrowed bf bf' size := by
  have hsizes := h.sizes
  have hroom := h.room
  have hfront := h.front
  have hused : wsub bf.bytesUsed size = bf.bytesUsed - size := wsub_of_le (by omega) (by omega)
  have hbuf : wsub bf.bufferSize size = bf.bufferSize - size := wsub_of_le (by omega) (by omega)
  unfold removeRoom
  rw [if_neg h.writable, wadd_of_lt (by omega), if_neg (by omega), hused, hbuf]
  by_cases h0 : bf.pos = 0
  · have hframe : Framed { bf with
        ptr := bf.ptr + size, bytesUsed := bf.bytesUsed - size
        bufferSize := bf.bufferSize - size } :=
      ⟨by simp only []; omega, h.inside, h.block_le, h.real_lt, h.pos_lt, h.mode_eq, h.step_eq,
        h.hardLimit_eq⟩
    obtain ⟨m, hm, hr⟩ := putNul_spec hframe (by simp only []; omega)
    rw [if_pos h0, hm]
    exact ⟨_, rfl, hr.adjustBookmarks _ _, rfl, rfl⟩
  · have hcount := hs h0 hle
    rw [if_neg h0, wsub_of_le (b := bf.pos) (by omega) (by omega), wsub_of_le (by omega) (by omega),
      toInt_of_lt (by omega), if_neg (by omega), Int.toNat_natCast]
    obtain ⟨m, hm, hl, -⟩ := @moveBytes_spec bf h.toFramed bf.pos (bf.pos + size)
      (bf.bytesUsed - bf.pos - size) (by omega) (by omega)
    rw [hm]
    simp only [bind, Option.bind_some]
    have hblock := h.toFramed.withBlock hl
    have hframe : Framed { bf with block := m, bytesUsed := bf.bytesUsed - size } :=
      ⟨hblock.front, hblock.inside, hblock.block_le, h.real_lt, h.pos_lt, h.mode_eq, h.step_eq,
        h.hardLimit_eq⟩
    obtain ⟨m', hm', hr⟩ := putNul_spec hframe (by simp only []; omega)
    rw [hused, hm', Option.bind_some]
    exact ⟨_, rfl, hr.adjustBookmarks _ _, rfl, rfl⟩

theorem removeRoom_spec (h : RepInv bf) (ha : size + bf.pos < 2 ^ 32)
    (hs : RemoveSafe bf size) : ∃ r, bf.removeRoom size = some r ∧ RepInv r.2 := by
  by_cases hle : size + bf.pos ≤ bf.bytesUsed
  · obtain ⟨bf', hb, hn⟩ := removeRoom_of_le h hle hs
    exact ⟨_, hb, hn.inv⟩
  · unfold removeRoom
    rw [if_neg h.writable, wadd_of_lt ha, if_pos (by omega)]
    exact ⟨_, rfl, h⟩

def ReplaceAllowed (bf : Buffer) (rsize size : ℕ) : Prop :=
  bf.pos + rsize ≤ bf.bytesUsed ∧ (rsize < size → InsertAllowed bf (size - rsize))

/-- The difference of the sizes and the count of the bytes moved closer fit an `int`. -/
def ReplaceSafe (bf : Buffer) (rsize size : ℕ) : Prop :=
  size < rsize + 2 ^ 31 ∧ rsize < size + 2 ^ 31 ∧ (size < rsize → RemoveSafe bf (rsize - size))

instance (bf : Buffer) (rsize size : ℕ) : Decidable (ReplaceAllowed bf rsize size) :=
  inferInstanceAs (Decidable (_ ∧ _))

instance (bf : Buffer) (rsize size : ℕ) : Decidable (ReplaceSafe bf rsize size) :=
  inferInstanceAs (Decidable (_ ∧ _))

theorem toInt_wsub {a b : ℕ} (h1 : a < b + 2 ^ 31) (h2 : b < a + 2 ^ 31) :
    toInt (wsub a b) = (a : ℤ) - b := by
  unfold toInt wsub
  split <;> omega

theorem replaceRoom_spec (h : RepInv bf) {rsize size : ℕ} (ha : ReplaceAllowed bf rsize size)
    (hs : ReplaceSafe bf rsize size) :
    ∃ b, bf.replaceRoom ((size : ℤ) - rsize) = some (0, b) ∧ RepInv b ∧
      b.pos + size ≤ b.bytesUsed := by
  obtain ⟨hle, hins⟩ := ha
  obtain ⟨h1, h2, hrem⟩ := hs
  unfold replaceRoom
  rcases lt_trichotomy size rsize with hlt | heq | hgt
  · obtain ⟨b, hb, hn⟩ := removeRoom_of_le h (by omega) (hrem hlt)
    rw [if_pos (by omega), show (-((size : ℤ) - rsize)).toNat = rsize - size by omega]
    exact ⟨b, hb, hn.inv, by rw [hn.pos_eq, hn.bytesUsed_eq]; omega⟩
  · rw [if_neg (by omega), if_neg (by omega)]
    exact ⟨bf, rfl, h, by omega⟩
  · obtain ⟨b, hb, hw⟩ := insertRoom_spec h (hins hgt) (fun _ _ => Or.inl (by omega))
    rw [if_neg (by omega), if_pos (by omega), show ((size : ℤ) - rsize).toNat = size - rsize by omega]
    exact ⟨b, hb, hw.inv, by rw [hw.pos_eq, hw.bytesUsed_eq]; omega⟩

theorem replaceBytes_spec (h : RepInv bf) {rsize : ℕ} {bytes : List UInt8}
    (ha : ReplaceAllowed bf rsize bytes.length) (hs : ReplaceSafe bf rsize bytes.length) :
    ∃ bf', bf.replaceBytes rsize bytes = some (0, bf') ∧ RepInv bf' := by
  obtain ⟨b, hb, hr, hle⟩ := replaceRoom_spec h ha hs
  obtain ⟨bf', hbf', hr'⟩ := @put_keeps b (bytes.map some) hr b.pos (by
    rw [List.length_map]
    exact hle)
  refine ⟨bf', ?_, hr'⟩
  unfold replaceBytes
  rw [if_neg h.writable, toInt_wsub hs.1 hs.2.1, hb]
  simp only [bind, Option.bind_some, ne_eq, not_true_eq_false, if_false]
  rw [hbf', Option.bind_some]

/-! ### Cropping -/

/-- Not a position behind the data with a length that passes the wrapped test and reaches the
end of the buffer. -/
def CropSafe (bf : Buffer) (pos l : ℕ) : Prop :=
  ¬ (bf.bytesUsed < pos ∧ pos < bf.bufferSize ∧ l ≤ wsub bf.bytesUsed pos ∧
    bf.bufferSize ≤ pos + l)

instance (bf : Buffer) (pos l : ℕ) : Decidable (CropSafe bf pos l) :=
  inferInstanceAs (Decidable (¬ _))

theorem crop_spec (h : RepInv bf) {pos l : ℕ} (hs : CropSafe bf pos l) :
    ∃ r, bf.crop pos l = some r ∧ RepInv r.2 := by
  have hsizes := h.sizes
  have hroom := h.room
  have hfront := h.front
  have hpos := h.pos_lt
  unfold crop
  rw [if_neg h.writable]
  by_cases h1 : bf.bufferSize ≤ pos
  · rw [if_pos h1]
    exact ⟨_, rfl, h⟩
  rw [if_neg h1]
  by_cases h2 : wsub bf.bytesUsed pos < l
  · rw [if_pos h2]
    exact ⟨_, rfl, h⟩
  rw [if_neg h2]
  have hfit : pos + l < bf.bufferSize := by
    by_cases hp : bf.bytesUsed < pos
    · unfold CropSafe at hs
      omega
    · rw [wsub_of_le (by omega) (by omega)] at h2
      omega
  generalize (if pos < bf.pos then pos else bf.pos) = offset
  have hframe : Framed { bf with
      ptr := bf.ptr + pos, bufferSize := bf.bufferSize - pos
      pos := if l < bf.pos - offset then l else bf.pos - offset
      bytesUsed := l } :=
    ⟨by simp only []; omega, h.inside, h.block_le, h.real_lt, by simp only []; split <;> omega,
      h.mode_eq, h.step_eq, h.hardLimit_eq⟩
  obtain ⟨m, hm, hr⟩ := putNul_spec hframe (by simp only []; omega)
  simp only [bind]
  rw [hm, Option.bind_some]
  exact ⟨_, rfl, hr.adjustBookmarks _ _⟩

/-! ### The position and reading -/

theorem RepInv.withPos (h : RepInv bf) {i : ℕ} (hi : i < 2 ^ 32) : RepInv { bf with pos := i } :=
  ⟨⟨h.front, h.inside, h.block_le, h.real_lt, hi, h.mode_eq, h.step_eq, h.hardLimit_eq⟩,
    h.room, h.nul⟩

theorem setPos_spec (h : RepInv bf) (i : ℕ) : RepInv (bf.setPos i).2 := by
  have hsizes := h.sizes
  unfold setPos
  split
  · exact h
  · exact h.withPos (by omega)

theorem incrementPos_spec (h : RepInv bf) (i : ℕ) : RepInv (bf.incrementPos i).2 :=
  h.withPos (Nat.mod_lt _ (by decide))

theorem decrementPos_spec (h : RepInv bf) (i : ℕ) : RepInv (bf.decrementPos i).2 := by
  have hpos := h.pos_lt
  unfold decrementPos
  split
  · exact h
  · exact h.withPos (by omega)

theorem rewind_spec (h : RepInv bf) : RepInv bf.rewind := h.withPos (by decide)

theorem reset_spec (h : RepInv bf) : ∃ bf', bf.reset = some bf' ∧ RepInv bf' := by
  have hroom := h.room
  have hframe : Framed { bf with pos := 0, bytesUsed := 0 } :=
    ⟨h.front, h.inside, h.block_le, h.real_lt, Nat.two_pow_pos 32, h.mode_eq, h.step_eq,
      h.hardLimit_eq⟩
  obtain ⟨m, hm, hr⟩ := putNul_spec hframe (by simp only []; omega)
  exact ⟨_, hm, hr⟩

/-- There is nothing to read, or the counts that are converted fit an `int`. -/
def ReadSafe (bf : Buffer) (size : ℕ) : Prop :=
  size = 0 ∨ bf.bytesUsed ≤ bf.pos ∨ (size < 2 ^ 31 ∧ bf.bytesUsed - bf.pos < 2 ^ 31)

instance (bf : Buffer) (size : ℕ) : Decidable (ReadSafe bf size) :=
  inferInstanceAs (Decidable (_ ∨ _))

theorem readBytes_spec (h : RepInv bf) {size : ℕ} (hs : ReadSafe bf size) :
    ∃ r, bf.readBytes size = some r ∧ RepInv r.2 := by
  unfold readBytes
  by_cases h0 : size = 0 ∨ bf.bytesUsed ≤ bf.pos
  · rw [if_pos h0]
    exact ⟨_, rfl, h⟩
  · obtain ⟨h1, h2⟩ := not_or.mp h0
    obtain ⟨h3, h4⟩ := (hs.resolve_left h1).resolve_left h2
    rw [if_neg h0, toInt_of_lt h3, toInt_of_lt h4]
    have hj : (if ((bf.bytesUsed - bf.pos : ℕ) : ℤ) < size then ((bf.bytesUsed - bf.pos : ℕ) : ℤ)
        else size) = ((min (bf.bytesUsed - bf.pos) size : ℕ) : ℤ) := by
      split <;> omega
    obtain ⟨xs, hxs, -, -⟩ := Block.load_of_le (m := bf.block) (i := bf.ptr + bf.pos)
      (n := min (bf.bytesUsed - bf.pos) size) (by have := h.used_lt; omega)
    simp only [hj, Int.toNat_natCast]
    rw [if_neg (by omega), hxs]
    exact ⟨_, rfl, h.withPos (Nat.mod_lt _ (by decide))⟩
end Gwenhywfar.Buffer
