import Gwenhywfar.Base.BufferRun
import Gwenhywfar.Base.BufferBetween

/-! # Buffers that are filled from the beginning on

* `Filled`: a buffer holds a text and nothing before it, and its position is at the end.
* `Filled.appendBytes`, `Filled.appendEach`: bytes are appended to the text, as long as the buffer
  does not come to its limit.
* `Limited`: a buffer within its limit; it cannot be filled with more (`Filled.lt_limit`). -/

namespace Gwenhywfar.Buffer

/-- The buffer holds the text from its beginning on, and its position is at the end. -/
structure Filled (bf : Buffer) (s : List UInt8) : Prop extends RepInv bf where
  ptr_eq : bf.ptr = 0
  pos_eq : bf.pos = s.length
  used_eq : bf.bytesUsed = s.length
  cells : ∀ j < s.length, bf.block[j]? = (s.map some)[j]?

variable {bf b : Buffer} {s bytes : List UInt8} {c : UInt8}

theorem Filled.size_eq (h : Filled bf s) : bf.bufferSize = bf.realBufferSize := by
  rw [← h.front, h.ptr_eq, Nat.zero_add]

theorem Filled.noHit (h : Filled bf s) {n : ℕ} (hn : s.length + n + 1024 ≤ 2 ^ 24) :
    NoHit bf n := by
  have hlimit : bf.hardLimit = 2 ^ 24 := h.hardLimit_eq
  have hsize := h.size_eq
  unfold NoHit
  rw [h.used_eq, hlimit]
  unfold growth
  omega

theorem Filled.grown (h : Filled bf s) (hr : RepInv b) (hg : Grown bf b) : Filled b s where
  toRepInv := hr
  ptr_eq := hg.ptr_eq.trans h.ptr_eq
  pos_eq := hg.pos_eq.trans h.pos_eq
  used_eq := hg.bytesUsed_eq.trans h.used_eq
  cells j hj := by
    have hlt := h.used_lt
    rw [h.ptr_eq, h.used_eq, Nat.zero_add] at hlt
    rw [hg.cells_eq j (by omega)]
    exact h.cells j hj

theorem Filled.allocRoom (h : Filled bf s) {n : ℕ} (hn : NoHit bf n) :
    ∃ b, bf.allocRoom n = some (0, b) ∧ Filled b s ∧ s.length + n + 1 ≤ b.bufferSize := by
  obtain ⟨b, hb, hr, hg, hroom⟩ := allocRoom_spec h.toRepInv hn
  rw [h.used_eq] at hroom
  exact ⟨b, hb, h.grown hr hg, hroom⟩

theorem Filled.append (h : Filled bf s) {m : List (Option UInt8)}
    (hroom : s.length + bytes.length + 1 ≤ bf.bufferSize) (hm : m.length = bf.block.length)
    (hcells : ∀ j, m[j]? = if s.length ≤ j ∧ j < s.length + bytes.length then
      (bytes.map some)[j - s.length]? else if j = s.length + bytes.length then some (some 0)
      else bf.block[j]?) :
    Filled { bf with
      block := m, pos := s.length + bytes.length, bytesUsed := s.length + bytes.length }
      (s ++ bytes) := by
  have hsizes := h.sizes
  refine ⟨⟨⟨h.front, hm ▸ h.inside, hm ▸ h.block_le, h.real_lt, ?_, h.mode_eq, h.step_eq,
    h.hardLimit_eq⟩, hroom, ?_⟩, h.ptr_eq, ?_, ?_, fun j hj => ?_⟩
  · dsimp only
    omega
  · dsimp only
    rw [h.ptr_eq, Nat.zero_add, hcells, if_neg (by omega), if_pos rfl]
  · exact (List.length_append).symm
  · exact (List.length_append).symm
  · dsimp only
    rw [List.length_append] at hj
    rw [hcells, List.map_append]
    by_cases hlt : j < s.length
    · rw [if_neg (by omega), if_neg (by omega), h.cells j hlt,
        List.getElem?_append_left (by rw [List.length_map]; exact hlt)]
    · rw [if_pos (by omega), List.getElem?_append_right (by rw [List.length_map]; omega),
        List.length_map]

theorem Filled.data_eq (h : Filled bf s) : bf.data = s.map some := by
  refine List.ext_getElem? fun j => ?_
  by_cases hj : j < s.length
  · rw [getElem?_data_of_lt (by rw [h.used_eq]; exact hj), h.ptr_eq, Nat.zero_add, h.cells j hj]
  · rw [getElem?_data_of_le (by rw [h.used_eq]; omega),
      List.getElem?_eq_none (by rw [List.length_map]; omega)]

theorem Filled.holdsText (h : Filled bf s) (hs : 0 ∉ s) : HoldsText bf s where
  toInBlock := h.toRepInv.inBlock
  data_eq := h.data_eq
  nul := h.nul
  nul_free := hs

def SizeOk (size : ℕ) : Prop := 0 < size ∧ size + 1 < 2 ^ 32

instance (size : ℕ) : Decidable (SizeOk size) := inferInstanceAs (Decidable (_ ∧ _))

theorem filled_new {size : ℕ} (hpos : 0 < size) (hsize : size + 1 < 2 ^ 32) :
    ∃ bf, Buffer.new size = some bf ∧ Filled bf [] := by
  obtain ⟨bf, hbf, hr⟩ := new_spec hpos hsize
  have hnew := hbf
  unfold Buffer.new at hnew
  rw [if_neg (by omega), Option.some.injEq] at hnew
  refine ⟨bf, hbf, hr, ?_, ?_, ?_, fun j hj => absurd hj (Nat.not_lt_zero j)⟩
  · rw [← hnew]
  · rw [← hnew]
    rfl
  · rw [← hnew]
    rfl

theorem Filled.put_appended (h : Filled bf s)
    (hroom : s.length + bytes.length + 1 ≤ bf.bufferSize) :
    ∃ b, (bf.put bf.bytesUsed (bytes.map some)).bind (fun b => b.appended bytes.length) = some b ∧
      Filled b (s ++ bytes) := by
  have hsizes := h.sizes
  have hframe := h.toRepInv.toFramed
  obtain ⟨m, hm, hl, hc⟩ := @put_spec bf (bytes.map some) hframe bf.bytesUsed
    (by rw [h.used_eq, List.length_map]; omega)
  have hpos : (if bf.pos = bf.bytesUsed then wadd bf.pos bytes.length else bf.pos) =
      s.length + bytes.length := by
    rw [h.pos_eq, h.used_eq, if_pos rfl, wadd_of_lt (by omega)]
  have hused : wadd bf.bytesUsed bytes.length = s.length + bytes.length := by
    rw [h.used_eq, wadd_of_lt (by omega)]
  have hinside := h.front
  have hblock := h.inside
  obtain ⟨m', hm', hl', hc'⟩ := @putNul_cells { bf with
    block := m, pos := s.length + bytes.length, bytesUsed := s.length + bytes.length } (by
      dsimp only
      omega)
  refine ⟨_, ?_, h.append hroom (hl'.trans hl) fun j => ?_⟩
  · rw [hm, Option.bind_some, appended]
    dsimp only
    rw [hpos, hused]
    exact hm'
  · rw [hc' j]
    dsimp only
    rw [hc j, h.ptr_eq, h.used_eq, List.length_map, Nat.zero_add, Nat.zero_add]
    by_cases hj : j = s.length + bytes.length
    · rw [if_pos hj, if_neg (by omega), if_pos hj]
    · rw [if_neg hj, if_neg hj]

theorem Filled.appendBytes (h : Filled bf s) (hn : NoHit bf (bytes.length + 1)) :
    ∃ b, bf.appendBytes bytes = some (0, b) ∧ Filled b (s ++ bytes) := by
  have hlt := hn.lt h.toRepInv
  obtain ⟨b, hb, hf, hroom⟩ := h.allocRoom hn
  obtain ⟨b', hb', hf'⟩ := @Filled.put_appended b s bytes hf (by omega)
  refine ⟨b', ?_, hf'⟩
  unfold Buffer.appendBytes
  rw [if_neg h.writable, wadd_of_lt (by omega), hb]
  simp only [bind, Option.bind_some]
  rw [if_neg (Int.lt_irrefl 0), ← Option.bind_assoc, hb', Option.bind_some]

theorem Filled.appendByteRoom (h : Filled bf s) (hn : s.length + 2 ≤ bf.bufferSize ∨ NoHit bf 2) :
    ∃ b, bf.appendByteRoom = some (0, b) ∧ Filled b s ∧ s.length + 1 + 1 ≤ b.bufferSize := by
  have hsizes := h.sizes
  have hused := h.used_eq
  unfold Buffer.appendByteRoom
  have hlt : s.length + 1 + 1 < 2 ^ 32 := by
    rcases hn with hn | hn
    · omega
    · have := hn.lt h.toRepInv
      omega
  rw [h.used_eq, wadd_of_lt (a := s.length) (by omega), wadd_of_lt hlt]
  split
  · obtain ⟨b, hb, hf, hroom⟩ := h.allocRoom (n := 2) (hn.resolve_left (by omega))
    exact ⟨b, hb, hf, by omega⟩
  · exact ⟨bf, rfl, h, by omega⟩

theorem Filled.appendByte (h : Filled bf s) (hn : s.length + 2 ≤ bf.bufferSize ∨ NoHit bf 2) :
    ∃ b, bf.appendByte c = some (0, b) ∧ Filled b (s ++ [c]) := by
  obtain ⟨b, hb, hf, hroom⟩ := h.appendByteRoom hn
  obtain ⟨b', hb', hf'⟩ := @Filled.put_appended b s [c] hf hroom
  refine ⟨b', ?_, hf'⟩
  unfold Buffer.appendByte
  rw [if_neg h.writable, hb]
  simp only [bind, Option.bind_some]
  rw [if_neg (Int.lt_irrefl 0), ← Option.bind_assoc]
  rw [List.map_singleton, List.length_singleton] at hb'
  rw [hb', Option.bind_some]

/-- `GWEN_Buffer_AppendByte` for one byte after the other; what it returns is ignored. -/
def appendEach : List UInt8 → Buffer → Option Buffer
  | [], bf => some bf
  | c :: bytes, bf => (bf.appendByte c).bind fun r => appendEach bytes r.2

theorem Filled.appendEach : ∀ {bytes : List UInt8} {bf : Buffer} {s : List UInt8}, Filled bf s →
    s.length + bytes.length + 1025 ≤ 2 ^ 24 →
      ∃ b, Buffer.appendEach bytes bf = some b ∧ Filled b (s ++ bytes)
  | [], bf, s, h, _ => ⟨bf, rfl, by rwa [List.append_nil]⟩
  | c :: bytes, bf, s, h, hlen => by
      rw [List.length_cons] at hlen
      obtain ⟨b, hb, hf⟩ := h.appendByte (c := c) (.inr (h.noHit (by omega)))
      obtain ⟨b', hb', hf'⟩ := @Filled.appendEach bytes b (s ++ [c]) hf (by
        rw [List.length_append, List.length_singleton]
        omega)
      refine ⟨b', ?_, by rwa [List.append_assoc] at hf'⟩
      rw [Buffer.appendEach, hb, Option.bind_some, hb']

/-! ### The limit -/

/-- A buffer within its limit. -/
structure Limited (bf : Buffer) : Prop where
  size_eq : bf.bufferSize = bf.realBufferSize
  limit_eq : bf.hardLimit = 2 ^ 24
  size_le : bf.realBufferSize ≤ 2 ^ 24

theorem Limited.failure {rv err : ℤ} (h : Limited bf) (hb : bf.failure err = some (rv, b)) :
    Limited b := by
  unfold Buffer.failure at hb
  split at hb
  · cases hb
  · rw [Option.some.injEq, Prod.mk.injEq] at hb
    rw [← hb.2]
    exact h

theorem Limited.allocRoom {n : ℕ} {rv : ℤ} (h : Limited bf)
    (hb : bf.allocRoom n = some (rv, b)) : Limited b := by
  unfold Buffer.allocRoom at hb
  split at hb
  · exact h.failure hb
  · dsimp only at hb
    split at hb
    · split at hb
      · split at hb
        · exact h.failure hb
        · next hlimit =>
            split at hb
            · cases hb
            · rw [Option.some.injEq, Prod.mk.injEq] at hb
              rw [← hb.2]
              have hle := h.limit_eq
              have hcomm : ∀ x y, wadd x y = wadd y x := fun x y => by
                rw [wadd, wadd, Nat.add_comm]
              refine ⟨?_, hle, ?_⟩
              · dsimp only
                rw [h.size_eq]
                exact hcomm _ _
              · dsimp only
                omega
      · exact h.failure hb
    · rw [Option.some.injEq, Prod.mk.injEq] at hb
      rw [← hb.2]
      exact h

theorem Limited.congr (h : Limited bf) (hsize : b.bufferSize = bf.bufferSize)
    (hreal : b.realBufferSize = bf.realBufferSize) (hlimit : b.hardLimit = bf.hardLimit) :
    Limited b :=
  ⟨by rw [hsize, hreal, h.size_eq], hlimit.trans h.limit_eq, hreal ▸ h.size_le⟩

theorem Limited.putNul (h : Limited bf) (hb : bf.putNul = some b) : Limited b := by
  unfold Buffer.putNul Buffer.put at hb
  obtain ⟨m, -, rfl⟩ := Option.map_eq_some_iff.mp hb
  exact h.congr rfl rfl rfl

theorem limited_new {size : ℕ} (hsize : size < 2 ^ 24) (hb : Buffer.new size = some b) :
    Limited b := by
  unfold Buffer.new at hb
  split at hb
  · cases hb
  · rw [← Option.some.inj hb]
    refine ⟨rfl, rfl, ?_⟩
    dsimp only
    rw [wadd_of_lt (by omega)]
    omega

theorem Filled.lt_limit (h : Filled bf s) (hl : Limited bf) : s.length < 2 ^ 24 := by
  have hlt := h.sizes.2
  rw [h.used_eq] at hlt
  have hsize := hl.size_eq
  have hle := hl.size_le
  omega

/-- Within its limit a buffer aborts where it would have to grow beyond it. -/
theorem Limited.allocRoom_none (hl : Limited bf) (h : RepInv bf) {n : ℕ} (hn : ¬NoHit bf n)
    (hlt : n < 2 ^ 25) : bf.allocRoom n = none := by
  have hused := h.sizes.2
  have hsize := hl.size_eq
  have hle := hl.size_le
  have hlim := hl.limit_eq
  unfold NoHit at hn
  have hg : growth (bf.bytesUsed + (n + 1) - bf.bufferSize) ≤ bf.bytesUsed + n + 1024 := by
    unfold growth
    omega
  have habort : bf.hasMode modeAbortOnMemFull = true := by
    unfold hasMode
    rw [h.mode_eq]
    decide
  unfold Buffer.allocRoom
  rw [if_neg h.writable, wadd_of_lt (a := n) (by omega), wadd_of_lt (a := bf.bytesUsed) (by omega)]
  dsimp only
  have hstep : bf.step = 1024 := h.step_eq
  rw [if_pos (by omega), if_pos h.dynamic, wsub_of_le (by omega) (by omega), hstep,
    noffs_eq (by omega), wadd_of_lt (by omega), if_pos (by omega), Buffer.failure, if_pos habort]

theorem Limited.append {i n : ℕ} {bytes : List (Option UInt8)} (h : Limited bf)
    (hb : ((bf.put i bytes).bind fun b => b.appended n) = some b) : Limited b := by
  obtain ⟨b1, h1, hb⟩ := Option.bind_eq_some_iff.mp hb
  unfold Buffer.put at h1
  obtain ⟨m, -, rfl⟩ := Option.map_eq_some_iff.mp h1
  unfold Buffer.appended at hb
  refine (Limited.putNul ?_ hb : Limited b)
  exact h.congr rfl rfl rfl

/-- What `GWEN_Buffer_AppendBytes` does if it returns. -/
theorem Filled.of_appendBytes {rv : ℤ} (h : Filled bf s) (hl : Limited bf)
    (hlt : bytes.length + 1 < 2 ^ 25) (hb : bf.appendBytes bytes = some (rv, b)) :
    Filled b (s ++ bytes) ∧ Limited b := by
  have hn : NoHit bf (bytes.length + 1) := by
    by_contra hn
    unfold Buffer.appendBytes at hb
    rw [if_neg h.writable, wadd_of_lt (by omega), hl.allocRoom_none h.toRepInv hn hlt] at hb
    cases hb
  obtain ⟨b', hb', hf⟩ := h.appendBytes hn
  obtain rfl := (Prod.mk.inj (Option.some.inj (hb.symm.trans hb'))).2
  refine ⟨hf, ?_⟩
  obtain ⟨b1, h1, hf1, hroom⟩ := h.allocRoom hn
  unfold Buffer.appendBytes at hb'
  rw [if_neg h.writable, wadd_of_lt (by omega), h1] at hb'
  simp only [bind, Option.bind_some] at hb'
  rw [if_neg (Int.lt_irrefl 0), ← Option.bind_assoc] at hb'
  obtain ⟨b2, h2, heq⟩ := Option.bind_eq_some_iff.mp hb'
  obtain rfl := (Prod.mk.inj (Option.some.inj heq)).2
  exact (hl.allocRoom h1).append h2

/-- What `GWEN_Buffer_AppendByte` does if it returns. -/
theorem Filled.of_appendByte {rv : ℤ} (h : Filled bf s) (hl : Limited bf)
    (hb : bf.appendByte c = some (rv, b)) : Filled b (s ++ [c]) ∧ Limited b := by
  have hlt := h.lt_limit hl
  have hn : s.length + 2 ≤ bf.bufferSize ∨ NoHit bf 2 := by
    by_contra hn
    rw [not_or, not_le] at hn
    unfold Buffer.appendByte Buffer.appendByteRoom at hb
    rw [if_neg h.writable, h.used_eq, wadd_of_lt (a := s.length) (by omega),
      wadd_of_lt (by omega), if_pos (by omega), hl.allocRoom_none h.toRepInv hn.2 (by omega)] at hb
    cases hb
  obtain ⟨b', hb', hf⟩ := h.appendByte (c := c) hn
  obtain rfl := (Prod.mk.inj (Option.some.inj (hb.symm.trans hb'))).2
  refine ⟨hf, ?_⟩
  obtain ⟨b1, h1, hf1, hroom⟩ := h.appendByteRoom hn
  have hl1 : Limited b1 := by
    unfold Buffer.appendByteRoom at h1
    split at h1
    · exact hl.allocRoom h1
    · rw [← (Prod.mk.inj (Option.some.inj h1)).2]
      exact hl
  unfold Buffer.appendByte at hb'
  rw [if_neg h.writable, h1] at hb'
  simp only [bind, Option.bind_some] at hb'
  rw [if_neg (Int.lt_irrefl 0), ← Option.bind_assoc] at hb'
  obtain ⟨b2, h2, heq⟩ := Option.bind_eq_some_iff.mp hb'
  obtain rfl := (Prod.mk.inj (Option.some.inj heq)).2
  exact hl1.append h2

theorem Filled.of_appendEach : ∀ {bytes : List UInt8} {bf : Buffer} {s : List UInt8},
    Filled bf s → Limited bf → Buffer.appendEach bytes bf = some b →
      Filled b (s ++ bytes) ∧ Limited b
  | [], bf, s, h, hl, hb => by
      rw [← Option.some.inj hb, List.append_nil]
      exact ⟨h, hl⟩
  | c :: bytes, bf, s, h, hl, hb => by
      obtain ⟨⟨rv, b'⟩, hb', hrest⟩ := Option.bind_eq_some_iff.mp hb
      obtain ⟨hf, hl'⟩ := h.of_appendByte hl hb'
      have hall := Filled.of_appendEach hf hl' hrest
      rwa [List.append_assoc] at hall
end Gwenhywfar.Buffer
