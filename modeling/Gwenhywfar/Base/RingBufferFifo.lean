import Gwenhywfar.Base.RingBuffer
import Gwenhywfar.Lib.Run
import Mathlib.Data.List.TakeDrop

/-! # The ring buffer is a bounded queue

* `Holds rb q`: the used bytes of the ring buffer, from the position for reading on and around the
  end of the block, are `q`.
* `store_holds` and `load_holds` tell what a write and a read inside one segment do; all functions
  are made of these.
* `Fifo.step` is the bounded queue, and `ringBuffer_fifo` says that a ring buffer gives the same
  results in every run. -/

namespace Gwenhywfar
namespace RingBuffer

/-- The cell `i` cells behind the position for reading. -/
def cellOf (rb : RingBuffer) (i : ℕ) : ℕ :=
  if rb.readPos + i < rb.bufferSize then rb.readPos + i else rb.readPos + i - rb.bufferSize

/-- The ring buffer holds the bytes `q`. -/
structure Holds (rb : RingBuffer) (q : List UInt8) : Prop where
  size : rb.ptr.length = rb.bufferSize
  word : rb.bufferSize < 2 ^ 32
  used : rb.bytesUsed = q.length
  fits : q.length ≤ rb.bufferSize
  readInside : rb.readPos < rb.bufferSize
  writeAt : rb.writePos = rb.cellOf q.length
  cells : ∀ i, i < q.length → rb.ptr[rb.cellOf i]? = q[i]?

variable {rb : RingBuffer} {q : List UInt8}

theorem cellOf_cases (rb : RingBuffer) (i : ℕ) :
    rb.readPos + i < rb.bufferSize ∧ rb.cellOf i = rb.readPos + i ∨
      rb.bufferSize ≤ rb.readPos + i ∧ rb.cellOf i = rb.readPos + i - rb.bufferSize := by
  rw [cellOf]
  split <;> omega

theorem Holds.writeInside (h : rb.Holds q) : rb.writePos < rb.bufferSize := by
  have hr := h.readInside
  have hf := h.fits
  rw [h.writeAt, cellOf]
  split <;> omega

theorem new_holds {size : ℕ} (hpos : 0 < size) (hword : size < 2 ^ 32) :
    ∃ rb, new size = some rb ∧ rb.Holds [] ∧ rb.bufferSize = size := by
  refine ⟨_, if_neg (by omega), ⟨List.length_replicate, hword, rfl, Nat.zero_le _, hpos, ?_, ?_⟩,
    rfl⟩
  · exact (if_pos hpos).symm
  · exact fun i hi => absurd hi (Nat.not_lt_zero i)

theorem advance_eq (h : rb.Holds q) {pos n : ℕ} (hle : pos + n ≤ rb.bufferSize) :
    rb.advance pos n = if pos + n < rb.bufferSize then pos + n else 0 := by
  have hword := h.word
  rw [advance, add32_of_lt (by omega)]
  split <;> split <;> omega

theorem unsegmentedWrite_cases (h : rb.Holds q) (hfree : q.length < rb.bufferSize) :
    rb.writePos = rb.readPos + q.length ∧ rb.unsegmentedWrite + rb.writePos = rb.bufferSize ∨
      rb.writePos + rb.bufferSize = rb.readPos + q.length ∧
        rb.unsegmentedWrite + rb.writePos = rb.readPos := by
  have hr := h.readInside
  have hw := h.writeAt
  rw [unsegmentedWrite]
  rcases cellOf_cases rb q.length with hc | hc <;> split <;> omega

theorem unsegmentedWrite_le (h : rb.Holds q) (hfree : q.length < rb.bufferSize) :
    q.length + rb.unsegmentedWrite ≤ rb.bufferSize ∧
      rb.writePos + rb.unsegmentedWrite ≤ rb.bufferSize ∧ 0 < rb.unsegmentedWrite := by
  have hr := h.readInside
  have hw := h.writeInside
  have hc := unsegmentedWrite_cases h hfree
  omega

theorem unsegmentedRead_le (h : rb.Holds q) (hused : 0 < q.length) :
    rb.unsegmentedRead ≤ q.length ∧ rb.readPos + rb.unsegmentedRead ≤ rb.bufferSize ∧
      0 < rb.unsegmentedRead := by
  have hr := h.readInside
  have hf := h.fits
  have hw := h.writeAt
  rw [cellOf] at hw
  rw [unsegmentedRead]
  split at hw <;> split <;> omega

theorem store_holds (h : rb.Holds q) (hfree : q.length < rb.bufferSize) {bs : List UInt8}
    (hbs : bs.length ≤ rb.unsegmentedWrite) : ∃ ptr, Block.store rb.ptr rb.writePos bs = some ptr ∧
      ∀ rb' : RingBuffer, rb'.ptr = ptr → rb'.bufferSize = rb.bufferSize → rb'.readPos = rb.readPos →
        rb'.writePos = rb.advance rb.writePos bs.length →
        rb'.bytesUsed = add32 rb.bytesUsed bs.length → rb'.Holds (q ++ bs) := by
  obtain ⟨hq, hw, -⟩ := unsegmentedWrite_le h hfree
  have hr := h.readInside
  have hword := h.word
  have hcase := unsegmentedWrite_cases h hfree
  obtain ⟨ptr, hptr, hlen, hget⟩ :=
    @Block.store_of_le _ rb.ptr bs rb.writePos (by rw [h.size]; omega)
  refine ⟨ptr, hptr, fun rb' h1 h2 h3 h4 h5 => ?_⟩
  have hcell : ∀ i, rb'.cellOf i = rb.cellOf i := fun i => by rw [cellOf, cellOf, h2, h3]
  have hlen' : (q ++ bs).length = q.length + bs.length := List.length_append
  refine ⟨by rw [h1, hlen, h.size, h2], by rw [h2]; exact hword, ?_, by rw [h2, hlen']; omega,
    by rw [h2, h3]; exact hr, ?_, ?_⟩
  · rw [h5, h.used, hlen', add32_of_lt (by omega)]
  · rw [h4, hcell, hlen', advance_eq h (by omega)]
    rcases cellOf_cases rb (q.length + bs.length) with hc | hc <;> split <;> omega
  · intro i hi
    rw [hlen'] at hi
    rw [h1, hcell, hget]
    rcases Nat.lt_or_ge i q.length with hlt | hge
    · have hout : ¬ (rb.writePos ≤ rb.cellOf i ∧ rb.cellOf i < rb.writePos + bs.length) := by
        rcases cellOf_cases rb i with hc | hc <;> omega
      rw [if_neg hout, h.cells i hlt, List.getElem?_append_left hlt]
    · have hin : rb.cellOf i = rb.writePos + (i - q.length) := by
        rcases cellOf_cases rb i with hc | hc <;> omega
      rw [if_pos (by omega), List.getElem?_append_right hge, hin]
      congr 1
      omega

theorem load_holds (h : rb.Holds q) (hused : 0 < q.length) {n : ℕ} (hn : n ≤ rb.unsegmentedRead) :
    Block.load rb.ptr rb.readPos n = some (q.take n) ∧
      ∀ rb' : RingBuffer, rb'.ptr = rb.ptr → rb'.bufferSize = rb.bufferSize →
        rb'.readPos = rb.advance rb.readPos n → rb'.writePos = rb.writePos →
        rb'.bytesUsed = rb.bytesUsed - n → rb'.Holds (q.drop n) := by
  obtain ⟨hq, hw, -⟩ := unsegmentedRead_le h hused
  have hr := h.readInside
  have hf := h.fits
  have hword := h.word
  have hat := h.writeAt
  constructor
  · obtain ⟨xs, hxs, hlen, hget⟩ :=
      @Block.load_of_le _ rb.ptr rb.readPos n (by rw [h.size]; omega)
    rw [hxs, Option.some.injEq]
    refine List.ext_getElem? fun i => ?_
    rcases Nat.lt_or_ge i n with hlt | hge
    · have hcell : rb.cellOf i = rb.readPos + i := by
        rw [cellOf, if_pos (by omega)]
      rw [hget i hlt, ← hcell, h.cells i (by omega), List.getElem?_take_of_lt hlt]
    · rw [List.getElem?_eq_none (by omega), List.getElem?_eq_none (by rw [List.length_take]; omega)]
  · intro rb' h1 h2 h3 h4 h5
    rw [advance_eq h (by omega)] at h3
    have hlen : (q.drop n).length = q.length - n := List.length_drop
    have hcell : ∀ i, i + n ≤ q.length → rb'.cellOf i = rb.cellOf (n + i) := by
      intro i hi
      rw [cellOf, cellOf, h2, h3]
      split <;> split <;> split <;> omega
    refine ⟨by rw [h1, h2, h.size], by rw [h2]; exact hword, by rw [h5, h.used, hlen],
      by rw [h2, hlen]; omega, by rw [h2, h3]; split <;> omega, ?_, ?_⟩
    · rw [h4, hat, hlen, hcell (q.length - n) (by omega)]
      congr 1
      omega
    · intro i hi
      rw [hlen] at hi
      rw [h1, hcell i (by omega), h.cells (n + i) (by omega), List.getElem?_drop]

/-! ### The functions -/

theorem writeLoop_holds : ∀ (k : ℕ) {rb : RingBuffer} {q bs : List UInt8}, bs.length ≤ k →
    rb.Holds q → ∃ n rb', n = min bs.length (rb.bufferSize - q.length) ∧
      writeLoop k rb bs = some (bs.drop n, rb') ∧ rb'.Holds (q ++ bs.take n) ∧
      rb'.bufferSize = rb.bufferSize
  | k, rb, q, [], _, h =>
      ⟨0, rb, by simp, by cases k <;> rfl, by rwa [List.take_zero, List.append_nil], rfl⟩
  | 0, _, _, _ :: _, hk, _ => absurd hk (by simp)
  | k + 1, rb, q, b :: bs, hk, h => by
      have hfits := h.fits
      by_cases hfull : rb.bufferSize - rb.bytesUsed = 0
      · rw [h.used] at hfull
        refine ⟨0, rb, by rw [hfull, Nat.min_zero], ?_, by rwa [List.take_zero, List.append_nil],
          rfl⟩
        rw [writeLoop, h.used, if_pos hfull, List.drop_zero]
      · have hfree : q.length < rb.bufferSize := by
          rw [h.used] at hfull
          omega
        obtain ⟨hq, -, hpos⟩ := unsegmentedWrite_le h hfree
        generalize hn : min rb.unsegmentedWrite (b :: bs).length = n
        have hn0 : 0 < n := by simp only [List.length_cons] at hn; omega
        have htake : ((b :: bs).take n).length = n := by rw [List.length_take]; omega
        obtain ⟨ptr, hptr, hholds⟩ := @store_holds _ _ h hfree ((b :: bs).take n) (by omega)
        rw [htake] at hholds
        have h' := hholds { rb with
          ptr := ptr
          writePos := rb.advance rb.writePos n
          bytesUsed := add32 rb.bytesUsed n } rfl rfl rfl rfl rfl
        have hk' : ((b :: bs).drop n).length ≤ k := by
          rw [List.length_drop]
          omega
        obtain ⟨m, rb', hm, hrun, hrb', hsize⟩ := writeLoop_holds k hk' h'
        rw [List.length_append, htake, List.length_drop] at hm
        dsimp only at hm hsize
        refine ⟨n + m, rb', by omega, ?_, ?_, hsize⟩
        · rw [writeLoop, if_neg hfull]
          dsimp only
          rw [hn, hptr, Option.bind_some, hrun, List.drop_drop]
        · rwa [List.append_assoc, ← List.take_add] at hrb'

theorem readLoop_holds : ∀ (k : ℕ) {rb : RingBuffer} {q : List UInt8} {n : ℕ}, n ≤ k →
    rb.Holds q → ∃ rb', readLoop k rb n = some (q.take n, rb') ∧ rb'.Holds (q.drop n) ∧
      rb'.bufferSize = rb.bufferSize
  | k, rb, q, 0, _, h => ⟨rb, by cases k <;> rfl, h, rfl⟩
  | 0, _, _, _ + 1, hk, _ => absurd hk (by simp)
  | k + 1, rb, q, n + 1, hk, h => by
      by_cases hempty : rb.bytesUsed = 0
      · have hnil : q = [] := List.length_eq_zero_iff.mp (h.used ▸ hempty)
        subst hnil
        exact ⟨rb, by rw [readLoop, if_pos hempty, List.take_nil], h, rfl⟩
      · have hused : 0 < q.length := by
          rw [h.used] at hempty
          omega
        obtain ⟨hle, -, hpos⟩ := unsegmentedRead_le h hused
        generalize hm : min rb.unsegmentedRead (n + 1) = m
        obtain ⟨hload, hholds⟩ := @load_holds _ _ h hused m (by omega)
        have h' := hholds { rb with
          readPos := rb.advance rb.readPos m
          bytesUsed := rb.bytesUsed - m } rfl rfl rfl rfl rfl
        obtain ⟨rb', hrun, hrb', hsize⟩ := readLoop_holds k (n := n + 1 - m) (by omega) h'
        refine ⟨rb', ?_, ?_, hsize⟩
        · rw [readLoop, if_neg hempty]
          dsimp only
          rw [hm, hload, Option.bind_some, hrun, Option.map_some, ← List.take_add,
            Nat.add_sub_cancel' (by omega)]
        · rwa [List.drop_drop, Nat.add_sub_cancel' (by omega)] at hrb'

theorem Holds.congr (h : rb.Holds q) {rb' : RingBuffer} (h1 : rb'.ptr = rb.ptr)
    (h2 : rb'.bufferSize = rb.bufferSize) (h3 : rb'.readPos = rb.readPos)
    (h4 : rb'.writePos = rb.writePos) (h5 : rb'.bytesUsed = rb.bytesUsed) : rb'.Holds q := by
  have hcell : ∀ i, rb'.cellOf i = rb.cellOf i := fun i => by rw [cellOf, cellOf, h2, h3]
  exact ⟨by rw [h1, h2, h.size], by rw [h2]; exact h.word, by rw [h5, h.used],
    by rw [h2]; exact h.fits, by rw [h2, h3]; exact h.readInside, by rw [h4, hcell, h.writeAt],
    fun i hi => by rw [h1, hcell, h.cells i hi]⟩

theorem writeBytes_holds (h : rb.Holds q) (bs : List UInt8) :
    ∃ rv n rb', rb.writeBytes bs = some (rv, n, rb') ∧
      n = min bs.length (rb.bufferSize - q.length) ∧ (rv < 0 ↔ q.length = rb.bufferSize) ∧
      rb'.Holds (q ++ bs.take n) ∧ rb'.bufferSize = rb.bufferSize := by
  have hfits := h.fits
  by_cases hfull : rb.bufferSize - rb.bytesUsed = 0
  · refine ⟨-1, 0, _, if_pos hfull, ?_, ?_, ?_, rfl⟩
    · rw [h.used] at hfull
      rw [hfull, Nat.min_zero]
    · rw [h.used] at hfull
      omega
    · rw [List.take_zero, List.append_nil]
      exact h.congr rfl rfl rfl rfl rfl
  · obtain ⟨n, rb', hn, hrun, hrb', hsize⟩ := writeLoop_holds bs.length le_rfl h
    refine ⟨0, n, { rb' with maxBytesUsed := max rb'.maxBytesUsed rb'.bytesUsed }, ?_, hn, ?_,
      hrb'.congr rfl rfl rfl rfl rfl, hsize⟩
    · have hlen : bs.length - (bs.drop n).length = n := by
        rw [List.length_drop]
        omega
      rw [writeBytes, if_neg hfull, hrun, Option.map_some]
      dsimp only
      rw [hlen]
    · rw [h.used] at hfull
      omega

theorem readBytes_holds (h : rb.Holds q) (n : ℕ) :
    ∃ rv rb', rb.readBytes n = some (rv, q.take n, rb') ∧ (rv < 0 ↔ q = []) ∧
      rb'.Holds (q.drop n) ∧ rb'.bufferSize = rb.bufferSize := by
  by_cases hempty : rb.bytesUsed = 0
  · have hnil : q = [] := List.length_eq_zero_iff.mp (h.used ▸ hempty)
    subst hnil
    refine ⟨-1, { rb with emptyCounter := add32 rb.emptyCounter 1 }, ?_, by simp, ?_, rfl⟩
    · rw [readBytes, if_pos hempty, List.take_nil]
    · rw [List.drop_nil]
      exact h.congr rfl rfl rfl rfl rfl
  · obtain ⟨rb', hrun, hrb', hsize⟩ := readLoop_holds n le_rfl h
    refine ⟨0, { rb' with throughput := add32 rb'.throughput (q.take n).length }, ?_, ?_,
      hrb'.congr rfl rfl rfl rfl rfl, hsize⟩
    · rw [readBytes, if_neg hempty, hrun, Option.map_some]
    · rw [h.used, List.length_eq_zero_iff] at hempty
      simp [hempty]

theorem writeByte_holds (h : rb.Holds q) (c : UInt8) :
    if q.length = rb.bufferSize then
      ∃ rb', rb.writeByte c = some (-1, rb') ∧ rb'.Holds q ∧ rb'.bufferSize = rb.bufferSize
    else ∃ rb', rb.writeByte c = some (0, rb') ∧ rb'.Holds (q ++ [c]) ∧
      rb'.bufferSize = rb.bufferSize := by
  have hfits := h.fits
  by_cases hfull : q.length = rb.bufferSize
  · rw [if_pos hfull]
    exact ⟨_, if_pos (by rw [h.used]; omega), h.congr rfl rfl rfl rfl rfl, rfl⟩
  · rw [if_neg hfull]
    obtain ⟨-, -, hpos⟩ := unsegmentedWrite_le h (by omega)
    obtain ⟨ptr, hptr, hholds⟩ := @store_holds _ _ h (by omega) [c] hpos
    refine ⟨{ rb with
      ptr := ptr
      writePos := rb.advance rb.writePos 1
      bytesUsed := add32 rb.bytesUsed 1
      maxBytesUsed := max rb.maxBytesUsed (add32 rb.bytesUsed 1) }, ?_,
      hholds _ rfl rfl rfl rfl rfl, rfl⟩
    rw [writeByte, if_neg (by rw [h.used]; omega), hptr, Option.map_some]

theorem readByte_holds (h : rb.Holds q) :
    match q with
    | [] => ∃ rb', rb.readByte = some (-1, rb') ∧ rb'.Holds [] ∧ rb'.bufferSize = rb.bufferSize
    | c :: rest => ∃ rb', rb.readByte = some ((c.toNat : ℤ), rb') ∧ rb'.Holds rest ∧
        rb'.bufferSize = rb.bufferSize := by
  cases q with
  | nil => exact ⟨_, if_pos h.used, h.congr rfl rfl rfl rfl rfl, rfl⟩
  | cons c rest =>
      obtain ⟨-, -, hpos⟩ := unsegmentedRead_le h (by simp)
      obtain ⟨hload, hholds⟩ := @load_holds _ _ h (by simp) 1 hpos
      refine ⟨{ rb with
        readPos := rb.advance rb.readPos 1
        bytesUsed := rb.bytesUsed - 1
        throughput := add32 rb.throughput 1 }, ?_, hholds _ rfl rfl rfl rfl rfl, rfl⟩
      rw [readByte, if_neg (by rw [h.used]; simp), hload]
      rfl

theorem skipRead_holds (h : rb.Holds q) {n : ℕ} (hn : n ≤ rb.getMaxUnsegmentedRead.1) :
    rb.loadReadPointer n = some (q.take n) ∧ n ≤ q.length ∧
      ∃ rb', rb.skipBytesRead n = some rb' ∧ rb'.Holds (q.drop n) ∧
        rb'.bufferSize = rb.bufferSize := by
  rw [getMaxUnsegmentedRead] at hn
  by_cases hempty : rb.bytesUsed = 0
  · have hnil : q = [] := List.length_eq_zero_iff.mp (h.used ▸ hempty)
    rw [if_pos hempty] at hn
    obtain rfl : n = 0 := Nat.le_zero.mp hn
    have hr := h.readInside
    have hsize := h.size
    have hadv : rb.advance rb.readPos 0 = rb.readPos := by
      rw [advance_eq h (by omega), Nat.add_zero, if_pos hr]
    refine ⟨?_, Nat.zero_le _, _, if_neg (Nat.not_lt_zero _), ?_, rfl⟩
    · rw [loadReadPointer, Block.load, if_pos (by omega), List.take_zero, List.take_zero]
    · rw [List.drop_zero]
      exact h.congr rfl rfl hadv rfl rfl
  · have hused : 0 < q.length := by
      rw [h.used] at hempty
      omega
    rw [if_neg hempty] at hn
    obtain ⟨hle, -, -⟩ := unsegmentedRead_le h hused
    obtain ⟨hload, hholds⟩ := load_holds h hused hn
    exact ⟨hload, hn.trans hle, _, if_neg (by rw [h.used]; omega), hholds _ rfl rfl rfl rfl rfl,
      rfl⟩

theorem skipWrite_holds (h : rb.Holds q) {bs : List UInt8}
    (hn : bs.length ≤ rb.getMaxUnsegmentedWrite.1) :
    q.length + bs.length ≤ rb.bufferSize ∧ ∃ rb1 rb', rb.storeWritePointer bs = some rb1 ∧
      rb1.skipBytesWrite bs.length = some rb' ∧ rb'.Holds (q ++ bs) ∧
      rb'.bufferSize = rb.bufferSize := by
  have hfits := h.fits
  rw [getMaxUnsegmentedWrite] at hn
  by_cases hfull : rb.bufferSize - rb.bytesUsed = 0
  · rw [if_pos hfull] at hn
    obtain rfl : bs = [] := List.length_eq_zero_iff.mp (Nat.le_zero.mp hn)
    have hw := h.writeInside
    have hword := h.word
    have hsize := h.size
    have hadv : rb.advance rb.writePos 0 = rb.writePos := by
      rw [advance_eq h (by omega), Nat.add_zero, if_pos hw]
    have hstore : Block.store rb.ptr rb.writePos [] = some rb.ptr := by
      rw [Block.store, if_pos (by rw [List.length_nil]; omega), List.append_nil, List.length_nil,
        Nat.add_zero, List.take_append_drop]
    have hadd : add32 rb.bytesUsed 0 = rb.bytesUsed := by
      rw [add32_of_lt (by rw [h.used]; omega), Nat.add_zero]
    refine ⟨hfits, rb, { rb with
      writePos := rb.advance rb.writePos 0
      bytesUsed := add32 rb.bytesUsed 0
      maxBytesUsed := max rb.maxBytesUsed (add32 rb.bytesUsed 0) }, ?_,
      if_neg (Nat.not_lt_zero _), ?_, rfl⟩
    · rw [storeWritePointer, hstore, Option.map_some]
    · rw [List.append_nil]
      exact h.congr rfl rfl rfl hadv hadd
  · have hfree : q.length < rb.bufferSize := by
      rw [h.used] at hfull
      omega
    rw [if_neg hfull] at hn
    obtain ⟨hle, -, -⟩ := unsegmentedWrite_le h hfree
    obtain ⟨ptr, hptr, hholds⟩ := store_holds h hfree hn
    refine ⟨by omega, { rb with ptr := ptr }, { rb with
      ptr := ptr
      writePos := rb.advance rb.writePos bs.length
      bytesUsed := add32 rb.bytesUsed bs.length
      maxBytesUsed := max rb.maxBytesUsed (add32 rb.bytesUsed bs.length) }, ?_, ?_,
      hholds _ rfl rfl rfl rfl rfl, rfl⟩
    · rw [storeWritePointer, hptr, Option.map_some]
    · exact if_neg (by dsimp only; rw [h.used]; omega)

/-! ### Runs -/

/-- A call of a function of the ring buffer.  The bytes of `skipWrite` are those that the caller
has stored at the pointer for writing before it calls `GWEN_RingBuffer_SkipBytesWrite`. -/
inductive Op where
  | writeBytes (buffer : List UInt8)
  | writeByte (c : UInt8)
  | readBytes (size : ℕ)
  | readByte
  | skipRead (n : ℕ)
  | skipWrite (bytes : List UInt8)

/-- The outcome of a call: a write takes these bytes or fails, a read gives these bytes or
fails. -/
inductive Outcome where
  | wrote (bytes : List UInt8)
  | full
  | got (bytes : List UInt8)
  | empty
deriving DecidableEq, Repr

/-- The outcome of a write that takes `n` bytes and returns `rv`. -/
def outcomeOfWrite (rv : ℤ) (bytes : List UInt8) : Outcome := if rv < 0 then .full else .wrote bytes

/-- The outcome of a read that returns `rv`. -/
def outcomeOfRead (rv : ℤ) (bytes : List UInt8) : Outcome := if rv < 0 then .empty else .got bytes

/-- A call on a ring buffer, with the outcomes of the calls before. -/
def step (s : RingBuffer × List Outcome) : Op → Option (RingBuffer × List Outcome)
  | .writeBytes buffer => (s.1.writeBytes buffer).map fun (rv, n, rb) =>
      (rb, s.2 ++ [outcomeOfWrite rv (buffer.take n)])
  | .writeByte c => (s.1.writeByte c).map fun (rv, rb) => (rb, s.2 ++ [outcomeOfWrite rv [c]])
  | .readBytes size => (s.1.readBytes size).map fun (rv, bytes, rb) =>
      (rb, s.2 ++ [outcomeOfRead rv bytes])
  | .readByte => s.1.readByte.map fun (rv, rb) =>
      (rb, s.2 ++ [outcomeOfRead rv [UInt8.ofNat rv.toNat]])
  | .skipRead n => (s.1.loadReadPointer n).bind fun bytes =>
      (s.1.skipBytesRead n).map fun rb => (rb, s.2 ++ [.got bytes])
  | .skipWrite bytes => (s.1.storeWritePointer bytes).bind fun rb =>
      (rb.skipBytesWrite bytes.length).map fun rb => (rb, s.2 ++ [.wrote bytes])

def InSegment (s : RingBuffer × List Outcome) : Op → Prop
  | .skipRead n => n ≤ s.1.getMaxUnsegmentedRead.1
  | .skipWrite bytes => bytes.length ≤ s.1.getMaxUnsegmentedWrite.1
  | _ => True

instance (s : RingBuffer × List Outcome) (o : Op) : Decidable (InSegment s o) := by
  cases o <;> dsimp only [InSegment] <;> infer_instance

end RingBuffer

/-! ### The bounded queue -/

namespace Fifo

open RingBuffer (Op Outcome)

/-- The bounded queue for `capacity` bytes, with the outcomes of the calls before.  A write takes
as many bytes as fit and fails when there is no room, a read gives the bytes that are there and
fails when there are none. -/
def step (capacity : ℕ) (s : List UInt8 × List Outcome) : Op → Option (List UInt8 × List Outcome)
  | .writeBytes buffer =>
      let taken := buffer.take (min buffer.length (capacity - s.1.length))
      some (s.1 ++ taken, s.2 ++ [if s.1.length = capacity then .full else .wrote taken])
  | .writeByte c =>
      some (if s.1.length = capacity then (s.1, s.2 ++ [.full])
        else (s.1 ++ [c], s.2 ++ [.wrote [c]]))
  | .readBytes size =>
      some (s.1.drop size, s.2 ++ [if s.1 = [] then .empty else .got (s.1.take size)])
  | .readByte =>
      some (match s.1 with
        | [] => ([], s.2 ++ [.empty])
        | c :: rest => (rest, s.2 ++ [.got [c]]))
  | .skipRead n => some (s.1.drop n, s.2 ++ [.got (s.1.take n)])
  | .skipWrite bytes => some (s.1 ++ bytes, s.2 ++ [.wrote bytes])

def written (log : List Outcome) : List UInt8 :=
  log.flatMap fun
    | .wrote bytes => bytes
    | _ => []

/-- All bytes that have been read. -/
def delivered (log : List Outcome) : List UInt8 :=
  log.flatMap fun
    | .got bytes => bytes
    | _ => []

@[simp] theorem written_snoc (log : List Outcome) (o : Outcome) :
    written (log ++ [o]) = written log ++ written [o] := List.flatMap_append

@[simp] theorem delivered_snoc (log : List Outcome) (o : Outcome) :
    delivered (log ++ [o]) = delivered log ++ delivered [o] := List.flatMap_append

theorem written_wrote (bs : List UInt8) : written [.wrote bs] = bs := List.append_nil bs

theorem delivered_got (bs : List UInt8) : delivered [.got bs] = bs := List.append_nil bs

/-- In the bounded queue the bytes are read as they have been written. -/
theorem step_conserves {capacity : ℕ} {s t : List UInt8 × List Outcome} {o : Op}
    (h : written s.2 = delivered s.2 ++ s.1) (hs : step capacity s o = some t) :
    written t.2 = delivered t.2 ++ t.1 := by
  obtain ⟨q, log⟩ := s
  dsimp only at h
  cases o with
  | writeBytes buffer =>
      obtain rfl := Option.some.inj hs
      by_cases hfull : q.length = capacity
      · simp only [hfull, Nat.sub_self, Nat.min_zero, List.take_zero, List.append_nil, if_true,
          written_snoc, delivered_snoc]
        simp only [written, delivered, List.flatMap_cons, List.flatMap_nil, List.append_nil] at h ⊢
        exact h
      · simp only [if_neg hfull, written_snoc, delivered_snoc, written_wrote, h]
        simp [delivered]
  | writeByte c =>
      obtain rfl := Option.some.inj hs
      by_cases hfull : q.length = capacity
      · simp only [if_pos hfull, written_snoc, delivered_snoc, h]
        simp [written, delivered]
      · simp only [if_neg hfull, written_snoc, delivered_snoc, written_wrote, h]
        simp [delivered]
  | readBytes size =>
      obtain rfl := Option.some.inj hs
      by_cases hempty : q = []
      · simp only [hempty, written_snoc, delivered_snoc, h]
        simp [written, delivered]
      · simp only [if_neg hempty, written_snoc, delivered_snoc, delivered_got, h]
        simp [written]
  | readByte =>
      obtain rfl := Option.some.inj hs
      cases q with
      | nil =>
          simp only [written_snoc, delivered_snoc, h]
          simp [written, delivered]
      | cons c rest =>
          simp only [written_snoc, delivered_snoc, delivered_got, h]
          simp [written]
  | skipRead n =>
      obtain rfl := Option.some.inj hs
      simp only [written_snoc, delivered_snoc, delivered_got, h]
      simp [written]
  | skipWrite bytes =>
      obtain rfl := Option.some.inj hs
      simp only [written_snoc, delivered_snoc, written_wrote, h]
      simp [delivered]

end Fifo

namespace RingBuffer

/-- A ring buffer and the bounded queue of the same capacity take the same step. -/
theorem step_simulates {capacity : ℕ} {rb : RingBuffer} {q : List UInt8} {log : List Outcome}
    {o : Op} (h : rb.Holds q) (hcap : rb.bufferSize = capacity) (ho : InSegment (rb, log) o) :
    ∃ rb' q' log', step (rb, log) o = some (rb', log') ∧
      Fifo.step capacity (q, log) o = some (q', log') ∧ rb'.Holds q' ∧
      rb'.bufferSize = capacity := by
  subst hcap
  cases o with
  | writeBytes buffer =>
      obtain ⟨rv, n, rb', hrun, hn, hrv, hrb', hsize⟩ := writeBytes_holds h buffer
      subst hn
      refine ⟨rb', _, _, by rw [step, hrun]; rfl, ?_, hrb', hsize⟩
      simp only [Fifo.step, outcomeOfWrite, hrv]
  | writeByte c =>
      have hc := writeByte_holds h c
      by_cases hfull : q.length = rb.bufferSize
      · rw [if_pos hfull] at hc
        obtain ⟨rb', hrun, hrb', hsize⟩ := hc
        exact ⟨rb', q, log ++ [.full], by rw [step, hrun]; rfl, by rw [Fifo.step, if_pos hfull],
          hrb', hsize⟩
      · rw [if_neg hfull] at hc
        obtain ⟨rb', hrun, hrb', hsize⟩ := hc
        exact ⟨rb', q ++ [c], log ++ [.wrote [c]], by rw [step, hrun]; rfl,
          by rw [Fifo.step, if_neg hfull], hrb', hsize⟩
  | readBytes size =>
      obtain ⟨rv, rb', hrun, hrv, hrb', hsize⟩ := readBytes_holds h size
      refine ⟨rb', _, _, by rw [step, hrun]; rfl, ?_, hrb', hsize⟩
      simp only [Fifo.step, outcomeOfRead, hrv]
  | readByte =>
      have hc := readByte_holds h
      cases q with
      | nil =>
          obtain ⟨rb', hrun, hrb', hsize⟩ := hc
          exact ⟨rb', [], log ++ [.empty], by rw [step, hrun]; rfl, rfl, hrb', hsize⟩
      | cons c rest =>
          obtain ⟨rb', hrun, hrb', hsize⟩ := hc
          refine ⟨rb', rest, log ++ [.got [c]], ?_, rfl, hrb', hsize⟩
          rw [step, hrun]
          simp only [Option.map_some, outcomeOfRead, Int.toNat_natCast, UInt8.ofNat_toNat]
          rw [if_neg (by omega)]
  | skipRead n =>
      obtain ⟨hload, -, rb', hrun, hrb', hsize⟩ := skipRead_holds h ho
      exact ⟨rb', _, _, by rw [step]; simp only [hload, hrun]; rfl, rfl, hrb', hsize⟩
  | skipWrite bytes =>
      obtain ⟨-, rb1, rb', hstore, hrun, hrb', hsize⟩ := skipWrite_holds h ho
      exact ⟨rb', _, _, by rw [step]; simp only [hstore, Option.bind_some, hrun]; rfl, rfl, hrb',
        hsize⟩

/-- Every run of a ring buffer, in which no skip leaves its segment, gives the outcomes of the
bounded queue; what has been written is what has been read and what is in the buffer, and the
positions stay inside the buffer. -/
theorem ringBuffer_fifo {capacity : ℕ} (hword : capacity < 2 ^ 32) {rb0 : RingBuffer}
    (hnew : new capacity = some rb0) (ops : List Op) (h : Along step InSegment (rb0, []) ops) :
    ∀ pre, pre <+: ops → ∃ rb q log, exec step (rb0, []) pre = some (rb, log) ∧
      exec (Fifo.step capacity) ([], []) pre = some (q, log) ∧ rb.Holds q ∧
      Fifo.written log = Fifo.delivered log ++ q ∧
      q.length ≤ capacity ∧ rb.readPos < capacity ∧ rb.writePos < capacity := by
  intro pre hpre
  have hpos : 0 < capacity := by
    by_contra h0
    obtain rfl : capacity = 0 := by omega
    exact absurd hnew (by simp [new])
  obtain ⟨rb, hrb, hholds, hsize⟩ := new_holds hpos hword
  rw [hnew, Option.some.injEq] at hrb
  subst hrb
  obtain ⟨post, rfl⟩ := hpre
  obtain ⟨⟨rb, log⟩, ⟨q, log'⟩, ht, hu, ⟨hrb, hcap, rfl, hcons⟩, -⟩ :=
    Along.simulation (r := ([], []))
      (R := fun (s : RingBuffer × List Outcome) (r : List UInt8 × List Outcome) =>
        s.1.Holds r.1 ∧ s.1.bufferSize = capacity ∧ s.2 = r.2 ∧
          Fifo.written r.2 = Fifo.delivered r.2 ++ r.1)
      (fun s r o hR ho => by
        obtain ⟨rb, log⟩ := s
        obtain ⟨q, log'⟩ := r
        obtain ⟨hrb, hcap, rfl, hcons⟩ := hR
        obtain ⟨rb', q', log', hs, hf, hrb', hcap'⟩ := step_simulates hrb hcap ho
        exact ⟨_, _, hs, hf, hrb', hcap', rfl, Fifo.step_conserves hcons hf⟩)
      ⟨hholds, hsize, rfl, rfl⟩ h pre post rfl
  refine ⟨rb, q, log, ht, hu, hrb, hcons, hcap ▸ hrb.fits, hcap ▸ hrb.readInside,
    hcap ▸ hrb.writeInside⟩

/-- A ring buffer for four bytes goes around its end. -/
theorem ringBuffer_fifo_four : ∃ rb q log, exec step (⟨[0, 0, 0, 0], 4, 0, 0, 0, 0, 0, 0, 0⟩, [])
        [.writeBytes [1, 2, 3], .readBytes 2, .writeBytes [4, 5, 6, 7], .skipRead 2, .readByte] =
          some (rb, log) ∧ exec (Fifo.step 4) ([], [])
        [.writeBytes [1, 2, 3], .readBytes 2, .writeBytes [4, 5, 6, 7], .skipRead 2, .readByte] =
          some (q, log) ∧ rb.Holds q ∧ Fifo.written log = Fifo.delivered log ++ q ∧
      q.length ≤ 4 ∧ rb.readPos < 4 ∧ rb.writePos < 4 :=
  ringBuffer_fifo (by decide) rfl _ (by decide) _ List.prefix_rfl
end RingBuffer
end Gwenhywfar
