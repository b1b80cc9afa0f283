import Gwenhywfar.Base.Error
import Gwenhywfar.Base.RingBufferFifo

/-! # `GWEN_SYNCIO_BUFFERED`

A layer that reads lines or raw bytes from the layer below.  Lines are read through a ring buffer;
a raw read empties the ring buffer first.

* `BaseIo`: the layer below, which has a stream of bytes and cuts it as it likes.
* `SyncIoBuffered.read`: one call of `GWEN_SyncIo_Buffered_Read`.
* `read_line_spec` and `read_transparent_spec` tell what a call takes from the stream.
* `reads_lose_nothing`: the run lemma. -/

namespace Gwenhywfar

/-- What the layer below does in one read: it gives so many bytes, or it reports the error
`-(rv + 1)`.  A read of a line that is interrupted is repeated, this is the last attempt. -/
inductive BaseRead where
  | cut (n : ℕ)
  | failed (rv : ℕ)
deriving DecidableEq, Repr

/-- The layer below, with the bytes that it has not given yet. -/
structure BaseIo where
  results : ℕ → BaseRead
  calls : ℕ
  stream : List UInt8

/-- `GWEN_SyncIo_Read` of the layer below: between one byte and as many as were asked for, and
none at the end of the stream. -/
def BaseIo.read (io : BaseIo) (requested : ℕ) : ℤ × List UInt8 × BaseIo :=
  match io.results io.calls with
  | .failed rv => (-(rv + 1), [], { io with calls := io.calls + 1 })
  | .cut n =>
      let bytes := io.stream.take (max 1 (min n requested))
      (bytes.length, bytes,
        { io with calls := io.calls + 1, stream := io.stream.drop (max 1 (min n requested)) })

/-- The layer below reports no error. -/
def BaseIo.Steady (io : BaseIo) : Prop := ∀ i rv, io.results i ≠ .failed rv

/-- `GWEN_SYNCIO_BUFFERED` with the layer below it and its flag `GWEN_SYNCIO_FLAGS_PACKET_END`. -/
structure SyncIoBuffered where
  readBuffer : RingBuffer
  base : BaseIo
  packetEnd : Bool

/-- The result of a read, and the bytes that it has stored in the buffer of the caller. -/
structure ReadOutcome where
  rv : ℤ
  buffer : List UInt8
deriving DecidableEq, Repr

/-- Copies bytes until `limit` of them have been stored or a line ends.  It gives the bytes that
are stored, how many have been looked at, and whether the line has ended. -/
def copyLine : (limit : ℕ) → List UInt8 → List UInt8 × ℕ × Bool
  | 0, _ => ([], 0, false)
  | _ + 1, [] => ([], 0, false)
  | limit + 1, c :: cs =>
      if c = 10 then ([c], 1, true)
      else if c = 13 then
        let (bytes, skipped, ended) := copyLine (limit + 1) cs
        (bytes, skipped + 1, ended)
      else
        let (bytes, skipped, ended) := copyLine limit cs
        (c :: bytes, skipped + 1, ended)

namespace SyncIoBuffered

/-- `GWEN_SyncIo_Buffered_new`. -/
def new (base : BaseIo) : Option SyncIoBuffered :=
  (RingBuffer.new 1024).map fun rb => ⟨rb, base, false⟩

/-- What is known after the buffer has been filled: bytes can be read, or the call returns. -/
inductive Fill where
  | ready (bytesInBuffer : ℕ) (sio : SyncIoBuffered)
  | done (rv : ℤ) (sio : SyncIoBuffered)

/-- The first part of a round of the loop in `GWEN_SyncIo_Buffered_Read`: it reads from the layer
below when the ring buffer is empty. -/
def fill (sio : SyncIoBuffered) : Option Fill :=
  let (bytesInBuffer, rb) := sio.readBuffer.getMaxUnsegmentedRead
  if bytesInBuffer = 0 then
    let (bytesFree, rb) := rb.getMaxUnsegmentedWrite
    if bytesFree = 0 then some (.done errorInternal { sio with readBuffer := rb })
    else
      let (rv, bytes, base) := sio.base.read bytesFree
      if rv ≤ 0 then some (.done rv { sio with readBuffer := rb, base := base })
      else
        (rb.storeWritePointer bytes).bind fun rb =>
          (rb.skipBytesWrite bytes.length).map fun rb =>
            let (bytesInBuffer, rb) := rb.getMaxUnsegmentedRead
            if bytesInBuffer = 0 then
              .done errorInternal { sio with readBuffer := rb, base := base }
            else .ready bytesInBuffer { sio with readBuffer := rb, base := base }
  else some (.ready bytesInBuffer { sio with readBuffer := rb })

/-- The loop of `GWEN_SyncIo_Buffered_Read` that reads a line, in at most `k` rounds. -/
def readLine (size : ℕ) : (k : ℕ) → SyncIoBuffered → Option (ReadOutcome × SyncIoBuffered)
  | 0, _ => none
  | k + 1, sio =>
      match sio.fill with
      | none => none
      | some (.done rv sio) => some (⟨rv, []⟩, sio)
      | some (.ready bytesInBuffer sio) =>
          (sio.readBuffer.loadReadPointer bytesInBuffer).bind fun psrc =>
            let (bytes, skipped, ended) := copyLine (size - 1) psrc
            (sio.readBuffer.skipBytesRead skipped).bind fun rb =>
              let sio := { sio with readBuffer := rb, packetEnd := sio.packetEnd || ended }
              if bytes = [] then readLine size k sio
              else some (⟨bytes.length, bytes⟩, sio)

/-- `GWEN_SyncIo_Buffered_Read`; `transparent` tells the flag `GWEN_SYNCIO_FLAGS_TRANSPARENT`.
Every round of the loop takes a byte, so that it ends within as many rounds as there are bytes or
not at all. -/
def read (transparent : Bool) (size : ℕ) (sio : SyncIoBuffered) :
    Option (ReadOutcome × SyncIoBuffered) :=
  let sio := { sio with packetEnd := false }
  if transparent then
    let bytesInBuffer := sio.readBuffer.getUsedBytes
    if bytesInBuffer ≠ 0 then
      (sio.readBuffer.readBytes (min size bytesInBuffer)).map fun (rv, bytes, rb) =>
        (if rv < 0 then ⟨rv, []⟩ else ⟨bytes.length, bytes⟩, { sio with readBuffer := rb })
    else
      let (rv, bytes, base) := sio.base.read size
      some (⟨rv, bytes⟩, { sio with base := base })
  else readLine size (sio.readBuffer.getUsedBytes + sio.base.stream.length + 1) sio

/-- The bytes that have not been consumed yet: those in the ring buffer and those below. -/
def Rest (sio : SyncIoBuffered) (r : List UInt8) : Prop :=
  ∃ q, sio.readBuffer.Holds q ∧ r = q ++ sio.base.stream

end SyncIoBuffered

/-! ### One line -/

/-- The bytes without those that end a line of a DOS text. -/
def withoutCr (bytes : List UInt8) : List UInt8 := bytes.filter fun c => c ≠ 13

theorem withoutCr_append (bs bs' : List UInt8) :
    withoutCr (bs ++ bs') = withoutCr bs ++ withoutCr bs' := List.filter_append ..

/-- What `copyLine` copies. -/
structure Copied (limit : ℕ) (cs bytes : List UInt8) (skipped : ℕ) (ended : Bool) : Prop where
  inside : skipped ≤ cs.length
  copied : bytes = withoutCr (cs.take skipped)
  room : bytes.length ≤ limit
  lf : ended = true ↔ bytes.getLast? = some 10
  line : 10 ∉ bytes.dropLast
  moves : 0 < limit → cs ≠ [] → 0 < skipped
  stops : ended = true → (cs.take skipped).getLast? = some 10

theorem getLast?_take_succ {c d : UInt8} {cs : List UInt8} {n : ℕ}
    (h : (cs.take n).getLast? = some d) : ((c :: cs).take (n + 1)).getLast? = some d := by
  rw [List.take_succ_cons]
  cases hcs : cs.take n with
  | nil => rw [hcs] at h; cases h
  | cons b bs => rwa [List.getLast?_cons_cons, ← hcs]

theorem copyLine_spec : ∀ (limit : ℕ) (cs : List UInt8), ∃ bytes skipped ended,
    copyLine limit cs = (bytes, skipped, ended) ∧ Copied limit cs bytes skipped ended
  | 0, cs => ⟨[], 0, false, by cases cs <;> rfl,
      ⟨Nat.zero_le _, rfl, le_rfl, by simp, by simp, fun h => absurd h (lt_irrefl 0), nofun⟩⟩
  | limit + 1, [] => ⟨[], 0, false, rfl,
      ⟨le_rfl, rfl, Nat.zero_le _, by simp, by simp, fun _ h => absurd rfl h, nofun⟩⟩
  | limit + 1, c :: cs => by
      rw [copyLine]
      by_cases hlf : c = 10
      · subst hlf
        exact ⟨[10], 1, true, rfl,
          ⟨by simp, rfl, by simp, by simp, by simp, fun _ _ => Nat.one_pos, fun _ => by simp⟩⟩
      rw [if_neg hlf]
      by_cases hcr : c = 13
      · subst hcr
        obtain ⟨bytes, skipped, ended, hrun, h⟩ := copyLine_spec (limit + 1) cs
        refine ⟨bytes, skipped + 1, ended, by rw [if_pos rfl, hrun], ?_⟩
        exact ⟨Nat.succ_le_succ h.inside, h.copied, h.room, h.lf, h.line,
          fun _ _ => Nat.succ_pos _, fun hend => getLast?_take_succ (h.stops hend)⟩
      · obtain ⟨bytes, skipped, ended, hrun, h⟩ := copyLine_spec limit cs
        refine ⟨c :: bytes, skipped + 1, ended, by rw [if_neg hcr, hrun], ?_⟩
        refine ⟨Nat.succ_le_succ h.inside, ?_, Nat.succ_le_succ h.room, ?_, ?_,
          fun _ _ => Nat.succ_pos _, fun hend => getLast?_take_succ (h.stops hend)⟩
        · rw [List.take_succ_cons, withoutCr, List.filter_cons_of_pos (by simpa using hcr), h.copied]
          rfl
        · rw [h.lf]
          cases bytes with
          | nil => simp [hlf]
          | cons b bs => rw [List.getLast?_cons_cons]
        · cases hb : bytes with
          | nil => simp
          | cons b bs =>
              rw [List.dropLast_cons_of_ne_nil (by simp), List.mem_cons, not_or, ← hb]
              exact ⟨fun h => hlf h.symm, h.line⟩

namespace SyncIoBuffered

/-! ### One call -/

theorem getMaxUnsegmentedRead_pos {rb : RingBuffer} {q : List UInt8} (h : rb.Holds q)
    (hq : q ≠ []) : 0 < rb.unsegmentedRead ∧ rb.getMaxUnsegmentedRead = (rb.unsegmentedRead, rb) := by
  have hlen := List.length_pos_iff.mpr hq
  exact ⟨(RingBuffer.unsegmentedRead_le h hlen).2.2, if_neg (by rw [h.used]; omega)⟩

/-- Filling the ring buffer loses no byte.  It returns without bytes after an error or at the end
of the stream. -/
theorem fill_spec {sio : SyncIoBuffered} {r : List UInt8} (h : Rest sio r) :
    ∃ sio', Rest sio' r ∧ sio'.packetEnd = sio.packetEnd ∧ sio'.base.results = sio.base.results ∧
      ((∃ rv, sio.fill = some (.done rv sio') ∧ (rv < 0 ∧ ¬ sio.base.Steady ∨ rv = 0 ∧ r = [])) ∨
        ∃ q, sio'.readBuffer.Holds q ∧ q ≠ [] ∧ r = q ++ sio'.base.stream ∧
          sio.fill = some (.ready sio'.readBuffer.unsegmentedRead sio')) := by
  obtain ⟨q, hq, rfl⟩ := h
  by_cases hempty : q = []
  · subst hempty
    have hused : sio.readBuffer.bytesUsed = 0 := hq.used
    have hsize := hq.readInside
    generalize hrb : ({ sio.readBuffer with
      emptyCounter := add32 sio.readBuffer.emptyCounter 1 } : RingBuffer) = rb
    have hholds : rb.Holds [] := by
      subst hrb
      exact hq.congr rfl rfl rfl rfl rfl
    have hread : sio.readBuffer.getMaxUnsegmentedRead = (0, rb) := by
      rw [RingBuffer.getMaxUnsegmentedRead, if_pos hused, hrb]
    have hrbsize := hholds.readInside
    obtain ⟨-, -, hpos⟩ :=
      RingBuffer.unsegmentedWrite_le hholds (by rw [List.length_nil]; omega)
    have hwrite : rb.getMaxUnsegmentedWrite = (rb.unsegmentedWrite, rb) :=
      if_neg (by rw [hholds.used, List.length_nil]; omega)
    have hfill : sio.fill =
        if (sio.base.read rb.unsegmentedWrite).1 ≤ 0 then
          some (.done (sio.base.read rb.unsegmentedWrite).1
            { sio with
              readBuffer := rb
              base := (sio.base.read rb.unsegmentedWrite).2.2 })
        else
          (rb.storeWritePointer (sio.base.read rb.unsegmentedWrite).2.1).bind fun rb' =>
            (rb'.skipBytesWrite (sio.base.read rb.unsegmentedWrite).2.1.length).map fun rb' =>
              let (bytesInBuffer, rb') := rb'.getMaxUnsegmentedRead
              if bytesInBuffer = 0 then
                .done errorInternal { sio with
                  readBuffer := rb'
                  base := (sio.base.read rb.unsegmentedWrite).2.2 }
              else .ready bytesInBuffer { sio with
                readBuffer := rb'
                base := (sio.base.read rb.unsegmentedWrite).2.2 } := by
      rw [fill, hread]
      dsimp only
      rw [if_pos rfl, hwrite]
      dsimp only
      rw [if_neg (by omega)]
    rw [List.nil_append]
    cases hres : sio.base.results sio.base.calls with
    | failed rv =>
        have hbase : sio.base.read rb.unsegmentedWrite =
            (-((rv : ℤ) + 1), [], { sio.base with calls := sio.base.calls + 1 }) := by
          rw [BaseIo.read, hres]
        rw [hbase] at hfill
        refine ⟨{ sio with
          readBuffer := rb
          base := { sio.base with calls := sio.base.calls + 1 } }, ⟨[], hholds, rfl⟩, rfl, rfl,
          Or.inl ⟨-((rv : ℤ) + 1), ?_, Or.inl ⟨by omega, fun hs => hs _ rv hres⟩⟩⟩
        rw [hfill, if_pos (by dsimp only; omega)]
    | cut n =>
        generalize hm : max 1 (min n rb.unsegmentedWrite) = m
        have hbase : sio.base.read rb.unsegmentedWrite =
            (((sio.base.stream.take m).length : ℤ), sio.base.stream.take m,
              { sio.base with calls := sio.base.calls + 1, stream := sio.base.stream.drop m }) := by
          rw [BaseIo.read, hres]
          dsimp only
          rw [hm]
        rw [hbase] at hfill
        dsimp only at hfill
        generalize hbytes : sio.base.stream.take m = bytes at hfill
        have hsplit : sio.base.stream = bytes ++ sio.base.stream.drop m := by
          rw [← hbytes, List.take_append_drop]
        by_cases hnil : bytes = []
        · have hstream : sio.base.stream = [] := by
            rw [hnil, List.take_eq_nil_iff] at hbytes
            exact hbytes.resolve_left (by omega)
          subst hnil
          refine ⟨{ sio with
            readBuffer := rb
            base := { sio.base with
              calls := sio.base.calls + 1
              stream := sio.base.stream.drop m } },
            ⟨[], hholds, hsplit⟩, rfl, rfl, Or.inl ⟨0, ?_, Or.inr ⟨rfl, hstream⟩⟩⟩
          rw [hfill, if_pos (by simp)]
          rfl
        · have hlen : bytes.length ≤ rb.getMaxUnsegmentedWrite.1 := by
            rw [hwrite, ← hbytes, List.length_take]
            omega
          obtain ⟨-, rb1, rb2, hstore, hskip, hholds2, -⟩ :=
            RingBuffer.skipWrite_holds hholds hlen
          rw [List.nil_append] at hholds2
          obtain ⟨hpos2, hread2⟩ := getMaxUnsegmentedRead_pos hholds2 hnil
          have hpos' := List.length_pos_iff.mpr hnil
          refine ⟨{ sio with
            readBuffer := rb2
            base := { sio.base with
              calls := sio.base.calls + 1
              stream := sio.base.stream.drop m } },
            ⟨bytes, hholds2, hsplit⟩, rfl, rfl, Or.inr ⟨bytes, hholds2, hnil, hsplit, ?_⟩⟩
          rw [hfill, if_neg (by omega), hstore, Option.bind_some, hskip, Option.map_some, hread2]
          dsimp only
          rw [if_neg (by omega)]
  · obtain ⟨hpos, hread⟩ := getMaxUnsegmentedRead_pos hq hempty
    refine ⟨sio, ⟨q, hq, rfl⟩, rfl, rfl, Or.inr ⟨q, hq, hempty, rfl, ?_⟩⟩
    rw [fill, hread]
    dsimp only
    rw [if_neg (by omega)]

/-- What a read of a line takes from the bytes that are left, and what it returns. -/
structure LineRead (size : ℕ) (consumed rest : List UInt8) (out : ReadOutcome) : Prop where
  returned : out.buffer = withoutCr consumed
  count : out.rv = out.buffer.length ∨ out.rv < 0 ∧ out.buffer = []
  room : out.buffer.length ≤ size - 1
  line : 10 ∉ out.buffer.dropLast
  atEnd : out.rv = 0 → rest = []
  stops : out.buffer.getLast? = some 10 → consumed.getLast? = some 10

theorem readLine_spec {size : ℕ} (hsize : 2 ≤ size) : ∀ (k : ℕ) {sio : SyncIoBuffered}
    {r : List UInt8}, r.length < k → Rest sio r → ∃ out sio' consumed rest,
      readLine size k sio = some (out, sio') ∧ Rest sio' rest ∧ r = consumed ++ rest ∧
      LineRead size consumed rest out ∧
      sio'.packetEnd = (sio.packetEnd || decide (out.buffer.getLast? = some 10)) ∧
      sio'.base.results = sio.base.results ∧ (sio.base.Steady → 0 ≤ out.rv)
  | 0, _, _, hk, _ => absurd hk (Nat.not_lt_zero _)
  | k + 1, sio, r, hk, h => by
      obtain ⟨sio1, h1, hend1, hres1, ⟨rv, hfill, hrv⟩ | ⟨q, hq, hne, hr, hfill⟩⟩ := fill_spec h
      · refine ⟨⟨rv, []⟩, sio1, [], r, by rw [readLine, hfill], h1, rfl,
          ⟨rfl, ?_, Nat.zero_le _, by simp, ?_, nofun⟩, by simpa using hend1, hres1, ?_⟩
        · rcases hrv with ⟨hrv, -⟩ | ⟨rfl, -⟩
          · exact Or.inr ⟨hrv, rfl⟩
          · exact Or.inl rfl
        · intro h0
          rcases hrv with ⟨hrv, -⟩ | ⟨-, hnil⟩
          · exact absurd h0 (Int.ne_of_lt hrv)
          · exact hnil
        · intro hsteady
          rcases hrv with ⟨-, hfail⟩ | ⟨rfl, -⟩
          · exact absurd hsteady hfail
          · exact le_rfl
      · obtain ⟨hpos, hread⟩ := getMaxUnsegmentedRead_pos hq hne
        have hseg : sio1.readBuffer.unsegmentedRead ≤ sio1.readBuffer.getMaxUnsegmentedRead.1 := by
          rw [hread]
        obtain ⟨hload, hle, -⟩ := RingBuffer.skipRead_holds hq hseg
        obtain ⟨bytes, skipped, ended, hcopy, hc⟩ :=
          copyLine_spec (size - 1) (q.take sio1.readBuffer.unsegmentedRead)
        have hinside := hc.inside
        rw [List.length_take, Nat.min_eq_left hle] at hinside
        obtain ⟨-, -, rb, hskip, hrb, -⟩ :=
          RingBuffer.skipRead_holds hq (hinside.trans hseg)
        have hmoves := hc.moves (by omega) (by
          rw [← List.length_pos_iff, List.length_take]
          omega)
        have hbytes := hc.copied
        rw [List.take_take, Nat.min_eq_left hinside] at hbytes
        have hrest : Rest { sio1 with readBuffer := rb, packetEnd := sio1.packetEnd || ended }
            (q.drop skipped ++ sio1.base.stream) := ⟨_, hrb, rfl⟩
        have hcut : r = q.take skipped ++ (q.drop skipped ++ sio1.base.stream) := by
          rw [hr, ← List.append_assoc, List.take_append_drop]
        have hstep : readLine size (k + 1) sio =
            if bytes = [] then
              readLine size k { sio1 with readBuffer := rb, packetEnd := sio1.packetEnd || ended }
            else some (⟨bytes.length, bytes⟩,
              { sio1 with readBuffer := rb, packetEnd := sio1.packetEnd || ended }) := by
          rw [readLine, hfill]
          dsimp only
          rw [hload, Option.bind_some, hcopy]
          dsimp only
          rw [hskip, Option.bind_some]
        have hended : ended = decide (bytes.getLast? = some 10) := by
          rw [Bool.eq_iff_iff, hc.lf, decide_eq_true_eq]
        by_cases hnil : bytes = []
        · have hlen := congrArg List.length hcut
          rw [List.length_append, List.length_take, Nat.min_eq_left (by omega)] at hlen
          obtain ⟨out, sio', consumed, rest, hrun, hrest', hcut', hout, hend', hres', hrv'⟩ :=
            readLine_spec hsize k (by omega) hrest
          refine ⟨out, sio', q.take skipped ++ consumed, rest, ?_, hrest', ?_,
            ⟨?_, hout.count, hout.room, hout.line, hout.atEnd, fun hlf => ?_⟩, ?_,
            hres'.trans hres1, fun hs => hrv' fun i rv => ?_⟩
          · rw [hstep, if_pos hnil, hrun]
          · rw [hcut, hcut', List.append_assoc]
          · rw [withoutCr_append, ← hbytes, hnil, List.nil_append]
            exact hout.returned
          · rw [List.getLast?_append, hout.stops hlf]
            rfl
          · rw [hend', hended, hnil, hend1]
            simp
          · exact hres1 ▸ hs i rv
        · have hstops : bytes.getLast? = some 10 → (q.take skipped).getLast? = some 10 := by
            intro hlf
            have hstop := hc.stops (by rw [hended, decide_eq_true hlf])
            rwa [List.take_take, Nat.min_eq_left hinside] at hstop
          refine ⟨_, _, q.take skipped, _, by rw [hstep, if_neg hnil], hrest, hcut,
            ⟨hbytes, Or.inl rfl, hc.room, hc.line, ?_, hstops⟩, ?_, hres1,
            fun _ => Int.natCast_nonneg _⟩
          · intro h0
            have hpos' := List.length_pos_iff.mpr hnil
            dsimp only at h0
            omega
          · dsimp only
            rw [hended, hend1]

/-- A transparent read takes what is in the ring buffer, or else reads from the layer below. -/
theorem read_transparent_spec {size : ℕ} (hsize : 0 < size) {sio : SyncIoBuffered} {r : List UInt8}
    (h : Rest sio r) : ∃ out sio' rest, read true size sio = some (out, sio') ∧ Rest sio' rest ∧
      r = out.buffer ++ rest ∧ (out.rv = out.buffer.length ∨ out.rv < 0 ∧ out.buffer = []) ∧
      out.buffer.length ≤ size ∧ (out.rv = 0 → rest = []) ∧
      sio'.base.results = sio.base.results ∧ (sio.base.Steady → 0 ≤ out.rv) := by
  obtain ⟨q, hq, rfl⟩ := h
  by_cases hempty : q = []
  · subst hempty
    have hread : read true size sio = some (⟨(sio.base.read size).1, (sio.base.read size).2.1⟩,
        { sio with packetEnd := false, base := (sio.base.read size).2.2 }) := by
      simp only [read, if_true, RingBuffer.getUsedBytes, hq.used, List.length_nil, ne_eq,
        not_true_eq_false, if_false]
    rw [hread]
    rw [List.nil_append]
    cases hres : sio.base.results sio.base.calls with
    | failed rv =>
        have hbase : sio.base.read size =
            (-((rv : ℤ) + 1), [], { sio.base with calls := sio.base.calls + 1 }) := by
          rw [BaseIo.read, hres]
        rw [hbase]
        exact ⟨_, _, sio.base.stream, rfl, ⟨[], hq, rfl⟩, rfl, Or.inr ⟨by dsimp only; omega, rfl⟩,
          Nat.zero_le _, fun h0 => by dsimp only at h0; omega, rfl, fun hs => absurd hres (hs _ rv)⟩
    | cut n =>
        generalize hm : max 1 (min n size) = m
        have hbase : sio.base.read size =
            (((sio.base.stream.take m).length : ℤ), sio.base.stream.take m,
              { sio.base with calls := sio.base.calls + 1, stream := sio.base.stream.drop m }) := by
          rw [BaseIo.read, hres]
          dsimp only
          rw [hm]
        rw [hbase]
        refine ⟨_, _, sio.base.stream.drop m, rfl, ⟨[], hq, rfl⟩,
          (List.take_append_drop m _).symm, Or.inl rfl, ?_, ?_, rfl, fun _ => Int.natCast_nonneg _⟩
        · rw [List.length_take]
          omega
        · intro h0
          have h0 : (sio.base.stream.take m).length = 0 := Int.ofNat_eq_zero.mp h0
          rw [List.length_take] at h0
          rw [List.drop_eq_nil_iff]
          omega
  · have hlen := List.length_pos_iff.mpr hempty
    obtain ⟨rv, rb, hrun, hrv, hrb, -⟩ :=
      RingBuffer.readBytes_holds hq (min size sio.readBuffer.getUsedBytes)
    have hrv0 : ¬ rv < 0 := fun hneg => hempty (hrv.mp hneg)
    have hread : read true size sio =
        some (⟨(q.take (min size sio.readBuffer.getUsedBytes)).length,
          q.take (min size sio.readBuffer.getUsedBytes)⟩,
          { sio with packetEnd := false, readBuffer := rb }) := by
      simp only [read, if_true]
      rw [if_pos (by rw [RingBuffer.getUsedBytes, hq.used]; omega), hrun, Option.map_some]
      dsimp only
      rw [if_neg hrv0]
    refine ⟨_, _, _, hread, ⟨_, hrb, rfl⟩, ?_, Or.inl rfl, ?_, ?_, rfl,
      fun _ => Int.natCast_nonneg _⟩
    · rw [← List.append_assoc, List.take_append_drop]
    · rw [List.length_take]
      omega
    · intro h0
      have h0 : (q.take (min size sio.readBuffer.getUsedBytes)).length = 0 :=
        Int.ofNat_eq_zero.mp h0
      rw [List.length_take, RingBuffer.getUsedBytes, hq.used] at h0
      omega

/-! ### Runs -/

/-- A call of `GWEN_SyncIo_Buffered_Read` with room for at least two bytes. -/
structure ReadCall where
  transparent : Bool
  size : ℕ
  room : 2 ≤ size

/-- Calls one after the other; their results, with the flag `GWEN_SYNCIO_FLAGS_PACKET_END` after
each of them. -/
def reads : SyncIoBuffered → List ReadCall → Option (List (ReadOutcome × Bool) × SyncIoBuffered)
  | sio, [] => some ([], sio)
  | sio, c :: calls =>
      (read c.transparent c.size sio).bind fun (out, sio) =>
        (reads sio calls).map fun (outs, sio') => ((out, sio.packetEnd) :: outs, sio')

/-- What a call returns for the bytes that it consumes: a transparent call returns them, another
one drops CR bytes and returns at most one line. -/
structure CallOk (c : ReadCall) (consumed rest : List UInt8) (out : ReadOutcome)
    (packetEnd : Bool) : Prop where
  returned : out.buffer = if c.transparent then consumed else withoutCr consumed
  count : out.rv = out.buffer.length ∨ out.rv < 0 ∧ out.buffer = []
  room : out.buffer.length ≤ if c.transparent then c.size else c.size - 1
  line : c.transparent = false →
    10 ∉ out.buffer.dropLast ∧ (packetEnd = true ↔ out.buffer.getLast? = some 10)
  atEnd : out.rv = 0 → rest = []

/-- The calls consume the bytes of the stream one after the other. -/
def Delivers : (stream : List UInt8) → List ReadCall → List (ReadOutcome × Bool) → Prop
  | _, [], outs => outs = []
  | _, _ :: _, [] => False
  | stream, c :: calls, (out, packetEnd) :: outs => ∃ consumed rest, stream = consumed ++ rest ∧
      CallOk c consumed rest out packetEnd ∧ Delivers rest calls outs

def ReadCall.kept (c : ReadCall) (consumed : List UInt8) : List UInt8 :=
  if c.transparent then consumed else withoutCr consumed

theorem Delivers.concat : ∀ {stream : List UInt8} {calls : List ReadCall}
    {outs : List (ReadOutcome × Bool)}, Delivers stream calls outs →
    ∃ pieces rest, pieces.length = calls.length ∧ stream = pieces.flatten ++ rest ∧
      (outs.map fun o => o.1.buffer).flatten =
        (List.zipWith ReadCall.kept calls pieces).flatten
  | stream, [], outs, h => by
      rw [Delivers] at h
      subst h
      exact ⟨[], stream, rfl, rfl, rfl⟩
  | _, _ :: _, [], h => absurd h (by simp [Delivers])
  | stream, c :: calls, (out, packetEnd) :: outs, h => by
      obtain ⟨consumed, rest, hcut, hok, hrest⟩ := h
      obtain ⟨pieces, rest', hlen, hcut', hconcat⟩ := hrest.concat
      refine ⟨consumed :: pieces, rest', by simp [hlen], ?_, ?_⟩
      · rw [hcut, hcut', List.flatten_cons, List.append_assoc]
      · rw [List.map_cons, List.flatten_cons, List.zipWith_cons_cons, List.flatten_cons, hconcat,
          hok.returned]
        rfl

theorem read_line_spec {size : ℕ} (hsize : 2 ≤ size) {sio : SyncIoBuffered} {r : List UInt8}
    (h : Rest sio r) : ∃ out sio' consumed rest, read false size sio = some (out, sio') ∧
      Rest sio' rest ∧ r = consumed ++ rest ∧ LineRead size consumed rest out ∧
      sio'.packetEnd = decide (out.buffer.getLast? = some 10) ∧
      sio'.base.results = sio.base.results ∧ (sio.base.Steady → 0 ≤ out.rv) := by
  obtain ⟨q, hq, rfl⟩ := h
  have h' : Rest { sio with packetEnd := false } (q ++ sio.base.stream) := ⟨q, hq, rfl⟩
  obtain ⟨out, sio', consumed, rest, hrun, hrest, hcut, hout, hend, hres, hrv⟩ :=
    readLine_spec hsize (sio.readBuffer.getUsedBytes + sio.base.stream.length + 1)
      (by rw [List.length_append, RingBuffer.getUsedBytes, hq.used]; omega) h'
  exact ⟨out, sio', consumed, rest, hrun, hrest, hcut, hout, by simpa using hend, hres, hrv⟩

theorem reads_deliver : ∀ (calls : List ReadCall) {sio : SyncIoBuffered} {r : List UInt8},
    Rest sio r → ∃ outs sio', reads sio calls = some (outs, sio') ∧ Delivers r calls outs ∧
      (sio.base.Steady → ∀ o ∈ outs, 0 ≤ o.1.rv)
  | [], sio, _, _ => ⟨[], sio, rfl, rfl, fun _ _ ho => absurd ho List.not_mem_nil⟩
  | c :: calls, sio, r, h => by
      have hroom := c.room
      have hcall : ∃ out sio1 consumed rest, read c.transparent c.size sio = some (out, sio1) ∧
          Rest sio1 rest ∧ r = consumed ++ rest ∧ CallOk c consumed rest out sio1.packetEnd ∧
          sio1.base.results = sio.base.results ∧ (sio.base.Steady → 0 ≤ out.rv) := by
        cases ht : c.transparent with
        | true =>
            obtain ⟨out, sio1, rest, hrun, hrest, hcut, hcount, hlen, hend, hsteady⟩ :=
              read_transparent_spec (by omega : 0 < c.size) h
            exact ⟨out, sio1, out.buffer, rest, hrun, hrest, hcut, ⟨by rw [ht]; rfl, hcount,
              by rw [ht]; exact hlen, fun hf => absurd (ht.symm.trans hf) (by decide), hend⟩,
              hsteady⟩
        | false =>
            obtain ⟨out, sio1, consumed, rest, hrun, hrest, hcut, hout, hend, hsteady⟩ :=
              read_line_spec hroom h
            exact ⟨out, sio1, consumed, rest, hrun, hrest, hcut, ⟨by rw [ht]; exact hout.returned,
              hout.count, by rw [ht]; exact hout.room,
              fun _ => ⟨hout.line, by rw [hend, decide_eq_true_eq]⟩, hout.atEnd⟩, hsteady⟩
      obtain ⟨out, sio1, consumed, rest, hrun, hrest, hcut, hok, hres, hrv⟩ := hcall
      obtain ⟨outs, sio', hruns, hdel, hrvs⟩ := reads_deliver calls hrest
      refine ⟨(out, sio1.packetEnd) :: outs, sio', by simp only [reads, hrun, Option.bind_some,
        hruns, Option.map_some], ⟨consumed, rest, hcut, hok, hdel⟩, fun hsteady o ho => ?_⟩
      rcases List.mem_cons.mp ho with rfl | ho
      · exact hrv hsteady
      · have hsteady1 : sio1.base.Steady := by rwa [BaseIo.Steady, hres]
        exact hrvs hsteady1 o ho

theorem new_rest (results : ℕ → BaseRead) (stream : List UInt8) :
    ∃ sio, new ⟨results, 0, stream⟩ = some sio ∧ Rest sio stream ∧ sio.base.results = results := by
  obtain ⟨rb, hrb, hholds, -⟩ := @RingBuffer.new_holds 1024 (by decide) (by decide)
  exact ⟨⟨rb, ⟨results, 0, stream⟩, false⟩, by rw [new, hrb]; rfl, ⟨[], hholds, rfl⟩, rfl⟩

/-- However the layer below cuts its stream, and however transparent reads and reads of lines
alternate, the bytes that are returned are those of the stream without the CR bytes that reads of
lines have consumed.  No read fails when the layer below does not. -/
theorem reads_lose_nothing (results : ℕ → BaseRead) (stream : List UInt8)
    (calls : List ReadCall) : ∃ sio outs sio', new ⟨results, 0, stream⟩ = some sio ∧
      reads sio calls = some (outs, sio') ∧ Delivers stream calls outs ∧
      (BaseIo.Steady ⟨results, 0, stream⟩ → ∀ o ∈ outs, 0 ≤ o.1.rv) ∧
      ∃ pieces rest, pieces.length = calls.length ∧ stream = pieces.flatten ++ rest ∧
        (outs.map fun o => o.1.buffer).flatten =
          (List.zipWith ReadCall.kept calls pieces).flatten := by
  obtain ⟨sio, hnew, hrest, hres⟩ := new_rest results stream
  obtain ⟨outs, sio', hrun, hdel, hrv⟩ := reads_deliver calls hrest
  refine ⟨sio, outs, sio', hnew, hrun, hdel, fun hsteady => hrv ?_, hdel.concat⟩
  rwa [BaseIo.Steady, hres]

end SyncIoBuffered
end Gwenhywfar
