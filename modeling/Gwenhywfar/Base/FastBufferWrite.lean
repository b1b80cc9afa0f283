import Gwenhywfar.Base.FastBuffer

/-! # Writing through a `GWEN_FAST_BUFFER`

The buffer is flushed when a byte is written whose offset is a multiple of the size of the buffer.

* `Clean`: no call of the io has failed, and the io and the buffer together hold the text.
* `Emits p bs`: the macro `p` writes `bs`, or it stops with an error at the first byte that cannot
  be written.
* `Writes rest ws`: the rest of a function writes `ws`.  A byte is marked when the function does
  not report a failure there, but returns 1; it returns an error at the other ones. -/

namespace Gwenhywfar.FastWriter

/-- A macro is followed by `if (err<0) return ret(err)`. -/
def check (r : ℤ × FastWriter) (ret : ℤ → ℤ) (rest : FastWriter → ℤ × FastWriter) : ℤ × FastWriter :=
  if r.1 < 0 then (ret r.1, r.2) else rest r.2

theorem check_zero (fb : FastWriter) (ret : ℤ → ℤ) (rest : FastWriter → ℤ × FastWriter) :
    check (0, fb) ret rest = rest fb := if_neg (lt_irrefl (0 : ℤ))

theorem check_neg {e : ℤ} (he : e < 0) (fb : FastWriter) (ret : ℤ → ℤ)
    (rest : FastWriter → ℤ × FastWriter) : check (e, fb) ret rest = (ret e, fb) := if_pos he

/-! ### Bytes one at a time -/

/-- The bytes are written with `GWEN_FASTBUFFER_WRITEBYTE`. -/
def putAll : List UInt8 → FastWriter → ℤ × FastWriter
  | [], fb => (0, fb)
  | c :: p, fb => check (fb.writeByte c) id (putAll p)

theorem flush_cases (fb : FastWriter) :
    (fb.io.results fb.io.calls = .done ∧ fb.flush = (0, { fb with
      io := { fb.io with calls := fb.io.calls + 1, sink := fb.io.sink ++ fb.buffer }
      buffer := [] })) ∨
    ∃ e io, fb.io.results fb.io.calls ≠ .done ∧ e < 0 ∧ io.results = fb.io.results ∧
      io.calls = fb.io.calls + 1 ∧ fb.flush = (e, { fb with io := io }) := by
  cases h : fb.io.results fb.io.calls with
  | done =>
      left
      refine ⟨rfl, ?_⟩
      simp only [flush, WriteIo.writeForced, h, lt_irrefl, if_false]
  | failed rv accepted =>
      right
      have hneg : (-((rv : ℤ) + 1)) < fb.buffer.length := by omega
      refine ⟨-((rv : ℤ) + 1), { fb.io with
        calls := fb.io.calls + 1, sink := fb.io.sink ++ fb.buffer.take accepted },
        by simp, by omega, rfl, rfl, ?_⟩
      simp only [flush, WriteIo.writeForced, h, if_pos hneg]

variable {fb : FastWriter}

theorem writeByte_full (h : fb.bufferSize ≤ fb.buffer.length) (c : UInt8) :
    fb.writeByte c = check fb.flush id fun fb => (0, { fb with buffer := fb.buffer ++ [c] }) := by
  cases hr : fb.io.results fb.io.calls with
  | done =>
      simp only [writeByte, if_pos h, flush, WriteIo.writeForced, hr, lt_irrefl, if_false, check_zero,
        List.nil_append]
  | failed rv accepted =>
      have hneg : (-((rv : ℤ) + 1)) < fb.buffer.length := by omega
      have hneg' : (-((rv : ℤ) + 1)) < 0 := by omega
      simp only [writeByte, if_pos h, flush, WriteIo.writeForced, hr, if_pos hneg,
        check_neg hneg', id]

theorem writeByte_room (h : fb.buffer.length < fb.bufferSize) (c : UInt8) :
    fb.writeByte c = (0, { fb with buffer := fb.buffer ++ [c] }) := if_neg (by omega)

theorem putAll_room (rest : List UInt8) : ∀ {p : List UInt8} {fb : FastWriter},
    fb.buffer.length + p.length ≤ fb.bufferSize →
      putAll (p ++ rest) fb = putAll rest { fb with buffer := fb.buffer ++ p }
  | [], fb, _ => by rw [List.nil_append, List.append_nil]
  | c :: p, fb, h => by
      rw [List.length_cons] at h
      have hroom : ({ fb with buffer := fb.buffer ++ [c] } : FastWriter).buffer.length + p.length ≤
          fb.bufferSize := by
        simp only [List.length_append, List.length_singleton]
        omega
      have hnext := putAll_room rest hroom
      rw [List.cons_append, putAll, writeByte_room (by omega), check_zero, hnext]
      simp only [List.append_assoc, List.singleton_append]

theorem writeBytes_room (h : fb.buffer.length < fb.bufferSize) (p : List UInt8) :
    fb.writeBytes p = (((min (fb.bufferSize - fb.buffer.length) p.length : ℕ) : ℤ),
      { fb with buffer := fb.buffer ++ p.take (min (fb.bufferSize - fb.buffer.length) p.length) }) := by
  simp only [writeBytes, if_neg (Nat.not_le.mpr h), if_true]

theorem writeBytes_full {fb fb' : FastWriter} (h : fb.bufferSize ≤ fb.buffer.length)
    (hf : fb.flush = (0, fb')) (hroom : fb'.buffer.length < fb'.bufferSize) (p : List UInt8) :
    fb.writeBytes p = fb'.writeBytes p := by
  rw [writeBytes_room hroom]
  simp only [writeBytes, if_pos h, hf, if_true]

theorem writeBytes_failed {fb fb' : FastWriter} (h : fb.bufferSize ≤ fb.buffer.length) {e : ℤ}
    (he : e < 0) (hf : fb.flush = (e, fb')) (p : List UInt8) : fb.writeBytes p = (e, fb') := by
  simp only [writeBytes, if_pos h, hf, if_neg he.ne]

theorem writeForcedLoop_room {k : ℕ} {p : List UInt8}
    (hroom : fb.buffer.length < fb.bufferSize) (hp : p ≠ []) :
    ∃ n, 0 < n ∧ n ≤ p.length ∧ fb.buffer.length + n ≤ fb.bufferSize ∧
      fb.writeBytes p = ((n : ℤ), { fb with buffer := fb.buffer ++ p.take n }) ∧
      writeForcedLoop (k + 1) fb p =
        writeForcedLoop k { fb with buffer := fb.buffer ++ p.take n } (p.drop n) := by
  have hlen : 0 < p.length := List.length_pos_iff.mpr hp
  refine ⟨_, ?_, ?_, ?_, writeBytes_room hroom p, ?_⟩
  · omega
  · omega
  · omega
  · obtain ⟨c, p, rfl⟩ := List.exists_cons_of_ne_nil hp
    rw [writeForcedLoop, writeBytes_room hroom]
    simp only
    rw [if_neg (by omega), if_neg (by omega), Int.toNat_natCast]

theorem writeForcedLoop_eq : ∀ (k : ℕ) {p : List UInt8} {fb : FastWriter}, 0 < fb.bufferSize →
    fb.buffer.length ≤ fb.bufferSize → p.length ≤ k → writeForcedLoop k fb p = putAll p fb
  | _, [], fb, _, _, _ => by rw [writeForcedLoop, putAll]
  | 0, c :: p, fb, _, _, hk => absurd hk (by simp)
  | k + 1, c :: p, fb, hsize, hle, hk => by
      have hround : ∀ {fb : FastWriter}, fb.buffer.length < fb.bufferSize → 0 < fb.bufferSize →
          writeForcedLoop (k + 1) fb (c :: p) = putAll (c :: p) fb := by
        intro fb hroom hsize
        obtain ⟨n, hpos, hn, hfit, -, hloop⟩ :=
          writeForcedLoop_room (k := k) hroom (List.cons_ne_nil c p)
        have htake : ((c :: p).take n).length = n := List.length_take_of_le hn
        have hfit' : fb.buffer.length + ((c :: p).take n).length ≤ fb.bufferSize := by omega
        have hrest : writeForcedLoop k { fb with buffer := fb.buffer ++ (c :: p).take n }
            ((c :: p).drop n) =
            putAll ((c :: p).drop n) { fb with buffer := fb.buffer ++ (c :: p).take n } :=
          writeForcedLoop_eq k hsize (by rw [List.length_append]; exact hfit')
            (by rw [List.length_drop]; omega)
        rw [hloop, hrest, ← putAll_room _ hfit', List.take_append_drop]
      by_cases hfull : fb.bufferSize ≤ fb.buffer.length
      · obtain ⟨-, hf⟩ | ⟨e, io, -, he, -, -, hf⟩ := flush_cases fb
        · have hempty := @hround { fb with
            io := { fb.io with calls := fb.io.calls + 1, sink := fb.io.sink ++ fb.buffer }
            buffer := [] } hsize hsize
          have hbytes := writeBytes_full hfull hf hsize (c :: p)
          rw [putAll, writeByte_full hfull, hf, check_zero, check_zero]
          have hbyte := @writeByte_room { fb with
            io := { fb.io with calls := fb.io.calls + 1, sink := fb.io.sink ++ fb.buffer }
            buffer := [] } hsize c
          rw [putAll, hbyte, check_zero] at hempty
          rw [← hempty, writeForcedLoop, writeForcedLoop, hbytes]
        · rw [putAll, writeByte_full hfull, hf, check_neg he, check_neg (by exact he),
            writeForcedLoop, writeBytes_failed hfull he hf]
          exact if_pos he
      · exact hround (by omega) hsize

theorem writeForced_eq (hsize : 0 < fb.bufferSize)
    (hle : fb.buffer.length ≤ fb.bufferSize) (p : List UInt8) : fb.writeForced p = putAll p fb :=
  writeForcedLoop_eq p.length hsize hle le_rfl

/-! ### Where the io fails -/

/-- The flush before the byte at offset `o` fails. -/
def FailsAt (n : ℕ) (res : ℕ → WriteResult) (o : ℕ) : Prop := 0 < o ∧ n ∣ o ∧ res (o / n - 1) ≠ .done

/-- No call has failed so far; the io and the buffer together hold `text`. -/
structure Clean (n : ℕ) (res : ℕ → WriteResult) (f : UInt32) (text : List UInt8) (fb : FastWriter) :
    Prop where
  size : fb.bufferSize = n
  results : fb.io.results = res
  flags : fb.flags = f
  sink_length : fb.io.sink.length = fb.io.calls * n
  text_eq : fb.io.sink ++ fb.buffer = text
  le : fb.buffer.length ≤ n
  pending : fb.io.calls = 0 ∨ fb.buffer ≠ []
  done : ∀ k < fb.io.calls, res k = .done

/-- The flush before the byte at offset `o` has failed. -/
structure Stopped (n : ℕ) (res : ℕ → WriteResult) (f : UInt32) (o : ℕ) (fb : FastWriter) : Prop where
  size : fb.bufferSize = n
  results : fb.io.results = res
  flags : fb.flags = f
  le : fb.buffer.length ≤ n
  calls : fb.io.calls = o / n

/-- No later call fails. -/
structure Live (n : ℕ) (res : ℕ → WriteResult) (f : UInt32) (fb : FastWriter) : Prop where
  size : fb.bufferSize = n
  results : fb.io.results = res
  flags : fb.flags = f
  le : fb.buffer.length ≤ n
  done : ∀ k, fb.io.calls ≤ k → res k = .done

section
variable {n : ℕ} {res : ℕ → WriteResult} {f : UInt32} {text : List UInt8} {fb : FastWriter}

theorem Stopped.live {o : ℕ} (hs : Stopped n res f o fb) (h : ∀ k, o / n ≤ k → res k = .done) :
    Live n res f fb := ⟨hs.size, hs.results, hs.flags, hs.le, fun k hk => h k (hs.calls ▸ hk)⟩

theorem Clean.length_eq (hc : Clean n res f text fb) :
    text.length = fb.io.calls * n + fb.buffer.length := by
  rw [← hc.text_eq, List.length_append, hc.sink_length]

theorem Clean.full_iff (hn : 0 < n) (hc : Clean n res f text fb) :
    fb.buffer.length = n ↔ 0 < text.length ∧ n ∣ text.length := by
  have hlen := hc.length_eq
  have hle := hc.le
  constructor
  · intro h
    refine ⟨by omega, fb.io.calls + 1, ?_⟩
    rw [hlen, h, Nat.mul_succ, Nat.mul_comm]
  · rintro ⟨hpos, hdvd⟩
    rw [hlen, Nat.dvd_add_right (Dvd.intro_left _ rfl)] at hdvd
    rcases Nat.eq_zero_or_pos fb.buffer.length with h0 | h0
    · rcases hc.pending with h | h
      · rw [hlen, h, h0, Nat.zero_mul] at hpos
        exact absurd hpos (lt_irrefl 0)
      · exact absurd (List.length_eq_zero_iff.mp h0) h
    · exact le_antisymm hle (Nat.le_of_dvd h0 hdvd)

theorem Clean.calls_of_full (hn : 0 < n) (hc : Clean n res f text fb)
    (h : fb.buffer.length = n) : text.length / n = fb.io.calls + 1 := by
  rw [hc.length_eq, h, ← Nat.succ_mul, Nat.mul_div_cancel _ hn]

theorem clean_new : Clean n res f [] ⟨n, [], f, ⟨res, 0, []⟩⟩ :=
  ⟨rfl, rfl, rfl, (Nat.zero_mul n).symm, rfl, Nat.zero_le n, Or.inl rfl,
    fun _ hk => absurd hk (Nat.not_lt_zero _)⟩

end

/-! ### Macros -/

/-- The macro writes `bs`, or it stops with an error at the first byte that cannot be written. -/
structure Emits (n : ℕ) (res : ℕ → WriteResult) (f : UInt32) (p : FastWriter → ℤ × FastWriter)
    (bs : List UInt8) : Prop where
  ok : ∀ {text fb}, Clean n res f text fb →
    (∀ i < bs.length, ¬ FailsAt n res (text.length + i)) →
    ∃ fb', p fb = (0, fb') ∧ Clean n res f (text ++ bs) fb'
  failed : ∀ {text fb} {i : ℕ}, Clean n res f text fb → i < bs.length →
    FailsAt n res (text.length + i) → (∀ j < i, ¬ FailsAt n res (text.length + j)) →
    ∃ e fb', p fb = (e, fb') ∧ e < 0 ∧ Stopped n res f (text.length + i) fb'
  live : ∀ {fb}, Live n res f fb → ∃ fb', p fb = (0, fb') ∧ Live n res f fb'

section
variable {n : ℕ} {res : ℕ → WriteResult} {f : UInt32} {p q : FastWriter → ℤ × FastWriter}
  {bs bs' : List UInt8}

theorem emits_nil : Emits n res f (fun fb => (0, fb)) [] where
  ok := fun hc _ => ⟨_, rfl, by rwa [List.append_nil]⟩
  failed := fun _ hi => absurd hi (Nat.not_lt_zero _)
  live := fun hl => ⟨_, rfl, hl⟩

theorem emits_byte (hn : 0 < n) (c : UInt8) : Emits n res f (fun fb => fb.writeByte c) [c] where
  ok := by
    intro text fb hc hf
    have hf0 := hf 0 Nat.one_pos
    rw [Nat.add_zero] at hf0
    by_cases hfull : fb.buffer.length = n
    · obtain ⟨hpos, hdvd⟩ := (hc.full_iff hn).mp hfull
      have hcalls := hc.calls_of_full hn hfull
      have hdone : res fb.io.calls = .done := by
        by_contra hne
        refine hf0 ⟨hpos, hdvd, ?_⟩
        rw [hcalls, Nat.add_sub_cancel]
        exact hne
      rw [writeByte_full (hc.size.trans_le hfull.ge)]
      obtain ⟨-, hfl⟩ | ⟨e, io, hne, -⟩ := flush_cases fb
      · rw [hfl, check_zero]
        refine ⟨_, rfl, ?_⟩
        refine ⟨hc.size, hc.results, hc.flags, ?_, ?_, ?_, ?_, ?_⟩
        · simp only [List.length_append, hc.sink_length, hfull, Nat.succ_mul]
        · simp only [List.nil_append, hc.text_eq]
        · exact hn
        · exact Or.inr (List.cons_ne_nil c [])
        · intro k hk
          rcases Nat.lt_succ_iff_lt_or_eq.mp hk with hlt | rfl
          · exact hc.done k hlt
          · exact hdone
      · exact absurd (hc.results ▸ hdone) hne
    · have hlt : fb.buffer.length < n := lt_of_le_of_ne hc.le hfull
      refine ⟨_, writeByte_room (hc.size ▸ hlt) c, ?_⟩
      refine ⟨hc.size, hc.results, hc.flags, hc.sink_length, ?_, ?_, ?_, hc.done⟩
      · simp only [← List.append_assoc, hc.text_eq]
      · simp only [List.length_append, List.length_singleton]
        exact hlt
      · exact Or.inr (by simp)
  failed := by
    intro text fb i hc hi hfail _
    obtain rfl : i = 0 := by simpa using hi
    rw [Nat.add_zero] at hfail ⊢
    obtain ⟨hpos, hdvd, hne⟩ := hfail
    have hfull := (hc.full_iff hn).mpr ⟨hpos, hdvd⟩
    have hcalls := hc.calls_of_full hn hfull
    rw [hcalls, Nat.add_sub_cancel, ← hc.results] at hne
    rw [writeByte_full (hc.size.trans_le hfull.ge)]
    obtain ⟨hdone, -⟩ | ⟨e, io, -, he, hres, hio, hfl⟩ := flush_cases fb
    · exact absurd hdone hne
    · rw [hfl, check_neg he]
      refine ⟨_, _, rfl, he, ?_⟩
      exact ⟨hc.size, hres.trans hc.results, hc.flags, hc.le, hio.trans hcalls.symm⟩
  live := by
    intro fb hl
    by_cases hfull : fb.bufferSize ≤ fb.buffer.length
    · rw [writeByte_full hfull]
      obtain ⟨-, hfl⟩ | ⟨e, io, hne, -⟩ := flush_cases fb
      · rw [hfl, check_zero]
        refine ⟨_, rfl, ?_⟩
        exact ⟨hl.size, hl.results, hl.flags, hn, fun k hk => hl.done k (Nat.le_of_succ_le hk)⟩
      · exact absurd (hl.results ▸ hl.done _ le_rfl) hne
    · have hlt : fb.buffer.length < fb.bufferSize := Nat.not_le.mp hfull
      refine ⟨_, writeByte_room hlt c, ?_⟩
      refine ⟨hl.size, hl.results, hl.flags, ?_, hl.done⟩
      simp only [List.length_append, List.length_singleton]
      exact hl.size ▸ hlt

/-- Two macros, the second of which is left out when the first one fails. -/
theorem Emits.append (hp : Emits n res f p bs) (hq : Emits n res f q bs') :
    Emits n res f (fun fb => check (p fb) id q) (bs ++ bs') where
  ok := by
    intro text fb hc hf
    rw [List.length_append] at hf
    obtain ⟨fb1, h1, hc1⟩ := hp.ok hc fun i hi => hf i (by omega)
    obtain ⟨fb2, h2, hc2⟩ := hq.ok hc1 fun i hi => by
      rw [List.length_append, Nat.add_assoc]
      exact hf (bs.length + i) (by omega)
    exact ⟨fb2, by rw [h1, check_zero, h2], by rwa [← List.append_assoc]⟩
  failed := by
    intro text fb i hc hi hfail hbefore
    by_cases hlt : i < bs.length
    · obtain ⟨e, fb1, h1, he, hs⟩ := hp.failed hc hlt hfail hbefore
      exact ⟨e, fb1, by rw [h1, check_neg he]; rfl, he, hs⟩
    · have hoff : ∀ j, bs.length ≤ j →
          text.length + j = (text ++ bs).length + (j - bs.length) := by
        intro j hj
        rw [List.length_append]
        omega
      obtain ⟨fb1, h1, hc1⟩ := hp.ok hc fun j hj => hbefore j (by omega)
      rw [hoff i (by omega)] at hfail ⊢
      rw [List.length_append] at hi
      obtain ⟨e, fb2, h2, he, hs⟩ := hq.failed hc1 (by omega) hfail fun j hj => by
        have := hbefore (bs.length + j) (by omega)
        rwa [hoff _ (by omega), Nat.add_sub_cancel_left] at this
      exact ⟨e, fb2, by rw [h1, check_zero, h2], he, hs⟩
  live := by
    intro fb hl
    obtain ⟨fb1, h1, hl1⟩ := hp.live hl
    obtain ⟨fb2, h2, hl2⟩ := hq.live hl1
    exact ⟨fb2, by rw [h1, check_zero, h2], hl2⟩

theorem emits_putAll (hn : 0 < n) : ∀ bs : List UInt8, Emits n res f (putAll bs) bs
  | [] => emits_nil
  | c :: bs => (emits_byte hn c).append (emits_putAll hn bs)

theorem Emits.congr (hp : Emits n res f p bs)
    (h : ∀ {fb : FastWriter}, fb.bufferSize = n → fb.buffer.length ≤ n → fb.flags = f →
      q fb = p fb) : Emits n res f q bs where
  ok := fun hc hf => by
    rw [h hc.size hc.le hc.flags]
    exact hp.ok hc hf
  failed := fun hc hi hfail hbefore => by
    rw [h hc.size hc.le hc.flags]
    exact hp.failed hc hi hfail hbefore
  live := fun hl => by
    rw [h hl.size hl.le hl.flags]
    exact hp.live hl

theorem emits_forced (hn : 0 < n) (bs : List UInt8) :
    Emits n res f (fun fb => fb.writeForced bs) bs :=
  (emits_putAll hn bs).congr fun hsize hle _ => writeForced_eq (hsize ▸ hn) (hsize ▸ hle) bs

/-- The end of a line. -/
def newline (f : UInt32) : List UInt8 := if f &&& flagsDosMode != 0 then [0x0d, 0x0a] else [0x0a]

theorem emits_line (hn : 0 < n) (bs : List UInt8) :
    Emits n res f (fun fb => fb.writeLine bs) (bs ++ newline f) := by
  have hend : Emits n res f (fun fb => fb.writeForced (newline fb.flags)) (newline f) :=
    (emits_forced hn (newline f)).congr fun _ _ hflags => by rw [hflags]
  have hall := (emits_forced hn bs).append (hend.append emits_nil)
  rw [List.append_nil] at hall
  refine hall.congr fun {fb} _ _ _ => ?_
  have hnewline : ∀ fb : FastWriter,
      (if fb.flags &&& flagsDosMode != 0 then fb.writeForced [0x0d, 0x0a] else fb.writeForced [0x0a]) =
        fb.writeForced (newline fb.flags) := by
    intro fb
    rw [newline]
    split <;> rfl
  simp only [writeLine, hnewline, check, id]

end

/-! ### The rest of a function -/

/-- The rest of a function writes the bytes of `ws`.  When a byte cannot be written it returns an
error, but at a marked byte it does not; and it succeeds when no call of the io fails any more. -/
structure Writes (n : ℕ) (res : ℕ → WriteResult) (f : UInt32) (rest : FastWriter → ℤ × FastWriter)
    (ws : List (UInt8 × Bool)) : Prop where
  ok : ∀ {text fb}, Clean n res f text fb →
    (∀ i < ws.length, ¬ FailsAt n res (text.length + i)) →
    ∃ fb', rest fb = (0, fb') ∧ Clean n res f (text ++ ws.map Prod.fst) fb'
  reported : ∀ {text fb} {i : ℕ} {c : UInt8}, Clean n res f text fb → ws[i]? = some (c, false) →
    FailsAt n res (text.length + i) → (∀ j < i, ¬ FailsAt n res (text.length + j)) →
    (rest fb).1 < 0
  swallowed : ∀ {text fb} {i : ℕ} {c : UInt8}, Clean n res f text fb → ws[i]? = some (c, true) →
    FailsAt n res (text.length + i) → (∀ j < i, ¬ FailsAt n res (text.length + j)) →
    (∀ k, (text.length + i) / n ≤ k → res k = .done) →
    ∃ e fb', rest fb = (e, fb') ∧ 0 ≤ e ∧ Live n res f fb'
  live : ∀ {fb}, Live n res f fb → ∃ fb', rest fb = (0, fb') ∧ Live n res f fb'

section
variable {n : ℕ} {res : ℕ → WriteResult} {f : UInt32} {p rest : FastWriter → ℤ × FastWriter}
  {bs : List UInt8} {ws ws' : List (UInt8 × Bool)}

theorem writes_nil : Writes n res f (fun fb => (0, fb)) [] where
  ok := fun hc _ => ⟨_, rfl, by rwa [List.map_nil, List.append_nil]⟩
  reported := fun _ hi => by cases hi
  swallowed := fun _ hi => by cases hi
  live := fun hl => ⟨_, rfl, hl⟩

/-- A function that begins with writing `ws` and goes on with `rest` when that has succeeded. -/
theorem Writes.of_first {g : FastWriter → ℤ × FastWriter} (hr : Writes n res f rest ws')
    (hok : ∀ {text fb}, Clean n res f text fb →
      (∀ i < ws.length, ¬ FailsAt n res (text.length + i)) →
      ∃ fb', g fb = rest fb' ∧ Clean n res f (text ++ ws.map Prod.fst) fb')
    (hreported : ∀ {text fb} {i : ℕ} {c : UInt8}, Clean n res f text fb →
      ws[i]? = some (c, false) → FailsAt n res (text.length + i) →
      (∀ j < i, ¬ FailsAt n res (text.length + j)) → (g fb).1 < 0)
    (hswallowed : ∀ {text fb} {i : ℕ} {c : UInt8}, Clean n res f text fb →
      ws[i]? = some (c, true) → FailsAt n res (text.length + i) →
      (∀ j < i, ¬ FailsAt n res (text.length + j)) →
      (∀ k, (text.length + i) / n ≤ k → res k = .done) →
      ∃ e fb', g fb = (e, fb') ∧ 0 ≤ e ∧ Live n res f fb')
    (hlive : ∀ {fb}, Live n res f fb → ∃ fb', g fb = rest fb' ∧ Live n res f fb') :
    Writes n res f g (ws ++ ws') := by
  have hlater : ∀ {text : List UInt8} {j : ℕ}, ws.length ≤ j → text.length + j =
      (text ++ ws.map Prod.fst).length + (j - ws.length) := by
    intro text j hj
    rw [List.length_append, List.length_map]
    omega
  have hfirst : ∀ {text : List UInt8} {fb : FastWriter} {i : ℕ}, Clean n res f text fb →
      ws.length ≤ i → (∀ j < i, ¬ FailsAt n res (text.length + j)) →
      ∃ fb', g fb = rest fb' ∧ Clean n res f (text ++ ws.map Prod.fst) fb' ∧
        ∀ j < i - ws.length, ¬ FailsAt n res ((text ++ ws.map Prod.fst).length + j) := by
    intro text fb i hc hi hbefore
    obtain ⟨fb1, h1, hc1⟩ := hok hc fun j hj => hbefore j (by omega)
    refine ⟨fb1, h1, hc1, fun j hj => ?_⟩
    have := hbefore (ws.length + j) (by omega)
    rwa [hlater (by omega), Nat.add_sub_cancel_left] at this
  refine ⟨?_, ?_, ?_, ?_⟩
  · intro text fb hc hf
    rw [List.length_append] at hf
    obtain ⟨fb1, h1, hc1, hf1⟩ := hfirst hc (Nat.le_add_right ws.length ws'.length) hf
    obtain ⟨fb2, h2, hc2⟩ := hr.ok hc1 fun i hi => hf1 i (by omega)
    refine ⟨fb2, h1.trans h2, ?_⟩
    rwa [List.map_append, ← List.append_assoc]
  · intro text fb i c hc hi hfail hbefore
    by_cases hlt : i < ws.length
    · rw [List.getElem?_append_left hlt] at hi
      exact hreported hc hi hfail hbefore
    · rw [List.getElem?_append_right (by omega)] at hi
      obtain ⟨fb1, h1, hc1, hf1⟩ := hfirst hc (by omega) hbefore
      rw [hlater (by omega)] at hfail
      rw [h1]
      exact hr.reported hc1 hi hfail hf1
  · intro text fb i c hc hi hfail hbefore hdone
    by_cases hlt : i < ws.length
    · rw [List.getElem?_append_left hlt] at hi
      exact hswallowed hc hi hfail hbefore hdone
    · rw [List.getElem?_append_right (by omega)] at hi
      obtain ⟨fb1, h1, hc1, hf1⟩ := hfirst hc (by omega) hbefore
      rw [hlater (by omega)] at hfail hdone
      rw [h1]
      exact hr.swallowed hc1 hi hfail hf1 hdone
  · intro fb hl
    obtain ⟨fb1, h1, hl1⟩ := hlive hl
    obtain ⟨fb2, h2, hl2⟩ := hr.live hl1
    exact ⟨fb2, h1.trans h2, hl2⟩

/-- A function is called and `if (err<0) return err` follows: a failure that it does not report
does not stop the caller. -/
theorem Writes.call (hp : Writes n res f p ws) (hr : Writes n res f rest ws') :
    Writes n res f (fun fb => check (p fb) id rest) (ws ++ ws') := by
  refine hr.of_first ?_ ?_ ?_ ?_
  · intro text fb hc hf
    obtain ⟨fb1, h1, hc1⟩ := hp.ok hc hf
    exact ⟨fb1, by rw [h1, check_zero], hc1⟩
  · intro text fb i c hc hi hfail hbefore
    have hneg := hp.reported hc hi hfail hbefore
    rw [check, if_pos hneg]
    exact hneg
  · intro text fb i c hc hi hfail hbefore hdone
    obtain ⟨e, fb1, h1, he, hl⟩ := hp.swallowed hc hi hfail hbefore hdone
    obtain ⟨fb2, h2, hl2⟩ := hr.live hl
    exact ⟨0, fb2, by rw [h1, check, if_neg (not_lt.mpr he), h2], le_rfl, hl2⟩
  · intro fb hl
    obtain ⟨fb1, h1, hl1⟩ := hp.live hl
    exact ⟨fb1, by rw [h1, check_zero], hl1⟩

theorem Writes.emit (hp : Emits n res f p bs) (hr : Writes n res f rest ws') {ret : ℤ → ℤ}
    {soft : Bool} (hret : ∀ e < 0, if soft then 0 ≤ ret e else ret e < 0) :
    Writes n res f (fun fb => check (p fb) ret rest) (bs.map (·, soft) ++ ws') := by
  have hbound : ∀ {i : ℕ} {c : UInt8} {b : Bool}, (bs.map (·, soft))[i]? = some (c, b) →
      i < bs.length ∧ soft = b := by
    intro i c b hi
    rw [List.getElem?_map, Option.map_eq_some_iff] at hi
    obtain ⟨d, hd, heq⟩ := hi
    exact ⟨(List.getElem?_eq_some_iff.mp hd).1, congrArg Prod.snd heq⟩
  have hmap : (bs.map (·, soft)).map Prod.fst = bs := by
    rw [List.map_map]
    exact List.map_id bs
  refine hr.of_first ?_ ?_ ?_ ?_
  · intro text fb hc hf
    rw [List.length_map] at hf
    obtain ⟨fb1, h1, hc1⟩ := hp.ok hc hf
    exact ⟨fb1, by rw [h1, check_zero], by rwa [hmap]⟩
  · intro text fb i c hc hi hfail hbefore
    obtain ⟨hlt, rfl⟩ := hbound hi
    obtain ⟨e, fb1, h1, he, -⟩ := hp.failed hc hlt hfail hbefore
    rw [h1, check_neg he]
    exact hret e he
  · intro text fb i c hc hi hfail hbefore hdone
    obtain ⟨hlt, rfl⟩ := hbound hi
    obtain ⟨e, fb1, h1, he, hs⟩ := hp.failed hc hlt hfail hbefore
    exact ⟨ret e, fb1, by rw [h1, check_neg he], hret e he, hs.live hdone⟩
  · intro fb hl
    obtain ⟨fb1, h1, hl1⟩ := hp.live hl
    exact ⟨fb1, by rw [h1, check_zero], hl1⟩

end
end Gwenhywfar.FastWriter
