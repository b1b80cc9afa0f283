import Gwenhywfar.Base.Buffer

/-! # Writing lines

The layer below takes any part of the bytes that it is offered, is interrupted or reports an error.

* `writeForced`: `GWEN_SyncIo_WriteForced`, which offers what is left until everything is taken.
* `bufferedWrite`: `GWEN_SyncIo_Buffered_Write`, which writes the data with `writeForced` and offers
  the line end only once.
* `completeWrites_iff`: the line is complete unless the layer below takes the data and only a part
  of the line end. -/

namespace Gwenhywfar.LineWrite

/-- `GWEN_ERROR_INTERRUPTED`. -/
abbrev errorInterrupted : ℤ := -37

/-- What the layer below does in one write: it takes at most so many bytes, or it reports the error
`-(rv + 1)`. -/
inductive BaseWrite where
  | accepted (n : ℕ)
  | failed (rv : ℕ)
deriving DecidableEq, Repr

abbrev interrupted : BaseWrite := .failed 36

/-- The layer below, with the bytes that it has taken. -/
structure BaseSink where
  results : ℕ → BaseWrite
  calls : ℕ
  received : List UInt8

/-- What is left of so many bytes after a write that takes some; the count is an `int`. -/
def left (todo n : ℕ) : ℕ := todo - min n (2 ^ 31 - 1)

/-- `GWEN_SyncIo_Write` of the layer below. -/
def BaseSink.write (io : BaseSink) (bytes : List UInt8) : ℤ × BaseSink :=
  match io.results io.calls with
  | .failed rv => (-(rv + 1), { io with calls := io.calls + 1 })
  | .accepted n =>
      let taken := bytes.take (min n (2 ^ 31 - 1))
      (taken.length,
        { io with calls := io.calls + 1, received := io.received ++ taken })

/-- A write that is repeated while it is interrupted. -/
def retry : (fuel : ℕ) → BaseSink → List UInt8 → Option (ℤ × BaseSink)
  | 0, _, _ => none
  | fuel + 1, io, bytes =>
      let (rv, io') := io.write bytes
      if rv = errorInterrupted then retry fuel io' bytes else some (rv, io')

/-- The loop of `GWEN_SyncIo_WriteForced`; the result is 0 when nothing is left. -/
def writeRest : (fuel : ℕ) → BaseSink → (todo : List UInt8) → Option (ℤ × BaseSink)
  | _, io, [] => some (0, io)
  | 0, _, _ :: _ => none
  | fuel + 1, io, b :: bs =>
      let (rv, io') := io.write (b :: bs)
      if rv = errorInterrupted then writeRest fuel io' (b :: bs)
      else if rv < 0 then some (rv, io')
      else writeRest fuel io' ((b :: bs).drop rv.toNat)

/-- `GWEN_SyncIo_WriteForced`; without a result it does not return within the fuel. -/
def writeForced (fuel : ℕ) (io : BaseSink) (buffer : List UInt8) : Option (ℤ × BaseSink) :=
  if buffer = [] then
    (retry fuel io []).map fun (rv, io) => (if rv < 0 then rv else 0, io)
  else
    (writeRest fuel io buffer).map fun (rv, io) =>
      (if rv < 0 then rv else Buffer.toInt buffer.length, io)

/-- The end of a line: CR LF with `GWEN_SYNCIO_FLAGS_DOSMODE`, else LF. -/
def lineEnd (dosMode : Bool) : List UInt8 := if dosMode then [13, 10] else [10]

/-- `GWEN_SyncIo_Buffered_Write`, with the flags `GWEN_SYNCIO_FLAGS_TRANSPARENT` and
`GWEN_SYNCIO_FLAGS_DOSMODE`. -/
def bufferedWrite (transparent dosMode : Bool) (fuel : ℕ) (baseIo : Option BaseSink)
    (buffer : List UInt8) : Option (ℤ × Option BaseSink) :=
  match baseIo with
  | none => some (errorInternal, none)
  | some io =>
      if transparent then (retry fuel io buffer).map fun (rv, io) => (rv, some io)
      else
        (if buffer = [] then some (0, io) else writeForced fuel io buffer).bind fun (rv, io) =>
          if rv < 0 then some (rv, some io)
          else
            -- offered once, whatever part of it is taken
            (retry fuel io (lineEnd dosMode)).map fun (rv, io) =>
              (if rv < 0 then rv else Buffer.toInt buffer.length, some io)

/-! ### What a complete write is -/

/-- A line that is written with a count as its result has been taken with its line end, and data
that is written as a whole has been taken. -/
def CompleteWrites (dosMode : Bool) (io : BaseSink) (buffer : List UInt8) : Prop :=
  (∀ fuel rv io', bufferedWrite false dosMode fuel (some io) buffer = some (rv, some io') →
      0 ≤ rv → io'.received = io.received ++ (buffer ++ lineEnd dosMode)) ∧
    ∀ fuel io', writeForced fuel io buffer = some ((buffer.length : ℤ), io') →
      io'.received = io.received ++ buffer

/-- From the call `i` on the layer below takes `todo` bytes, and the call `j` is the next one. -/
inductive Takes (results : ℕ → BaseWrite) : (i todo j : ℕ) → Prop
  | done (i : ℕ) : Takes results i 0 i
  | interrupted {i todo j : ℕ} : results i = interrupted → Takes results (i + 1) (todo + 1) j →
      Takes results i (todo + 1) j
  | accepted {i todo j n : ℕ} : results i = .accepted n →
      Takes results (i + 1) (left (todo + 1) n) j → Takes results i (todo + 1) j

/-- The first call from `j` on that is not interrupted is `k`, and takes a part of `size` bytes. -/
def CutsAt (results : ℕ → BaseWrite) (j k size : ℕ) : Prop :=
  j ≤ k ∧ (∀ m, j ≤ m → m < k → results m = interrupted) ∧ ∃ n < size, results k = .accepted n

/-! ### The loops -/

section
variable {io io' : BaseSink} {fuel todo j k : ℕ} {rv : ℤ} {bytes : List UInt8}

theorem write_interrupted (h : io.results io.calls = interrupted) (bytes : List UInt8) :
    io.write bytes = (errorInterrupted, { io with calls := io.calls + 1 }) := by
  simp [BaseSink.write, h]

theorem write_accepted {n : ℕ} (h : io.results io.calls = .accepted n) (bytes : List UInt8) :
    io.write bytes = (((bytes.take (min n (2 ^ 31 - 1))).length : ℤ),
      { io with calls := io.calls + 1,
                received := io.received ++ bytes.take (min n (2 ^ 31 - 1)) }) := by
  simp [BaseSink.write, h]

theorem write_nil (io : BaseSink) : (io.write []).2.received = io.received := by
  unfold BaseSink.write
  cases io.results io.calls <;> simp

theorem write_eq_errorInterrupted (h : (io.write bytes).1 = errorInterrupted) :
    io.results io.calls = interrupted := by
  unfold BaseSink.write at h
  cases hres : io.results io.calls with
  | accepted n =>
      simp only [hres, errorInterrupted] at h
      omega
  | failed rv =>
      simp only [hres, errorInterrupted] at h
      exact congrArg BaseWrite.failed (by omega)

theorem write_nonneg (h : 0 ≤ (io.write bytes).1) : ∃ n, io.results io.calls = .accepted n := by
  unfold BaseSink.write at h
  cases hres : io.results io.calls with
  | accepted n => exact ⟨n, rfl⟩
  | failed rv =>
      simp only [hres] at h
      omega

theorem drop_length_take (n : ℕ) (bytes : List UInt8) :
    bytes.drop (bytes.take n).length = bytes.drop n := by
  rw [List.length_take]
  rcases Nat.le_total n bytes.length with hle | hle
  · rw [min_eq_left hle]
  · rw [min_eq_right hle, List.drop_length, List.drop_eq_nil_of_le hle]

theorem retry_spec : ∀ {fuel : ℕ} {io : BaseSink}, retry fuel io bytes = some (rv, io') →
    ∃ k, io.calls ≤ k ∧ (∀ m, io.calls ≤ m → m < k → io.results m = interrupted) ∧
      ({ io with calls := k }).write bytes = (rv, io')
  | 0, io, h => by cases h
  | fuel + 1, io, h => by
      unfold retry at h
      dsimp only at h
      split at h
      · next hint =>
          have hres := write_eq_errorInterrupted hint
          rw [write_interrupted hres] at h
          obtain ⟨k, hle, hbefore, hwrite⟩ := retry_spec h
          refine ⟨k, Nat.le_of_succ_le hle, fun m hm hk => ?_, hwrite⟩
          rcases Nat.eq_or_lt_of_le hm with rfl | hlt
          · exact hres
          · exact hbefore m hlt hk
      · exact ⟨io.calls, le_rfl, fun m hm hk => absurd hk (Nat.not_lt.mpr hm),
          Option.some.inj h⟩

theorem retry_eq (h : ∀ m, j ≤ m → m < j + k → io.results m = interrupted)
    (hend : (({ io with calls := j + k } : BaseSink).write bytes).1 ≠ errorInterrupted)
    (hfuel : k < fuel) :
    retry fuel { io with calls := j } bytes = some (({ io with calls := j + k }).write bytes) := by
  induction k generalizing j fuel with
  | zero =>
      obtain ⟨fuel, rfl⟩ := Nat.exists_eq_add_one.mpr hfuel
      exact if_neg hend
  | succ k ih =>
      obtain ⟨fuel, rfl⟩ := Nat.exists_eq_add_one.mpr (Nat.lt_of_le_of_lt (Nat.zero_le _) hfuel)
      have hres : io.results j = interrupted := h j le_rfl (by omega)
      have hshift : j + (k + 1) = j + 1 + k := by omega
      unfold retry
      rw [write_interrupted hres]
      dsimp only
      rw [if_pos rfl, hshift]
      exact ih (fun m hm hk => h m (by omega) (by omega)) (by rwa [hshift] at hend) (by omega)

/-- Data that has been written is what the layer below has taken. -/
theorem writeRest_spec : ∀ {fuel : ℕ} {io : BaseSink} {bytes : List UInt8},
    writeRest fuel io bytes = some (rv, io') → 0 ≤ rv →
      io' = { io with calls := io'.calls, received := io.received ++ bytes } ∧
        Takes io.results io.calls bytes.length io'.calls
  | _, io, [], h, _ => by
      simp only [writeRest, Option.some.injEq, Prod.mk.injEq] at h
      obtain ⟨-, rfl⟩ := h
      exact ⟨by simp, .done _⟩
  | 0, _, _ :: _, h, _ => by cases h
  | fuel + 1, io, b :: bs, h, hrv => by
      unfold writeRest at h
      dsimp only at h
      split at h
      · next hint =>
          have hres := write_eq_errorInterrupted hint
          rw [write_interrupted hres] at h
          obtain ⟨heq, htakes⟩ := writeRest_spec h hrv
          exact ⟨heq, .interrupted hres htakes⟩
      split at h
      · next hneg =>
          simp only [Option.some.injEq, Prod.mk.injEq] at h
          omega
      · next hnonneg =>
          obtain ⟨n, hres⟩ := write_nonneg (Int.not_lt.mp hnonneg)
          rw [write_accepted hres] at h
          dsimp only at h
          rw [Int.toNat_natCast, drop_length_take] at h
          obtain ⟨heq, htakes⟩ := writeRest_spec h hrv
          refine ⟨?_, .accepted hres ?_⟩
          · rw [heq, List.append_assoc, List.take_append_drop]
          · simpa [left] using htakes

theorem writeRest_of_takes {results : ℕ → BaseWrite} (h : Takes results j todo k) :
    ∀ {bytes received : List UInt8}, bytes.length = todo →
      ∃ fuel, ∀ more, writeRest (fuel + more) ⟨results, j, received⟩ bytes =
        some (0, ⟨results, k, received ++ bytes⟩) := by
  induction h with
  | done i =>
      intro bytes received hlen
      rw [List.length_eq_zero_iff.mp hlen, List.append_nil]
      exact ⟨0, fun more => by cases more <;> rfl⟩
  | interrupted hres _ ih =>
      intro bytes received hlen
      obtain ⟨b, bs, rfl⟩ := List.exists_cons_of_length_eq_add_one hlen
      obtain ⟨fuel, hfuel⟩ := ih hlen
      refine ⟨fuel + 1, fun more => ?_⟩
      rw [Nat.add_right_comm, writeRest, write_interrupted hres]
      exact (if_pos rfl).trans (hfuel more)
  | @accepted i todo j n hres _ ih =>
      intro bytes received hlen
      obtain ⟨b, bs, rfl⟩ := List.exists_cons_of_length_eq_add_one hlen
      have hleft : ((b :: bs).drop (min n (2 ^ 31 - 1))).length = left (todo + 1) n := by
        rw [List.length_drop, hlen, left]
      obtain ⟨fuel, hfuel⟩ :=
        @ih _ (received ++ (b :: bs).take (min n (2 ^ 31 - 1))) hleft
      refine ⟨fuel + 1, fun more => ?_⟩
      rw [Nat.add_right_comm, writeRest, write_accepted hres]
      dsimp only
      rw [if_neg (by simp only [errorInterrupted]; omega), if_neg (by omega), Int.toNat_natCast,
        drop_length_take, hfuel, List.append_assoc, List.take_append_drop]

/-! ### Complete writes -/

theorem toInt_nonneg {n : ℕ} (hn : n < 2 ^ 32) (h : 0 ≤ Buffer.toInt n) : n < 2 ^ 31 := by
  unfold Buffer.toInt at h
  split at h <;> omega

/-- Data that has been written as a whole, by the retry loop. -/
theorem writeForced_spec (hsize : bytes.length < 2 ^ 32)
    (h : writeForced fuel io bytes = some (rv, io')) (hrv : 0 ≤ rv) :
    io'.received = io.received ++ bytes ∧ (bytes ≠ [] → bytes.length < 2 ^ 31 ∧
      io'.results = io.results ∧ Takes io.results io.calls bytes.length io'.calls) := by
  unfold writeForced at h
  split at h
  · next hnil =>
      simp only [Option.map_eq_some_iff, Prod.exists, Prod.mk.injEq] at h
      obtain ⟨rv', io'', hretry, hrv', rfl⟩ := h
      obtain ⟨k, -, -, hwrite⟩ := retry_spec hretry
      refine ⟨?_, fun h => absurd hnil h⟩
      have hnone := write_nil { io with calls := k }
      rw [hwrite] at hnone
      rw [hnil, List.append_nil]
      exact hnone
  · simp only [Option.map_eq_some_iff, Prod.exists, Prod.mk.injEq] at h
    obtain ⟨rv', io'', hrest, hrv', rfl⟩ := h
    split at hrv'
    · omega
    · next hneg =>
        obtain ⟨heq, htakes⟩ := writeRest_spec hrest (Int.not_lt.mp hneg)
        refine ⟨by rw [heq], fun _ => ⟨toInt_nonneg hsize (hrv' ▸ hrv), by rw [heq], htakes⟩⟩

theorem data_spec (hsize : bytes.length < 2 ^ 32)
    (h : (if bytes = [] then some (0, io) else writeForced fuel io bytes) = some (rv, io'))
    (hrv : 0 ≤ rv) : bytes.length < 2 ^ 31 ∧ io'.received = io.received ++ bytes ∧
      io'.results = io.results ∧ Takes io.results io.calls bytes.length io'.calls := by
  split at h
  · next hnil =>
      obtain ⟨-, rfl⟩ := Prod.mk.inj (Option.some.inj h)
      rw [hnil]
      exact ⟨by decide, (List.append_nil _).symm, rfl, .done _⟩
  · next hnil =>
      obtain ⟨hreceived, hrest⟩ := writeForced_spec hsize h hrv
      exact ⟨(hrest hnil).1, hreceived, (hrest hnil).2⟩

theorem data_of_takes (hsize : bytes.length < 2 ^ 31)
    (h : Takes io.results io.calls bytes.length j) : ∃ fuel, ∀ more, ∃ rv, 0 ≤ rv ∧
      (if bytes = [] then some (0, io) else writeForced (fuel + more) io bytes) =
        some (rv, { io with calls := j, received := io.received ++ bytes }) := by
  by_cases hnil : bytes = []
  · subst hnil
    cases h
    exact ⟨0, fun more => ⟨0, le_rfl, by simp⟩⟩
  · obtain ⟨fuel, hfuel⟩ := @writeRest_of_takes _ _ _ _ h bytes io.received rfl
    refine ⟨fuel, fun more => ⟨bytes.length, Int.natCast_nonneg _, ?_⟩⟩
    rw [if_neg hnil, writeForced, if_neg hnil, hfuel, Option.map_some]
    dsimp only
    rw [if_neg (by decide), Buffer.toInt, if_pos hsize]

theorem not_cutsAt {results : ℕ → BaseWrite} {size : ℕ} (h : ¬CutsAt results j k size)
    (hle : j ≤ k) (hbefore : ∀ m, j ≤ m → m < k → results m = interrupted) {n : ℕ}
    (hres : results k = .accepted n) : size ≤ n := by
  by_contra hlt
  exact h ⟨hle, hbefore, n, Nat.not_le.mp hlt, hres⟩

end

theorem lineEnd_length_le (dosMode : Bool) : (lineEnd dosMode).length ≤ 2 := by
  cases dosMode <;> decide

/-- The line is complete unless the layer below takes the data and only a part of the line end. -/
theorem completeWrites_iff (dosMode : Bool) (io : BaseSink) (buffer : List UInt8)
    (hsize : buffer.length < 2 ^ 32) : CompleteWrites dosMode io buffer ↔ (buffer.length < 2 ^ 31 →
      ∀ j k, Takes io.results io.calls buffer.length j →
        ¬CutsAt io.results j k (lineEnd dosMode).length) := by
  constructor
  · rintro ⟨hline, -⟩ hsmall j k htakes ⟨hle, hbefore, n, hn, hres⟩
    obtain ⟨fuel, hfuel⟩ := data_of_takes hsmall htakes
    obtain ⟨rv, hrv, hdata⟩ := hfuel (k - j + 1)
    have hend : (({ io with calls := k, received := io.received ++ buffer } :
        BaseSink).write (lineEnd dosMode)) = ((((lineEnd dosMode).take n).length : ℤ),
          { io with calls := k + 1, received :=
            io.received ++ buffer ++ (lineEnd dosMode).take n }) := by
      have := lineEnd_length_le dosMode
      rw [write_accepted hres, min_eq_left (by omega)]
    have hretry := @retry_eq ⟨io.results, j, io.received ++ buffer⟩ (fuel + (k - j + 1)) j (k - j)
      (lineEnd dosMode) (fun m hm hk => hbefore m hm (by omega))
    rw [Nat.add_sub_cancel' hle] at hretry
    replace hretry := hretry (by rw [hend]; simp only [errorInterrupted]; omega) (by omega)
    rw [hend] at hretry
    have hwritten := hline (fuel + (k - j + 1)) (Buffer.toInt buffer.length) _
      (by
        simp only [bufferedWrite, Bool.false_eq_true, if_false]
        rw [hdata, Option.bind_some]
        dsimp only
        rw [if_neg (Int.not_lt.mpr hrv), hretry, Option.map_some]
        dsimp only
        rw [if_neg (by omega)])
      (by rw [Buffer.toInt, if_pos hsmall]; omega)
    have hlength := congrArg List.length hwritten
    simp only [List.length_append, List.length_take] at hlength
    omega
  · intro hcut
    refine ⟨fun fuel rv io' h hrv => ?_, fun fuel io' h => ?_⟩
    · simp only [bufferedWrite, Bool.false_eq_true, if_false, Option.bind_eq_some_iff,
        Prod.exists] at h
      obtain ⟨rv1, io1, hdata, h⟩ := h
      split at h
      · simp only [Option.some.injEq, Prod.mk.injEq] at h
        omega
      · next hneg =>
          obtain ⟨hsmall, hreceived, hresults, htakes⟩ :=
            data_spec hsize hdata (Int.not_lt.mp hneg)
          simp only [Option.map_eq_some_iff, Prod.exists, Prod.mk.injEq, Option.some.injEq] at h
          obtain ⟨rv2, io2, hretry, hrv2, rfl⟩ := h
          obtain ⟨k, hle, hbefore, hwrite⟩ := retry_spec hretry
          have hnonneg : 0 ≤ rv2 := by
            split at hrv2 <;> omega
          obtain ⟨n, hres⟩ := @write_nonneg { io1 with calls := k } _
            (by rw [hwrite]; exact hnonneg)
          rw [hresults] at hbefore
          have hn := not_cutsAt (hcut hsmall _ k htakes) hle hbefore (hresults ▸ hres)
          have hlen := lineEnd_length_le dosMode
          rw [write_accepted hres, List.take_of_length_le (by omega)] at hwrite
          rw [← (Prod.mk.inj hwrite).2, hreceived, List.append_assoc]
    · exact (writeForced_spec hsize h (Int.natCast_nonneg _)).1

/-- The layer below takes one byte in each call, and is interrupted once; LF ends the line. -/
theorem completeWrites_single :
    CompleteWrites false ⟨fun i => if i = 1 then interrupted else .accepted 1, 0, []⟩ [65, 66] :=
  (completeWrites_iff _ _ _ (by decide)).mpr (by
    rintro - j k - ⟨-, -, n, hn, hres⟩
    dsimp only at hres
    split at hres
    · cases hres
    · cases hres
      exact absurd hn (by decide))

/-- The layer below takes one byte in each call; of CR LF only CR is written. -/
theorem not_completeWrites_dos : ¬∀ dosMode io buffer, buffer.length < 2 ^ 32 →
    CompleteWrites dosMode io buffer := by
  intro h
  have hline := (h true ⟨fun _ => .accepted 1, 0, []⟩ [65] (by decide)).1 2 1
    ⟨fun _ => .accepted 1, 2, [65, 13]⟩ rfl (by decide)
  revert hline
  decide
end Gwenhywfar.LineWrite
