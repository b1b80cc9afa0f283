import Gwenhywfar.Sio.HttpFraming

/-! # The bounds of a read

* `continuations`: the first loop of `GWEN_SyncIo_Http_ParseHeader`, with its pointer.
* `HttpReader.request`: the bytes that a call of `GWEN_SyncIo_Http_Read` asks for.
* `readsWithin_iff`: every read of a run stays within the buffer of the caller and within the text
  of the header exactly when no chunk size is negative and no text of a header ends inside a line. -/

namespace Gwenhywfar.Http

open Text
open CString (ofBytes)

/-! ### The text of a header -/

/-- The byte at a position of a text, behind which there is a NUL. -/
def load (text : List UInt8) (p : ℕ) : Option UInt8 := (text ++ [0])[p]?

/-- `strchr(p, 10)`. -/
def strchrLf (text : List UInt8) (p : ℕ) : Option ℕ :=
  ((text.drop p).findIdx? fun c => c = 10).map fun i => p + i

/-- How the first loop of `GWEN_SyncIo_Http_ParseHeader` ends. -/
inductive Walk where
  | finished (text : List UInt8)
  | outside
  | running
deriving DecidableEq

/-- The first loop of `GWEN_SyncIo_Http_ParseHeader` in at most `k` rounds; the pointer is null
when there was no line end. -/
def continuations : (k : ℕ) → (p : Option ℕ) → (text : List UInt8) → Walk
  | 0, _, _ => .running
  | _ + 1, none, _ => .outside
  | k + 1, some p, text =>
      match load text p with
      | none => .outside
      | some c =>
          if c = 0 then .finished text
          else
            match strchrLf text p with
            | none => continuations k none text
            | some q =>
                match load text (q + 1) with
                | none => .outside
                | some d =>
                    continuations k (some (q + 1)) (if isBlank d then text.set q 32 else text)

/-- The text with its continuations, if it is not left. -/
def Walk.of : Option (List UInt8) → Walk
  | some text => .finished text
  | none => .outside

section Walking

variable {pre rest : List UInt8}

theorem load_behind : load (pre ++ rest) pre.length = some (rest.head?.getD 0) := by
  unfold load
  cases rest <;> simp

theorem strchrLf_none (h : 10 ∉ rest) : strchrLf (pre ++ rest) pre.length = none := by
  unfold strchrLf
  simp
  exact fun c hc h10 => h (h10 ▸ hc)

theorem strchrLf_some {line behind : List UInt8} (h : 10 ∉ line) :
    strchrLf (pre ++ (line ++ 10 :: behind)) pre.length = some (pre.length + line.length) := by
  have hfind : (line ++ 10 :: behind).findIdx? (fun c => c = 10) = some line.length := by
    rw [List.findIdx?_eq_some_iff_getElem]
    refine ⟨by simp, by simp, fun j hj => ?_⟩
    have hmem := List.getElem_mem hj
    rw [List.getElem_append_left hj]
    simp
    exact fun h10 => h (h10 ▸ hmem)
  unfold strchrLf
  simp [hfind]

theorem joinContinuations_line {line behind : List UInt8} (h : 10 ∉ line) :
    joinContinuations (line ++ 10 :: behind) =
      line ++ (if isBlank (behind.head?.getD 0) then 32 else 10) :: joinContinuations behind := by
  induction line with
  | nil => cases behind <;> simp [joinContinuations, isBlank]
  | cons c cs ih =>
      have hc : c ≠ 10 := fun hc => h (hc ▸ List.mem_cons_self)
      have htail := ih fun hmem => h (List.mem_cons_of_mem c hmem)
      cases cs with
      | nil =>
          rw [List.nil_append] at htail
          simp [joinContinuations, hc, htail]
      | cons d ds =>
          rw [List.cons_append] at htail
          simp [joinContinuations, hc, htail]

theorem exists_line (h : 10 ∈ rest) : ∃ line behind, rest = line ++ 10 :: behind ∧ 10 ∉ line := by
  obtain ⟨line, behind, hrest, hline⟩ := List.eq_append_cons_of_mem h
  exact ⟨line, behind, hrest, hline⟩

theorem getLast?_behind {line behind : List UInt8} :
    (line ++ 10 :: behind).getLast? = some 10 ↔ behind = [] ∨ behind.getLast? = some 10 := by
  cases behind with
  | nil => simp
  | cons c cs => simp

/-- From any line on the loop joins the lines that are left, or it leaves the text. -/
theorem continuations_from : ∀ {k : ℕ} {pre rest : List UInt8}, 0 ∉ rest → rest.length + 1 < k →
    continuations k (some pre.length) (pre ++ rest) =
      Walk.of ((resolveContinuations rest).map (pre ++ ·))
  | 0, _, _, _, hk => absurd hk (Nat.not_lt_zero _)
  | k + 1, pre, rest, hnul, hk => by
      unfold continuations
      rw [load_behind]
      dsimp only
      cases hrest : rest with
      | nil => simp [resolveContinuations, joinContinuations, Walk.of]
      | cons c cs =>
          rw [← hrest]
          have hne : rest ≠ [] := by simp [hrest]
          have hc : rest.head?.getD 0 ≠ 0 := by
            rw [hrest] at hnul ⊢
            exact fun h0 => hnul (by simpa using Or.inl h0.symm)
          rw [if_neg hc]
          by_cases hlf : 10 ∈ rest
          · obtain ⟨line, behind, rfl, hline⟩ := exists_line hlf
            generalize hx : (if isBlank (behind.head?.getD 0) then (32 : UInt8) else 10) = x
            have hset : (if isBlank (behind.head?.getD 0) then
                (pre ++ (line ++ 10 :: behind)).set (pre.length + line.length) 32
                else pre ++ (line ++ 10 :: behind)) = (pre ++ line ++ [x]) ++ behind := by
              rw [← hx]
              split <;> simp
            have hload : load (pre ++ (line ++ 10 :: behind)) (pre.length + line.length + 1) =
                some (behind.head?.getD 0) := by
              have := @load_behind (pre ++ line ++ [10]) behind
              simpa [Nat.add_assoc] using this
            rw [strchrLf_some hline]
            dsimp only
            rw [hload]
            dsimp only
            have hlen : pre.length + line.length + 1 = (pre ++ line ++ [x]).length := by
              simp
              omega
            have hshort : behind.length + 1 < k := by
              simp at hk
              omega
            rw [hset, hlen, continuations_from (fun h0 => hnul (by simp [h0])) hshort]
            simp only [resolveContinuations, getLast?_behind, hne, false_or]
            split
            · rw [joinContinuations_line hline, hx]
              simp [Walk.of]
            · rfl
          · rw [strchrLf_none hlf]
            dsimp only
            obtain ⟨k, rfl⟩ := Nat.exists_eq_succ_of_ne_zero (show k ≠ 0 by omega)
            have hlast : rest.getLast? ≠ some 10 := fun h => hlf (List.mem_of_getLast? h)
            simp [continuations, resolveContinuations, hne, hlast, Walk.of]

end Walking

theorem continuations_eq (text : CString) {k : ℕ} (hk : text.bytes.length + 1 < k) :
    continuations k (some 0) text.bytes = Walk.of (resolveContinuations text.bytes) := by
  have h := @continuations_from k [] text.bytes text.nul_free hk
  simpa using h

/-- More rounds do not bring the loop back into the text. -/
theorem continuations_outside : ∀ {k k' : ℕ} {p : Option ℕ} {text : List UInt8}, k ≤ k' →
    continuations k p text = .outside → continuations k' p text = .outside
  | 0, _, _, _, _, h => by cases h
  | k + 1, k', p, text, hle, h => by
      obtain ⟨k', rfl⟩ := Nat.exists_eq_succ_of_ne_zero (show k' ≠ 0 by omega)
      have hle' : k ≤ k' := by omega
      unfold continuations at h ⊢
      cases p with
      | none => rfl
      | some p =>
          dsimp only at h ⊢
          cases hc : load text p with
          | none => rfl
          | some c =>
              rw [hc] at h
              dsimp only at h ⊢
              by_cases h0 : c = 0
              · rw [if_pos h0] at h
                cases h
              rw [if_neg h0] at h ⊢
              cases hq : strchrLf text p with
              | none =>
                  rw [hq] at h
                  exact continuations_outside hle' h
              | some q =>
                  rw [hq] at h
                  dsimp only at h ⊢
                  cases hd : load text (q + 1) with
                  | none => rfl
                  | some d =>
                      rw [hd] at h
                      exact continuations_outside hle' h

def StaysInside (text : CString) : Prop := ∀ k, continuations k (some 0) text.bytes ≠ .outside

theorem staysInside_iff (text : CString) :
    StaysInside text ↔ text.bytes = [] ∨ text.bytes.getLast? = some 10 := by
  have hend := @continuations_eq text (text.bytes.length + 2) (by omega)
  unfold resolveContinuations at hend
  constructor
  · intro h
    by_contra hnot
    rw [if_neg hnot] at hend
    exact h _ hend
  · intro hends k hk
    rw [if_pos hends] at hend
    rcases Nat.le_total k (text.bytes.length + 2) with hle | hle
    · rw [continuations_outside hle hk] at hend
      cases hend
    · rw [continuations_eq text (by omega)] at hk
      unfold resolveContinuations at hk
      rw [if_pos hends] at hk
      cases hk

namespace HttpReader

/-! ### What a read asks for -/

section Requests

variable (room : ℕ → ℕ) (r : HttpReader)

/-- The text that a read gives to `GWEN_SyncIo_Http_ParseHeader`. -/
def headerGiven : Option CString :=
  if r.connected ∧ r.readMode = .idle then
    let r :=
      { r with
        dbCommandIn := ⟨none, none, none⟩
        dbStatusIn := ⟨none, none, none⟩
        dbHeaderIn := [] }
    (if r.passive then r.readCommand room else r.readStatus room).bind fun (rv, r) =>
      let protocol :=
        textOr (if r.passive then r.dbCommandIn.protocol else r.dbStatusIn.protocol) protocol10
      if rv < 0 ∨ protocol.map toLower = protocol09.map toLower then none
      else
        (readHeaderLoop (rounds r.base) r.base [] 0 0).bind fun (rv, tbuf, lines, _) =>
          if rv < 0 ∨ lines < 1 then none else some (ofBytes tbuf)
  else none

def contentState : Option HttpReader :=
  if r.connected then
    if r.readMode = .idle then
      (r.startMessage room).bind fun (rv, r) => if rv < 0 then none else some r
    else some r
  else none

/-- The line that `GWEN_SyncIo_Http_ReadChunkSize` scans. -/
def chunkLine : Option (List UInt8) :=
  (r.readLine room).bind fun (rv, tbuf, r) =>
    if rv < 0 then none
    else
      let line := (ofBytes tbuf).bytes
      if line = [] then
        (r.readLine room).bind fun (rv, tbuf, _) =>
          if rv < 0 then none else some (ofBytes tbuf).bytes
      else some line

/-- The size of the chunk that a read comes to: what is left of the last one, or the number of the
next line unless that is `-1`. -/
def chunkSizeGiven : Option ℤ :=
  (r.contentState room).bind fun r =>
    match r.readMode with
    | .chunkSize => ((r.chunkLine room).bind scanHex).filter fun c => c ≠ -1
    | .chunk => some r.currentReadChunkSize
    | _ => none

/-- The bytes that a read asks for into the buffer of the caller. -/
def request (size : ℕ) : Option ℕ :=
  (r.contentState room).bind fun r =>
    match r.readMode with
    | .chunkSize =>
        (r.readChunkSize room).bind fun (rv, r) =>
          if rv < 0 ∨ r.currentReadChunkSize = 0 ∨ r.currentReadChunkSize = -1 then none
          else some (r.chunkRequest size)
    | .chunk => some (r.chunkRequest size)
    | .body => some (r.bodyRequest size)
    | _ => none

end Requests

section Bounds

variable {room : ℕ → ℕ} {r : HttpReader}

variable {s : HttpReader}

theorem read_of_contentState (h : r.contentState room = some s) (size : ℕ) :
    r.read room size = s.readContent room size := by
  unfold contentState at h
  unfold read
  split at h
  · rename_i hconnected
    rw [if_pos hconnected]
    split at h
    · rename_i hidle
      rw [if_pos hidle]
      obtain ⟨⟨rv, s'⟩, hstart, hs⟩ := Option.bind_eq_some_iff.mp h
      dsimp only at hs
      split at hs
      · cases hs
      · rename_i hrv
        rw [hstart, Option.bind_some]
        dsimp only
        rw [if_neg hrv, Option.some.inj hs]
    · rename_i hidle
      rw [if_neg hidle, Option.some.inj h]
  · cases h

/-- A read asks the layer below once, and for as many bytes as are requested. -/
theorem read_of_request {size n : ℕ} (h : r.request room size = some n) : ∃ s : HttpReader,
    (s.readMode = .chunk ∧ s.chunkRequest size = n ∧
      r.read room size = (s.readChunk room size).map failed) ∨
    (s.readMode = .body ∧ s.bodyRequest size = n ∧
      r.read room size = (s.readBody size).map failed) := by
  unfold request at h
  obtain ⟨s, hs, hask⟩ := Option.bind_eq_some_iff.mp h
  rw [read_of_contentState hs]
  cases hmode : s.readMode with
  | chunkSize =>
      rw [hmode] at hask
      obtain ⟨⟨rv, s'⟩, hline, hask⟩ := Option.bind_eq_some_iff.mp hask
      dsimp only at hask
      split at hask
      · cases hask
      · rename_i hgoes
        push Not at hgoes
        refine ⟨{ s' with readMode := .chunk }, Or.inl ⟨rfl, Option.some.inj hask, ?_⟩⟩
        rw [readContent, hmode]
        dsimp only
        rw [hline, Option.bind_some]
        dsimp only
        rw [if_neg (not_lt.mpr hgoes.1), if_neg hgoes.2.1, if_neg hgoes.2.2]
  | chunk =>
      rw [hmode] at hask
      exact ⟨s, Or.inl ⟨hmode, Option.some.inj hask, by rw [readContent, hmode]⟩⟩
  | body =>
      rw [hmode] at hask
      exact ⟨s, Or.inr ⟨hmode, Option.some.inj hask, by rw [readContent, hmode]⟩⟩
  | idle =>
      rw [hmode] at hask
      cases hask
  | error =>
      rw [hmode] at hask
      cases hask

/-- A read has no outcome when the text of the header is left. -/
theorem read_of_headerGiven {text : CString} (h : text ∈ r.headerGiven room)
    (hout : ¬ StaysInside text) (size : ℕ) : r.read room size = none := by
  rw [staysInside_iff] at hout
  unfold headerGiven at h
  split at h
  · rename_i hstart
    obtain ⟨⟨rv, s⟩, hfirst, hs⟩ := Option.bind_eq_some_iff.mp h
    obtain ⟨hgoes, hs⟩ := Option.ite_none_left_eq_some.mp hs
    obtain ⟨⟨rv', tbuf, lines, base⟩, hloop, htext⟩ := Option.bind_eq_some_iff.mp hs
    obtain ⟨hlines, htext⟩ := Option.ite_none_left_eq_some.mp htext
    push Not at hgoes hlines
    have htext := Option.some.inj htext
    unfold read startMessage
    rw [if_pos hstart.1, if_pos hstart.2]
    dsimp only at hfirst ⊢
    rw [hfirst, Option.bind_some]
    dsimp only
    rw [if_neg (not_lt.mpr hgoes.1), if_neg hgoes.2, readHeader, hloop, Option.bind_some]
    dsimp only
    rw [if_neg (not_lt.mpr hlines.1), if_neg (not_lt.mpr hlines.2), htext, parseHeader,
      parseHeaderText, resolveContinuations, if_neg hout]
    rfl
  · cases h

theorem readChunkSize_eq : (∃ s : HttpReader, r.readChunkSize room = some (0, s) ∧
      (r.chunkLine room).bind scanHex = some s.currentReadChunkSize) ∨
    (r.chunkLine room).bind scanHex = none ∧ ∀ res ∈ r.readChunkSize room, res.1 < 0 := by
  unfold readChunkSize chunkLine
  cases hfirst : r.readLine room with
  | none => exact Or.inr ⟨rfl, by simp⟩
  | some res =>
      obtain ⟨rv, tbuf, s⟩ := res
      by_cases hrv : rv < 0
      · exact Or.inr (by simp [hrv])
      by_cases hline : (ofBytes tbuf).bytes = []
      · cases hsecond : s.readLine room with
        | none => exact Or.inr (by simp [hrv, hline, hsecond])
        | some res =>
            obtain ⟨rv', tbuf', s'⟩ := res
            by_cases hrv' : rv' < 0
            · exact Or.inr (by simp [hrv, hline, hsecond, hrv'])
            cases hscan : scanHex (ofBytes tbuf').bytes with
            | none => exact Or.inr (by simp [hrv, hline, hsecond, hrv', hscan])
            | some c => exact Or.inl (by simp [hrv, hline, hsecond, hrv', hscan])
      · cases hscan : scanHex (ofBytes tbuf).bytes with
        | none => exact Or.inr (by simp [hrv, hline, hscan])
        | some c => exact Or.inl (by simp [hrv, hline, hscan])

variable {size : ℕ}

theorem intOf32_cases (hsize : size < 2 ^ 32) :
    size < 2 ^ 31 ∧ intOf32 size = size ∨ 2 ^ 31 ≤ size ∧ intOf32 size = size - 2 ^ 32 := by
  unfold intOf32 intOfDiff32
  dsimp only
  split <;> omega

theorem bodyRequest_le (hsize : size < 2 ^ 32) : r.bodyRequest size ≤ size := by
  unfold bodyRequest
  rcases intOf32_cases hsize with ⟨-, h⟩ | ⟨-, h⟩ <;> split <;> omega

/-- A chunk size is a size: it is not negative, or smaller than the size that is requested also as
an `uint32_t`. -/
def SizeFits (size : ℕ) (c : ℤ) : Prop := 0 ≤ c ∨ -2 ^ 31 ≤ c ∧ 2 ^ 31 ≤ size

instance (size : ℕ) (c : ℤ) : Decidable (SizeFits size c) := instDecidableOr

theorem chunkRequest_le_iff (hsize : size < 2 ^ 32)
    (hint : -2 ^ 31 ≤ r.currentReadChunkSize) :
    r.chunkRequest size ≤ size ↔ SizeFits size r.currentReadChunkSize := by
  unfold chunkRequest SizeFits
  rcases intOf32_cases hsize with ⟨hlt, h⟩ | ⟨hlt, h⟩ <;> split <;> omega

theorem chunkRequest_le (hsize : size < 2 ^ 32)
    (hfits : SizeFits size r.currentReadChunkSize) : r.chunkRequest size ≤ size := by
  unfold chunkRequest
  unfold SizeFits at hfits
  rcases intOf32_cases hsize with ⟨hlt, h⟩ | ⟨hlt, h⟩ <;> split <;> omega

theorem le_scanHex {line : List UInt8} {c : ℤ} (h : scanHex line = some c) : -2 ^ 31 ≤ c := by
  unfold scanHex at h
  dsimp only at h
  obtain ⟨-, h⟩ := Option.ite_none_left_eq_some.mp h
  rw [← Option.some.inj h]
  exact Int32.le_toInt _

/-! ### A message that begins leaves the chunk size as it is -/

theorem readLine_chunkSize {rv : ℤ} {tbuf : List UInt8}
    (h : r.readLine room = some (rv, tbuf, s)) :
    s.currentReadChunkSize = r.currentReadChunkSize := by
  unfold readLine at h
  obtain ⟨res, -, hres⟩ := Option.map_eq_some_iff.mp h
  cases hres
  rfl

theorem parseStatus_chunkSize (buffer : List UInt8) :
    (r.parseStatus buffer).2.currentReadChunkSize = r.currentReadChunkSize := by
  unfold parseStatus
  split
  · rfl
  · dsimp only
    split <;> rfl

theorem parseCommand_chunkSize (buffer : List UInt8) :
    (r.parseCommand buffer).2.currentReadChunkSize = r.currentReadChunkSize := by
  unfold parseCommand
  split
  · rfl
  · dsimp only
    split
    · rfl
    · split <;> rfl

theorem readStatus_chunkSize {rv : ℤ} (h : r.readStatus room = some (rv, s)) :
    s.currentReadChunkSize = r.currentReadChunkSize := by
  unfold readStatus at h
  obtain ⟨⟨rv', tbuf, s'⟩, hline, hres⟩ := Option.map_eq_some_iff.mp h
  rw [← readLine_chunkSize hline, show s = _ from (congrArg Prod.snd hres).symm]
  dsimp only
  split
  · rfl
  · split
    · rfl
    · exact parseStatus_chunkSize _

theorem readCommand_chunkSize {rv : ℤ} (h : r.readCommand room = some (rv, s)) :
    s.currentReadChunkSize = r.currentReadChunkSize := by
  unfold readCommand at h
  obtain ⟨⟨rv', tbuf, s'⟩, hline, hres⟩ := Option.map_eq_some_iff.mp h
  rw [← readLine_chunkSize hline, show s = _ from (congrArg Prod.snd hres).symm]
  dsimp only
  split
  · rfl
  · exact parseCommand_chunkSize _

theorem readHeader_chunkSize {rv : ℤ} (h : r.readHeader = some (rv, s)) :
    s.currentReadChunkSize = r.currentReadChunkSize ∨ s.currentReadChunkSize = -1 := by
  unfold readHeader at h
  obtain ⟨⟨rv', tbuf, lines, base⟩, -, hres⟩ := Option.bind_eq_some_iff.mp h
  dsimp only at hres
  split at hres
  · cases hres
    exact Or.inl rfl
  · split at hres
    · cases hres
      exact Or.inl rfl
    · unfold parseHeader at hres
      obtain ⟨⟨parsed, vars⟩, -, hres⟩ := Option.map_eq_some_iff.mp hres
      rw [show s = _ from (congrArg Prod.snd hres).symm]
      dsimp only
      split
      · split
        · simp only [setReadIdle]
          split <;> simp
        · dsimp only
          split <;> simp
      · exact Or.inl rfl

theorem startMessage_chunkSize {rv : ℤ} (h : r.startMessage room = some (rv, s)) :
    s.currentReadChunkSize = r.currentReadChunkSize ∨ s.currentReadChunkSize = -1 := by
  unfold startMessage at h
  obtain ⟨⟨rv', s'⟩, hfirst, hres⟩ := Option.bind_eq_some_iff.mp h
  have hsize : s'.currentReadChunkSize = r.currentReadChunkSize := by
    dsimp only at hfirst
    split at hfirst
    · have hkept := readCommand_chunkSize hfirst
      exact hkept
    · have hkept := readStatus_chunkSize hfirst
      exact hkept
  rw [← hsize]
  clear hsize hfirst
  dsimp only at hres
  by_cases hrv : rv' < 0
  · rw [if_pos hrv] at hres
    cases hres
    exact Or.inl rfl
  rw [if_neg hrv] at hres
  by_cases hprotocol : (textOr (if s'.passive = true then s'.dbCommandIn.protocol
      else s'.dbStatusIn.protocol) protocol10).map toLower = protocol09.map toLower
  · rw [if_pos hprotocol] at hres
    cases hres
    exact Or.inl rfl
  rw [if_neg hprotocol] at hres
  obtain ⟨⟨rv'', s''⟩, hheader, hres⟩ := Option.map_eq_some_iff.mp hres
  have hkept := readHeader_chunkSize hheader
  rw [show s = _ from (congrArg Prod.snd hres).symm]
  dsimp only
  split <;> exact hkept

theorem le_contentState (h : r.contentState room = some s)
    (hint : -2 ^ 31 ≤ r.currentReadChunkSize) : -2 ^ 31 ≤ s.currentReadChunkSize := by
  unfold contentState at h
  split at h
  · split at h
    · obtain ⟨⟨rv, s'⟩, hstart, hs⟩ := Option.bind_eq_some_iff.mp h
      obtain ⟨-, hs⟩ := Option.ite_none_left_eq_some.mp hs
      have hkept := startMessage_chunkSize hstart
      rw [← Option.some.inj hs]
      omega
    · rwa [← Option.some.inj h]
  · cases h

/-! ### The bound of a request -/

theorem request_le (hsize : size < 2 ^ 32)
    (hfits : ∀ c ∈ r.chunkSizeGiven room, SizeFits size c) :
    ∀ n ∈ r.request room size, n ≤ size := by
  intro n hn
  unfold request at hn
  unfold chunkSizeGiven at hfits
  obtain ⟨s, hs, hn⟩ := Option.bind_eq_some_iff.mp hn
  rw [hs, Option.bind_some] at hfits
  cases hmode : s.readMode with
  | chunkSize =>
      rw [hmode] at hn hfits
      obtain ⟨⟨rv, s'⟩, hline, hn⟩ := Option.bind_eq_some_iff.mp hn
      obtain ⟨hgoes, hn⟩ := Option.ite_none_left_eq_some.mp hn
      push Not at hgoes
      rw [← Option.some.inj hn]
      rcases readChunkSize_eq with ⟨s'', hread, hscan⟩ | ⟨-, hneg⟩
      · rw [hline] at hread
        cases hread
        refine chunkRequest_le hsize (hfits _ ?_)
        dsimp only
        rw [hscan]
        simpa using hgoes.2.2
      · exact absurd (hneg _ hline) (not_lt.mpr hgoes.1)
  | chunk =>
      rw [hmode] at hn hfits
      rw [← Option.some.inj hn]
      exact chunkRequest_le hsize (hfits _ rfl)
  | body =>
      rw [hmode] at hn
      rw [← Option.some.inj hn]
      exact bodyRequest_le hsize
  | idle =>
      rw [hmode] at hn
      cases hn
  | error =>
      rw [hmode] at hn
      cases hn

theorem sizeFits_of_request_le (hsize : size < 2 ^ 32)
    (hint : -2 ^ 31 ≤ r.currentReadChunkSize) (hle : ∀ n ∈ r.request room size, n ≤ size) :
    ∀ c ∈ r.chunkSizeGiven room, SizeFits size c := by
  intro c hc
  unfold chunkSizeGiven at hc
  unfold request at hle
  obtain ⟨s, hs, hc⟩ := Option.bind_eq_some_iff.mp hc
  rw [hs, Option.bind_some] at hle
  cases hmode : s.readMode with
  | chunkSize =>
      rw [hmode] at hc hle
      obtain ⟨hscan, hone⟩ := Option.filter_eq_some_iff.mp hc
      rcases readChunkSize_eq with ⟨s', hread, hscan'⟩ | ⟨hnone, -⟩
      · obtain ⟨line, -, hline⟩ := Option.bind_eq_some_iff.mp hscan
        have hc' : c = s'.currentReadChunkSize := Option.some.inj (hscan.symm.trans hscan')
        have hrange := le_scanHex hline
        subst hc'
        by_cases hzero : s'.currentReadChunkSize = 0
        · exact Or.inl hzero.ge
        refine (chunkRequest_le_iff hsize hrange).mp (hle _ ?_)
        dsimp only
        rw [hread]
        simp at hone
        simp [hone, hzero]
      · rw [hnone] at hscan
        cases hscan
  | chunk =>
      rw [hmode] at hc hle
      rw [← Option.some.inj hc]
      exact (chunkRequest_le_iff hsize (le_contentState hs hint)).mp (hle _ rfl)
  | body =>
      rw [hmode] at hc
      cases hc
  | idle =>
      rw [hmode] at hc
      cases hc
  | error =>
      rw [hmode] at hc
      cases hc

end Bounds

/-! ### Runs -/

section Runs

variable (room : ℕ → ℕ)

def readStep (r : HttpReader) (size : UInt32) : Option HttpReader :=
  (r.read room size.toNat).map Prod.snd

def Within (r : HttpReader) (size : UInt32) : Prop :=
  (∀ text ∈ r.headerGiven room, StaysInside text) ∧
    ∀ n ∈ r.request room size.toNat, n ≤ size.toNat

def WellSent (r : HttpReader) (size : UInt32) : Prop :=
  (∀ text ∈ r.headerGiven room, text.bytes = [] ∨ text.bytes.getLast? = some 10) ∧
    ∀ c ∈ r.chunkSizeGiven room, SizeFits size.toNat c

instance (r : HttpReader) (size : UInt32) : Decidable (WellSent room r size) := instDecidableAnd

theorem within_of_wellSent {r : HttpReader} {size : UInt32} (h : WellSent room r size) :
    Within room r size :=
  ⟨fun text htext => (staysInside_iff text).mpr (h.1 text htext),
    request_le (UInt32.toNat_lt size) h.2⟩

/-- As long as the texts of the headers end with their lines and no chunk size is negative, all
reads stay within their bounds; and any read that stays within them has this input. -/
theorem readsWithin_iff (r : HttpReader) : (∀ sizes, Along (readStep room) (WellSent room) r sizes →
      Along (readStep room) (Within room) r sizes) ∧
    (-2 ^ 31 ≤ r.currentReadChunkSize → ∀ size, Within room r size ↔ WellSent room r size) := by
  constructor
  · intro sizes h
    rw [along_iff] at h ⊢
    exact fun pre size hpre s hs => within_of_wellSent room (h pre size hpre s hs)
  · intro hint size
    refine ⟨fun h => ⟨fun text htext => ?_, ?_⟩, within_of_wellSent room⟩
    · exact (staysInside_iff text).mp (h.1 text htext)
    · exact sizeFits_of_request_le (UInt32.toNat_lt size) hint h.2

end Runs

/-- A reader at the begin of what the other side sends. -/
def receiverOf (stream : List UInt8) : HttpReader :=
  newReader false
    ⟨⟨List.replicate 1024 0, 1024, 0, 0, 0, 0, 0, 0, 0⟩, ⟨fun _ => .cut 1024, 0, stream⟩, false⟩

def chunkedHead : List UInt8 :=
  ascii ['H', 'T', 'T', 'P', '/', '1', '.', '0', ' ', '2', '0', '0', ' ', 'O', 'K'] ++ crlf ++
    transferEncoding ++ ascii [':', ' ', 'c', 'h', 'u', 'n', 'k', 'e', 'd'] ++ crlf ++ crlf

theorem readsWithin_two :
    let r := receiverOf (chunkedHead ++ ascii ['2'] ++ crlf ++ ascii ['a', 'b'] ++ crlf)
    Along (readStep fun _ => 1024) (Within fun _ => 1024) r [16] ∧
      (Within (fun _ => 1024) r 16 ↔ WellSent (fun _ => 1024) r 16) :=
  ⟨(readsWithin_iff _ _).1 _ (by decide +kernel), (readsWithin_iff _ _).2 (by decide) _⟩

/-- A chunk size of `80000000` becomes the size of the read below, and a header whose last line
has no end is left. -/
theorem not_readsWithin_negative :
    (receiverOf (chunkedHead ++ ascii ['8', '0', '0', '0', '0', '0', '0', '0'] ++ crlf)).request
      (fun _ => 1024) 16 = some (2 ^ 31) ∧ ¬ Within (fun _ => 1024) (receiverOf
      (chunkedHead ++ ascii ['8', '0', '0', '0', '0', '0', '0', '0'] ++ crlf)) 16 := by
  have hrequest : (receiverOf (chunkedHead ++ ascii ['8', '0', '0', '0', '0', '0', '0', '0'] ++
      crlf)).request (fun _ => 1024) 16 = some (2 ^ 31) := by decide +kernel
  exact ⟨hrequest, fun h => absurd (h.2 _ hrequest) (by decide)⟩

end HttpReader
end Gwenhywfar.Http
