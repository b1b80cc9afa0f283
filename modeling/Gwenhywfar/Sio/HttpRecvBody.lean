import Gwenhywfar.Sio.HttpReading

/-! # Receiving a body

* `Receiver.content`: a call of `GWEN_SyncIo_Http_Read` behind the header, over a layer that cuts
  its stream as it likes and reports the end of the stream by 0 or by `GWEN_ERROR_EOF`.
* `recvBody` and `recvBodyToSio`: `GWEN_SyncIo_Http_RecvBody` and
  `GWEN_SyncIo_Http_RecvBodyToSio`.
* `receives_iff`: the response for which a body that is cut off is noticed, and one that is complete
  is accepted. -/

namespace Gwenhywfar.Http

open Text

/-- `GWEN_ERROR_SSL`. -/
abbrev errorSsl : ℤ := -66

/-! ### The reads behind the header -/

/-- The layer below: what it has not given yet, how it cuts that, and whether it reports the end by
`GWEN_ERROR_EOF`. -/
structure Source where
  stream : List UInt8
  cuts : ℕ → ℕ
  calls : ℕ
  eof : Bool

namespace Source

def endResult (src : Source) : ℤ := if src.eof then errorEof else 0

/-- `GWEN_SyncIo_Read` of the layer below in the transparent mode. -/
def read (src : Source) (size : ℕ) : ℤ × List UInt8 × Source :=
  if src.stream = [] then (src.endResult, [], src)
  else
    let bytes := src.stream.take (max 1 (min (src.cuts src.calls) size))
    (bytes.length, bytes,
      { src with
        calls := src.calls + 1
        stream := src.stream.drop (max 1 (min (src.cuts src.calls) size)) })

/-- `GWEN_SyncIo_Http_ReadLine`; a line that the stream ends is given when the end is no error. -/
def readLine (src : Source) : ℤ × List UInt8 × Source :=
  if 10 ∈ src.stream then
    (0, withoutCr (src.stream.takeWhile (· != 10)),
      { src with stream := (src.stream.dropWhile (· != 10)).tail })
  else
    (if src.eof = true ∨ withoutCr src.stream = [] then errorEof else 0, withoutCr src.stream,
      { src with stream := [] })

end Source

/-- The reading half of the layer behind the header of a response. -/
structure Receiver where
  readMode : Mode
  currentReadChunkSize : ℤ
  currentReadBodySize : ℤ
  source : Source

namespace Receiver

/-- `GWEN_SyncIo_Http_ReadLine`. -/
def readLine (r : Receiver) : ℤ × List UInt8 × Receiver :=
  let (rv, tbuf, src) := r.source.readLine
  (rv, (CString.ofBytes tbuf).bytes, { r with source := src })

/-- `GWEN_SyncIo_Http_ReadChunkSize`. -/
def readChunkSize (r : Receiver) : ℤ × Receiver :=
  let (rv, line, r) := r.readLine
  if rv < 0 then (rv, r)
  else
    let (rv, line, r) := if line = [] then r.readLine else (rv, line, r)
    if rv < 0 then (rv, r)
    else
      match scanHex line with
      | none => (errorBadData, r)
      | some csize => (0, { r with currentReadChunkSize := csize })

def failed (res : ℤ × List UInt8 × Receiver) : ℤ × List UInt8 × Receiver :=
  if res.1 < 0 then (res.1, res.2.1, { res.2.2 with readMode := .error }) else res

/-- `GWEN_SyncIo_Http_ReadChunk`. -/
def readChunk (r : Receiver) (size : ℕ) : ℤ × List UInt8 × Receiver :=
  let size :=
    if r.currentReadChunkSize < intOf32 size then (r.currentReadChunkSize % 2 ^ 32).toNat else size
  let (rv, bytes, src) := r.source.read size
  let r := { r with source := src }
  if rv < 0 then (rv, bytes, r)
  else
    let r :=
      { r with
        currentReadChunkSize := r.currentReadChunkSize - rv
        currentReadBodySize :=
          if 0 < r.currentReadBodySize then r.currentReadBodySize - rv
          else r.currentReadBodySize }
    if r.currentReadChunkSize = 0 then
      let (rv2, _, r) := r.readLine
      if rv2 < 0 then (rv2, bytes, r) else (rv, bytes, { r with readMode := .chunkSize })
    else (rv, bytes, r)

/-- `GWEN_SyncIo_Http_ReadBody`. -/
def readBody (r : Receiver) (size : ℕ) : ℤ × List UInt8 × Receiver :=
  let size :=
    if 0 ≤ r.currentReadBodySize ∧ r.currentReadBodySize < intOf32 size then
      r.currentReadBodySize.toNat
    else size
  let (rv, bytes, src) := r.source.read size
  let r := { r with source := src }
  if rv < 0 then (rv, bytes, r)
  else
    let r :=
      { r with
        currentReadBodySize :=
          if 0 ≤ r.currentReadBodySize then r.currentReadBodySize - rv
          else r.currentReadBodySize }
    (rv, bytes, if r.currentReadBodySize = 0 then { r with readMode := .idle } else r)

/-- The part of `GWEN_SyncIo_Http_Read` behind the header. -/
def content (r : Receiver) (size : ℕ) : ℤ × List UInt8 × Receiver :=
  match r.readMode with
  | .chunkSize =>
      let (rv, r) := r.readChunkSize
      if rv < 0 then (rv, [], { r with readMode := .error })
      else if r.currentReadChunkSize = 0 then
        let (rv2, _, r) := r.readLine
        if rv2 < 0 then (rv2, [], r) else (0, [], { r with readMode := .idle })
      else if r.currentReadChunkSize = -1 then (errorBadData, [], { r with readMode := .error })
      else failed ({ r with readMode := .chunk }.readChunk size)
  | .chunk => failed (r.readChunk size)
  | .body => failed (r.readBody size)
  | .error => (errorGeneric, [], r)
  | .idle => (0, [], r)

section Content

variable {r r' : Receiver} {rv : ℤ} (size : ℕ)

theorem content_body (h : r.readMode = .body) : r.content size = failed (r.readBody size) := by
  unfold content
  rw [h]

theorem content_chunk (h : r.readMode = .chunk) : r.content size = failed (r.readChunk size) := by
  unfold content
  rw [h]

theorem content_size_failed (h : r.readMode = .chunkSize) (hsize : r.readChunkSize = (rv, r'))
    (hrv : rv < 0) : r.content size = (rv, [], { r' with readMode := .error }) := by
  unfold content
  rw [h]
  dsimp only
  rw [hsize]
  exact if_pos hrv

theorem content_size_zero (h : r.readMode = .chunkSize) (hsize : r.readChunkSize = (0, r'))
    (hc : r'.currentReadChunkSize = 0) : r.content size =
      if r'.readLine.1 < 0 then (r'.readLine.1, [], r'.readLine.2.2)
      else (0, [], { r'.readLine.2.2 with readMode := .idle }) := by
  unfold content
  rw [h]
  dsimp only
  rw [hsize]
  dsimp only
  rw [if_neg (lt_irrefl (0 : ℤ)), if_pos hc]

theorem content_size_none (h : r.readMode = .chunkSize) (hsize : r.readChunkSize = (0, r'))
    (hc : r'.currentReadChunkSize = -1) :
    r.content size = (errorBadData, [], { r' with readMode := .error }) := by
  unfold content
  rw [h]
  dsimp only
  rw [hsize]
  dsimp only
  rw [if_neg (lt_irrefl (0 : ℤ)), if_neg (by omega), if_pos hc]

theorem content_size (h : r.readMode = .chunkSize) (hsize : r.readChunkSize = (0, r'))
    (hzero : r'.currentReadChunkSize ≠ 0) (hnone : r'.currentReadChunkSize ≠ -1) :
    r.content size = { r' with readMode := .chunk : Receiver }.content size := by
  have hbegun : ({ r' with readMode := .chunk } : Receiver).content size =
      failed ({ r' with readMode := .chunk }.readChunk size) := content_chunk size rfl
  rw [hbegun]
  unfold content
  rw [h]
  dsimp only
  rw [hsize]
  dsimp only
  rw [if_neg (lt_irrefl (0 : ℤ)), if_neg hzero, if_neg hnone]

end Content

end Receiver

/-! ### The loop -/

/-- How the loop ends: by `return`, or by `break` with the last result. -/
inductive Exit where
  | returned (rv : ℤ)
  | left (rv : ℤ)
deriving DecidableEq

/-- The loop of `GWEN_SyncIo_Http_RecvBody` in at most `k` rounds.  `room n` is what is asked for
when `n` bytes have been received, and `received` are these bytes.  The progress is never aborted.
There is no outcome when a read begins the next message. -/
def recvLoop (room : ℕ → ℕ) (contentLength : ℤ) : (k : ℕ) → Receiver → (firstRead : Bool) →
    (bodySize : ℤ) → (received : List UInt8) → Option (Exit × List UInt8)
  | 0, _, _, _, _ => none
  | k + 1, r, firstRead, bodySize, received =>
      if firstRead = false ∧ r.readMode = .idle then none
      else
        let (rv, bytes, r) := r.content (room received.length)
        if rv = 0 then some (.left 0, received)
        else if rv < 0 then
          if rv = errorEof then
            if bodySize ≠ -1 ∧ received.length < bodySize then some (.returned errorEof, received)
            else if bodySize ≠ -1 then some (.left errorEof, received)
            else recvLoop room contentLength k r false bodySize received
          else some (.left rv, received)
        else
          let bodySize := if firstRead then contentLength else bodySize
          let received := received ++ bytes
          if bodySize ≠ -1 ∧ bodySize ≤ received.length then some (.left 0, received)
          else recvLoop room contentLength k r false bodySize received

/-- What is returned behind the loop; `hasData` tells whether there are bytes to ignore an error
for. -/
def Exit.result (code : ℤ) (hasData : Bool) : Exit → ℤ
  | .returned rv => rv
  | .left rv =>
      if rv < 0 then
        if hasData ∧ (rv = errorEof ∨ rv = errorIo ∨ rv = errorSsl) then code else rv
      else code

/-! ### Responses -/

/-- A chunk with the line before it. -/
structure Chunk where
  line : List UInt8
  data : List UInt8
  line_inLine : InLine line
  line_nul_free : 0 ∉ line
  scan : scanHex line = some data.length
  data_ne : data ≠ []

/-- The line of the chunk that ends a body. -/
structure LastLine where
  line : List UInt8
  line_inLine : InLine line
  line_nul_free : 0 ∉ line
  scan : scanHex line = some 0

def encode (last : LastLine) : List Chunk → List UInt8
  | [] => last.line ++ (crlf ++ crlf)
  | c :: cs => c.line ++ (crlf ++ (c.data ++ (crlf ++ encode last cs)))

def chunkData (cs : List Chunk) : List UInt8 := (cs.map Chunk.data).flatten

/-- A part of a line is taken for the size of a chunk. -/
def StartsChunk (s : List UInt8) : Prop := ∃ c ∈ scanHex (withoutCr s), c ≠ 0 ∧ c ≠ -1

/-- The bytes end inside the data of a chunk, or inside a line that is taken for the size of one. -/
def StopsInChunk : List Chunk → List UInt8 → Prop
  | [], s => 10 ∉ s ∧ StartsChunk s
  | c :: cs, s =>
      10 ∉ s ∧ StartsChunk s ∨
      10 ∈ s ∧
        (s.length < c.line.length + 2 + c.data.length ∨
          10 ∈ s.drop (c.line.length + 2 + c.data.length) ∧
            StopsInChunk cs (s.drop (c.line.length + 2 + c.data.length + 2)))

/-! ### Reads of the layer below -/

section Reads

theorem withoutCr_inLine {l : List UInt8} (h : InLine l) : withoutCr (l ++ [13]) = l := by
  rw [withoutCr_append, withoutCr_of_not_mem h.2]
  simp [withoutCr]

theorem Source.readLine_line {src : Source} {l rest : List UInt8} (h : InLine l)
    (hs : src.stream = l ++ (crlf ++ rest)) :
    src.readLine = (0, l, { src with stream := rest }) := by
  have hsplit : src.stream = (l ++ [13]) ++ 10 :: rest := by simp [hs, crlf]
  have hnot : ∀ c ∈ l ++ [13], (c != 10) = true := by
    intro c hc
    rcases List.mem_append.mp hc with hc | hc
    · have hne : c ≠ 10 := fun h10 => h.1 (h10 ▸ hc)
      simpa using hne
    · rw [List.mem_singleton.mp hc]
      decide
  have htake : src.stream.takeWhile (· != 10) = l ++ [13] := by
    rw [hsplit, List.takeWhile_append_of_pos hnot]
    simp
  have hdrop : src.stream.dropWhile (· != 10) = 10 :: rest := by
    rw [hsplit, List.dropWhile_append_of_pos hnot]
    simp
  unfold readLine
  rw [if_pos (by simp [hsplit]), htake, hdrop, withoutCr_inLine h]
  rfl

theorem Source.readLine_cut {src : Source} (h : 10 ∉ src.stream) :
    src.readLine = (if src.eof = true ∨ withoutCr src.stream = [] then errorEof else 0,
      withoutCr src.stream, { src with stream := [] }) := by
  unfold readLine
  rw [if_neg h]

theorem Source.read_end {src : Source} (h : src.stream = []) (size : ℕ) :
    src.read size = (src.endResult, [], src) := by
  unfold read
  rw [if_pos h]

theorem Source.read_piece {src : Source} (h : src.stream ≠ []) {size : ℕ} (hsize : 0 < size) :
    ∃ (piece : List UInt8) (src' : Source), src.stream = piece ++ src'.stream ∧ piece ≠ [] ∧
      piece.length ≤ size ∧ src'.eof = src.eof ∧ src.read size = ((piece.length : ℤ), piece, src') := by
  have hpos := List.length_pos_iff.mpr h
  refine ⟨src.stream.take (max 1 (min (src.cuts src.calls) size)),
    { src with
      calls := src.calls + 1
      stream := src.stream.drop (max 1 (min (src.cuts src.calls) size)) },
    (List.take_append_drop _ _).symm, ?_, ?_, rfl, ?_⟩
  · apply List.ne_nil_of_length_pos
    rw [List.length_take]
    omega
  · rw [List.length_take]
    omega
  · unfold read
    rw [if_neg h]

theorem prefix_line {s l rest : List UInt8} (hl : InLine l) (h : s <+: l ++ (crlf ++ rest)) :
    10 ∉ s ∧ s <+: l ++ [13] ∨ ∃ s', s = l ++ (crlf ++ s') ∧ s' <+: rest := by
  have hline : (l ++ [13]) ++ [10] <+: l ++ (crlf ++ rest) := ⟨rest, by simp [crlf]⟩
  rcases List.prefix_or_prefix_of_prefix h hline with hshort | ⟨s', hlong⟩
  · rcases List.prefix_concat_iff.mp hshort with heq | hshort
    · exact Or.inr ⟨[], by simp [heq, crlf], List.nil_prefix⟩
    · refine Or.inl ⟨fun h10 => ?_, hshort⟩
      have := hshort.subset h10
      simp [hl.1] at this
  · right
    have hs : s = l ++ (crlf ++ s') := by simp [← hlong, crlf]
    rw [hs, List.prefix_append_right_inj, List.prefix_append_right_inj] at h
    exact ⟨s', hs, h⟩

theorem prefix_data {s d rest : List UInt8} (h : s <+: d ++ rest) :
    s.length < d.length ∨ ∃ s', s = d ++ s' ∧ s' <+: rest := by
  rcases List.prefix_or_prefix_of_prefix h (List.prefix_append d rest) with hshort | ⟨s', hlong⟩
  · rcases Nat.lt_or_ge s.length d.length with hlt | hge
    · exact Or.inl hlt
    · have heq := hshort.eq_of_length_le hge
      exact Or.inr ⟨[], by simp [heq], List.nil_prefix⟩
  · right
    rw [← hlong, List.prefix_append_right_inj] at h
    exact ⟨s', hlong.symm, h⟩

end Reads

/-! ### Rounds of the loop -/

/-- The loop ends with an error that is returned. -/
def Exit.Failed : Exit → Prop
  | .returned rv => rv < 0
  | .left rv => rv < 0 ∧ rv ≠ errorEof ∧ rv ≠ errorIo ∧ rv ≠ errorSsl

/-- The loop ends with an error that is returned. -/
def Fails (res : Option (Exit × List UInt8)) : Prop := ∃ e b, res = some (e, b) ∧ e.Failed

section Rounds

variable {room : ℕ → ℕ} {k : ℕ} {r r' : Receiver} {first : Bool} {acc bytes : List UInt8} {rv : ℤ}

theorem recvLoop_zero {length bodySize : ℤ} (hmode : ¬ (first = false ∧ r.readMode = .idle))
    (h : r.content (room acc.length) = (0, bytes, r')) :
    recvLoop room length (k + 1) r first bodySize acc = some (.left 0, acc) := by
  unfold recvLoop
  rw [if_neg hmode, h]
  rfl

theorem recvLoop_error {length bodySize : ℤ} (hmode : ¬ (first = false ∧ r.readMode = .idle))
    (h : r.content (room acc.length) = (rv, bytes, r')) (hrv : rv < 0) (heof : rv ≠ errorEof) :
    recvLoop room length (k + 1) r first bodySize acc = some (.left rv, acc) := by
  unfold recvLoop
  rw [if_neg hmode, h]
  dsimp only
  rw [if_neg hrv.ne, if_pos hrv, if_neg heof]

theorem recvLoop_eof {length : ℤ} (hmode : ¬ (first = false ∧ r.readMode = .idle))
    (h : r.content (room acc.length) = (errorEof, bytes, r')) :
    recvLoop room length (k + 1) r first (-1) acc = recvLoop room length k r' false (-1) acc := by
  rw [recvLoop, if_neg hmode, h]
  dsimp only
  rw [if_neg (by decide), if_pos (by decide), if_pos rfl, if_neg (by simp), if_neg (by simp)]

theorem recvLoop_bytes (hmode : ¬ (first = false ∧ r.readMode = .idle))
    (h : r.content (room acc.length) = ((bytes.length : ℤ), bytes, r')) (hne : bytes ≠ []) :
    recvLoop room (-1) (k + 1) r first (-1) acc =
      recvLoop room (-1) k r' false (-1) (acc ++ bytes) := by
  have hpos := List.length_pos_iff.mpr hne
  rw [recvLoop, if_neg hmode, h]
  dsimp only
  rw [if_neg (by omega), if_neg (by omega), ite_self, if_neg (by simp)]

theorem fails_of_mode {length : ℤ} (h : r.readMode = .error) (hk : 0 < k) :
    Fails (recvLoop room length k r first (-1) acc) := by
  obtain ⟨k, rfl⟩ := Nat.exists_eq_succ_of_ne_zero hk.ne'
  refine ⟨.left errorGeneric, acc, ?_, by decide, by decide, by decide, by decide⟩
  refine @recvLoop_error room k r r first acc [] _ _ _ (by simp [h]) ?_ (by decide) (by decide)
  rw [Receiver.content, h]

theorem fails_of_eof {length : ℤ} (hmode : ¬ (first = false ∧ r.readMode = .idle))
    (h : r.content (room acc.length) = (errorEof, bytes, r')) (herror : r'.readMode = .error)
    (hk : 1 < k) : Fails (recvLoop room length k r first (-1) acc) := by
  obtain ⟨k, rfl⟩ := Nat.exists_eq_succ_of_ne_zero (show k ≠ 0 by omega)
  rw [recvLoop_eof hmode h]
  exact fails_of_mode herror (by omega)

theorem fails_of_badData {length bodySize : ℤ} (hmode : ¬ (first = false ∧ r.readMode = .idle))
    (h : r.content (room acc.length) = (errorBadData, bytes, r')) (hk : 0 < k) :
    Fails (recvLoop room length k r first bodySize acc) := by
  obtain ⟨k, rfl⟩ := Nat.exists_eq_succ_of_ne_zero hk.ne'
  exact ⟨.left errorBadData, acc, recvLoop_error hmode h (by decide) (by decide), by decide,
    by decide, by decide, by decide⟩

end Rounds

/-! ### A body without chunks -/

section Body

variable {room : ℕ → ℕ} {r : Receiver}

theorem content_body_end (hmode : r.readMode = .body) (hs : r.source.stream = []) (size : ℕ) :
    ∃ r', r.content size = (r.source.endResult, [], r') ∧
      (r.source.eof = true → r'.readMode = .error) := by
  rw [Receiver.content_body _ hmode]
  unfold Receiver.readBody
  dsimp only
  rw [Source.read_end hs]
  unfold Source.endResult Receiver.failed
  cases r.source.eof
  · exact ⟨_, rfl, by simp⟩
  · exact ⟨_, rfl, fun _ => rfl⟩

theorem content_body_piece (hmode : r.readMode = .body) (hs : r.source.stream ≠ []) {size : ℕ}
    (hpos : 0 < size) (hsize : size < 2 ^ 31)
    (hleft : r.currentReadBodySize = -1 ∨ 0 < r.currentReadBodySize) :
    ∃ (piece : List UInt8) (r' : Receiver), r.source.stream = piece ++ r'.source.stream ∧
      piece ≠ [] ∧ r'.source.eof = r.source.eof ∧ r.content size = ((piece.length : ℤ), piece, r') ∧
      (r.currentReadBodySize = -1 → r'.currentReadBodySize = -1 ∧ r'.readMode = .body) ∧
      (0 < r.currentReadBodySize → piece.length ≤ r.currentReadBodySize ∧
        r'.currentReadBodySize = r.currentReadBodySize - piece.length ∧
        (r'.currentReadBodySize ≠ 0 → r'.readMode = .body)) := by
  generalize hasked : (if 0 ≤ r.currentReadBodySize ∧ r.currentReadBodySize < intOf32 size then
    r.currentReadBodySize.toNat else size) = asked
  have hint := intOf32_of_lt hsize
  have hasked' : 0 < asked ∧ (0 < r.currentReadBodySize → asked ≤ r.currentReadBodySize) := by
    rw [← hasked]
    split <;> omega
  obtain ⟨piece, src', hsplit, hne, hlen, heof, hread⟩ := Source.read_piece hs hasked'.1
  have hlenpos := List.length_pos_iff.mpr hne
  rw [Receiver.content_body _ hmode]
  unfold Receiver.readBody
  dsimp only
  rw [hasked, hread]
  dsimp only
  rw [if_neg (by omega)]
  unfold Receiver.failed
  dsimp only
  rw [if_neg (by omega)]
  refine ⟨piece, _, ?_, hne, ?_, rfl, ?_, ?_⟩
  · split_ifs <;> exact hsplit
  · split_ifs <;> exact heof
  · intro hminus
    have hnot : ¬ 0 ≤ r.currentReadBodySize := by omega
    simp only [if_neg hnot]
    rw [if_neg (by omega)]
    exact ⟨hminus, hmode⟩
  · intro hsized
    have hle := hasked'.2 hsized
    simp only [if_pos hsized.le]
    refine ⟨by omega, ?_, ?_⟩
    · split <;> rfl
    · intro hrest
      split at hrest
      · rename_i hzero
        exact absurd hzero hrest
      · rw [if_neg (by assumption)]
        exact hmode

/-- A body that ends with the connection: it is received when the end is no error, and an error is
returned otherwise. -/
theorem recvLoop_toEnd (hroom : ∀ n, 0 < room n ∧ room n < 2 ^ 31) : ∀ {k : ℕ} {r : Receiver}
    {acc : List UInt8} {first : Bool}, r.readMode = .body → r.currentReadBodySize = -1 →
    r.source.stream.length + 2 < k →
    (r.source.eof = false →
      recvLoop room (-1) k r first (-1) acc = some (.left 0, acc ++ r.source.stream)) ∧
    (r.source.eof = true → Fails (recvLoop room (-1) k r first (-1) acc))
  | 0, _, _, _, _, _, hk => absurd hk (Nat.not_lt_zero _)
  | k + 1, r, acc, first, hmode, hleft, hk => by
      have hidle : ¬ (first = false ∧ r.readMode = .idle) := by simp [hmode]
      by_cases hs : r.source.stream = []
      · obtain ⟨r', hread, herror⟩ := content_body_end hmode hs (room acc.length)
        refine ⟨fun heof => ?_, fun heof => ?_⟩
        · rw [Source.endResult, heof] at hread
          rw [recvLoop_zero hidle hread, hs, List.append_nil]
        · rw [Source.endResult, heof] at hread
          exact fails_of_eof hidle hread (herror heof) (by omega)
      · obtain ⟨piece, r', hsplit, hne, heof, hread, hminus, -⟩ :=
          content_body_piece hmode hs (hroom acc.length).1 (hroom acc.length).2 (Or.inl hleft)
        have hpos := List.length_pos_iff.mpr hne
        have hlen := congrArg List.length hsplit
        rw [List.length_append] at hlen
        rw [recvLoop_bytes hidle hread hne, hsplit, ← List.append_assoc, ← heof]
        exact recvLoop_toEnd hroom (hminus hleft).2 (hminus hleft).1 (by omega)

theorem recvLoop_sized {k n : ℕ} {r r' : Receiver} {first : Bool} {bodySize : ℤ}
    {acc bytes : List UInt8} (hmode : r.readMode = .body)
    (h : r.content (room acc.length) = ((bytes.length : ℤ), bytes, r')) (hne : bytes ≠ [])
    (hsize : first = false → bodySize = n) :
    recvLoop room n (k + 1) r first bodySize acc =
      if n ≤ (acc ++ bytes).length then some (.left 0, acc ++ bytes)
      else recvLoop room n k r' false n (acc ++ bytes) := by
  have hpos := List.length_pos_iff.mpr hne
  have hn : (if first = true then (n : ℤ) else bodySize) = n := by
    cases first
    · exact hsize rfl
    · rfl
  rw [recvLoop, if_neg (by simp [hmode]), h]
  dsimp only
  rw [if_neg (by omega), if_neg (by omega), hn]
  by_cases hle : n ≤ (acc ++ bytes).length
  · rw [if_pos hle, if_pos ⟨by omega, by omega⟩]
  · rw [if_neg hle, if_neg (by omega)]

/-- A body of known size: what is missing is noticed only when the end is an error. -/
theorem recvLoop_length (hroom : ∀ n, 0 < room n ∧ room n < 2 ^ 31) {n : ℕ} : ∀ {k m : ℕ}
    {r : Receiver} {acc : List UInt8} {first : Bool} {bodySize : ℤ}, r.readMode = .body →
    r.currentReadBodySize = m → 0 < m → n = acc.length + m →
    bodySize = (if first then -1 else (n : ℤ)) → r.source.stream.length + 2 < k →
    (m ≤ r.source.stream.length →
      recvLoop room n k r first bodySize acc =
        some (.left 0, acc ++ r.source.stream.take m)) ∧
    (r.source.stream.length < m →
      (r.source.eof = false →
        recvLoop room n k r first bodySize acc = some (.left 0, acc ++ r.source.stream)) ∧
      (r.source.eof = true → Fails (recvLoop room n k r first bodySize acc)))
  | 0, _, _, _, _, _, _, _, _, _, _, hk => absurd hk (Nat.not_lt_zero _)
  | k + 1, m, r, acc, first, bodySize, hmode, hleft, hm, hn, hsize, hk => by
      have hidle : ¬ (first = false ∧ r.readMode = .idle) := by simp [hmode]
      by_cases hs : r.source.stream = []
      · obtain ⟨r', hread, herror⟩ := content_body_end hmode hs (room acc.length)
        refine ⟨fun hle => ?_, fun _ => ⟨fun heof => ?_, fun heof => ?_⟩⟩
        · rw [hs, List.length_nil] at hle
          omega
        · rw [Source.endResult, heof] at hread
          rw [recvLoop_zero hidle hread, hs, List.append_nil]
        · rw [Source.endResult, heof] at hread
          cases first with
          | true =>
              rw [if_pos rfl] at hsize
              subst hsize
              exact fails_of_eof hidle hread (herror heof) (by omega)
          | false =>
              rw [if_neg (by decide)] at hsize
              refine ⟨.returned errorEof, acc, ?_, show errorEof < 0 by decide⟩
              rw [recvLoop, if_neg hidle, hread]
              dsimp only
              rw [if_neg (by decide), if_pos (by decide), if_pos (by decide),
                if_pos ⟨by omega, by omega⟩]
      · obtain ⟨piece, r', hsplit, hne, heof, hread, -, hsized⟩ :=
          content_body_piece hmode hs (hroom acc.length).1 (hroom acc.length).2
            (Or.inr (by omega))
        obtain ⟨hle, hrest, hmode'⟩ := hsized (by omega)
        have hpos := List.length_pos_iff.mpr hne
        have hlen := congrArg List.length hsplit
        rw [List.length_append] at hlen
        have hnext := @recvLoop_sized room k n r r' first bodySize acc piece hmode hread hne
          (fun hfirst => by rw [hsize, hfirst]; rfl)
        rw [hnext, List.length_append]
        by_cases hlast : piece.length = m
        · rw [if_pos (by omega)]
          refine ⟨fun _ => ?_, fun hlt => absurd hlt (by omega)⟩
          rw [hsplit, ← hlast, List.take_left]
        · have hle' : piece.length ≤ m := by omega
          rw [if_neg (by omega)]
          have ih := @recvLoop_length hroom n k (m - piece.length) r' (acc ++ piece) false n
            (hmode' (by omega)) (by omega) (by omega) (by rw [List.length_append]; omega) rfl
            (by omega)
          rw [hsplit, List.length_append, ← heof]
          refine ⟨fun hall => ?_, fun hmissing => ?_⟩
          · rw [ih.1 (by omega), List.take_append, List.take_of_length_le hle', List.append_assoc]
          · rw [← List.append_assoc]
            exact ih.2 (by omega)

end Body

/-! ### Chunks -/

section Chunks

variable {room : ℕ → ℕ} {r : Receiver}

theorem content_chunk_end (hmode : r.readMode = .chunk) (hs : r.source.stream = [])
    (hc : r.currentReadChunkSize ≠ 0) (size : ℕ) :
    ∃ r', r.content size = (r.source.endResult, [], r') ∧
      (r.source.eof = true → r'.readMode = .error) := by
  rw [Receiver.content_chunk _ hmode]
  unfold Receiver.readChunk
  dsimp only
  rw [Source.read_end hs]
  unfold Source.endResult Receiver.failed
  cases r.source.eof
  · simp [hc]
  · exact ⟨_, rfl, fun _ => rfl⟩

/-- A read takes a part of a chunk; behind its last byte the end of a line is read too. -/
theorem content_chunk_piece (hmode : r.readMode = .chunk) (hs : r.source.stream ≠ []) {size : ℕ}
    (hpos : 0 < size) (hsize : size < 2 ^ 31) {c : ℕ} (hc : r.currentReadChunkSize = c)
    (hc0 : 0 < c) : ∃ (piece : List UInt8) (src' : Source), r.source.stream = piece ++ src'.stream ∧
      piece ≠ [] ∧ piece.length ≤ c ∧ src'.eof = r.source.eof ∧
      (piece.length < c → ∃ r', r.content size = ((piece.length : ℤ), piece, r') ∧
        r'.source = src' ∧ r'.readMode = .chunk ∧
        r'.currentReadChunkSize = (c - piece.length : ℕ)) ∧ (piece.length = c →
        (∀ rest, src'.stream = crlf ++ rest →
          ∃ r', r.content size = ((piece.length : ℤ), piece, r') ∧ r'.readMode = .chunkSize ∧
            r'.source.stream = rest ∧ r'.source.eof = r.source.eof) ∧
        (10 ∉ src'.stream → withoutCr src'.stream = [] →
          ∃ r', r.content size = (errorEof, piece, r') ∧ r'.readMode = .error)) := by
  generalize hasked : (if r.currentReadChunkSize < intOf32 size then
    (r.currentReadChunkSize % 2 ^ 32).toNat else size) = asked
  have hasked' : 0 < asked ∧ asked ≤ c := by
    rw [intOf32_of_lt hsize, hc] at hasked
    rw [← hasked]
    split <;> omega
  obtain ⟨piece, src', hsplit, hne, hlen, heof, hread⟩ := Source.read_piece hs hasked'.1
  have hlenpos := List.length_pos_iff.mpr hne
  refine ⟨piece, src', hsplit, hne, by omega, heof, fun hlt => ?_, fun hall => ⟨fun rest hrest => ?_,
    fun hlf hcr => ?_⟩⟩
  all_goals
    rw [Receiver.content_chunk _ hmode]
    unfold Receiver.readChunk
    dsimp only
    rw [hasked, hread]
    dsimp only
    rw [if_neg (by omega)]
  · rw [if_neg (by omega)]
    unfold Receiver.failed
    dsimp only
    rw [if_neg (by omega)]
    exact ⟨_, rfl, rfl, hmode, by dsimp only; omega⟩
  · rw [if_pos (by omega)]
    have hline : src'.readLine = (0, [], { src' with stream := rest }) :=
      Source.readLine_line ⟨by simp, by simp⟩ hrest
    unfold Receiver.readLine
    dsimp only
    rw [hline]
    unfold Receiver.failed
    dsimp only
    rw [if_neg (lt_irrefl (0 : ℤ)), if_neg (by omega)]
    exact ⟨_, rfl, rfl, rfl, heof⟩
  · rw [if_pos (by omega)]
    unfold Receiver.readLine
    dsimp only
    rw [Source.readLine_cut hlf, if_pos (Or.inr hcr)]
    exact ⟨_, rfl, rfl⟩

theorem recvLoop_chunk_cut (hroom : ∀ n, 0 < room n ∧ room n < 2 ^ 31) : ∀ {k c : ℕ}
    {r : Receiver} {acc : List UInt8} {first : Bool}, r.readMode = .chunk →
    r.currentReadChunkSize = c → r.source.stream.length < c → r.source.stream.length + 2 < k →
    (r.source.eof = false → ∃ b, recvLoop room (-1) k r first (-1) acc = some (.left 0, b)) ∧
    (r.source.eof = true → Fails (recvLoop room (-1) k r first (-1) acc))
  | 0, _, _, _, _, _, _, _, hk => absurd hk (Nat.not_lt_zero _)
  | k + 1, c, r, acc, first, hmode, hc, hlt, hk => by
      have hidle : ¬ (first = false ∧ r.readMode = .idle) := by simp [hmode]
      by_cases hs : r.source.stream = []
      · obtain ⟨r', hread, herror⟩ := content_chunk_end hmode hs (by omega) (room acc.length)
        refine ⟨fun heof => ?_, fun heof => ?_⟩
        · rw [Source.endResult, heof] at hread
          exact ⟨acc, recvLoop_zero hidle hread⟩
        · rw [Source.endResult, heof] at hread
          exact fails_of_eof hidle hread (herror heof) (by omega)
      · obtain ⟨piece, src', hsplit, hne, -, heof, hpart, -⟩ :=
          content_chunk_piece hmode hs (hroom acc.length).1 (hroom acc.length).2 hc (by omega)
        have hpos := List.length_pos_iff.mpr hne
        have hlen := congrArg List.length hsplit
        rw [List.length_append] at hlen
        obtain ⟨r', hread, rfl, hmode', hc'⟩ := hpart (by omega)
        rw [recvLoop_bytes hidle hread hne, ← heof]
        exact recvLoop_chunk_cut hroom hmode' hc' (by omega) (by omega)

theorem recvLoop_chunk (hroom : ∀ n, 0 < room n ∧ room n < 2 ^ 31) {rest : List UInt8} :
    ∀ {k : ℕ} {d : List UInt8} {r : Receiver} {acc : List UInt8} {first : Bool},
    r.readMode = .chunk → r.currentReadChunkSize = d.length → d ≠ [] →
    r.source.stream = d ++ rest → r.source.stream.length + 2 < k →
    (∀ rest', rest = crlf ++ rest' → ∃ k' r', recvLoop room (-1) k r first (-1) acc =
        recvLoop room (-1) k' r' false (-1) (acc ++ d) ∧ r'.readMode = .chunkSize ∧
      r'.source.stream = rest' ∧ r'.source.eof = r.source.eof ∧ k ≤ k' + d.length) ∧
    (10 ∉ rest → withoutCr rest = [] → Fails (recvLoop room (-1) k r first (-1) acc))
  | 0, _, _, _, _, _, _, _, _, hk => absurd hk (Nat.not_lt_zero _)
  | k + 1, d, r, acc, first, hmode, hc, hd, hs, hk => by
      have hidle : ¬ (first = false ∧ r.readMode = .idle) := by simp [hmode]
      have hdpos := List.length_pos_iff.mpr hd
      have hne' : r.source.stream ≠ [] := by
        rw [hs]
        exact fun h => hd (List.append_eq_nil_iff.mp h).1
      obtain ⟨piece, src', hsplit, hne, hle, heof, hpart, hall⟩ :=
        content_chunk_piece hmode hne' (hroom acc.length).1 (hroom acc.length).2 hc hdpos
      have hpos := List.length_pos_iff.mpr hne
      have hpiece : piece <+: d := List.prefix_of_prefix_length_le
        ⟨src'.stream, hsplit.symm⟩ ⟨rest, hs.symm⟩ hle
      obtain ⟨d', rfl⟩ := hpiece
      rw [hs, List.append_assoc] at hsplit
      have hstream := (List.append_cancel_left hsplit).symm
      rw [List.length_append] at hc hle hpart hall
      by_cases hlast : d' = []
      · subst hlast
        obtain ⟨hline, hcut⟩ := hall (by simp)
        rw [List.nil_append] at hstream
        refine ⟨fun rest' hrest => ?_, fun hlf hcr => ?_⟩
        · obtain ⟨r', hread, hmode', hs', heof'⟩ := hline rest' (hstream.trans hrest)
          refine ⟨k, r', ?_, hmode', hs', heof', by simp; omega⟩
          rw [recvLoop_bytes hidle hread hne, List.append_nil]
        · obtain ⟨r', hread, herror⟩ := hcut (hstream ▸ hlf) (by rw [hstream, hcr])
          exact fails_of_eof hidle hread herror (by omega)
      · have hdpos' := List.length_pos_iff.mpr hlast
        obtain ⟨r', hread, rfl, hmode', hc'⟩ := hpart (by omega)
        have hlen := congrArg List.length hs
        rw [List.length_append, List.length_append] at hlen
        have hlen' := congrArg List.length hstream
        rw [List.length_append] at hlen'
        have ih := @recvLoop_chunk hroom rest k d' r' (acc ++ piece) false hmode'
          (by rw [hc']; omega) hlast hstream (by omega)
        rw [recvLoop_bytes hidle hread hne]
        refine ⟨fun rest' hrest => ?_, ih.2⟩
        obtain ⟨k', r'', hrun, hmode'', hs'', heof'', hk'⟩ := ih.1 rest' hrest
        refine ⟨k', r'', ?_, hmode'', hs'', heof''.trans heof, ?_⟩
        · rw [hrun, List.append_assoc]
        · rw [List.length_append]
          omega

/-! ### The lines of chunks -/

theorem scanHex_nil : scanHex [] = none := by decide

theorem readChunkSize_line {l rest : List UInt8} {c : ℤ} (hl : InLine l) (hnul : 0 ∉ l)
    (hscan : scanHex l = some c) (hs : r.source.stream = l ++ (crlf ++ rest)) : r.readChunkSize =
      (0, { r with
        currentReadChunkSize := c
        source := { r.source with stream := rest } }) := by
  have hne : l ≠ [] := by
    rintro rfl
    rw [scanHex_nil] at hscan
    cases hscan
  unfold Receiver.readChunkSize Receiver.readLine
  rw [Source.readLine_line hl hs]
  dsimp only
  rw [CString.ofBytes_bytes hnul, if_neg (by decide), if_neg hne]
  dsimp only
  rw [if_neg (by decide), hscan]

theorem content_line {l rest : List UInt8} {c : ℕ} (hmode : r.readMode = .chunkSize)
    (hl : InLine l) (hnul : 0 ∉ l) (hscan : scanHex l = some c) (hc : c ≠ 0)
    (hs : r.source.stream = l ++ (crlf ++ rest)) (size : ℕ) : r.content size = { r with
        readMode := .chunk
        currentReadChunkSize := c
        source := { r.source with stream := rest } : Receiver }.content size := by
  have hsize := readChunkSize_line hl hnul hscan hs
  have hzero : (c : ℤ) ≠ 0 := by omega
  have hnone : (c : ℤ) ≠ -1 := by omega
  rw [Receiver.content_size size hmode hsize hzero hnone]

variable {first : Bool} {acc : List UInt8}

theorem recvLoop_congr {k : ℕ} {r' : Receiver}
    (hmode : r.readMode ≠ .idle) (hmode' : r'.readMode ≠ .idle)
    (h : ∀ size, r.content size = r'.content size) :
    recvLoop room (-1) k r first (-1) acc = recvLoop room (-1) k r' first (-1) acc := by
  cases k with
  | zero => rfl
  | succ k =>
      have hidle : ¬ (first = false ∧ r.readMode = .idle) := fun hi => hmode hi.2
      have hidle' : ¬ (first = false ∧ r'.readMode = .idle) := fun hi => hmode' hi.2
      unfold recvLoop
      rw [if_neg hidle, if_neg hidle', h]

theorem readLine_end (hlf : 10 ∉ r.source.stream)
    (hend : r.source.eof = true ∨ withoutCr r.source.stream = []) : r.readLine =
      (errorEof, (CString.ofBytes (withoutCr r.source.stream)).bytes,
        { r with source := { r.source with stream := [] } }) := by
  unfold Receiver.readLine
  rw [Source.readLine_cut hlf, if_pos hend]

theorem fails_of_line_end {k : ℕ}
    (hmode : r.readMode = .chunkSize) (hlf : 10 ∉ r.source.stream)
    (hend : r.source.eof = true ∨ withoutCr r.source.stream = []) (hk : 1 < k) :
    Fails (recvLoop room (-1) k r first (-1) acc) := by
  have hsize : r.readChunkSize =
      (errorEof, { r with source := { r.source with stream := [] } }) := by
    unfold Receiver.readChunkSize
    rw [readLine_end hlf hend]
    rfl
  exact fails_of_eof (by simp [hmode]) (Receiver.content_size_failed _ hmode hsize (by decide)) rfl
    hk

theorem readChunkSize_part (hlf : 10 ∉ r.source.stream) (hnul : 0 ∉ r.source.stream)
    (heof : r.source.eof = false) (hne : withoutCr r.source.stream ≠ []) : r.readChunkSize =
      match scanHex (withoutCr r.source.stream) with
      | none => (errorBadData, { r with source := { r.source with stream := [] } })
      | some c =>
          (0, { r with
            currentReadChunkSize := c
            source := { r.source with stream := [] } }) := by
  have hnul' : 0 ∉ withoutCr r.source.stream := fun h => hnul (List.mem_filter.mp h).1
  unfold Receiver.readChunkSize Receiver.readLine
  rw [Source.readLine_cut hlf, if_neg (by simp [heof, hne])]
  dsimp only
  rw [CString.ofBytes_bytes hnul', if_neg (by decide), if_neg hne]
  rfl

theorem fails_of_last_end {k : ℕ} {r' : Receiver}
    (hmode : r.readMode = .chunkSize) (hsize : r.readChunkSize = (0, r'))
    (hmode' : r'.readMode = .chunkSize) (hc : r'.currentReadChunkSize = 0)
    (hlf : 10 ∉ r'.source.stream) (hcr : withoutCr r'.source.stream = []) (hk : 2 < k) :
    Fails (recvLoop room (-1) k r first (-1) acc) := by
  obtain ⟨k, rfl⟩ := Nat.exists_eq_succ_of_ne_zero (show k ≠ 0 by omega)
  have hread := Receiver.content_size_zero (room acc.length) hmode hsize hc
  rw [readLine_end hlf (Or.inr hcr), if_pos (show errorEof < 0 by decide)] at hread
  rw [recvLoop_eof (by simp [hmode]) hread]
  exact fails_of_line_end hmode' (by simp) (Or.inr (by simp [withoutCr])) (by omega)

theorem recvLoop_line_cut {k : ℕ}
    (hmode : r.readMode = .chunkSize) (hlf : 10 ∉ r.source.stream) (hnul : 0 ∉ r.source.stream)
    (hk : 2 < k) : (r.source.eof = false ∧ StartsChunk r.source.stream →
      ∃ b, recvLoop room (-1) k r first (-1) acc = some (.left 0, b)) ∧
    (¬ (r.source.eof = false ∧ StartsChunk r.source.stream) →
      Fails (recvLoop room (-1) k r first (-1) acc)) := by
  by_cases hend : r.source.eof = true ∨ withoutCr r.source.stream = []
  · refine ⟨?_, fun _ => fails_of_line_end hmode hlf hend (by omega)⟩
    rintro ⟨heof, c, hc, -⟩
    rw [hend.resolve_left (by simp [heof]), scanHex_nil] at hc
    cases hc
  push Not at hend
  have heof : r.source.eof = false := by simpa using hend.1
  have hidle : ¬ (first = false ∧ r.readMode = .idle) := by simp [hmode]
  have hsize := readChunkSize_part hlf hnul heof hend.2
  cases hscan : scanHex (withoutCr r.source.stream) with
  | none =>
      rw [hscan] at hsize
      refine ⟨?_, fun _ => fails_of_badData hidle
        (Receiver.content_size_failed _ hmode hsize (by decide)) (by omega)⟩
      rintro ⟨-, c, hc, -⟩
      rw [hscan] at hc
      cases hc
  | some c =>
      rw [hscan] at hsize
      by_cases h0 : c = 0
      · refine ⟨?_, fun _ => fails_of_last_end hmode hsize hmode h0 (by simp) (by simp [withoutCr])
          hk⟩
        rintro ⟨-, c', hc', hne, -⟩
        rw [hscan] at hc'
        exact absurd ((Option.some.inj hc').symm.trans h0) hne
      by_cases h1 : c = -1
      · refine ⟨?_, fun _ => fails_of_badData hidle
          (Receiver.content_size_none _ hmode hsize h1) (by omega)⟩
        rintro ⟨-, c', hc', -, hne⟩
        rw [hscan] at hc'
        exact absurd ((Option.some.inj hc').symm.trans h1) hne
      refine ⟨fun _ => ?_, fun hnot => absurd ⟨heof, c, hscan, h0, h1⟩ hnot⟩
      obtain ⟨k, rfl⟩ := Nat.exists_eq_succ_of_ne_zero (show k ≠ 0 by omega)
      obtain ⟨r', hread, -⟩ := @content_chunk_end { r with
        readMode := .chunk
        currentReadChunkSize := c
        source := { r.source with stream := [] } } rfl rfl h0 (room acc.length)
      rw [Source.endResult, if_neg (by simp [heof])] at hread
      exact ⟨acc, recvLoop_zero hidle
        ((Receiver.content_size _ hmode hsize h0 h1).trans hread)⟩

theorem recvLoop_last {k : ℕ} {last : LastLine}
    {rest : List UInt8} (hmode : r.readMode = .chunkSize)
    (hs : r.source.stream = last.line ++ (crlf ++ rest)) (hk : 2 < k) :
    (∀ rest', rest = crlf ++ rest' → recvLoop room (-1) k r first (-1) acc = some (.left 0, acc)) ∧
    (10 ∉ rest → withoutCr rest = [] → Fails (recvLoop room (-1) k r first (-1) acc)) := by
  have hsize := readChunkSize_line last.line_inLine last.line_nul_free last.scan hs
  refine ⟨fun rest' hrest => ?_, fun hlf hcr => fails_of_last_end hmode hsize hmode rfl hlf hcr hk⟩
  obtain ⟨k, rfl⟩ := Nat.exists_eq_succ_of_ne_zero (show k ≠ 0 by omega)
  have hread := Receiver.content_size_zero (room acc.length) hmode hsize rfl
  unfold Receiver.readLine at hread
  rw [@Source.readLine_line _ [] rest' ⟨by simp, by simp⟩ hrest,
    if_neg (show ¬ (0 : ℤ) < 0 by decide)] at hread
  exact recvLoop_zero (by simp [hmode]) hread

end Chunks

section Framing

variable {room : ℕ → ℕ} {last : LastLine}

theorem nul_free_of_line {s l : List UInt8} (h : s <+: l ++ [13]) (hnul : 0 ∉ l) : 0 ∉ s := by
  intro h0
  have := h.subset h0
  simp [hnul] at this

theorem drop_chunk {l d rest : List UInt8} :
    (l ++ (crlf ++ (d ++ rest))).drop (l.length + 2 + d.length) = rest := by
  have hsplit : l ++ (crlf ++ (d ++ rest)) = (l ++ crlf ++ d) ++ rest := by simp
  have hlen : l.length + 2 + d.length = (l ++ crlf ++ d).length := by simp [crlf]; omega
  rw [hsplit, hlen, List.drop_left]

theorem prefix_crlf {s rest : List UInt8} (h : s <+: crlf ++ rest) :
    10 ∉ s ∧ withoutCr s = [] ∨ ∃ s', s = crlf ++ s' ∧ s' <+: rest := by
  rcases @prefix_line s [] rest ⟨by simp, by simp⟩ h with ⟨hlf, hshort⟩ | ⟨s', hs, hrest⟩
  · refine Or.inl ⟨hlf, ?_⟩
    rcases List.prefix_concat_iff.mp hshort with rfl | hnil
    · decide
    · rw [List.prefix_nil.mp hnil]
      rfl
  · exact Or.inr ⟨s', hs, hrest⟩

/-- Chunks: a body that is complete is received, one that is cut off fails unless it ends inside a
chunk and this end is no error. -/
theorem recvLoop_chunked (hroom : ∀ n, 0 < room n ∧ room n < 2 ^ 31) {tl : List UInt8} :
    ∀ {cs : List Chunk} {k : ℕ} {r : Receiver} {acc : List UInt8} {first : Bool},
    r.readMode = .chunkSize → r.source.stream <+: encode last cs ++ tl →
    r.source.stream.length + 3 < k →
    (encode last cs <+: r.source.stream →
      recvLoop room (-1) k r first (-1) acc = some (.left 0, acc ++ chunkData cs)) ∧
    (¬ encode last cs <+: r.source.stream →
      (r.source.eof = false ∧ StopsInChunk cs r.source.stream →
        ∃ b, recvLoop room (-1) k r first (-1) acc = some (.left 0, b)) ∧
      (¬ (r.source.eof = false ∧ StopsInChunk cs r.source.stream) →
        Fails (recvLoop room (-1) k r first (-1) acc)))
  | [], k, r, acc, first, hmode, hs, hk => by
      rw [encode, List.append_assoc, List.append_assoc] at hs
      rcases prefix_line last.line_inLine hs with ⟨hlf, hshort⟩ | ⟨s', hs', hrest⟩
      · have hcut := @recvLoop_line_cut room r first acc k hmode hlf
          (nul_free_of_line hshort last.line_nul_free) (by omega)
        refine ⟨fun hall => absurd (hall.subset (by simp [encode, crlf])) hlf, fun _ => ?_⟩
        rw [StopsInChunk, and_iff_right hlf]
        exact hcut
      · have hlast := @recvLoop_last room r first acc k last s' hmode hs' (by omega)
        rcases prefix_crlf hrest with ⟨hlf, hcr⟩ | ⟨s'', rfl, -⟩
        · refine ⟨fun hall => ?_, fun _ => ⟨fun hstops => ?_, fun _ => hlast.2 hlf hcr⟩⟩
          · rw [encode, hs', List.prefix_append_right_inj, List.prefix_append_right_inj] at hall
            exact absurd (hall.subset (by simp [crlf])) hlf
          · rw [StopsInChunk, hs'] at hstops
            exact absurd (by simp [crlf]) hstops.2.1
        · refine ⟨fun _ => ?_, fun hnot => absurd ?_ hnot⟩
          · rw [hlast.1 s'' rfl, chunkData, List.map_nil, List.flatten_nil, List.append_nil]
          · exact ⟨s'', by simp [encode, hs']⟩
  | c :: cs, k, r, acc, first, hmode, hs, hk => by
      simp only [encode, List.append_assoc] at hs
      rcases prefix_line c.line_inLine hs with ⟨hlf, hshort⟩ | ⟨s', hs', hrest⟩
      · have hcut := @recvLoop_line_cut room r first acc k hmode hlf
          (nul_free_of_line hshort c.line_nul_free) (by omega)
        refine ⟨fun hall => absurd (hall.subset (by simp [encode, crlf])) hlf, fun _ => ?_⟩
        rw [StopsInChunk, and_iff_right hlf, or_iff_left (fun h => hlf h.1)]
        exact hcut
      · have hdpos := List.length_pos_iff.mpr c.data_ne
        have hlf : 10 ∈ r.source.stream := by simp [hs', crlf]
        generalize hr1 : ({ r with
          readMode := .chunk
          currentReadChunkSize := c.data.length
          source := { r.source with stream := s' } } : Receiver) = r1
        have hmode1 : r1.readMode = .chunk := by rw [← hr1]
        have hc1 : r1.currentReadChunkSize = c.data.length := by rw [← hr1]
        have hs1 : r1.source.stream = s' := by rw [← hr1]
        have heof1 : r1.source.eof = r.source.eof := by rw [← hr1]
        have hrun : recvLoop room (-1) k r first (-1) acc =
            recvLoop room (-1) k r1 first (-1) acc := by
          refine recvLoop_congr (by simp [hmode]) (by simp [hmode1]) fun size => ?_
          rw [content_line hmode c.line_inLine c.line_nul_free c.scan (by omega) hs', hr1]
        have hlen : r.source.stream.length = c.line.length + 2 + s'.length := by
          rw [hs']
          simp [crlf]
          omega
        rw [hrun]
        rcases prefix_data hrest with hshort | ⟨s'', rfl, hrest'⟩
        · have hcut := @recvLoop_chunk_cut room hroom k c.data.length r1 acc first hmode1 hc1
            (by rw [hs1]; exact hshort) (by rw [hs1]; omega)
          rw [heof1] at hcut
          refine ⟨fun hall => ?_, fun _ => ⟨fun hstops => hcut.1 hstops.1, fun hnot => hcut.2 ?_⟩⟩
          · have hle := hall.length_le
            rw [hlen] at hle
            simp [encode, crlf] at hle
            omega
          · have hstops : StopsInChunk (c :: cs) r.source.stream :=
              Or.inr ⟨hlf, Or.inl (by omega)⟩
            simpa [hstops] using hnot
        · have hchunk := @recvLoop_chunk room hroom s'' k c.data r1 acc first hmode1 hc1
            c.data_ne hs1 (by rw [hs1]; omega)
          have hdrop : r.source.stream.drop (c.line.length + 2 + c.data.length) = s'' := by
            rw [hs', drop_chunk]
          have hdrop' : r.source.stream.drop (c.line.length + 2 + c.data.length + 2) =
              s''.drop 2 := by
            rw [← List.drop_drop, hdrop]
          have hlong : ¬ r.source.stream.length < c.line.length + 2 + c.data.length := by
            rw [hlen, List.length_append]
            omega
          have hstops : StopsInChunk (c :: cs) r.source.stream ↔
              10 ∈ s'' ∧ StopsInChunk cs (s''.drop 2) := by
            rw [StopsInChunk, hdrop, hdrop']
            simp [hlf, hlong]
          rcases prefix_crlf hrest' with ⟨hlf'', hcr⟩ | ⟨s3, rfl, hrest3⟩
          · refine ⟨fun hall => ?_, fun _ => ⟨fun h => ?_, fun _ => hchunk.2 hlf'' hcr⟩⟩
            · rw [encode, hs'] at hall
              simp only [List.prefix_append_right_inj] at hall
              exact absurd (hall.subset (by simp [crlf])) hlf''
            · exact absurd (hstops.mp h.2).1 hlf''
          · obtain ⟨k', r2, hrun2, hmode2, hs2, heof2, hk2⟩ := hchunk.1 s3 rfl
            have ih := @recvLoop_chunked hroom tl cs k' r2 (acc ++ c.data) false hmode2
              (by rw [hs2]; exact hrest3) (by
                rw [hs2]
                rw [hlen] at hk
                simp [crlf] at hk
                omega)
            have hall : encode last (c :: cs) <+: r.source.stream ↔
                encode last cs <+: r2.source.stream := by
              rw [encode, hs', hs2]
              simp only [List.prefix_append_right_inj]
            have hstops' : StopsInChunk (c :: cs) r.source.stream ↔
                StopsInChunk cs r2.source.stream := by
              rw [hstops, hs2]
              simp [crlf]
            rw [hall, hstops', hrun2, ← heof1, ← heof2]
            simpa [chunkData] using ih

end Framing

/-! ### Responses as a whole -/

/-- The body of a response and how its end is told: by `Content-Length`, by chunks or by the end of
the connection. -/
inductive Response where
  | length (body : List UInt8) (fits : body.length < 2 ^ 31)
  | chunked (chunks : List Chunk) (last : LastLine)
  | toEnd (body : List UInt8)

namespace Response

def body : Response → List UInt8
  | .length body _ => body
  | .chunked chunks _ => chunkData chunks
  | .toEnd body => body

/-- The bytes behind the header. -/
def sent : Response → List UInt8
  | .length body _ => body
  | .chunked chunks last => encode last chunks
  | .toEnd body => body

/-- The value of `Content-Length`, or the default. -/
def contentLength : Response → ℤ
  | .length body _ => body.length
  | _ => -1

/-- The reader behind the header of the response. -/
def receiver (resp : Response) (src : Source) : Receiver :=
  match resp with
  | .length body _ => ⟨if body = [] then .idle else .body, -1, body.length, src⟩
  | .chunked _ _ => ⟨.chunkSize, -1, -1, src⟩
  | .toEnd _ => ⟨.body, -1, -1, src⟩

/-- The bytes that a connection can deliver: a part of what is sent, or all of it and more.  A body
that ends with the connection is what is delivered. -/
def Delivers (resp : Response) (s : List UInt8) : Prop :=
  match resp with
  | .toEnd body => s = body
  | resp => ∃ tl, s <+: resp.sent ++ tl

def EndsWell (resp : Response) (src : Source) : Prop :=
  match resp with
  | .length body _ => body <+: src.stream ∨ src.eof = true
  | .chunked chunks last =>
      encode last chunks <+: src.stream ∨ ¬ (src.eof = false ∧ StopsInChunk chunks src.stream)
  | .toEnd _ => src.eof = false

end Response

/-- What the receiving functions have in common: the loop behind the header and the result. -/
def recv (room : ℕ → ℕ) (hasData : List UInt8 → Bool) (code : ℤ) (resp : Response)
    (src : Source) : Option (ℤ × List UInt8) :=
  (recvLoop room resp.contentLength (src.stream.length + 4) (resp.receiver src) true (-1) []).map
    fun (e, received) => (e.result code (hasData received), received)

/-- `GWEN_SyncIo_Http_RecvBody` with the bytes of `buf`: its result, and the bytes that are
appended. -/
def recvBody (room : ℕ → ℕ) (buf : List UInt8) : ℤ → Response → Source → Option (ℤ × List UInt8) :=
  recv room fun received => buf ++ received != []

/-- `GWEN_SyncIo_Http_RecvBodyToSio`: its result, and the bytes that are written. -/
def recvBodyToSio : ℤ → Response → Source → Option (ℤ × List UInt8) :=
  recv (fun _ => 1023) fun received => received != []

/-- A body that is complete is accepted, and an error is returned for any other. -/
def Settles (f : ℤ → Response → Source → Option (ℤ × List UInt8)) (code : ℤ) (resp : Response)
    (src : Source) : Prop :=
  (resp.sent <+: src.stream → f code resp src = some (code, resp.body)) ∧
    (¬ resp.sent <+: src.stream → ∃ rv received, f code resp src = some (rv, received) ∧ rv < 0)

section Settling

variable {room : ℕ → ℕ} {hasData : List UInt8 → Bool} {code : ℤ} {resp : Response} {src : Source}

theorem recv_left {received : List UInt8}
    (h : recvLoop room resp.contentLength (src.stream.length + 4) (resp.receiver src) true (-1) []
      = some (.left 0, received)) : recv room hasData code resp src = some (code, received) := by
  unfold recv
  rw [h]
  rfl

theorem Exit.result_neg {e : Exit} (h : e.Failed) (has : Bool) : e.result code has < 0 := by
  cases e with
  | returned rv => exact h
  | left rv =>
      obtain ⟨hrv, hother⟩ := h
      have hnot : ¬ (has = true ∧ (rv = errorEof ∨ rv = errorIo ∨ rv = errorSsl)) := by
        simp [hother]
      unfold result
      dsimp only
      rw [if_pos hrv, if_neg hnot]
      exact hrv

theorem recv_fails
    (h : Fails (recvLoop room resp.contentLength (src.stream.length + 4) (resp.receiver src) true
      (-1) [])) :
    ∃ rv received, recv room hasData code resp src = some (rv, received) ∧ rv < 0 := by
  obtain ⟨e, received, hrun, hfailed⟩ := h
  refine ⟨e.result code (hasData received), received, ?_, Exit.result_neg hfailed _⟩
  unfold recv
  rw [hrun]
  rfl

theorem not_settles_of_left {received : List UInt8} (hcode : 0 ≤ code)
    (hpart : ¬ resp.sent <+: src.stream)
    (h : recvLoop room resp.contentLength (src.stream.length + 4) (resp.receiver src) true (-1) []
      = some (.left 0, received)) : ¬ Settles (recv room hasData) code resp src := by
  rintro ⟨-, hneg⟩
  obtain ⟨rv, b, hrun, hrv⟩ := hneg hpart
  rw [recv_left h] at hrun
  cases hrun
  omega

theorem settles_length (hroom : ∀ n, 0 < room n ∧ room n < 2 ^ 31) (hcode : 0 ≤ code)
    {body : List UInt8} {fits : body.length < 2 ^ 31}
    (hs : (Response.length body fits).Delivers src.stream) :
    Settles (recv room hasData) code (.length body fits) src ↔
      (Response.length body fits).EndsWell src := by
  obtain ⟨tl, htl⟩ := hs
  by_cases hbody : body = []
  · subst hbody
    refine ⟨fun _ => Or.inl List.nil_prefix, fun _ => ⟨fun _ => recv_left ?_, fun hnot => ?_⟩⟩
    · exact recvLoop_zero (by simp) rfl
    · exact absurd List.nil_prefix hnot
  have hpos := List.length_pos_iff.mpr hbody
  have hloop := @recvLoop_length room hroom body.length (src.stream.length + 4) body.length
    ((Response.length body fits).receiver src) [] true (-1) (if_neg hbody) rfl hpos (by simp) rfl
    (by simp [Response.receiver])
  rcases prefix_data htl with hshort | ⟨s', hs', -⟩
  · change src.stream.length < body.length at hshort
    have hpart : ¬ body <+: src.stream := fun h => absurd h.length_le (by omega)
    have hcut := hloop.2 hshort
    cases heof : src.eof with
    | false =>
        refine ⟨fun h => absurd h (not_settles_of_left hcode hpart (hcut.1 heof)), fun h => ?_⟩
        exact absurd h (by simp [Response.EndsWell, hpart, heof])
    | true =>
        exact ⟨fun _ => Or.inr heof, fun _ => ⟨fun h => absurd h hpart,
          fun _ => recv_fails (hcut.2 heof)⟩⟩
  · change src.stream = body ++ s' at hs'
    have hall : body <+: src.stream := ⟨s', hs'.symm⟩
    refine ⟨fun _ => Or.inl hall, fun _ => ⟨fun _ => recv_left ?_, fun hnot => absurd hall hnot⟩⟩
    have htake : src.stream.take body.length = body := by
      rw [hs', List.take_left]
    exact (hloop.1 hall.length_le).trans (congrArg (fun b => some (Exit.left 0, b)) htake)

theorem settles_chunked (hroom : ∀ n, 0 < room n ∧ room n < 2 ^ 31) (hcode : 0 ≤ code)
    {chunks : List Chunk} {last : LastLine}
    (hs : (Response.chunked chunks last).Delivers src.stream) :
    Settles (recv room hasData) code (.chunked chunks last) src ↔
      (Response.chunked chunks last).EndsWell src := by
  obtain ⟨tl, htl⟩ := hs
  obtain ⟨hall, hcut⟩ := @recvLoop_chunked room last hroom tl chunks (src.stream.length + 4)
    ((Response.chunked chunks last).receiver src) [] true rfl htl (by simp [Response.receiver])
  by_cases hcomplete : encode last chunks <+: src.stream
  · exact ⟨fun _ => Or.inl hcomplete, fun _ => ⟨fun _ => recv_left (hall hcomplete),
      fun hnot => absurd hcomplete hnot⟩⟩
  · obtain ⟨hstops, hfails⟩ := hcut hcomplete
    by_cases h : src.eof = false ∧ StopsInChunk chunks src.stream
    · obtain ⟨received, hrun⟩ := hstops h
      refine ⟨fun hsettles => absurd hsettles (not_settles_of_left hcode hcomplete hrun),
        fun hends => ?_⟩
      exact absurd h (hends.resolve_left hcomplete)
    · exact ⟨fun _ => Or.inr h, fun _ => ⟨fun hcomplete' => absurd hcomplete' hcomplete,
        fun _ => recv_fails (hfails h)⟩⟩

theorem settles_toEnd (hroom : ∀ n, 0 < room n ∧ room n < 2 ^ 31) (hcode : 0 ≤ code)
    {body : List UInt8} (hs : (Response.toEnd body).Delivers src.stream) :
    Settles (recv room hasData) code (.toEnd body) src ↔ (Response.toEnd body).EndsWell src := by
  change src.stream = body at hs
  subst hs
  obtain ⟨hzero, herror⟩ := @recvLoop_toEnd room hroom (src.stream.length + 4)
    ((Response.toEnd src.stream).receiver src) [] true rfl rfl (by simp [Response.receiver])
  cases heof : src.eof with
  | false =>
      exact ⟨fun _ => heof, fun _ => ⟨fun _ => recv_left (hzero heof),
        fun hnot => absurd (List.prefix_refl _) hnot⟩⟩
  | true =>
      refine ⟨fun h => ?_, fun h => absurd (heof.symm.trans h) (by decide)⟩
      obtain ⟨rv, received, hrun, hrv⟩ := @recv_fails room hasData code _ _ (herror heof)
      rw [h.1 (List.prefix_refl _)] at hrun
      cases hrun
      omega

theorem settles_recv (hroom : ∀ n, 0 < room n ∧ room n < 2 ^ 31) (hcode : 0 ≤ code)
    (hs : resp.Delivers src.stream) :
    Settles (recv room hasData) code resp src ↔ resp.EndsWell src := by
  cases resp with
  | length body fits => exact settles_length hroom hcode hs
  | chunked chunks last => exact settles_chunked hroom hcode hs
  | toEnd body => exact settles_toEnd hroom hcode hs

end Settling

/-- Both functions settle a response, however its bytes are cut, exactly when the end of the bytes
is told from the end of the body. -/
theorem receives_iff {room : ℕ → ℕ} (hroom : ∀ n, 0 < room n ∧ room n < 2 ^ 31)
    (buf : List UInt8) {code : ℤ} (hcode : 200 ≤ code ∧ code < 300) {resp : Response}
    {src : Source} (hs : resp.Delivers src.stream) :
    (Settles (recvBody room buf) code resp src ↔ resp.EndsWell src) ∧
      (Settles recvBodyToSio code resp src ↔ resp.EndsWell src) :=
  ⟨settles_recv hroom (by omega) hs, settles_recv (fun _ => by decide) (by omega) hs⟩

def byteSource (stream : List UInt8) (eof : Bool) : Source := ⟨stream, fun _ => 1, 0, eof⟩

theorem receives_two : Settles (recvBody (fun _ => 1024) []) 200 (.length [97, 98] (by decide))
        (byteSource [97, 98] true) ∧
      Settles recvBodyToSio 200 (.length [97, 98] (by decide)) (byteSource [97, 98] true) :=
  have h := @receives_iff (fun _ => 1024) (fun _ => by decide) [] 200 (by decide)
    (.length [97, 98] (by decide)) (byteSource [97, 98] true) ⟨[], List.prefix_refl _⟩
  ⟨h.1.mpr (Or.inr rfl), h.2.mpr (Or.inr rfl)⟩

/-- A body of two bytes of which one has arrived is accepted, and a body that ends with the
connection is not accepted when its end is reported by an error. -/
theorem not_receives_cut :
    recvBody (fun _ => 1024) [] 200 (.length [97, 98] (by decide)) (byteSource [97] false) =
        some (200, [97]) ∧
      ¬ Settles (recvBody (fun _ => 1024) []) 200 (.length [97, 98] (by decide))
        (byteSource [97] false) ∧
      recvBody (fun _ => 1024) [] 200 (.toEnd [97]) (byteSource [97] true) =
        some (errorGeneric, [97]) := by
  have hrun : recvBody (fun _ => 1024) [] 200 (.length [97, 98] (by decide))
      (byteSource [97] false) = some (200, [97]) := by decide
  refine ⟨hrun, fun h => ?_, by decide⟩
  obtain ⟨rv, received, hrun', hrv⟩ := h.2 (by decide)
  rw [hrun] at hrun'
  cases hrun'
  omega
end Gwenhywfar.Http
