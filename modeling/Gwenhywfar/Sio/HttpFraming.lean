import Gwenhywfar.Sio.HttpReading

/-! # Messages with a `Content-Length`

* `HttpWriter.writes_message`: the bytes that a run of writes emits for a message.
* `HttpReader.reads_message`: what a run of reads delivers of these bytes.
* `content_length_round_trip`: the body arrives as it was written, and the reader takes the bytes
  of this message only.  With chunks this fails (`chunked_fails`): nothing follows the bytes of a
  chunk that is written, where the reader expects the end of a line. -/

namespace Gwenhywfar

set_option maxRecDepth 4000

namespace Http

open Text SyncIoBuffered

/-! ### Writing a message -/

namespace HttpWriter

/-- The layer below takes everything. -/
def Steady (w : HttpWriter) : Prop := ∀ i, w.results i = none

/-- The first line without its end. -/
def firstText (w : HttpWriter) : List UInt8 :=
  if w.passive then statusText w.dbStatusOut (w.dbStatusOut.code.getD (-1))
  else commandText w.dbCommandOut

/-- The bytes in front of the body. -/
def head (w : HttpWriter) : List UInt8 := w.firstText ++ (crlf ++ headerBytes w.dbHeaderOut)

/-- A message whose texts do not end their lines, which is not one of `HTTP/0.9`, and whose head
fits into a buffer. -/
structure Plain (w : HttpWriter) : Prop where
  command : w.passive = false → w.dbCommandOut.Plain
  status : w.passive = true → w.dbStatusOut.Plain
  withHeader : (textOr w.dbCommandOut.protocol protocol10).map toLower ≠ protocol09.map toLower
  withHeaderStatus : w.passive = true →
    (textOr w.dbStatusOut.protocol protocol10).map toLower ≠ protocol09.map toLower
  header : PlainHeader w.dbHeaderOut
  fits : w.head.length < 2 ^ 24 - 2 ^ 11

/-- A message can begin. -/
structure Ready (w : HttpWriter) : Prop where
  connected : w.connected = true
  mode : w.writeMode = .idle
  steady : w.Steady

/-- So many bytes of a body are to be written; when there are none the writer is idle. -/
structure Sending (w : HttpWriter) (n : ℕ) : Prop where
  connected : w.connected = true
  steady : w.Steady
  mode : w.writeMode = if n = 0 then .idle else .body
  size : n ≠ 0 → w.currentWriteBodySize = n
  fits : n < 2 ^ 31

variable {w : HttpWriter}

theorem writeForced_steady (hs : w.Steady) {buffer : List UInt8} (h : buffer.length < 2 ^ 31) :
    w.writeForced buffer =
      ((buffer.length : ℤ), { w with calls := w.calls + 1, written := w.written ++ buffer }) := by
  rw [writeForced, hs]
  dsimp only
  rw [intOf32_of_lt h]

/-- The line in front of the header. -/
theorem writeFirst_spec (hplain : w.Plain) (hs : w.Steady) :
    (if w.passive then w.writeStatus else w.writeCommand) =
      (0, { w with calls := w.calls + 1, written := w.written ++ (w.firstText ++ crlf) }) := by
  have hfits := hplain.fits
  rw [head, List.length_append, List.length_append] at hfits
  have hlen : (w.firstText ++ crlf).length < 2 ^ 31 := by
    rw [List.length_append]
    omega
  by_cases hp : w.passive = true
  · obtain ⟨i, hi, hi0⟩ := (hplain.status hp).numbered
    have hne : i ≠ -1 := by
      rintro rfl
      exact absurd hi0 (by decide)
    have hline : statusLine w.dbStatusOut i = w.firstText ++ crlf := by
      rw [firstText, if_pos hp, hi]
      rfl
    rw [if_pos hp, writeStatus, hi]
    dsimp only [Option.getD_some]
    rw [if_neg hne, hline, writeForced_steady hs hlen]
    dsimp only
    rw [if_neg (by omega)]
  · have hline : commandLine w.dbCommandOut = w.firstText ++ crlf := by
      rw [firstText, if_neg hp]
      rfl
    rw [if_neg hp, writeCommand, hline, writeForced_steady hs hlen]
    dsimp only
    rw [if_neg (by omega)]

theorem writeHeader_spec (hheader : PlainHeader w.dbHeaderOut) (hs : w.Steady)
    (hc : w.connected = true) (hfits : (headerBytes w.dbHeaderOut).length < 2 ^ 31) {n : Int32}
    {size : ℕ} (hn : getIntValue w.dbHeaderOut contentLength (-1) = n) (hsize : n.toInt = size) :
    ∃ w', w.writeHeader = (0, w') ∧ w'.Sending size ∧
      w'.written = w.written ++ headerBytes w.dbHeaderOut := by
  have hlt := n.toInt_lt
  have hchunks : w.dbHeaderOut.any asksForChunks = false := by
    rw [List.any_eq_false]
    exact fun v hv => by rw [not_asksForChunks (hheader v hv).2]; decide
  have htext := headerText_eq fun v hv => (hheader v hv).1
  generalize hw1 : ({ w with
    writeMode := .body
    currentWriteBodySize := size } : HttpWriter) = w1
  have hs1 : w1.Steady := by rw [← hw1]; exact hs
  have hbody : w1.writeMode = .body ∧ w1.currentWriteBodySize = size ∧ w1.connected = true ∧
      w1.written = w.written := by
    rw [← hw1]
    exact ⟨rfl, rfl, hc, rfl⟩
  have hheaderRun : w.writeHeader =
      (0, if (size : ℤ) = 0 then
          { w1 with
            calls := w1.calls + 1
            written := w1.written ++ headerBytes w.dbHeaderOut }.setWriteIdle
        else { w1 with
          calls := w1.calls + 1
          written := w1.written ++ headerBytes w.dbHeaderOut }) := by
    rw [writeHeader, hchunks, htext, hn, hsize]
    dsimp only
    rw [if_neg Bool.false_ne_true, hw1, ← headerBytes, writeForced_steady hs1 hfits]
    dsimp only
    rw [if_neg (by omega), hbody.2.1]
  rw [hheaderRun]
  by_cases h0 : size = 0
  · rw [if_pos (by omega)]
    exact ⟨_, rfl, ⟨hbody.2.2.1, hs1, (if_pos h0).symm, fun hne => absurd h0 hne, by omega⟩,
      congrArg (· ++ _) hbody.2.2.2⟩
  · rw [if_neg (by omega)]
    exact ⟨_, rfl, ⟨hbody.2.2.1, hs1, hbody.1.trans (if_neg h0).symm, fun _ => hbody.2.1, by omega⟩,
      congrArg (· ++ _) hbody.2.2.2⟩

theorem startMessage_spec (hplain : w.Plain) (hw : w.Ready) {n : Int32} {size : ℕ}
    (hn : getIntValue w.dbHeaderOut contentLength (-1) = n) (hsize : n.toInt = size) :
    ∃ w', w.startMessage = (0, w') ∧ w'.Sending size ∧ w'.written = w.written ++ w.head := by
  have hfits := hplain.fits
  rw [head, List.length_append, List.length_append] at hfits
  generalize hw1 : ({ w with
    calls := w.calls + 1
    written := w.written ++ (w.firstText ++ crlf) } : HttpWriter) = w1
  have hfirst := writeFirst_spec hplain hw.steady
  rw [hw1] at hfirst
  have hheader : w1.dbHeaderOut = w.dbHeaderOut := by rw [← hw1]
  have hcommand : w1.dbCommandOut = w.dbCommandOut := by rw [← hw1]
  obtain ⟨w', hrun, hsending, hwritten⟩ := @writeHeader_spec w1 (hheader ▸ hplain.header)
    (by rw [← hw1]; exact hw.steady) (by rw [← hw1]; exact hw.connected)
    (by rw [hheader]; omega) n size (by rw [hheader]; exact hn) hsize
  refine ⟨w', ?_, hsending, ?_⟩
  · rw [startMessage, hfirst]
    dsimp only
    rw [if_neg (by decide), hcommand, if_neg hplain.withHeader, hrun]
    rfl
  · rw [hwritten, hheader, head, ← hw1]
    simp only [List.append_assoc]

/-- A write emits a part of the body. -/
theorem writeContent_body {n : ℕ} (h : w.Sending n) {buffer : List UInt8} (hne : buffer ≠ [])
    (hle : buffer.length ≤ n) : ∃ w', w.writeContent buffer = ((buffer.length : ℤ), w') ∧
      w'.Sending (n - buffer.length) ∧ w'.written = w.written ++ buffer := by
  have hlen := List.length_pos_iff.mpr hne
  have hfits := h.fits
  have hsize := h.size (by omega)
  have hmode : w.writeMode = .body := h.mode.trans (if_neg (by omega))
  rw [writeContent, hmode]
  dsimp only
  rw [writeBody, if_neg (by rw [intOf32_of_lt (by omega)]; omega),
    writeForced_steady h.steady (by omega)]
  dsimp only
  rw [if_neg (by omega), if_pos (by omega), hsize]
  by_cases h0 : n - buffer.length = 0
  · rw [if_pos (by omega)]
    exact ⟨_, rfl, ⟨h.connected, h.steady, (if_pos h0).symm, fun hne => absurd h0 hne, by omega⟩,
      rfl⟩
  · rw [if_neg (by omega)]
    exact ⟨_, rfl, ⟨h.connected, h.steady, hmode.trans (if_neg h0).symm,
      fun _ => by dsimp only; omega, by omega⟩, rfl⟩

theorem write_of_sending {n : ℕ} (h : w.Sending n) (hn : n ≠ 0) (buffer : List UInt8) :
    w.write buffer = w.writeContent buffer := by
  rw [write, if_pos h.connected, if_neg]
  rw [h.mode, if_neg hn]
  decide

theorem writes_body : ∀ {buffers : List (List UInt8)} {w : HttpWriter},
    w.Sending buffers.flatten.length → (∀ b ∈ buffers, b ≠ []) →
    ∃ w', w.writes buffers = (buffers.map fun b => (b.length : ℤ), w') ∧ w'.Sending 0 ∧
      w'.written = w.written ++ buffers.flatten
  | [], w, h, _ => ⟨w, rfl, h, (List.append_nil _).symm⟩
  | b :: buffers, w, h, hne => by
      have hb := hne b List.mem_cons_self
      have hlen := List.length_pos_iff.mpr hb
      rw [List.flatten_cons, List.length_append] at h
      obtain ⟨w1, hrun1, hsending1, hwritten1⟩ := writeContent_body h hb (by omega)
      rw [Nat.add_sub_cancel_left] at hsending1
      obtain ⟨w', hrun, hsending, hwritten⟩ :=
        writes_body hsending1 fun b hb => hne b (List.mem_cons_of_mem _ hb)
      refine ⟨w', ?_, hsending, ?_⟩
      · rw [writes, write_of_sending h (by omega), hrun1]
        dsimp only
        rw [hrun, List.map_cons]
      · rw [hwritten, hwritten1, List.flatten_cons, List.append_assoc]

/-- The writes of a message: one of nothing, or buffers that are not empty. -/
def Buffers (buffers : List (List UInt8)) : Prop :=
  buffers = [[]] ∨ buffers ≠ [] ∧ ∀ b ∈ buffers, b ≠ []

/-- The writes of a message emit its head and its body. -/
theorem writes_message (hplain : w.Plain) (hw : w.Ready) {n : Int32} {buffers : List (List UInt8)}
    (hn : getIntValue w.dbHeaderOut contentLength (-1) = n)
    (hsize : n.toInt = buffers.flatten.length) (hbuffers : Buffers buffers) :
    ∃ w', w.writes buffers = (buffers.map fun b => (b.length : ℤ), w') ∧ w'.Ready ∧
      w'.written = w.written ++ (w.head ++ buffers.flatten) := by
  obtain ⟨w1, hstart, hsending, hwritten1⟩ := startMessage_spec hplain hw hn hsize
  have hwrite : ∀ b, w.write b = w1.writeContent b := by
    intro b
    rw [write, if_pos hw.connected, if_pos hw.mode, hstart]
    dsimp only
    rw [if_neg (by decide)]
  rcases hbuffers with rfl | ⟨hne, hall⟩
  · have hmode : w1.writeMode = .idle := hsending.mode
    refine ⟨w1, ?_, ⟨hsending.connected, hmode, hsending.steady⟩, ?_⟩
    · rw [writes, hwrite, writeContent, hmode]
      rfl
    · rw [hwritten1]
      exact congrArg _ (List.append_nil _).symm
  · obtain ⟨b, buffers, rfl⟩ := List.exists_cons_of_ne_nil hne
    have hb := List.length_pos_iff.mpr (hall b List.mem_cons_self)
    obtain ⟨w', hrun, hsending', hwritten⟩ := writes_body hsending hall
    refine ⟨w', ?_, ⟨hsending'.connected, hsending'.mode, hsending'.steady⟩, ?_⟩
    · rw [← hrun, writes, writes, hwrite, write_of_sending hsending]
      rw [List.flatten_cons, List.length_append]
      omega
    · rw [hwritten, hwritten1, List.append_assoc]

end HttpWriter

/-! ### Reading a message -/

namespace HttpReader

/-- A message can begin. -/
structure Ready (r : HttpReader) : Prop where
  connected : r.connected = true
  mode : r.readMode = .idle
  steady : r.base.base.Steady

variable {r : HttpReader} {body tl : List UInt8} {room : ℕ → ℕ}

theorem startMessage_spec {w : HttpWriter} (hplain : w.Plain) {n : Int32}
    (hn : getIntValue w.dbHeaderOut contentLength (-1) = n) (hsize : n.toInt = body.length)
    (hr : r.Ready) (hpassive : r.passive = !w.passive) (hroom : ∀ n, 2 ≤ room n)
    (hrest : Rest r.base (w.head ++ (body ++ tl))) :
    ∃ r', r.startMessage room = some (0, r') ∧ r'.Receiving body tl ∧ r'.passive = r.passive := by
  have hlt := n.toInt_lt
  generalize hr1 : ({ r with
    dbCommandIn := ⟨none, none, none⟩
    dbStatusIn := ⟨none, none, none⟩
    dbHeaderIn := [] } : HttpReader) = r1
  have hbase : r1.base = r.base := by rw [← hr1]
  have hconnected : r1.connected = true := by rw [← hr1]; exact hr.connected
  have hpassive1 : r1.passive = r.passive := by rw [← hr1]
  have hsteady : r1.base.base.Steady := by rw [hbase]; exact hr.steady
  have hrest1 : Rest r1.base (w.firstText ++ (crlf ++ (headerBytes w.dbHeaderOut ++ (body ++ tl)))) := by
    rw [hbase]
    rwa [HttpWriter.head, List.append_assoc, List.append_assoc] at hrest
  have hfirst : ∃ r2, (if r1.passive then r1.readCommand room else r1.readStatus room) =
        some (0, r2) ∧
      (textOr (if r2.passive then r2.dbCommandIn.protocol else r2.dbStatusIn.protocol)
        protocol10).map toLower ≠ protocol09.map toLower ∧
      Rest r2.base (headerBytes w.dbHeaderOut ++ (body ++ tl)) ∧ r2.base.base.Steady ∧
      r2.connected = true ∧ r2.passive = r.passive := by
    cases hw : w.passive with
    | false =>
        rw [hw] at hpassive
        rw [HttpWriter.firstText, hw, if_neg (by decide)] at hrest1
        obtain ⟨base', db', hrun, hprotocol, hrest', hres⟩ :=
          readCommand_spec (hplain.command hw) hroom hsteady hrest1
        have hpos : r1.passive = true := hpassive1.trans hpassive
        refine ⟨_, (if_pos hpos).trans hrun, ?_, hrest', steady_congr hsteady hres, hconnected,
          hpassive1⟩
        dsimp only
        rw [if_pos hpos, hprotocol]
        exact hplain.withHeader
    | true =>
        rw [hw] at hpassive
        obtain ⟨i, hi, hi0⟩ := (hplain.status hw).numbered
        rw [HttpWriter.firstText, hw, if_pos rfl, hi, Option.getD_some] at hrest1
        obtain ⟨base', db', hrun, hprotocol, hrest', hres⟩ :=
          readStatus_spec (hplain.status hw) hi0 hroom hsteady hrest1
        have hneg : ¬ r1.passive = true := by rw [hpassive1, hpassive]; decide
        refine ⟨_, (if_neg hneg).trans hrun, ?_, hrest', steady_congr hsteady hres, hconnected,
          hpassive1⟩
        dsimp only
        rw [if_neg hneg, hprotocol]
        exact hplain.withHeaderStatus hw
  obtain ⟨r2, hrun2, hprotocol, hrest2, hsteady2, hconnected2, hpassive2⟩ := hfirst
  obtain ⟨base', hrun, hrest', hres⟩ :=
    readHeader_spec hplain.header hn (by omega) hsteady2 hrest2
  have hmode : n.toInt = 0 ↔ body = [] := by
    rw [hsize, ← List.length_eq_zero_iff]
    omega
  rw [startMessage, hr1]
  dsimp only
  rw [hrun2, Option.bind_some]
  dsimp only
  rw [if_neg (by decide), if_neg hprotocol, hrun, Option.map_some]
  refine ⟨_, rfl, ⟨hconnected2, steady_congr hsteady2 hres, hrest', ?_, fun _ => hsize, by omega⟩,
    hpassive2⟩
  exact if_congr hmode rfl rfl

/-- Reads that have delivered a body. -/
structure Delivered (outs : List ReadOutcome) (body : List UInt8) : Prop where
  concat : (outs.map fun out => out.buffer).flatten = body
  count : ∀ out ∈ outs, out.rv = out.buffer.length
  moves : body ≠ [] → ∀ out ∈ outs, out.buffer ≠ []

theorem reads_body (room : ℕ → ℕ) : ∀ {sizes : List ℕ} {r : HttpReader} {body : List UInt8}, r.Receiving body tl →
    (∀ size ∈ sizes, 0 < size ∧ size < 2 ^ 31) → body.length ≤ sizes.length →
    ∃ k outs r', r.reads room (sizes.take k) = some (outs, r') ∧ k ≤ body.length ∧
      outs.length = k ∧ Delivered outs body ∧ (body ≠ [] → k ≠ 0) ∧ r'.Receiving [] tl ∧
      r'.passive = r.passive
  | sizes, r, [], h, _, _ => ⟨0, [], r, by rw [List.take_zero]; rfl, le_rfl, rfl,
      ⟨rfl, nofun, nofun⟩, fun hne => absurd rfl hne, h, rfl⟩
  | [], _, _ :: _, _, _, hlen => absurd hlen (by simp)
  | size :: sizes, r, c :: body, h, hsizes, hlen => by
      obtain ⟨hpos, hlt⟩ := hsizes size List.mem_cons_self
      obtain ⟨piece, body', r1, hcut, hpiece, hrun1, hreceiving1, hpassive1⟩ :=
        readContent_body room h (List.cons_ne_nil c body) hpos hlt
      have hpiecelen := List.length_pos_iff.mpr hpiece
      have hsum := congrArg List.length hcut
      rw [List.length_cons, List.length_append] at hsum
      rw [List.length_cons, List.length_cons] at hlen
      obtain ⟨k, outs, r', hruns, hk, hlength, hdelivered, -, hreceiving, hpassive⟩ :=
        reads_body room hreceiving1
          (fun size hsize => hsizes size (List.mem_cons_of_mem _ hsize)) (by omega)
      have hread : r.read room size = some (⟨piece.length, piece⟩, r1) := by
        rw [read, if_pos h.connected, if_neg, hrun1]
        rw [h.mode, if_neg (List.cons_ne_nil c body)]
        decide
      refine ⟨k + 1, ⟨piece.length, piece⟩ :: outs, r', ?_, by rw [List.length_cons]; omega,
        by rw [List.length_cons, hlength], ⟨?_, ?_, ?_⟩, fun _ => Nat.succ_ne_zero k, hreceiving,
        hpassive.trans hpassive1⟩
      · rw [List.take_succ_cons, reads, hread, Option.bind_some]
        dsimp only
        rw [hruns, Option.map_some]
      · rw [List.map_cons, List.flatten_cons, hdelivered.concat, hcut]
      · exact List.forall_mem_cons.mpr ⟨rfl, hdelivered.count⟩
      · refine fun _ => List.forall_mem_cons.mpr ⟨hpiece, ?_⟩
        by_cases hnil : body' = []
        · rw [hnil, List.length_nil] at hk
          have houts : outs = [] := List.length_eq_zero_iff.mp (by omega)
          rw [houts]
          exact nofun
        · exact hdelivered.moves hnil

theorem reads_message {w : HttpWriter} (hplain : w.Plain) {n : Int32}
    (hn : getIntValue w.dbHeaderOut contentLength (-1) = n) (hsize : n.toInt = body.length)
    (hr : r.Ready) (hpassive : r.passive = !w.passive) (hroom : ∀ n, 2 ≤ room n)
    (hrest : Rest r.base (w.head ++ (body ++ tl))) {sizes : List ℕ}
    (hsizes : ∀ size ∈ sizes, 0 < size ∧ size < 2 ^ 31) (hne : sizes ≠ [])
    (hlen : body.length ≤ sizes.length) :
    ∃ k outs r', r.reads room (sizes.take k) = some (outs, r') ∧ outs ≠ [] ∧ Delivered outs body ∧
      r'.Ready ∧ Rest r'.base tl ∧ r'.passive = r.passive := by
  obtain ⟨r1, hstart, hreceiving, hpassive1⟩ :=
    startMessage_spec hplain hn hsize hr hpassive hroom hrest
  obtain ⟨size, sizes, rfl⟩ := List.exists_cons_of_ne_nil hne
  have hread : r.read room size = r1.readContent room size := by
    rw [read, if_pos hr.connected, if_pos hr.mode, hstart, Option.bind_some]
    dsimp only
    rw [if_neg (by decide)]
  by_cases hbody : body = []
  · subst hbody
    have hmode : r1.readMode = .idle := hreceiving.mode
    refine ⟨1, [⟨0, []⟩], r1, ?_, List.cons_ne_nil _ _, ⟨rfl, by simp, fun hne => absurd rfl hne⟩,
      ⟨hreceiving.connected, hmode, hreceiving.steady⟩, hreceiving.rest, hpassive1⟩
    rw [List.take_succ_cons, reads, hread, readContent, hmode]
    rfl
  · obtain ⟨k, outs, r', hruns, -, hlength, hdelivered, hk, hreceiving', hpassive'⟩ :=
      reads_body room hreceiving hsizes hlen
    obtain ⟨k, rfl⟩ := Nat.exists_eq_succ_of_ne_zero (hk hbody)
    have hread1 : r1.read room size = r1.readContent room size := by
      rw [read, if_pos hreceiving.connected, if_neg]
      rw [hreceiving.mode, if_neg hbody]
      decide
    refine ⟨k + 1, outs, r', ?_, ?_, hdelivered,
      ⟨hreceiving'.connected, hreceiving'.mode, hreceiving'.steady⟩, hreceiving'.rest,
      hpassive'.trans hpassive1⟩
    · rw [← hruns, List.take_succ_cons, reads, reads, hread, hread1]
    · rintro rfl
      exact absurd hlength (Nat.succ_ne_zero k).symm

end HttpReader

/-! ### Both sides -/

/-- However the layer below the reader cuts the bytes, and however the body is cut for the writes
and the reads: the body of a message with a `Content-Length` arrives as it was written, and with
its last byte the reader is ready for the next message, whose bytes it has not touched. -/
theorem content_length_round_trip {w : HttpWriter} {r : HttpReader} {buffers : List (List UInt8)}
    {n : Int32} {room : ℕ → ℕ} {tl : List UInt8} {sizes : List ℕ} (hw : w.Ready) (hplain : w.Plain)
    (hn : getIntValue w.dbHeaderOut contentLength (-1) = n)
    (hsize : n.toInt = buffers.flatten.length) (hbuffers : HttpWriter.Buffers buffers)
    (hr : r.Ready) (hpassive : r.passive = !w.passive) (hroom : ∀ n, 2 ≤ room n)
    (hrest : ∀ message, (w.writes buffers).2.written = w.written ++ message →
      Rest r.base (message ++ tl))
    (hsizes : ∀ size ∈ sizes, 0 < size ∧ size < 2 ^ 31) (hne : sizes ≠ [])
    (hlen : buffers.flatten.length ≤ sizes.length) :
    (w.writes buffers).1 = buffers.map (fun b => (b.length : ℤ)) ∧ (w.writes buffers).2.Ready ∧
      ∃ k outs r', r.reads room (sizes.take k) = some (outs, r') ∧ outs ≠ [] ∧
        HttpReader.Delivered outs buffers.flatten ∧ r'.Ready ∧ Rest r'.base tl ∧
        r'.passive = r.passive := by
  obtain ⟨w', hrun, hready, hwritten⟩ := HttpWriter.writes_message hplain hw hn hsize hbuffers
  rw [hrun] at hrest ⊢
  have hmessage := hrest _ hwritten
  rw [List.append_assoc] at hmessage
  exact ⟨rfl, hready,
    HttpReader.reads_message hplain hn hsize hr hpassive hroom hmessage hsizes hne hlen⟩

def newWriter (passive : Bool) (vars : List HeaderVar) : HttpWriter where
  passive := passive
  connected := true
  writeMode := .idle
  currentWriteBodySize := -1
  dbCommandOut := ⟨none, none, none⟩
  dbStatusOut := ⟨none, some 200, none⟩
  dbHeaderOut := vars
  results := fun _ => none
  calls := 0
  written := []

def newReader (passive : Bool) (base : SyncIoBuffered) : HttpReader where
  passive := passive
  connected := true
  readMode := .idle
  currentReadChunkSize := -1
  currentReadBodySize := -1
  dbCommandIn := ⟨none, none, none⟩
  dbStatusIn := ⟨none, none, none⟩
  dbHeaderIn := []
  base := base

/-- A layer that is to read what was written. -/
def fedWith (w : HttpWriter) (buffers : List (List UInt8)) : Option SyncIoBuffered :=
  SyncIoBuffered.new ⟨fun _ => .cut 1024, 0, (w.writes buffers).2.written⟩

/-- What reads of the other side deliver of a message, and the mode afterwards. -/
def received (w : HttpWriter) (buffers : List (List UInt8)) (sizes : List ℕ) :
    Option (List ReadOutcome × Mode) :=
  (fedWith w buffers).bind fun base =>
    ((newReader (!w.passive) base).reads (fun _ => 1024) sizes).map fun res =>
      (res.1, res.2.readMode)

/-- The header `Transfer-Encoding: chunked`. -/
def chunkedHeader : List HeaderVar :=
  [⟨CString.ofBytes transferEncoding,
    [.char (CString.ofBytes (ascii ['c', 'h', 'u', 'n', 'k', 'e', 'd']))]⟩]

/-- The header `Content-Length: 2`. -/
def lengthTwoHeader : List HeaderVar := [⟨CString.ofBytes contentLength, [.int 2]⟩]

theorem newWriter_plain : (newWriter true lengthTwoHeader).Plain where
  command := nofun
  status := fun _ => ⟨⟨by decide, by decide⟩, by unfold Word; decide, ⟨200, rfl, by decide⟩,
    ⟨by decide, by decide⟩⟩
  withHeader := by decide
  withHeaderStatus := fun _ => by decide
  header := by
    intro v hv
    obtain rfl := List.mem_singleton.mp hv
    exact ⟨⟨by decide, by decide, by decide, nofun⟩, by decide⟩
  fits := by decide

theorem content_length_round_trip_two : ∃ base,
    fedWith (newWriter true lengthTwoHeader) [[120], [121]] = some base ∧
      ((newWriter true lengthTwoHeader).writes [[120], [121]]).1 = [1, 1] ∧
      ∃ k outs r', (newReader false base).reads (fun _ => 1024) ([16, 16].take k) =
          some (outs, r') ∧ HttpReader.Delivered outs [120, 121] ∧ r'.Ready ∧ Rest r'.base [] := by
  obtain ⟨base, hbase, hrest, hres⟩ := SyncIoBuffered.new_rest (fun _ => .cut 1024)
    ((newWriter true lengthTwoHeader).writes [[120], [121]]).2.written
  have hsteady : base.base.Steady := fun i rv h => by rw [hres] at h; cases h
  obtain ⟨hwrites, -, k, outs, r', hreads, -, hdelivered, hready, hrest', -⟩ :=
    @content_length_round_trip (newWriter true lengthTwoHeader) (newReader false base)
      [[120], [121]] 2 (fun _ => 1024) [] [16, 16] ⟨rfl, rfl, fun _ => rfl⟩ newWriter_plain
      (by decide) (by decide) (Or.inr ⟨by decide, by decide⟩) ⟨rfl, rfl, hsteady⟩ rfl
      (fun _ => by decide)
      (fun message hmessage => by
        rw [hmessage] at hrest
        rw [List.append_nil]
        exact hrest)
      (by decide) (by decide) (by decide)
  exact ⟨base, hbase, hwrites, k, outs, r', hreads, hdelivered, hready, hrest'⟩

/-- A chunk is followed by nothing when it is written, and by the end of a line when it is read, so
that the line `0` is taken for this end.  And a read behind a body with a `Content-Length` begins
the next message. -/
theorem chunked_fails : (((newWriter true chunkedHeader).writes [[120], []]).1 = [1, 0] ∧
      received (newWriter true chunkedHeader) [[120], []] [16, 16] =
        some ([⟨1, [120]⟩, ⟨errorEof, []⟩], .error)) ∧
    ((newWriter true lengthTwoHeader).writes [[120], [121]]).1 = [1, 1] ∧
      received (newWriter true lengthTwoHeader) [[120], [121]] [16, 16] =
        some ([⟨2, [120, 121]⟩, ⟨errorEof, []⟩], .error) := by
  decide +kernel

end Http
end Gwenhywfar
