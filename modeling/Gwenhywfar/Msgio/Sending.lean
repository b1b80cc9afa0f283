import Gwenhywfar.Lib.Run
import Gwenhywfar.Msgio.Endpoint

/-! # Sending the messages of a queue

A run puts messages into the queue of an endpoint and calls `_writeCurrentMessage`, in any order
and with any results of the socket.

* `Faithful`: the bytes that the socket accepted are those of the messages that have left the
  queue, and of the first one in it as far as its position.
* `Sender.step_sound`: the step lemma.  It asks for `SendsSafely`: the position of the message
  fits the variable that it is stored in.
* `sends_faithful`: the run lemma. -/

namespace Gwenhywfar

set_option maxRecDepth 4000

/-- The counters of a message fit its block. -/
structure Msg.Fits (m : Msg) : Prop where
  size : m.buffer.length = m.maxSize
  count : m.bytesInBuffer ≤ m.maxSize
  word : m.maxSize < 2 ^ 32

instance (m : Msg) : Decidable m.Fits :=
  decidable_of_iff (m.buffer.length = m.maxSize ∧ m.bytesInBuffer ≤ m.maxSize ∧ m.maxSize < 2 ^ 32)
    ⟨fun h => ⟨h.1, h.2.1, h.2.2⟩, fun h => ⟨h.size, h.count, h.word⟩⟩

/-- A message whose counters fit its block. -/
abbrev FitMsg := { m : Msg // m.Fits }

/-- What happens at the sending side of an endpoint: a message is put into the queue, or
`_writeCurrentMessage` is called. -/
inductive SendOp where
  | add (m : FitMsg)
  | write (startRv : ℤ) (res : SocketWrite)

/-- An endpoint with the messages that have been put into its queue, and with what could be seen
while they were sent. -/
structure Sender where
  ep : Endpoint
  queued : List Msg
  events : List SendEvent

namespace Sender

/-- An endpoint with an empty queue. -/
def new (ep : Endpoint) : Sender := ⟨{ ep with sendMessageList := [] }, [], []⟩

def step (xep : MsgIoEndpoint) (s : Sender) : SendOp → Option Sender
  | .add m => some { s with ep := s.ep.addSendMessage m.1, queued := s.queued ++ [m.1] }
  | .write startRv res =>
      (s.ep.writeCurrentMessage xep startRv res).map fun (_, ep, events) =>
        { s with ep := ep, events := s.events ++ events }

end Sender

def acceptedBytes (events : List SendEvent) : List UInt8 :=
  events.flatMap fun
    | .accept bytes => bytes
    | _ => []

def leftMsgs (events : List SendEvent) : List Msg :=
  events.filterMap fun
    | .leave msg => some msg
    | _ => none

def writtenOfFirst : List Msg → List UInt8
  | [] => []
  | m :: _ => m.bytes.take m.currentPos

/-- Sending has been faithful so far. -/
structure Faithful (s : Sender) : Prop where
  /-- The messages leave in the order in which they have been queued. -/
  fifo : s.queued.map Msg.bytes =
    (leftMsgs s.events).map Msg.bytes ++ s.ep.sendMessageList.map Msg.bytes
  /-- Their bytes have been written once each, and of the first one in the queue a part. -/
  written : acceptedBytes s.events =
    ((leftMsgs s.events).map Msg.bytes).flatten ++ writtenOfFirst s.ep.sendMessageList
  /-- This part is not all of it. -/
  incomplete : ∀ m, s.ep.sendMessageList.head? = some m →
    m.bytes = [] ∨ m.currentPos < m.bytes.length
  /-- The start function is called for messages of which nothing has been written. -/
  start : ∀ pos, SendEvent.start pos ∈ s.events → pos = 0

theorem Faithful.accepted_prefix {s : Sender} (h : Faithful s) :
    acceptedBytes s.events <+: (s.queued.map Msg.bytes).flatten := by
  rw [h.fifo, h.written, List.flatten_append, List.prefix_append_right_inj]
  cases s.ep.sendMessageList with
  | nil => exact List.prefix_rfl
  | cons m rest =>
      rw [List.map_cons, List.flatten_cons]
      exact (List.take_prefix _ _).trans (List.prefix_append _ _)

/-- The messages of a queue fit their blocks, and the first one alone may have been begun. -/
structure QueueOk (queue : List Msg) : Prop where
  fits : ∀ m ∈ queue, m.Fits ∧ m.currentPos ≤ m.bytesInBuffer
  behind : ∀ m ∈ queue.tail, m.currentPos = 0

theorem queueOk_nil : QueueOk [] := ⟨fun _ h => absurd h (by simp), fun _ h => absurd h (by simp)⟩

variable {m : Msg}

theorem QueueOk.add {queue : List Msg} (h : QueueOk queue) (hm : m.Fits) :
    QueueOk (queue ++ [m.rewindCurrentPos]) := by
  refine ⟨?_, ?_⟩
  · intro m' hm'
    rcases List.mem_append.mp hm' with hm' | hm'
    · exact h.fits m' hm'
    · rw [List.mem_singleton.mp hm']
      exact ⟨⟨hm.size, hm.count, hm.word⟩, Nat.zero_le _⟩
  · intro m' hm'
    cases queue with
    | nil => exact absurd hm' (by simp)
    | cons first rest =>
        rw [List.cons_append, List.tail_cons] at hm'
        rcases List.mem_append.mp hm' with hm' | hm'
        · exact h.behind m' hm'
        · rw [List.mem_singleton.mp hm']
          rfl

theorem QueueOk.tail {rest : List Msg} (h : QueueOk (m :: rest)) : QueueOk rest where
  fits := fun m' hm' => h.fits m' (List.mem_cons_of_mem m hm')
  behind := fun m' hm' => h.behind m' (List.mem_of_mem_tail hm')

theorem QueueOk.advance {rest : List Msg} (h : QueueOk (m :: rest)) {pos : ℕ}
    (hpos : pos ≤ m.bytesInBuffer) : QueueOk ({ m with currentPos := pos } :: rest) where
  fits := by
    intro m' hm'
    have hfit := (h.fits m List.mem_cons_self).1
    rcases List.mem_cons.mp hm' with rfl | hm'
    · exact ⟨⟨hfit.size, hfit.count, hfit.word⟩, hpos⟩
    · exact h.fits m' (List.mem_cons_of_mem m hm')
  behind := h.behind

/-- The invariant of sending. -/
structure SendInv (s : Sender) : Prop where
  faithful : Faithful s
  queue : QueueOk s.ep.sendMessageList

theorem sendInv_new (ep : Endpoint) : SendInv (Sender.new ep) where
  faithful := ⟨rfl, rfl, fun _ h => absurd h (by simp [Sender.new]),
    fun _ h => absurd h (by simp [Sender.new])⟩
  queue := queueOk_nil

/-- The position of the first message fits an `uint8_t`, and there is a finish function when one
is called. -/
def SendsSafely (xep : MsgIoEndpoint) (s : Sender) : SendOp → Prop
  | .add _ => True
  | .write _ _ =>
      (xep.sendMsgStartFn = true → xep.sendMsgFinishFn = true) ∧
        ∀ m ∈ s.ep.sendMessageList.head?, m.currentPos < 2 ^ 8

instance (xep : MsgIoEndpoint) (s : Sender) (o : SendOp) : Decidable (SendsSafely xep s o) := by
  cases o <;> dsimp only [SendsSafely] <;> infer_instance

/-! ### The messages in the queue -/

theorem Msg.length_bytes (h : m.Fits) : m.bytes.length = m.bytesInBuffer := by
  have hsize := h.size
  have hcount := h.count
  rw [Msg.bytes, List.length_take]
  omega

theorem Msg.remaining_pos (h : m.Fits) (hle : m.currentPos ≤ m.bytesInBuffer)
    (hpos : 0 < m.getRemainingBytes) : m.getRemainingBytes.toNat = m.bytesInBuffer - m.currentPos ∧
      m.currentPos < m.bytesInBuffer := by
  have hword := h.word
  have hcount := h.count
  dsimp only [Msg.getRemainingBytes, intOfDiff32] at hpos ⊢
  split at hpos <;> rename_i hlt
  · rw [if_pos hlt]
    omega
  · omega

theorem Msg.load_remaining (h : m.Fits) (hle : m.currentPos ≤ m.bytesInBuffer) :
    Block.load m.buffer m.currentPos (m.bytesInBuffer - m.currentPos) =
      some (m.bytes.drop m.currentPos) := by
  have hsize := h.size
  have hcount := h.count
  rw [Block.load, if_pos (by omega), Msg.bytes, List.drop_take]

theorem Msg.incCurrentPos_eq (h : m.Fits) {n : ℕ}
    (hn : m.currentPos + n ≤ m.bytesInBuffer) :
    m.incCurrentPos n = { m with currentPos := m.currentPos + n } := by
  have hword := h.word
  have hcount := h.count
  have hadd : add32 m.currentPos n = m.currentPos + n := add32_of_lt (by omega)
  rw [Msg.incCurrentPos, hadd, if_pos ⟨by omega, hn⟩]

/-! ### Events -/

@[simp] theorem acceptedBytes_append (es es' : List SendEvent) :
    acceptedBytes (es ++ es') = acceptedBytes es ++ acceptedBytes es' := List.flatMap_append

@[simp] theorem leftMsgs_append (es es' : List SendEvent) :
    leftMsgs (es ++ es') = leftMsgs es ++ leftMsgs es' := List.filterMap_append

def startEvents (b : Bool) (pos : ℕ) : List SendEvent := if b then [.start pos] else []

theorem acceptedBytes_start (b : Bool) (pos : ℕ) : acceptedBytes (startEvents b pos) = [] := by
  cases b <;> rfl

theorem leftMsgs_start (b : Bool) (pos : ℕ) : leftMsgs (startEvents b pos) = [] := by
  cases b <;> rfl

theorem acceptedBytes_wrote (b : Bool) (pos : ℕ) (bs : List UInt8) :
    acceptedBytes (startEvents b pos ++ [.accept bs]) = bs := by
  rw [acceptedBytes_append, acceptedBytes_start, List.nil_append]
  exact List.append_nil bs

theorem leftMsgs_wrote (b : Bool) (pos : ℕ) (bs : List UInt8) :
    leftMsgs (startEvents b pos ++ [.accept bs]) = [] := by
  rw [leftMsgs_append, leftMsgs_start, List.nil_append]
  rfl

theorem acceptedBytes_finished (b : Bool) (pos : ℕ) (bs : List UInt8) (m : Msg) :
    acceptedBytes (startEvents b pos ++ [.accept bs, .leave m]) = bs := by
  rw [acceptedBytes_append, acceptedBytes_start, List.nil_append]
  exact List.append_nil bs

theorem leftMsgs_finished (b : Bool) (pos : ℕ) (bs : List UInt8) (m : Msg) :
    leftMsgs (startEvents b pos ++ [.accept bs, .leave m]) = [m] := by
  rw [leftMsgs_append, leftMsgs_start, List.nil_append]
  rfl

theorem mem_startEvents {b : Bool} {pos pos' : ℕ} (h : SendEvent.start pos' ∈ startEvents b pos) :
    pos' = pos ∧ b = true := by
  cases b with
  | false => exact absurd h (by simp [startEvents])
  | true => exact ⟨by simpa [startEvents] using h, rfl⟩

/-! ### What a call does -/

/-- `_writeCurrentMessage` with a message in the queue: the socket accepts nothing, or some bytes
and the message keeps its place, or the rest and it leaves the queue.  The bytes are the next ones
when the position fits an `uint8_t`. -/
theorem write_spec {xep : MsgIoEndpoint} {ep : Endpoint} {rest : List Msg}
    (hlist : ep.sendMessageList = m :: rest) (hfit : m.Fits) (hle : m.currentPos ≤ m.bytesInBuffer)
    (hfin : xep.sendMsgStartFn = true → xep.sendMsgFinishFn = true) (startRv : ℤ)
    (res : SocketWrite) :
    ∃ rv ep' events b bs, ep.writeCurrentMessage xep startRv res = some (rv, ep', events) ∧
      (b = true → m.currentPos % 2 ^ 8 = 0) ∧
      (m.currentPos < 2 ^ 8 → bs = (m.bytes.drop m.currentPos).take bs.length) ∧
      (ep' = ep ∧ events = startEvents b m.currentPos ∨
        (m.currentPos + bs.length < m.bytesInBuffer ∧ ep' = { ep with
            sendMessageList := { m with currentPos := m.currentPos + bs.length } :: rest } ∧
          events = startEvents b m.currentPos ++ [.accept bs]) ∨
        (m.currentPos < m.bytesInBuffer ∧ m.currentPos + bs.length = m.bytesInBuffer ∧
          ep' = { ep with sendMessageList := rest } ∧
          events = startEvents b m.currentPos ++
            [.accept bs, .leave { m with currentPos := m.currentPos + bs.length }])) := by
  generalize hb : (decide (m.currentPos % 2 ^ 8 = 0 ∧ 0 < m.getRemainingBytes) &&
    xep.sendMsgStartFn) = b
  have hb0 : b = true → m.currentPos % 2 ^ 8 = 0 := by
    intro h
    rw [h, Bool.and_eq_true, decide_eq_true_eq] at hb
    exact hb.1.1
  have hnil : m.currentPos < 2 ^ 8 → ([] : List UInt8) = (m.bytes.drop m.currentPos).take 0 :=
    fun _ => rfl
  rw [Endpoint.writeCurrentMessage, hlist]
  simp only [hb]
  by_cases hstart : b = true ∧ startRv < 0
  · exact ⟨_, ep, _, b, [], if_pos hstart, hb0, hnil, Or.inl ⟨rfl, rfl⟩⟩
  rw [if_neg hstart]
  by_cases hpos : 0 < m.getRemainingBytes
  · obtain ⟨hrem, hlt⟩ := m.remaining_pos hfit hle hpos
    have hsize := hfit.size
    have hcount := hfit.count
    have hmod := Nat.mod_le m.currentPos (2 ^ 8)
    have hload : Block.load m.buffer (m.currentPos % 2 ^ 8) (m.bytesInBuffer - m.currentPos) =
        some ((m.buffer.drop (m.currentPos % 2 ^ 8)).take (m.bytesInBuffer - m.currentPos)) :=
      if_pos (by omega)
    rw [if_pos hpos, hrem, hload, Option.bind_some]
    cases res with
    | failed rv => exact ⟨_, ep, _, b, [], rfl, hb0, hnil, Or.inl ⟨rfl, rfl⟩⟩
    | accepted k =>
        dsimp only
        generalize hn : min k (m.bytesInBuffer - m.currentPos) = n
        generalize hbs : ((m.buffer.drop (m.currentPos % 2 ^ 8)).take
          (m.bytesInBuffer - m.currentPos)).take n = bs
        have hlen : bs.length = n := by
          rw [← hbs, List.length_take, List.length_take, List.length_drop]
          omega
        have hnext : m.currentPos < 2 ^ 8 → bs = (m.bytes.drop m.currentPos).take bs.length := by
          intro h
          have hload' := m.load_remaining hfit hle
          rw [Nat.mod_eq_of_lt h] at hload hbs
          rw [hload, Option.some.injEq] at hload'
          rw [hlen, ← hbs, hload']
        rw [m.incCurrentPos_eq hfit (n := n) (by omega), ← hlen]
        by_cases hall : bs.length = m.bytesInBuffer - m.currentPos
        · have hfinish : Endpoint.sendMsgFinish xep = some () := by
            rw [Endpoint.sendMsgFinish]
            cases hs : xep.sendMsgStartFn with
            | false => rfl
            | true => rw [hfin hs]; rfl
          rw [if_pos hall, hfinish]
          exact ⟨_, _, _, b, bs, rfl, hb0, hnext, Or.inr (Or.inr ⟨hlt, by omega, rfl, rfl⟩)⟩
        · rw [if_neg hall]
          exact ⟨_, _, _, b, bs, rfl, hb0, hnext, Or.inr (Or.inl ⟨by omega, rfl, rfl⟩)⟩
  · rw [if_neg hpos]
    exact ⟨_, ep, _, b, [], rfl, hb0, hnil, Or.inl ⟨rfl, rfl⟩⟩

/-! ### Runs -/

/-- Putting a message into the queue keeps the invariant. -/
theorem SendInv.add {s : Sender} (h : SendInv s) (m : FitMsg) :
    SendInv { s with ep := s.ep.addSendMessage m.1, queued := s.queued ++ [m.1] } := by
  obtain ⟨m, hm⟩ := m
  have hlist : (s.ep.addSendMessage m).sendMessageList =
      s.ep.sendMessageList ++ [m.rewindCurrentPos] := rfl
  refine ⟨⟨?_, ?_, ?_, h.faithful.start⟩, h.queue.add hm⟩
  · rw [hlist, List.map_append, List.map_append, ← List.append_assoc, ← h.faithful.fifo]
    rfl
  · rw [h.faithful.written, hlist]
    cases s.ep.sendMessageList with
    | nil => rfl
    | cons first rest => rfl
  · intro m' hm'
    rw [hlist] at hm'
    cases hq : s.ep.sendMessageList with
    | nil =>
        rw [hq, List.nil_append, List.head?_cons, Option.some.injEq] at hm'
        subst hm'
        exact (Nat.eq_zero_or_pos m.bytes.length).imp List.length_eq_zero_iff.mp id
    | cons first rest =>
        rw [hq, List.cons_append, List.head?_cons] at hm'
        exact h.faithful.incomplete m' (by rw [hq, List.head?_cons, hm'])

theorem writtenOfFirst_behind {rest : List Msg} (h : ∀ m ∈ rest, m.currentPos = 0) :
    writtenOfFirst rest = [] := by
  cases rest with
  | nil => rfl
  | cons m rest => rw [writtenOfFirst, h m List.mem_cons_self, List.take_zero]

/-- A step that sends safely succeeds and keeps the invariant. -/
theorem Sender.step_sound {xep : MsgIoEndpoint} {s : Sender} {o : SendOp} (h : SendInv s)
    (hsafe : SendsSafely xep s o) : ∃ t, s.step xep o = some t ∧ SendInv t := by
  cases o with
  | add m => exact ⟨_, rfl, h.add m⟩
  | write startRv res =>
      obtain ⟨hfin, hsmall⟩ := hsafe
      cases hq : s.ep.sendMessageList with
      | nil =>
          refine ⟨{ s with events := s.events ++ [] }, ?_, ?_⟩
          · rw [Sender.step, Endpoint.writeCurrentMessage, hq]
            rfl
          · rw [List.append_nil]
            exact h
      | cons m rest =>
          have hok := h.queue
          rw [hq] at hok
          obtain ⟨hfit, hle⟩ := hok.fits m List.mem_cons_self
          have hpos := hsmall m (by rw [hq]; rfl)
          have hlen := m.length_bytes hfit
          have hbehind : ∀ m ∈ rest, m.currentPos = 0 := hok.behind
          obtain ⟨rv, ep', events, b, bs, hrun, hb, hnext, hcase⟩ :=
            write_spec hq hfit hle hfin startRv res
          have hnext := hnext hpos
          rw [Nat.mod_eq_of_lt hpos] at hb
          have hstart : ∀ pos, SendEvent.start pos ∈ startEvents b m.currentPos → pos = 0 := by
            intro pos hp
            obtain ⟨rfl, hb'⟩ := mem_startEvents hp
            exact hb hb'
          have hstarts : ∀ pos, SendEvent.start pos ∈ s.events ++ events → pos = 0 := by
            intro pos hp
            rcases List.mem_append.mp hp with hp | hp
            · exact h.faithful.start pos hp
            · rcases hcase with ⟨-, rfl⟩ | ⟨-, -, rfl⟩ | ⟨-, -, -, rfl⟩
              · exact hstart pos hp
              · exact hstart pos ((List.mem_append.mp hp).resolve_right (by simp))
              · exact hstart pos ((List.mem_append.mp hp).resolve_right (by simp))
          have hfifo := h.faithful.fifo
          have hwritten := h.faithful.written
          rw [hq, List.map_cons] at hfifo
          rw [hq, writtenOfFirst] at hwritten
          refine ⟨{ s with ep := ep', events := s.events ++ events }, by rw [Sender.step, hrun]; rfl,
            ?_⟩
          rcases hcase with ⟨rfl, rfl⟩ | ⟨hlt, rfl, rfl⟩ | ⟨hlt, hall, rfl, rfl⟩
          · refine ⟨⟨?_, ?_, h.faithful.incomplete, hstarts⟩, h.queue⟩
            · rw [leftMsgs_append, leftMsgs_start, List.append_nil]
              exact h.faithful.fifo
            · rw [leftMsgs_append, leftMsgs_start, List.append_nil, acceptedBytes_append,
                acceptedBytes_start, List.append_nil]
              exact h.faithful.written
          · refine ⟨⟨?_, ?_, ?_, hstarts⟩, hok.advance hlt.le⟩
            · rw [leftMsgs_append, leftMsgs_wrote, List.append_nil]
              exact hfifo
            · have htake : m.bytes.take m.currentPos ++ bs =
                  m.bytes.take (m.currentPos + bs.length) := by
                rw [List.take_add, ← hnext]
              rw [acceptedBytes_append, acceptedBytes_wrote, hwritten, leftMsgs_append,
                leftMsgs_wrote, List.append_nil, List.append_assoc, htake]
              rfl
            · intro m' hm'
              rw [List.head?_cons, Option.some.injEq] at hm'
              subst hm'
              exact Or.inr (hlt.trans_eq hlen.symm)
          · have hbs : bs = m.bytes.drop m.currentPos := by
              rw [hnext, List.take_of_length_le (by rw [List.length_drop]; omega)]
            refine ⟨⟨?_, ?_, ?_, hstarts⟩, hok.tail⟩
            · rw [leftMsgs_append, leftMsgs_finished, List.map_append, List.append_assoc]
              exact hfifo
            · rw [acceptedBytes_append, acceptedBytes_finished, hwritten, leftMsgs_append,
                leftMsgs_finished, List.map_append, List.flatten_append, List.append_assoc, hbs,
                List.take_append_drop]
              simp only [writtenOfFirst_behind hbehind, List.append_nil, List.map_cons,
                List.map_nil, List.flatten_cons, List.flatten_nil]
              rfl
            · intro m' hm'
              rw [hbehind m' (List.mem_of_mem_head? hm')]
              exact (Nat.eq_zero_or_pos m'.bytes.length).imp List.length_eq_zero_iff.mp id

/-- In a run in which the position of the first message fits an `uint8_t` whenever
`_writeCurrentMessage` is called, sending is faithful at all times. -/
theorem sends_faithfully (xep : MsgIoEndpoint) (ep : Endpoint) (ops : List SendOp)
    (h : Along (Sender.step xep) (SendsSafely xep) (Sender.new ep) ops) : ∀ pre, pre <+: ops →
      ∃ t, exec (Sender.step xep) (Sender.new ep) pre = some t ∧ Faithful t ∧
        acceptedBytes t.events <+: (t.queued.map Msg.bytes).flatten := by
  intro pre hpre
  obtain ⟨t, ht, hinv⟩ :=
    Along.exec_initial (fun s o hs ho => Sender.step_sound hs ho) (sendInv_new ep) h pre hpre
  exact ⟨t, ht, hinv.faithful, hinv.faithful.accepted_prefix⟩

/-- A message of three bytes. -/
def shortMsg : Msg := ⟨3, 0, 3, [1, 2, 3], 0⟩

theorem sends_faithfully_short :
    ∃ t, exec (Sender.step (Endpoint.ipcEndpoint true true)) (Sender.new (Endpoint.new 0))
      [.add ⟨shortMsg, by decide⟩, .write 0 (.accepted 2), .write 0 (.failed 33),
        .write 0 (.accepted 1)] = some t ∧ Faithful t ∧
        acceptedBytes t.events <+: (t.queued.map Msg.bytes).flatten :=
  sends_faithfully (Endpoint.ipcEndpoint true true) (Endpoint.new 0) _
    (by decide) _ List.prefix_rfl

/-- A message of 257 bytes. -/
def longMsg : Msg := ⟨257, 0, 257, List.replicate 256 0 ++ [1], 0⟩

/-- After 256 bytes of a message have been written the next call begins at its start again. -/
theorem sends_faithfully_fails :
    ¬ ∀ (xep : MsgIoEndpoint) (ep : Endpoint) (ops : List SendOp), ∀ pre, pre <+: ops →
      ∃ t, exec (Sender.step xep) (Sender.new ep) pre = some t ∧ Faithful t ∧
        acceptedBytes t.events <+: (t.queued.map Msg.bytes).flatten := by
  intro h
  obtain ⟨t, ht, -, hpre⟩ := h (Endpoint.ipcEndpoint false false) (Endpoint.new 0)
    [.add ⟨longMsg, by decide⟩, .write 0 (.accepted 256), .write 0 (.accepted 1)] _
    List.prefix_rfl
  have hwrong : (exec (Sender.step (Endpoint.ipcEndpoint false false))
      (Sender.new (Endpoint.new 0)) [.add ⟨longMsg, by decide⟩,
        .write 0 (.accepted 256), .write 0 (.accepted 1)]).map (fun t =>
          decide (acceptedBytes t.events <+: (t.queued.map Msg.bytes).flatten)) = some false := by
    decide
  rw [ht, Option.map_some, Option.some.injEq, decide_eq_false_iff_not] at hwrong
  exact hwrong hpre

end Gwenhywfar
