import Gwenhywfar.Msgio.Reassembly
import Gwenhywfar.Msgio.Sending

/-! # Endpoints that connect again

A TCP client endpoint for IPC messages goes through several connections.  `Session` is an endpoint
with what has happened on the present connection.

* `Intact`: the frames that the peer sent on this connection have been received, and what was
  written first is the beginning of a message.
* `Clean`: no message has been received or sent in part.
* `Session.step_sound`: the step lemma.  `DisconnectsClean` asks that the endpoint is clean when
  `GWEN_MsgEndpoint_Disconnect` is called, as this function leaves the messages as they are.
* `reconnects_intact`: the run lemma. -/

namespace Gwenhywfar

open Endpoint

/-- What happens to an endpoint: its application queues a message, takes one, starts to connect or
disconnects, or the functions for its sockets are called. -/
inductive SessionOp where
  | addSendMessage (m : FitMsg)
  | takeFirstReceivedMessage
  | startConnect (rv : ℤ)
  | disconnect
  | addSockets (due : Bool) (rv : ℤ)
  | checkSockets (connectRv : ℤ) (writable : Option (ℤ × SocketWrite))
      (readable : Option SocketRead)

/-- An endpoint with the bytes that it has read on the present connection, the messages that have
become complete there, and the first bytes that it wrote there with the message that it was
sending. -/
structure Session where
  ep : Endpoint
  input : List UInt8
  got : List Msg
  firstWrite : Option (Msg × List UInt8)

namespace Session

/-- An endpoint that has not been used. -/
def new (groupId : ℤ) : Session := ⟨Endpoint.new groupId, [], [], none⟩

/-- The session after the endpoint has become `ep`, which begins a connection when the endpoint
was not connected. -/
def connecting (s : Session) (ep : Endpoint) : Session :=
  if s.ep.state = .unconnected ∧ ep.state ≠ .unconnected then ⟨ep, [], [], none⟩
  else { s with ep := ep }

def firstOf (ep : Endpoint) (events : List SendEvent) : Option (Msg × List UInt8) :=
  if acceptedBytes events = [] then none
  else ep.sendMessageList.head?.map fun m => (m, acceptedBytes events)

def step (xep : MsgIoEndpoint) (s : Session) : SessionOp → Option Session
  | .addSendMessage m => some { s with ep := s.ep.addSendMessage m.1 }
  | .takeFirstReceivedMessage => some { s with ep := s.ep.takeFirstReceivedMessage }
  | .startConnect rv => some (s.connecting (s.ep.startConnect rv))
  | .disconnect => some { s with ep := s.ep.disconnect }
  | .addSockets due rv => some (s.connecting (s.ep.addSockets due rv))
  | .checkSockets connectRv writable readable =>
      (s.ep.checkSockets xep connectRv writable readable).map fun r =>
        { ep := r.after
          input := s.input ++ r.bytes
          got := s.got ++ r.before.receivedMessageList.drop s.ep.receivedMessageList.length
          firstWrite := s.firstWrite <|> firstOf s.ep r.events }

end Session

/-- The frames that the bytes `input` complete are the messages `got`, and `p` is the part of the
next one. -/
def Framed (input : List UInt8) (got : List Msg) (p : List UInt8) : Prop :=
  ∀ (todo : List (List UInt8)) (rest : List UInt8), (∀ w ∈ todo, IsFrame w) →
    input ++ rest = todo.flatten → ∃ n, got.map Msg.bytes = todo.take n ∧
      input = (todo.take n).flatten ++ p ∧ Within p (todo.drop n)

/-- On the present connection the messages have been kept intact. -/
structure Intact (s : Session) : Prop where
  received : ∃ p, Framed s.input s.got p
  first : ∀ m bs, s.firstWrite = some (m, bs) → bs <+: m.bytes

/-- No message has been received in part, and none has been sent in part. -/
def Clean (ep : Endpoint) : Prop :=
  ep.currentlyReceivedMsg = none ∧ ∀ m ∈ ep.sendMessageList.head?, m.currentPos = 0

instance (ep : Endpoint) : Decidable (Clean ep) :=
  inferInstanceAs (Decidable (_ ∧ _))

/-- `GWEN_MsgEndpoint_Disconnect` is called for a clean endpoint only. -/
def DisconnectsClean (xep : MsgIoEndpoint) (s : Session) : SessionOp → Prop
  | .disconnect => Clean s.ep
  | .checkSockets connectRv writable readable =>
      ∀ r ∈ s.ep.checkSockets xep connectRv writable readable, r.disconnects = true → Clean r.before
  | _ => True

instance (xep : MsgIoEndpoint) (s : Session) (o : SessionOp) :
    Decidable (DisconnectsClean xep s o) := by
  cases o <;> dsimp only [DisconnectsClean] <;> infer_instance

/-- The invariant of a session. -/
structure SessionInv (s : Session) : Prop where
  queue : QueueOk s.ep.sendMessageList
  receives : ∃ p, Receives s.ep p ∧ Pending p ∧ Framed s.input s.got p
  idle : s.ep.state ≠ .connected → Clean s.ep
  unbegun : s.firstWrite = none → ∀ m ∈ s.ep.sendMessageList.head?, m.currentPos = 0
  first : ∀ m bs, s.firstWrite = some (m, bs) → bs <+: m.bytes

theorem framed_nil : Framed [] [] [] := fun _ _ _ _ => ⟨0, rfl, rfl, Or.inl rfl⟩

theorem sessionInv_new (groupId : ℤ) : SessionInv (Session.new groupId) where
  queue := queueOk_nil
  receives := ⟨[], rfl, pending_nil, framed_nil⟩
  idle := fun _ => ⟨rfl, fun _ h => absurd h (by simp [Session.new, Endpoint.new])⟩
  unbegun := fun _ _ h => absurd h (by simp [Session.new, Endpoint.new])
  first := fun _ _ h => absurd h (by simp [Session.new])

theorem SessionInv.intact {s : Session} (h : SessionInv s) : Intact s := by
  obtain ⟨p, -, -, hf⟩ := h.receives
  exact ⟨⟨p, hf⟩, h.first⟩

/-! ### Reading -/

variable {ep : Endpoint}

theorem receives_unique {p q : List UInt8} (hp : Receives ep p)
    (hq : Receives ep q) : p = q := by
  unfold Receives at hp hq
  cases hc : ep.currentlyReceivedMsg with
  | none =>
      rw [hc] at hp hq
      rw [hp, hq]
  | some msg =>
      rw [hc] at hp hq
      rw [← hp.1.cells, hq.1.cells]

/-- Bytes that have been read go on with the frames of the connection. -/
theorem distribute_framed {input p : List UInt8} {got : List Msg}
    (hr : Receives ep p) (hp : Pending p) (hf : Framed input got p) (bs : List UInt8) :
    ∃ rv ep' p', distributeLoop getBytesNeededForMessage bs.length ep bs = some (rv, ep') ∧
      SameOutput ep ep' ∧ Receives ep' p' ∧ Pending p' ∧
      Framed (input ++ bs) (got ++ ep'.receivedMessageList.drop ep.receivedMessageList.length) p' := by
  obtain ⟨rv, ep', p', hrun, hsame, hr', hp'⟩ := distributeLoop_returns bs.length le_rfl hr hp
  refine ⟨rv, ep', p', hrun, hsame, hr', hp', fun todo rest htodo hs => ?_⟩
  rw [List.append_assoc] at hs
  obtain ⟨n, hgot, hcut, hw⟩ := hf todo (bs ++ rest) htodo hs
  have hs' : p ++ (bs ++ rest) = (todo.drop n).flatten := by
    rw [hcut, List.append_assoc] at hs
    conv_rhs at hs => rw [← List.take_append_drop n todo, List.flatten_append]
    exact List.append_cancel_left hs
  obtain ⟨k, ep'', q, hrun', hgot', hr'', -, hcut', hw'⟩ :=
    distributeLoop_frames bs.length le_rfl hr (fun w h => htodo w (List.mem_of_mem_drop h)) hs' hw
  obtain ⟨-, rfl⟩ : rv = 0 ∧ ep' = ep'' := by
    rw [hrun, Option.some.injEq, Prod.mk.injEq] at hrun'
    exact hrun'
  obtain rfl := receives_unique hr' hr''
  refine ⟨n + k, ?_, ?_, by rwa [List.drop_drop] at hw'⟩
  · have hnew : (ep'.receivedMessageList.drop ep.receivedMessageList.length).map Msg.bytes =
        (todo.drop n).take k := by
      rw [receivedBytes, receivedBytes] at hgot'
      rw [List.map_drop, hgot', List.drop_left' (List.length_map ..)]
    rw [List.map_append, hgot, hnew, List.take_add]
  · rw [hcut, List.append_assoc, hcut', List.take_add, List.flatten_append, List.append_assoc]

theorem checkReadable_framed {start finish : Bool} {input p : List UInt8}
    {got : List Msg} (hr : Receives ep p) (hp : Pending p) (hf : Framed input got p)
    (readable : Option SocketRead) :
    ∃ rv ep' p', checkReadable (ipcEndpoint start finish) ep readable = some (rv, ep') ∧
      SameOutput ep ep' ∧ Receives ep' p' ∧ Pending p' ∧ Framed (input ++ bytesOf readable)
        (got ++ ep'.receivedMessageList.drop ep.receivedMessageList.length) p' := by
  have hsame : Framed (input ++ [])
      (got ++ ep.receivedMessageList.drop ep.receivedMessageList.length) p := by
    rw [List.append_nil, List.drop_length, List.append_nil]
    exact hf
  match readable with
  | none => exact ⟨0, ep, p, rfl, rfl, hr, hp, hsame⟩
  | some (.failed rv) => exact ⟨_, ep, p, rfl, rfl, hr, hp, hsame⟩
  | some (.data []) => exact ⟨_, ep, p, rfl, rfl, hr, hp, hsame⟩
  | some (.data (b :: bs)) => exact distribute_framed hr hp hf (b :: bs)

/-! ### Writing -/

/-- The writing part of `_checkSockets` returns; it keeps everything but the queue.  What it
writes first begins a message. -/
theorem checkWritable_first {b : Bool} {first : Option (Msg × List UInt8)}
    (hq : QueueOk ep.sendMessageList)
    (hu : first = none → ∀ m ∈ ep.sendMessageList.head?, m.currentPos = 0)
    (hf : ∀ m bs, first = some (m, bs) → bs <+: m.bytes) (writable : Option (ℤ × SocketWrite)) :
    ∃ rv ep' events, checkWritable (ipcEndpoint b b) ep writable = some (rv, ep', events) ∧
      ep' = { ep with sendMessageList := ep'.sendMessageList } ∧ QueueOk ep'.sendMessageList ∧
      ((first <|> Session.firstOf ep events) = none →
        ∀ m ∈ ep'.sendMessageList.head?, m.currentPos = 0) ∧
      ∀ m bs, (first <|> Session.firstOf ep events) = some (m, bs) → bs <+: m.bytes := by
  have hnone : (first <|> Session.firstOf ep []) = first := by cases first <;> rfl
  cases writable with
  | none => exact ⟨0, ep, [], rfl, rfl, hq, by rwa [hnone], by rwa [hnone]⟩
  | some w =>
      obtain ⟨startRv, res⟩ := w
      cases hlist : ep.sendMessageList with
      | nil =>
          refine ⟨0, ep, [], ?_, rfl, hq, by rwa [hnone], by rwa [hnone]⟩
          rw [checkWritable, writeCurrentMessage, hlist]
      | cons m rest =>
          rw [hlist] at hq hu
          obtain ⟨hfit, hle⟩ := hq.fits m List.mem_cons_self
          obtain ⟨rv, ep', events, c, bs, hrun, -, hnext, hcase⟩ :=
            @write_spec _ (ipcEndpoint b b) _ _ hlist hfit hle id startRv res
          have hfirst : acceptedBytes events = bs ∨ acceptedBytes events = [] := by
            rcases hcase with ⟨-, rfl⟩ | ⟨-, -, rfl⟩ | ⟨-, -, -, rfl⟩
            · exact Or.inr (acceptedBytes_start c _)
            · exact Or.inl (acceptedBytes_wrote c _ bs)
            · exact Or.inl (acceptedBytes_finished c _ bs _)
          refine ⟨rv, ep', events, hrun, ?_, ?_, ?_, ?_⟩
          · rcases hcase with ⟨rfl, -⟩ | ⟨-, rfl, -⟩ | ⟨-, -, rfl, -⟩ <;> rfl
          · rcases hcase with ⟨rfl, -⟩ | ⟨hlt, rfl, -⟩ | ⟨-, -, rfl, -⟩
            · rw [hlist]
              exact hq
            · exact hq.advance hlt.le
            · exact hq.tail
          · intro hn m' hm'
            rw [Option.orElse_eq_orElse, Option.orElse_eq_or, Option.or_eq_none_iff] at hn
            have hzero := hu hn.1 m rfl
            have hempty : acceptedBytes events = [] := by
              by_contra hne
              rw [Session.firstOf, if_neg hne, hlist] at hn
              exact absurd hn.2 (by simp)
            rcases hcase with ⟨rfl, -⟩ | ⟨-, rfl, rfl⟩ | ⟨-, -, rfl, -⟩
            · rw [hlist] at hm'
              exact hu hn.1 m' hm'
            · rw [acceptedBytes_wrote] at hempty
              subst hempty
              rw [List.head?_cons, Option.mem_some_iff] at hm'
              rw [← hm', List.length_nil, Nat.add_zero]
              exact hzero
            · exact hq.behind m' (List.mem_of_mem_head? hm')
          · intro m' bs' hs
            cases hfst : first with
            | some f => exact hf m' bs' (by rw [hfst] at hs ⊢; exact hs)
            | none =>
                rw [hfst] at hs
                have hs : Session.firstOf ep events = some (m', bs') := hs
                rw [Session.firstOf, hlist] at hs
                split at hs
                · exact absurd hs (by simp)
                · rename_i hne
                  have hzero := hu hfst m rfl
                  rw [List.head?_cons, Option.map_some, Option.some.injEq, Prod.mk.injEq] at hs
                  obtain ⟨rfl, rfl⟩ := hs
                  rw [hfirst.resolve_right hne, hnext (by omega), hzero, List.drop_zero]
                  exact List.take_prefix _ _

/-! ### Steps -/

/-- The changes of an endpoint that do not touch its messages. -/
def SameMsgs (ep ep' : Endpoint) : Prop :=
  ep' = { ep with state := ep'.state, socket := ep'.socket }

theorem SessionInv.connecting {s : Session} (h : SessionInv s)
    (hsame : SameMsgs s.ep ep) (hkeep : s.ep.state ≠ .unconnected → ep = s.ep) :
    SessionInv (s.connecting ep) := by
  rw [SameMsgs] at hsame
  rw [Session.connecting]
  by_cases hnew : s.ep.state = .unconnected ∧ ep.state ≠ .unconnected
  · rw [if_pos hnew]
    have hclean := h.idle (by rw [hnew.1]; decide)
    have hclean' : Clean ep := by
      rw [hsame]
      exact hclean
    refine ⟨?_, ⟨[], ?_, pending_nil, framed_nil⟩, fun _ => hclean', fun _ => hclean'.2, ?_⟩
    · rw [hsame]
      exact h.queue
    · rw [Receives, hclean'.1]
    · exact fun _ _ h => absurd h (by simp)
  · rw [if_neg hnew]
    have hkept : s.ep.state = .unconnected → ep.state = .unconnected := fun hu =>
      not_not.mp fun hne => hnew ⟨hu, hne⟩
    have hsend : ep.sendMessageList = s.ep.sendMessageList := by rw [hsame]
    have hrecv : ep.currentlyReceivedMsg = s.ep.currentlyReceivedMsg := by rw [hsame]
    obtain ⟨p, hr, hp, hf⟩ := h.receives
    refine ⟨by rw [hsend]; exact h.queue, ⟨p, by rw [Receives, hrecv]; exact hr, hp, hf⟩, ?_,
      by rw [hsend]; exact h.unbegun, h.first⟩
    intro hne
    rw [Clean, hrecv, hsend]
    refine h.idle ?_
    by_cases hu : s.ep.state = .unconnected
    · rw [hu]
      decide
    · rwa [← hkeep hu]

theorem startConnect_same (ep : Endpoint) (rv : ℤ) :
    SameMsgs ep (ep.startConnect rv) ∧ (ep.state ≠ .unconnected → ep.startConnect rv = ep) := by
  rw [startConnect]
  refine ⟨?_, fun h => if_neg h⟩
  split
  · split
    · rfl
    · split <;> rfl
  · rfl

theorem addSockets_same (ep : Endpoint) (due : Bool) (rv : ℤ) : SameMsgs ep (ep.addSockets due rv) ∧
      (ep.state ≠ .unconnected → ep.addSockets due rv = ep) := by
  rw [addSockets]
  refine ⟨?_, fun h => if_neg fun h' => h h'.1⟩
  split
  · exact (startConnect_same ep rv).1
  · rfl

/-- Looking after the sockets keeps the invariant when the endpoint is clean at the moment of a
disconnect. -/
theorem SessionInv.checkSockets {b : Bool} {s : Session} (h : SessionInv s) {connectRv : ℤ}
    {writable : Option (ℤ × SocketWrite)} {readable : Option SocketRead}
    (hclean : DisconnectsClean (ipcEndpoint b b) s (.checkSockets connectRv writable readable)) :
    ∃ t, s.step (ipcEndpoint b b) (.checkSockets connectRv writable readable) = some t ∧
      SessionInv t := by
  obtain ⟨p, hr, hp, hf⟩ := h.receives
  have hnone : (s.firstWrite <|> Session.firstOf s.ep []) = s.firstWrite := by
    cases s.firstWrite <;> rfl
  have hquiet : ∀ ep', SameMsgs s.ep ep' → (ep'.state ≠ .connected → Clean s.ep) →
      s.ep.checkSockets (ipcEndpoint b b) connectRv writable readable =
        some ⟨false, ep', [], []⟩ →
      ∃ t, s.step (ipcEndpoint b b) (.checkSockets connectRv writable readable) = some t ∧
        SessionInv t := by
    intro ep' hsame hidle hcheck
    rw [SameMsgs] at hsame
    refine ⟨{ s with ep := ep' }, ?_, ⟨?_, ⟨p, ?_, hp, hf⟩, ?_, ?_, h.first⟩⟩
    · rw [Session.step, hcheck, Option.map_some, hsame, hnone]
      simp only [IoResult.after, List.append_nil, List.drop_length]
      rfl
    · rw [hsame]
      exact h.queue
    · rw [hsame]
      exact hr
    · intro hne
      have := hidle hne
      rw [hsame]
      exact this
    · rw [hsame]
      exact h.unbegun
  by_cases hconn : s.ep.state = .connected
  · by_cases hsock : s.ep.socket = true
    · obtain ⟨rv1, ep1, events, hwrite, hkeep, hqueue, hunbegun, hfirst⟩ :=
        checkWritable_first (b := b) h.queue h.unbegun h.first writable
      have hr1 : Receives ep1 p := by
        rw [hkeep]
        exact hr
      have hlist1 : ep1.receivedMessageList = s.ep.receivedMessageList := by rw [hkeep]
      by_cases hfatal : isFatal rv1 = true
      · have hcheck : s.ep.checkSockets (ipcEndpoint b b) connectRv writable readable =
            some ⟨true, ep1, events, []⟩ := by
          rw [Endpoint.checkSockets, if_pos hconn, if_pos hsock, hwrite, Option.bind_some]
          exact if_pos hfatal
        have hc := hclean _ hcheck rfl
        refine ⟨_, by rw [Session.step, hcheck]; rfl, hqueue, ⟨p, hr1, hp, ?_⟩, fun _ => hc,
          hunbegun, hfirst⟩
        simp only [hlist1, List.append_nil, List.drop_length]
        exact hf
      · obtain ⟨rv2, ep2, p', hread, hsame, hr2, hp2, hf2⟩ :=
          @checkReadable_framed _ b b _ _ _ hr1 hp hf readable
        have hcheck : s.ep.checkSockets (ipcEndpoint b b) connectRv writable readable =
            some ⟨isFatal rv2, ep2, events, bytesOf readable⟩ := by
          rw [Endpoint.checkSockets, if_pos hconn, if_pos hsock, hwrite, Option.bind_some]
          dsimp only
          rw [if_neg hfatal, hread]
          rfl
        have hafter : IoResult.after ⟨isFatal rv2, ep2, events, bytesOf readable⟩ =
            { ep2 with
              state := if isFatal rv2 then .unconnected else ep2.state
              socket := if isFatal rv2 then false else ep2.socket } := by
          cases hrv : isFatal rv2 <;> rfl
        have hsend : ep2.sendMessageList = ep1.sendMessageList := by rw [hsame]
        have hstate : ep2.state = .connected := by
          rw [hsame, hkeep]
          exact hconn
        refine ⟨_, by rw [Session.step, hcheck]; rfl, ?_⟩
        dsimp only
        rw [hafter]
        refine ⟨by rw [← hsend] at hqueue; exact hqueue, ⟨p', hr2, hp2, ?_⟩, ?_,
          by rw [← hsend] at hunbegun; exact hunbegun, hfirst⟩
        · rw [← hlist1]
          exact hf2
        · intro hne
          cases hrv : isFatal rv2 with
          | false =>
              rw [hrv] at hne
              exact absurd hstate hne
          | true => exact hclean _ hcheck hrv
    · refine hquiet s.ep rfl (fun hne => absurd hconn hne) ?_
      rw [Endpoint.checkSockets, if_pos hconn, if_neg hsock]
  · have hidle := h.idle hconn
    refine hquiet _ ?_ (fun _ => hidle) (by rw [Endpoint.checkSockets, if_neg hconn])
    rw [checkConnecting]
    split
    · split <;> rfl
    · rfl

theorem Session.step_sound {b : Bool} {s : Session} {o : SessionOp} (h : SessionInv s)
    (hclean : DisconnectsClean (ipcEndpoint b b) s o) :
    ∃ t, s.step (ipcEndpoint b b) o = some t ∧ SessionInv t := by
  cases o with
  | addSendMessage m =>
      have hhead : (∀ m ∈ s.ep.sendMessageList.head?, m.currentPos = 0) →
          ∀ m' ∈ (s.ep.addSendMessage m.1).sendMessageList.head?, m'.currentPos = 0 := by
        intro hz m' hm'
        rw [addSendMessage] at hm'
        cases hq : s.ep.sendMessageList with
        | nil =>
            simp only [hq, List.nil_append, List.head?_cons, Option.mem_some_iff] at hm'
            rw [← hm']
            rfl
        | cons first rest =>
            simp only [hq, List.cons_append, List.head?_cons] at hm'
            exact hz m' (by rw [hq]; exact hm')
      exact ⟨_, rfl, h.queue.add m.2, h.receives, fun hne => ⟨(h.idle hne).1, hhead (h.idle hne).2⟩,
        fun hn => hhead (h.unbegun hn), h.first⟩
  | takeFirstReceivedMessage =>
      exact ⟨_, rfl, h.queue, h.receives, h.idle, h.unbegun, h.first⟩
  | startConnect rv =>
      obtain ⟨hsame, hkeep⟩ := startConnect_same s.ep rv
      exact ⟨_, rfl, h.connecting hsame hkeep⟩
  | disconnect => exact ⟨_, rfl, h.queue, h.receives, fun _ => hclean, h.unbegun, h.first⟩
  | addSockets due rv =>
      obtain ⟨hsame, hkeep⟩ := addSockets_same s.ep due rv
      exact ⟨_, rfl, h.connecting hsame hkeep⟩
  | checkSockets connectRv writable readable => exact h.checkSockets hclean

/-- In a run in which the endpoint is clean whenever `GWEN_MsgEndpoint_Disconnect` is called, the
messages of the present connection are intact at all times. -/
theorem reconnects_intact (callbacks : Bool) (groupId : ℤ) (ops : List SessionOp)
    (h : Along (Session.step (ipcEndpoint callbacks callbacks))
      (DisconnectsClean (ipcEndpoint callbacks callbacks)) (Session.new groupId) ops) :
    ∀ pre, pre <+: ops →
      ∃ t, exec (Session.step (ipcEndpoint callbacks callbacks)) (Session.new groupId) pre = some t ∧
        Intact t := by
  intro pre hpre
  obtain ⟨t, ht, hinv⟩ := Along.exec_initial (fun s o hs ho => Session.step_sound hs ho)
    (sessionInv_new groupId) h pre hpre
  exact ⟨t, ht, hinv.intact⟩

/-- An IPC message without payload. -/
def emptyIpcMsg : List UInt8 := ipcWire 1 1 1 5 0 []

/-- The endpoint receives a message, disconnects and connects again. -/
theorem reconnects_intact_clean : ∃ t, exec (Session.step (ipcEndpoint false false)) (Session.new 0)
      [.startConnect 0, .checkSockets 0 none (some (.data emptyIpcMsg)),
        .checkSockets 0 none (some (.data [])), .addSockets true 0,
        .checkSockets 0 none (some (.data emptyIpcMsg))] = some t ∧ Intact t :=
  reconnects_intact false 0 _ (by decide +kernel) _ List.prefix_rfl

/-- The connection ends inside a message.  The next one, on a new connection, is appended to what
has been received of it. -/
theorem reconnects_intact_fails :
    ¬ ∀ (callbacks : Bool) (groupId : ℤ) (ops : List SessionOp), ∀ pre, pre <+: ops →
      ∃ t, exec (Session.step (ipcEndpoint callbacks callbacks)) (Session.new groupId) pre = some t ∧
        Intact t := by
  intro h
  obtain ⟨t, ht, ⟨p, hf⟩, -⟩ := h false 0
    [.startConnect 0, .checkSockets 0 none (some (.data (emptyIpcMsg.take 9))),
      .checkSockets 0 none (some (.data [])), .addSockets true 0,
      .checkSockets 0 none (some (.data emptyIpcMsg))] _ List.prefix_rfl
  have hwrong : (exec (Session.step (ipcEndpoint false false)) (Session.new 0)
      [.startConnect 0, .checkSockets 0 none (some (.data (emptyIpcMsg.take 9))),
        .checkSockets 0 none (some (.data [])), .addSockets true 0,
        .checkSockets 0 none (some (.data emptyIpcMsg))]).map (fun t =>
          (t.input, t.got.map Msg.bytes)) =
      some (emptyIpcMsg, [emptyIpcMsg.take 9 ++ emptyIpcMsg.take 7]) := by
    decide +kernel
  rw [ht, Option.map_some, Option.some.injEq, Prod.mk.injEq] at hwrong
  obtain ⟨hin, hgot⟩ := hwrong
  rw [hin] at hf
  obtain ⟨n, hn, -⟩ := hf [emptyIpcMsg] [] (by
    rw [List.forall_mem_singleton]
    exact isFrame_ipcWire 1 1 1 5 0 (by decide)) (by simp)
  rw [hgot] at hn
  cases n with
  | zero => exact absurd hn (by simp)
  | succ n =>
      rw [List.take_succ_cons, List.take_nil] at hn
      exact absurd hn (by decide)

end Gwenhywfar
