import Gwenhywfar.Msgio.Endpoint
import Mathlib.Data.List.Infix

/-! # Messages out of a stream of bytes

An endpoint puts together the messages from the pieces of the stream that its socket reads.

* `Receives ep p`: the endpoint holds the bytes `p` of a message that is not complete.
* `round_adds` and `round_fails` tell what one round of the loop does, whatever the bytes are.
* `distribute_frames`: on a stream of frames the loop returns 0, and the messages that it adds are
  the frames that have become complete.
* `distribute_returns`: on any bytes the loop ends. -/

namespace Gwenhywfar.Endpoint

/-- The number of bytes that an IPC endpoint waits for when it holds the bytes `p`. -/
def bytesNeeded (p : List UInt8) : ℤ :=
  if p.length < 16 then (16 - p.length : ℕ)
  else intOfDiff32 (Msg.ofLittleEndian (p.take 4)) p.length

theorem getBytesNeeded_holds {msg : Msg} {p : List UInt8} (h : msg.Holds p) :
    getBytesNeededForMessage msg = bytesNeeded p := by
  have htake : 16 ≤ p.length → msg.buffer.take 4 = p.take 4 := by
    intro hlen
    conv_rhs => rw [← Msg.bytes_eq h, List.take_take, Nat.min_eq_left (by omega)]
  rw [getBytesNeededForMessage, bytesNeeded, h.count, msgIpcOffsPayload]
  by_cases hlen : p.length < 16
  · rw [if_pos hlen, if_pos hlen]
  · rw [if_neg hlen, if_neg hlen, ipcMsgGetMsgSize, Msg.getUint32At, msgIpcOffsSize, h.count,
      if_pos (by omega), List.drop_zero, htake (by omega)]

/-- The endpoint holds the bytes `p` of a message that is not complete. -/
def Receives (ep : Endpoint) (p : List UInt8) : Prop :=
  match ep.currentlyReceivedMsg with
  | none => p = []
  | some msg => msg.Holds p ∧ p ≠ []

def SameOutput (ep ep' : Endpoint) : Prop :=
  ep' = { ep with
    receivedMessageList := ep'.receivedMessageList
    currentlyReceivedMsg := ep'.currentlyReceivedMsg }

theorem SameOutput.trans {ep ep' ep'' : Endpoint} (h : SameOutput ep ep')
    (h' : SameOutput ep' ep'') : SameOutput ep ep'' := by
  rw [SameOutput] at h h' ⊢
  rw [h'] at ⊢
  rw [h]

def receivedBytes (ep : Endpoint) : List (List UInt8) := ep.receivedMessageList.map Msg.bytes

theorem currentMsg_holds {ep : Endpoint} {p : List UInt8} (h : Receives ep p) :
    ep.currentMsg.Holds p := by
  unfold Receives at h
  unfold currentMsg
  cases hc : ep.currentlyReceivedMsg with
  | none =>
      rw [hc] at h
      subst h
      have hn := Msg.new_holds ep.defaultMessageSize
      exact ⟨hn.count, hn.pos, hn.size, hn.fits, hn.cells⟩
  | some msg =>
      rw [hc] at h
      exact h.1

theorem round_fails {ep : Endpoint} {p buffer : List UInt8} (h : Receives ep p)
    (hneg : bytesNeeded p < 0) :
    ∃ ep', distributeRound getBytesNeededForMessage ep buffer = some (.done errorIo ep') ∧
      Receives ep' p ∧ ep'.receivedMessageList = ep.receivedMessageList ∧ SameOutput ep ep' := by
  have hh := currentMsg_holds h
  have hp : p ≠ [] := by
    rintro rfl
    exact absurd hneg (by decide)
  refine ⟨{ ep with currentlyReceivedMsg := some ep.currentMsg }, ?_, ⟨hh, hp⟩, rfl, rfl⟩
  simp only [distributeRound, getBytesNeeded_holds hh, if_neg (Int.ne_of_lt hneg), if_pos hneg]

/-- A round takes the bytes that the message needs, as far as they are there.  The message is
handed over when it needs no more. -/
theorem round_adds {ep : Endpoint} {p buffer : List UInt8} (h : Receives ep p) {n : ℕ}
    (hpos : 0 < bytesNeeded p) (hn : n = min (bytesNeeded p).toNat buffer.length)
    (hbuffer : buffer ≠ []) (hlt : p.length + n + 4096 < 2 ^ 32) :
    ∃ ep', distributeRound getBytesNeededForMessage ep buffer = some (.next ep' (buffer.drop n)) ∧
      SameOutput ep ep' ∧
      if bytesNeeded (p ++ buffer.take n) = 0 then
        ep'.receivedBytes = ep.receivedBytes ++ [p ++ buffer.take n] ∧ Receives ep' []
      else
        ep'.receivedBytes = ep.receivedBytes ∧ Receives ep' (p ++ buffer.take n) := by
  have hh := currentMsg_holds h
  have hlen := List.length_pos_iff.mpr hbuffer
  have htake : (buffer.take n).length = n := by rw [List.length_take]; omega
  have hne : p ++ buffer.take n ≠ [] := by
    rw [← List.length_pos_iff, List.length_append, htake]
    omega
  obtain ⟨msg', hadd, hh', -⟩ := Msg.addBytes_holds hh (buffer.take n) (by rw [htake]; exact hlt)
  have hround : distributeRound getBytesNeededForMessage ep buffer =
      some (if bytesNeeded (p ++ buffer.take n) = 0 then
        .next (addReceivedMessage { ep with currentlyReceivedMsg := none } msg') (buffer.drop n)
      else .next { ep with currentlyReceivedMsg := some msg' } (buffer.drop n)) := by
    simp only [distributeRound, getBytesNeeded_holds hh, if_neg (Int.ne_of_gt hpos),
      if_neg (Int.not_lt.mpr (Int.le_of_lt hpos)), ← hn, hadd, Option.map_some,
      getBytesNeeded_holds hh']
  by_cases hdone : bytesNeeded (p ++ buffer.take n) = 0
  · refine ⟨addReceivedMessage { ep with currentlyReceivedMsg := none } msg',
      by rw [hround, if_pos hdone], rfl, ?_⟩
    rw [if_pos hdone]
    refine ⟨?_, rfl⟩
    rw [receivedBytes, addReceivedMessage, List.map_append, ← hh'.cells]
    rfl
  · refine ⟨{ ep with currentlyReceivedMsg := some msg' }, by rw [hround, if_neg hdone], rfl, ?_⟩
    rw [if_neg hdone]
    exact ⟨rfl, hh', hne⟩

/-! ### Streams of frames -/

/-- The bytes of one message, whose length field is right. -/
structure IsFrame (w : List UInt8) : Prop where
  size : Msg.ofLittleEndian (w.take 4) = w.length
  header : 16 ≤ w.length
  small : w.length < 2 ^ 31

theorem isFrame_ipcWire (protoId protoVer : UInt8) (code : UInt16) (msgId refMsgId : UInt32)
    {payload : List UInt8} (h : 16 + payload.length < 2 ^ 31) :
    IsFrame (ipcWire protoId protoVer code msgId refMsgId payload) := by
  have hlen := length_ipcWire protoId protoVer code msgId refMsgId payload
  exact ⟨by rw [size_ipcWire _ _ _ _ _ h, hlen], by omega, by omega⟩

theorem bytesNeeded_frame {w p : List UInt8} (hw : IsFrame w) (hp : p <+: w) :
    bytesNeeded p = if p.length < 16 then (16 - p.length : ℕ) else (w.length - p.length : ℕ) := by
  have hle := hp.length_le
  have hsmall := hw.small
  rw [bytesNeeded]
  by_cases hlen : p.length < 16
  · rw [if_pos hlen, if_pos hlen]
  · obtain ⟨r, rfl⟩ := hp
    have htake : (p ++ r).take 4 = p.take 4 := List.take_append_of_le_length (by omega)
    rw [if_neg hlen, if_neg hlen, ← htake, hw.size]
    exact intOfDiff32_of_le hle (by omega)

/-- The endpoint is inside the first of the frames that are still to come, or before it. -/
def Within (p : List UInt8) (todo : List (List UInt8)) : Prop :=
  p = [] ∨ ∃ w, todo.head? = some w ∧ p <+: w ∧ p.length < w.length

/-- On a stream of frames the loop returns 0, and it hands over the frames that have become
complete. -/
theorem distributeLoop_frames : ∀ (k : ℕ) {ep : Endpoint} {p buffer rest : List UInt8}
    {todo : List (List UInt8)}, buffer.length ≤ k → Receives ep p → (∀ w ∈ todo, IsFrame w) →
    p ++ (buffer ++ rest) = todo.flatten → Within p todo →
    ∃ n ep' p', distributeLoop getBytesNeededForMessage k ep buffer = some (0, ep') ∧
      ep'.receivedBytes = ep.receivedBytes ++ todo.take n ∧ Receives ep' p' ∧
      SameOutput ep ep' ∧ p ++ buffer = (todo.take n).flatten ++ p' ∧ Within p' (todo.drop n)
  | k, ep, p, [], rest, todo, _, hr, _, _, hw =>
      ⟨0, ep, p, by cases k <;> rfl, by simp, hr, rfl, by simp, by simpa using hw⟩
  | 0, _, _, _ :: _, _, _, hk, _, _, _, _ => absurd hk (by simp)
  | k + 1, ep, p, b :: bs, rest, [], _, _, _, hs, _ => by simp at hs
  | k + 1, ep, p, b :: bs, rest, w :: todo, hk, hr, hf, hs, hw => by
      have hframe := hf w List.mem_cons_self
      have hheader := hframe.header
      have hsmall := hframe.small
      have hlt : p <+: w ∧ p.length < w.length := by
        rcases hw with rfl | ⟨w', hw', h⟩
        · exact ⟨List.nil_prefix, by rw [List.length_nil]; omega⟩
        · rw [List.head?_cons, Option.some.injEq] at hw'
          exact hw' ▸ h
      have hneed := bytesNeeded_frame hframe hlt.1
      have hpos : 0 < bytesNeeded p := by rw [hneed]; split <;> omega
      have hle : (bytesNeeded p).toNat ≤ w.length - p.length := by rw [hneed]; split <;> omega
      generalize hn : min (bytesNeeded p).toNat (b :: bs).length = n
      have hn0 : 0 < n := by simp only [List.length_cons] at hn; omega
      have htake : ((b :: bs).take n).length = n := by rw [List.length_take]; omega
      have hpre : p ++ (b :: bs).take n <+: w := by
        obtain ⟨r, hr'⟩ := hlt.1
        have hstream : (b :: bs) ++ rest = r ++ todo.flatten := by
          rw [List.flatten_cons, ← hr', List.append_assoc] at hs
          exact List.append_cancel_left hs
        have hrn : n ≤ r.length := by
          have := congrArg List.length hr'
          rw [List.length_append] at this
          omega
        have htr : (b :: bs).take n = r.take n := by
          have htl : ((b :: bs) ++ rest).take n = (b :: bs).take n :=
            List.take_append_of_le_length (by omega)
          rw [← htl, hstream, List.take_append_of_le_length hrn]
        rw [htr, ← hr', List.prefix_append_right_inj]
        exact List.take_prefix n r
      obtain ⟨ep1, hround, hsame, hcase⟩ :=
        round_adds hr hpos hn.symm (List.cons_ne_nil b bs) (by omega)
      have hneed' := bytesNeeded_frame hframe hpre
      have hlen' : (p ++ (b :: bs).take n).length = p.length + n := by
        rw [List.length_append, htake]
      have hsplit : p ++ (b :: bs) = (p ++ (b :: bs).take n) ++ (b :: bs).drop n := by
        rw [List.append_assoc, List.take_append_drop]
      have hdrop : ((b :: bs).drop n).length ≤ k := by
        rw [List.length_drop]
        omega
      rw [hlen'] at hneed'
      by_cases hdone : p.length + n = w.length
      · rw [if_pos (by rw [hneed']; split <;> omega)] at hcase
        have hwhole : p ++ (b :: bs).take n = w :=
          hpre.eq_of_length (by rw [hlen', hdone])
        have hs' : [] ++ ((b :: bs).drop n ++ rest) = todo.flatten := by
          rw [← List.append_assoc, hsplit, hwhole, List.append_assoc, List.flatten_cons] at hs
          exact List.append_cancel_left hs
        obtain ⟨m, ep', p', hrun, hgot, hr', hsame', hcut, hwith⟩ :=
          distributeLoop_frames k hdrop hcase.2 (fun v hv => hf v (List.mem_cons_of_mem w hv)) hs'
            (Or.inl rfl)
        refine ⟨m + 1, ep', p', ?_, ?_, hr', hsame.trans hsame', ?_, hwith⟩
        · rw [distributeLoop, hround]
          exact hrun
        · rw [hgot, hcase.1, hwhole, List.take_succ_cons, List.append_assoc, List.singleton_append]
        · rw [hsplit, hwhole, List.take_succ_cons, List.flatten_cons, List.append_assoc, ← hcut,
            List.nil_append]
      · have hshort : p.length + n < w.length := by
          have := hpre.length_le
          omega
        rw [if_neg (by rw [hneed']; split <;> omega)] at hcase
        obtain ⟨m, ep', p', hrun, hgot, hr', hsame', hcut, hwith⟩ :=
          distributeLoop_frames k hdrop hcase.2 hf
            (by rw [← hs, ← List.append_assoc, ← hsplit, List.append_assoc])
            (Or.inr ⟨w, rfl, hpre, by rw [hlen']; exact hshort⟩)
        refine ⟨m, ep', p', ?_, ?_, hr', hsame.trans hsame', ?_, hwith⟩
        · rw [distributeLoop, hround]
          exact hrun
        · rw [hgot, hcase.1]
        · rw [hsplit, hcut]

/-! ### Any bytes -/

/-- The bytes of a message that the loop leaves behind: it needs more of them, or it has a length
that cannot be right. -/
structure Pending (p : List UInt8) : Prop where
  needs : bytesNeeded p ≠ 0
  bound : p.length ≤ 16 ∨
    p.length ≤ Msg.ofLittleEndian (p.take 4) ∧ Msg.ofLittleEndian (p.take 4) < 2 ^ 31 + 16

theorem pending_nil : Pending [] := ⟨by decide, Or.inl (Nat.zero_le 16)⟩

theorem ofLittleEndian_lt : ∀ bs : List UInt8, Msg.ofLittleEndian bs < 256 ^ bs.length
  | [] => Nat.one_pos
  | b :: bs => by
      have hb := b.toNat_lt
      have ih := ofLittleEndian_lt bs
      rw [Msg.ofLittleEndian, List.length_cons, Nat.pow_succ']
      omega

theorem bound_append {p x : List UInt8} (h : Pending p) (hpos : 0 < bytesNeeded p)
    (hx : x.length ≤ (bytesNeeded p).toNat) :
    (p ++ x).length ≤ 16 ∨ (p ++ x).length ≤ Msg.ofLittleEndian ((p ++ x).take 4) ∧
      Msg.ofLittleEndian ((p ++ x).take 4) < 2 ^ 31 + 16 := by
  rw [List.length_append]
  by_cases hlen : p.length < 16
  · rw [bytesNeeded, if_pos hlen] at hx
    omega
  · have hlt : Msg.ofLittleEndian (p.take 4) < 2 ^ 32 := by
      have := ofLittleEndian_lt (p.take 4)
      rwa [List.length_take, Nat.min_eq_left (by omega)] at this
    have hbound := h.bound
    rw [List.take_append_of_le_length (by omega)]
    rw [bytesNeeded, if_neg hlen] at hpos hx
    generalize Msg.ofLittleEndian (p.take 4) = size at *
    dsimp only [intOfDiff32] at hpos hx
    split at hpos <;> omega

/-- The loop ends, whatever the bytes are. -/
theorem distributeLoop_returns : ∀ (k : ℕ) {ep : Endpoint} {p buffer : List UInt8},
    buffer.length ≤ k → Receives ep p → Pending p →
    ∃ rv ep' p', distributeLoop getBytesNeededForMessage k ep buffer = some (rv, ep') ∧
      SameOutput ep ep' ∧ Receives ep' p' ∧ Pending p'
  | k, ep, p, [], _, hr, hp => ⟨0, ep, p, by cases k <;> rfl, rfl, hr, hp⟩
  | 0, _, _, _ :: _, hk, _, _ => absurd hk (by simp)
  | k + 1, ep, p, b :: bs, hk, hr, hp => by
      rcases Int.lt_or_gt_of_ne hp.needs with hneg | hpos
      · obtain ⟨ep', hround, hr', -, hsame⟩ := @round_fails _ _ (b :: bs) hr hneg
        exact ⟨errorIo, ep', p, by rw [distributeLoop, hround], hsame, hr', hp⟩
      · generalize hn : min (bytesNeeded p).toNat (b :: bs).length = n
        have hn0 : 0 < n := by simp only [List.length_cons] at hn; omega
        have htake : ((b :: bs).take n).length = n := by rw [List.length_take]; omega
        have hbound := bound_append (x := (b :: bs).take n) hp hpos (by omega)
        have hlen' : (p ++ (b :: bs).take n).length = p.length + n := by
          rw [List.length_append, htake]
        have hdrop : ((b :: bs).drop n).length ≤ k := by
          rw [List.length_drop]
          omega
        obtain ⟨ep1, hround, hsame, hcase⟩ :=
          round_adds hr hpos hn.symm (List.cons_ne_nil b bs) (by omega)
        by_cases hdone : bytesNeeded (p ++ (b :: bs).take n) = 0
        · rw [if_pos hdone] at hcase
          obtain ⟨rv, ep', p', hrun, hsame', h⟩ :=
            distributeLoop_returns k hdrop hcase.2 pending_nil
          exact ⟨rv, ep', p', by rw [distributeLoop, hround]; exact hrun, hsame.trans hsame', h⟩
        · rw [if_neg hdone] at hcase
          obtain ⟨rv, ep', p', hrun, hsame', h⟩ :=
            distributeLoop_returns k hdrop hcase.2 ⟨hdone, hbound⟩
          exact ⟨rv, ep', p', by rw [distributeLoop, hround]; exact hrun, hsame.trans hsame', h⟩

/-! ### Runs -/

/-- `_distributeBufferContent` is called for one piece after the other, whatever it returns; the
results of the calls and the endpoint after them. -/
def distributeAll (xep : MsgIoEndpoint) :
    Endpoint → List (List UInt8) → Option (List ℤ × Endpoint)
  | ep, [] => some ([], ep)
  | ep, buffer :: pieces =>
      match distributeBufferContent xep ep buffer with
      | none => none
      | some (rv, ep) => (distributeAll xep ep pieces).map fun r => (rv :: r.1, r.2)

theorem distributeAll_returns (xep : MsgIoEndpoint)
    (hx : xep.getBytesNeededFn = some getBytesNeededForMessage) :
    ∀ (pieces : List (List UInt8)) {ep : Endpoint} {p : List UInt8}, Receives ep p → Pending p →
      ∃ r, distributeAll xep ep pieces = some r
  | [], ep, _, _, _ => ⟨([], ep), rfl⟩
  | buffer :: pieces, ep, p, hr, hp => by
      obtain ⟨rv, ep', p', hrun, -, hr', hp'⟩ := distributeLoop_returns buffer.length le_rfl hr hp
      obtain ⟨r, hr⟩ := distributeAll_returns xep hx pieces hr' hp'
      exact ⟨(rv :: r.1, r.2), by simp only [distributeAll, distributeBufferContent, hx, hrun, hr,
        Option.map_some]⟩

theorem distributeAll_frames (xep : MsgIoEndpoint)
    (hx : xep.getBytesNeededFn = some getBytesNeededForMessage) {rest : List UInt8} :
    ∀ (pieces : List (List UInt8)) {ep : Endpoint} {p : List UInt8} {todo : List (List UInt8)},
      Receives ep p → (∀ w ∈ todo, IsFrame w) → p ++ (pieces.flatten ++ rest) = todo.flatten →
      Within p todo → ∃ n ep' p',
        distributeAll xep ep pieces = some (List.replicate pieces.length 0, ep') ∧
        ep'.receivedBytes = ep.receivedBytes ++ todo.take n ∧ Receives ep' p' ∧
        p ++ pieces.flatten = (todo.take n).flatten ++ p' ∧ Within p' (todo.drop n)
  | [], ep, p, todo, hr, _, _, hw =>
      ⟨0, ep, p, rfl, by simp, hr, by simp, by simpa using hw⟩
  | buffer :: pieces, ep, p, todo, hr, hf, hs, hw => by
      rw [List.flatten_cons, List.append_assoc] at hs
      obtain ⟨n, ep1, p1, hrun1, hgot1, hr1, -, hcut1, hw1⟩ :=
        distributeLoop_frames buffer.length le_rfl hr hf hs hw
      have hs' : p1 ++ (pieces.flatten ++ rest) = (todo.drop n).flatten := by
        rw [← List.append_assoc, hcut1, List.append_assoc] at hs
        conv_rhs at hs => rw [← List.take_append_drop n todo, List.flatten_append]
        exact List.append_cancel_left hs
      obtain ⟨m, ep', p', hrun, hgot, hr', hcut, hw'⟩ :=
        distributeAll_frames xep hx pieces hr1 (fun w h => hf w (List.mem_of_mem_drop h)) hs' hw1
      refine ⟨n + m, ep', p', ?_, ?_, hr', ?_, by rwa [List.drop_drop] at hw'⟩
      · simp only [distributeAll, distributeBufferContent, hx, hrun1, hrun, Option.map_some,
          List.length_cons, List.replicate_succ]
      · rw [hgot, hgot1, List.take_add, List.append_assoc]
      · rw [List.flatten_cons, ← List.append_assoc, hcut1, List.append_assoc, hcut, List.take_add,
          List.flatten_append, List.append_assoc]

/-- The arguments of a call of `GWEN_IpcMsg_new` whose message is smaller than 2 GiB. -/
structure IpcArgs where
  protoId : UInt8
  protoVer : UInt8
  code : UInt16
  msgId : UInt32
  refMsgId : UInt32
  payload : List UInt8
  small : 16 + payload.length < 2 ^ 31

/-- The call of `GWEN_IpcMsg_new`. -/
def IpcArgs.newMsg (a : IpcArgs) : Option Msg :=
  ipcMsgNew a.protoId a.protoVer a.code a.msgId a.refMsgId a.payload

/-- After these bytes of the stream the endpoint has received the messages that are complete in
them, and what is left is a proper part of the next one. -/
def Reassembled (msgs : List Msg) (stream : List UInt8) (ep : Endpoint) : Prop :=
  ∃ n, ep.receivedBytes = (msgs.take n).map Msg.bytes ∧
    match ep.currentlyReceivedMsg with
    | none => stream = ((msgs.take n).map Msg.bytes).flatten
    | some msg => stream = ((msgs.take n).map Msg.bytes).flatten ++ msg.bytes ∧
        ∃ next, msgs[n]? = some next ∧ msg.bytes <+: next.bytes ∧ msg.bytes ≠ next.bytes

theorem newMsg_frames : ∀ args : List IpcArgs,
    ∃ msgs, args.mapM IpcArgs.newMsg = some msgs ∧ ∀ w ∈ msgs.map Msg.bytes, IsFrame w
  | [] => ⟨[], rfl, by simp⟩
  | a :: args => by
      obtain ⟨msgs, hmsgs, hf⟩ := newMsg_frames args
      obtain ⟨msg, hmsg, hh⟩ :=
        ipcMsgNew_holds a.protoId a.protoVer a.code a.msgId a.refMsgId a.small
      refine ⟨msg :: msgs, ?_, ?_⟩
      · have hnew : a.newMsg = some msg := hmsg
        simp only [List.mapM_cons, hnew, hmsgs, Option.bind_eq_bind, Option.bind_some]
        rfl
      · rw [List.map_cons, List.forall_mem_cons, hh.cells]
        exact ⟨isFrame_ipcWire _ _ _ _ _ a.small, hf⟩

theorem rest_eq_nil {todo : List (List UInt8)} {p : List UInt8} (hf : ∀ w ∈ todo, IsFrame w)
    (hw : Within p todo) (h : p = todo.flatten) : todo = [] := by
  cases todo with
  | nil => rfl
  | cons w todo =>
      have hlen := congrArg List.length h
      have hheader := (hf w List.mem_cons_self).header
      rw [List.flatten_cons, List.length_append] at hlen
      rcases hw with rfl | ⟨w', hw', -, hlt⟩
      · rw [List.length_nil] at hlen
        omega
      · rw [List.head?_cons, Option.some.injEq] at hw'
        subst hw'
        omega

theorem reassembled_of_within {msgs : List Msg} {stream p : List UInt8} {ep : Endpoint} {n : ℕ}
    (hgot : ep.receivedBytes = (msgs.map Msg.bytes).take n) (hr : Receives ep p)
    (hcut : stream = ((msgs.map Msg.bytes).take n).flatten ++ p)
    (hw : Within p ((msgs.map Msg.bytes).drop n)) : Reassembled msgs stream ep := by
  refine ⟨n, by rw [hgot, List.map_take], ?_⟩
  unfold Receives at hr
  cases hc : ep.currentlyReceivedMsg with
  | none =>
      rw [hc] at hr
      subst hr
      rw [hcut, List.append_nil, List.map_take]
  | some msg =>
      rw [hc] at hr
      refine ⟨by rw [hcut, hr.1.cells, List.map_take], ?_⟩
      rcases hw with rfl | ⟨w, hw, hpre, hlt⟩
      · exact absurd rfl hr.2
      · rw [List.head?_drop, List.getElem?_map, Option.map_eq_some_iff] at hw
        obtain ⟨next, hnext, rfl⟩ := hw
        rw [hr.1.cells]
        exact ⟨next, hnext, hpre, fun h => by rw [h] at hlt; omega⟩

/-- An endpoint that is fed with the stream of IPC messages, cut into any pieces, returns 0 every
time and receives the messages.  Fed with any pieces at all, every call returns. -/
theorem distribute_reassembles (ep : Endpoint) (start finish : Bool) :
    let xep := ipcEndpoint start finish
    let fresh := { ep with receivedMessageList := [], currentlyReceivedMsg := none }
    (∀ args : List IpcArgs, ∃ msgs, args.mapM IpcArgs.newMsg = some msgs ∧
      ∀ pieces rest, pieces.flatten ++ rest = (msgs.map Msg.bytes).flatten →
        ∃ ep', distributeAll xep fresh pieces = some (List.replicate pieces.length 0, ep') ∧
          Reassembled msgs pieces.flatten ep' ∧
          (rest = [] → ep'.receivedBytes = msgs.map Msg.bytes ∧
            ep'.currentlyReceivedMsg = none)) ∧
    ∀ pieces, ∃ rvs ep', distributeAll xep fresh pieces = some (rvs, ep') := by
  intro xep fresh
  have hfresh : Receives fresh [] := rfl
  constructor
  · intro args
    obtain ⟨msgs, hmsgs, hf⟩ := newMsg_frames args
    refine ⟨msgs, hmsgs, fun pieces rest hs => ?_⟩
    obtain ⟨n, ep', p', hrun, hgot, hr, hcut, hw⟩ :=
      distributeAll_frames xep rfl pieces hfresh hf hs (Or.inl rfl)
    rw [List.nil_append] at hcut
    rw [show fresh.receivedBytes = [] from rfl, List.nil_append] at hgot
    refine ⟨ep', hrun, reassembled_of_within hgot hr hcut hw, ?_⟩
    rintro rfl
    have hall : (msgs.map Msg.bytes).drop n = [] := by
      refine rest_eq_nil (fun w h => hf w (List.mem_of_mem_drop h)) hw ?_
      rw [List.append_nil, hcut] at hs
      conv_rhs at hs => rw [← List.take_append_drop n (msgs.map Msg.bytes), List.flatten_append]
      exact List.append_cancel_left hs
    have hnil : p' = [] := by
      rw [hall] at hw
      rcases hw with h | ⟨w, hw, -⟩
      · exact h
      · exact absurd hw (by simp)
    refine ⟨by rw [hgot, List.take_of_length_le (List.drop_eq_nil_iff.mp hall)], ?_⟩
    subst hnil
    unfold Receives at hr
    cases hc : ep'.currentlyReceivedMsg with
    | none => rfl
    | some msg =>
        rw [hc] at hr
        exact absurd rfl hr.2
  · intro pieces
    obtain ⟨⟨rvs, ep'⟩, h⟩ :=
      distributeAll_returns xep rfl pieces hfresh pending_nil
    exact ⟨rvs, ep', h⟩
end Gwenhywfar.Endpoint
