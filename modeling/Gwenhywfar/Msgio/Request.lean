import Gwenhywfar.Lib.Run
import Mathlib.Algebra.BigOperators.Fin
import Mathlib.Logic.Function.Basic

/-! # Endpoints of requests

An endpoint has a counter of references, and a request refers to an endpoint.  A call has no outcome
when it uses an endpoint or a request that is freed, or when a counter does not fit an `int`.

* `setEndpoint`: `GWEN_MsgRequest_SetEndpoint`, which releases the new endpoint instead of the one
  that is replaced.
* `State.explicit`: the references that a caller has taken and not yet released.
* `holdsEndpoints`: the counters are those of the references as long as no endpoint is replaced by
  another one. -/

namespace Gwenhywfar.MsgRequest

open Function

/-- The counters of the endpoints and the endpoints of the requests, by pointer; what is freed or
not yet created is not there. -/
structure Heap where
  endpoints : ℕ → Option ℕ
  nextEndpoint : ℕ
  requests : ℕ → Option (Option ℕ)
  nextRequest : ℕ

namespace Heap

def writeEndpoint (h : Heap) (ep : ℕ) (refCount : Option ℕ) : Heap :=
  { h with endpoints := update h.endpoints ep refCount }

def writeRequest (h : Heap) (rq : ℕ) (endpoint : Option (Option ℕ)) : Heap :=
  { h with requests := update h.requests rq endpoint }

/-- `GWEN_MsgEndpoint_new`. -/
def endpointNew (h : Heap) : Heap :=
  { h.writeEndpoint h.nextEndpoint (some 1) with nextEndpoint := h.nextEndpoint + 1 }

/-- `GWEN_MsgEndpoint_Attach`. -/
def endpointAttach (h : Heap) (ep : ℕ) : Option Heap :=
  (h.endpoints ep).bind fun refCount =>
    if refCount = 0 then some h
    else if refCount + 1 < 2 ^ 31 then
      some (h.writeEndpoint ep (some (refCount + 1)))
    else none

/-- `GWEN_MsgEndpoint_free`. -/
def endpointFree (h : Heap) (ep : ℕ) : Option Heap :=
  (h.endpoints ep).map fun refCount =>
    h.writeEndpoint ep (if refCount > 1 then some (refCount - 1) else none)

/-- `GWEN_MsgRequest_new`. -/
def requestNew (h : Heap) : Heap :=
  { h.writeRequest h.nextRequest (some none) with nextRequest := h.nextRequest + 1 }

def forEndpoint (f : Heap → ℕ → Option Heap) (h : Heap) (ep : Option ℕ) : Option Heap :=
  match ep with
  | none => some h
  | some ep => f h ep

/-- `GWEN_MsgRequest_SetEndpoint`. -/
def setEndpoint (h : Heap) (rq : ℕ) (ep : Option ℕ) : Option Heap :=
  (h.requests rq).bind fun endpoint =>
    (forEndpoint endpointAttach h ep).bind fun h =>
      -- `ep` is released here, not `rq->endpoint`
      (if endpoint ≠ none then forEndpoint endpointFree h ep else some h).map fun h =>
        h.writeRequest rq (some ep)

/-- `GWEN_MsgRequest_free`. -/
def requestFree (h : Heap) (rq : ℕ) : Option Heap :=
  (h.requests rq).bind fun endpoint =>
    (forEndpoint endpointFree h endpoint).map fun h => h.writeRequest rq none

/-- What a request counts for an endpoint. -/
def refers (ep : ℕ) (endpoint : Option (Option ℕ)) : ℕ :=
  if endpoint = some (some ep) then 1 else 0

/-- The number of requests whose endpoint it is. -/
def held (h : Heap) (ep : ℕ) : ℕ := ∑ rq ∈ Finset.range h.nextRequest, refers ep (h.requests rq)

end Heap

/-- The heap, and the references that were taken with `GWEN_MsgEndpoint_new` and
`GWEN_MsgEndpoint_Attach` and not released with `GWEN_MsgEndpoint_free`. -/
structure State where
  heap : Heap
  explicit : ℕ → ℕ

/-- The calls. -/
inductive Op where
  | endpointNew
  | endpointAttach (ep : ℕ)
  | endpointFree (ep : ℕ)
  | requestNew
  | setEndpoint (rq : ℕ) (ep : Option ℕ)
  | requestFree (rq : ℕ)
deriving DecidableEq

namespace State

/-- Before the first call. -/
def start : State := ⟨⟨fun _ => none, 0, fun _ => none, 0⟩, fun _ => 0⟩

/-- A call, and what becomes of the explicit references. -/
def step (s : State) : Op → Option State
  | .endpointNew => some ⟨s.heap.endpointNew, update s.explicit s.heap.nextEndpoint 1⟩
  | .endpointAttach ep =>
      (s.heap.endpointAttach ep).map fun h =>
        ⟨h, update s.explicit ep (s.explicit ep + 1)⟩
  | .endpointFree ep =>
      (s.heap.endpointFree ep).map fun h =>
        ⟨h, update s.explicit ep (s.explicit ep - 1)⟩
  | .requestNew => some ⟨s.heap.requestNew, s.explicit⟩
  | .setEndpoint rq ep => (s.heap.setEndpoint rq ep).map fun h => ⟨h, s.explicit⟩
  | .requestFree rq => (s.heap.requestFree rq).map fun h => ⟨h, s.explicit⟩

/-- The references to an endpoint: the explicit ones and those of the requests. -/
def references (s : State) (ep : ℕ) : ℕ := s.explicit ep + s.heap.held ep

/-- What callers may do: they use endpoints to which there is a reference and requests that are not
freed, and they release no reference twice. -/
def Allowed (s : State) : Op → Prop
  | .endpointNew => True
  | .endpointAttach ep => 0 < s.references ep
  | .endpointFree ep => 0 < s.explicit ep
  | .requestNew => True
  | .setEndpoint rq ep => s.heap.requests rq ≠ none ∧ ∀ e ∈ ep, 0 < s.references e
  | .requestFree rq => s.heap.requests rq ≠ none

/-- No endpoint of a request is replaced by another one, and the counters fit an `int`. -/
def Safe (s : State) : Op → Prop
  | .endpointAttach ep => s.references ep + 1 < 2 ^ 31
  | .setEndpoint rq ep =>
      (s.heap.requests rq = some none ∨ s.heap.requests rq = some ep) ∧
        ∀ e ∈ ep, s.references e + 1 < 2 ^ 31
  | _ => True

instance (s : State) : ∀ o, Decidable (Allowed s o)
  | .endpointNew => isTrue trivial
  | .endpointAttach ep => inferInstanceAs (Decidable (0 < s.references ep))
  | .endpointFree ep => inferInstanceAs (Decidable (0 < s.explicit ep))
  | .requestNew => isTrue trivial
  | .setEndpoint rq ep =>
      inferInstanceAs (Decidable (s.heap.requests rq ≠ none ∧ ∀ e ∈ ep, 0 < s.references e))
  | .requestFree rq => inferInstanceAs (Decidable (s.heap.requests rq ≠ none))

instance (s : State) : ∀ o, Decidable (Safe s o)
  | .endpointNew => isTrue trivial
  | .endpointAttach ep => inferInstanceAs (Decidable (s.references ep + 1 < 2 ^ 31))
  | .endpointFree _ => isTrue trivial
  | .requestNew => isTrue trivial
  | .setEndpoint rq ep =>
      inferInstanceAs (Decidable
        ((s.heap.requests rq = some none ∨ s.heap.requests rq = some ep) ∧
          ∀ e ∈ ep, s.references e + 1 < 2 ^ 31))
  | .requestFree _ => isTrue trivial

/-- Each counter is the number of references; an endpoint is there exactly as long as there are
some. -/
def Holds (s : State) : Prop :=
  ∀ ep, (∀ refCount, s.heap.endpoints ep = some refCount →
      refCount = s.references ep ∧ 0 < refCount) ∧
    (s.heap.endpoints ep = none → s.references ep = 0)

/-- After every call of a run whose calls are allowed the counters are right. -/
def HoldsEndpoints (ops : List Op) : Prop :=
  Along step Allowed start ops → ∀ pre, pre <+: ops → ∃ s, exec step start pre = some s ∧ Holds s

/-! ### What the calls do -/

section
variable {s : State} {ep rq refCount : ℕ}

/-- The invariant of a run: the counters, and that there is nothing behind the last pointers. -/
structure Good (s : State) : Prop where
  counts : ∀ ep, (s.heap.endpoints ep).getD 0 = s.references ep
  pos : ∀ ep, s.heap.endpoints ep ≠ some 0
  endpoints_lt : ∀ ep, s.heap.nextEndpoint ≤ ep → s.heap.endpoints ep = none
  requests_lt : ∀ rq, s.heap.nextRequest ≤ rq → s.heap.requests rq = none

theorem Good.holds (h : Good s) : Holds s := by
  intro ep
  have hcount := h.counts ep
  constructor
  · intro refCount heq
    have hpos : refCount ≠ 0 := fun h0 => h.pos ep (h0 ▸ heq)
    rw [heq] at hcount
    exact ⟨hcount, Nat.pos_of_ne_zero hpos⟩
  · intro heq
    rw [heq] at hcount
    exact hcount.symm

theorem good_start : Good start := by
  refine ⟨fun ep => ?_, fun ep => nofun, fun _ _ => rfl, fun _ _ => rfl⟩
  simp [start, references, Heap.held]

theorem Good.endpoint (h : Good s) (hpos : 0 < s.references ep) :
    s.heap.endpoints ep = some (s.references ep) := by
  have hcount := h.counts ep
  cases heq : s.heap.endpoints ep with
  | none =>
      rw [heq] at hcount
      exact absurd hcount hpos.ne
  | some n =>
      rw [heq] at hcount
      exact congrArg some hcount

theorem Good.lt_nextEndpoint (h : Good s) (hpos : 0 < s.references ep) :
    ep < s.heap.nextEndpoint := by
  by_contra hle
  have hnone := h.endpoints_lt ep (Nat.le_of_not_lt hle)
  rw [h.endpoint hpos] at hnone
  cases hnone

theorem Good.lt_nextRequest (h : Good s) (hrq : s.heap.requests rq ≠ none) :
    rq < s.heap.nextRequest := by
  by_contra hle
  exact hrq (h.requests_lt rq (Nat.le_of_not_lt hle))

@[simp] theorem held_writeEndpoint (h : Heap) (ep : ℕ) (x : Option ℕ) (e : ℕ) :
    (h.writeEndpoint ep x).held e = h.held e := rfl

theorem held_writeRequest (h : Heap) (hrq : rq < h.nextRequest) (x : Option (Option ℕ)) (ep : ℕ) :
    (h.writeRequest rq x).held ep + Heap.refers ep (h.requests rq) =
      h.held ep + Heap.refers ep x := by
  have hmem := Finset.mem_range.mpr hrq
  have hrest : ∑ r ∈ (Finset.range h.nextRequest).erase rq,
      Heap.refers ep (update h.requests rq x r) =
        ∑ r ∈ (Finset.range h.nextRequest).erase rq, Heap.refers ep (h.requests r) := by
    refine Finset.sum_congr rfl fun r hr => ?_
    rw [update_of_ne (Finset.ne_of_mem_erase hr)]
  unfold Heap.held Heap.writeRequest
  dsimp only
  rw [← Finset.add_sum_erase _ _ hmem, hrest, update_self,
    ← Finset.add_sum_erase _ (fun rq => Heap.refers ep (h.requests rq)) hmem]
  omega

@[simp] theorem held_requestNew (h : Heap) (ep : ℕ) : h.requestNew.held ep = h.held ep := by
  unfold Heap.held Heap.requestNew Heap.writeRequest
  dsimp only
  have hnone : Heap.refers ep (some none) = 0 := rfl
  rw [Finset.sum_range_succ, update_self, hnone, Nat.add_zero]
  refine Finset.sum_congr rfl fun r hr => ?_
  rw [update_of_ne (Finset.mem_range.mp hr).ne]

theorem refers_self (ep : ℕ) : Heap.refers ep (some (some ep)) = 1 := if_pos rfl

theorem refers_of_ne {e : ℕ} (h : e ≠ ep) : Heap.refers e (some (some ep)) = 0 :=
  if_neg (by simpa using h.symm)

/-- One counter is changed as the references to its endpoint are. -/
theorem Good.write {s' : State} (h : Good s) {x : Option ℕ}
    (hendpoints : s'.heap.endpoints = (s.heap.writeEndpoint ep x).endpoints)
    (hx : x ≠ some 0) (hcount : x.getD 0 = s'.references ep)
    (hrest : ∀ e, e ≠ ep → s'.references e = s.references e)
    (hnext : s.heap.nextEndpoint ≤ s'.heap.nextEndpoint) (hep : ep < s'.heap.nextEndpoint)
    (hrequests : ∀ rq, s'.heap.nextRequest ≤ rq → s'.heap.requests rq = none) : Good s' := by
  change _ = update s.heap.endpoints ep x at hendpoints
  refine ⟨fun e => ?_, fun e => ?_, fun e he => ?_, hrequests⟩
  · rw [hendpoints]
    by_cases heq : e = ep
    · rw [heq, update_self, hcount]
    · rw [update_of_ne heq, h.counts e, hrest e heq]
  · rw [hendpoints]
    by_cases heq : e = ep
    · rwa [heq, update_self]
    · rw [update_of_ne heq]
      exact h.pos e
  · rw [hendpoints, update_of_ne (Nat.lt_of_lt_of_le hep he).ne']
    exact h.endpoints_lt e (hnext.trans he)

theorem Good.requests_write (h : Good s) (hrq : rq < s.heap.nextRequest)
    (x : Option (Option ℕ)) : ∀ r, s.heap.nextRequest ≤ r →
      (s.heap.writeRequest rq x).requests r = none := by
  intro r hr
  unfold Heap.writeRequest
  dsimp only
  rw [update_of_ne (Nat.lt_of_lt_of_le hrq hr).ne']
  exact h.requests_lt r hr

/-! ### Every call keeps the counters -/

theorem Good.endpointNew (h : Good s) :
    Good ⟨s.heap.endpointNew, update s.explicit s.heap.nextEndpoint 1⟩ := by
  have hzero : s.references s.heap.nextEndpoint = 0 := by
    rw [← h.counts, h.endpoints_lt _ le_rfl]
    rfl
  have hheld : s.heap.held s.heap.nextEndpoint = 0 := (Nat.add_eq_zero_iff.mp hzero).2
  refine h.write rfl nofun ?_ (fun e he => ?_) (Nat.le_succ _) (Nat.lt_succ_self _) h.requests_lt
  · change 1 = update s.explicit s.heap.nextEndpoint 1 s.heap.nextEndpoint +
      s.heap.held s.heap.nextEndpoint
    rw [update_self, hheld]
  · change update s.explicit s.heap.nextEndpoint 1 e + s.heap.held e = _
    rw [update_of_ne he, references]

theorem Good.endpointAttach_eq (h : Good s) (hpos : 0 < s.references ep)
    (hmax : s.references ep + 1 < 2 ^ 31) :
    s.heap.endpointAttach ep = some (s.heap.writeEndpoint ep (some (s.references ep + 1))) := by
  rw [Heap.endpointAttach, h.endpoint hpos, Option.bind_some, if_neg hpos.ne', if_pos hmax]

theorem Good.endpointAttach (h : Good s) (hpos : 0 < s.references ep) :
    Good ⟨s.heap.writeEndpoint ep (some (s.references ep + 1)),
      update s.explicit ep (s.explicit ep + 1)⟩ := by
  refine h.write rfl (by simp) ?_ (fun e he => ?_) le_rfl (h.lt_nextEndpoint hpos) h.requests_lt
  · simp only [references, held_writeEndpoint, update_self, Option.getD_some]
    omega
  · simp only [references, held_writeEndpoint, update_of_ne he]

theorem Good.endpointFree_eq (h : Good s) (hpos : 0 < s.references ep) :
    ∃ x, s.heap.endpointFree ep = some (s.heap.writeEndpoint ep x) ∧ x ≠ some 0 ∧
      x.getD 0 = s.references ep - 1 := by
  refine ⟨_, by rw [Heap.endpointFree, h.endpoint hpos, Option.map_some], ?_⟩
  split
  · next hlt =>
      refine ⟨fun h0 => ?_, rfl⟩
      have := Option.some.inj h0
      omega
  · exact ⟨nofun, (by change 0 = _; omega)⟩

theorem Good.endpointFree (h : Good s) (hpos : 0 < s.explicit ep) :
    ∃ h', s.heap.endpointFree ep = some h' ∧
      Good ⟨h', update s.explicit ep (s.explicit ep - 1)⟩ := by
  have hrefs : 0 < s.references ep := Nat.lt_of_lt_of_le hpos (Nat.le_add_right _ _)
  obtain ⟨x, hfree, hx, hcount⟩ := h.endpointFree_eq hrefs
  refine ⟨_, hfree, h.write rfl hx ?_ (fun e he => ?_) le_rfl (h.lt_nextEndpoint hrefs)
    h.requests_lt⟩
  · simp only [hcount, references, held_writeEndpoint, update_self]
    omega
  · simp only [references, held_writeEndpoint, update_of_ne he]

theorem Good.requestNew (h : Good s) : Good ⟨s.heap.requestNew, s.explicit⟩ := by
  refine ⟨fun ep => ?_, h.pos, h.endpoints_lt, fun rq hrq => ?_⟩
  · rw [references, held_requestNew]
    exact h.counts ep
  · change update s.heap.requests s.heap.nextRequest _ rq = none
    change s.heap.nextRequest + 1 ≤ rq at hrq
    rw [update_of_ne (by omega)]
    exact h.requests_lt rq (by omega)

theorem Good.attachRequest (h : Good s) (hrq : s.heap.requests rq = some none)
    (hpos : 0 < s.references ep) :
    Good ⟨(s.heap.writeEndpoint ep (some (s.references ep + 1))).writeRequest rq (some (some ep)),
      s.explicit⟩ := by
  have hlt : rq < s.heap.nextRequest := h.lt_nextRequest (by rw [hrq]; nofun)
  have hnone : ∀ e, Heap.refers e (s.heap.requests rq) = 0 := fun e => by rw [hrq]; rfl
  have hheld := held_writeRequest (s.heap.writeEndpoint ep (some (s.references ep + 1))) hlt
    (some (some ep))
  refine h.write rfl (by simp) ?_ (fun e he => ?_) le_rfl (h.lt_nextEndpoint hpos)
    (h.requests_write hlt _)
  · have hself := hheld ep
    rw [refers_self, held_writeEndpoint] at hself
    have hzero : Heap.refers ep ((s.heap.writeEndpoint ep
        (some (s.references ep + 1))).requests rq) = 0 := hnone ep
    simp only [references, Option.getD_some] at hself hzero ⊢
    omega
  · have hother := hheld e
    rw [refers_of_ne he, held_writeEndpoint] at hother
    have hzero : Heap.refers e ((s.heap.writeEndpoint ep
        (some (s.references ep + 1))).requests rq) = 0 := hnone e
    simp only [references] at hother hzero ⊢
    omega

theorem Good.setEndpoint (h : Good s) {endpoint ep : Option ℕ}
    (hrq : s.heap.requests rq = some endpoint) (hpos : ∀ e ∈ ep, 0 < s.references e)
    (hsame : ∀ e, endpoint = some e → ep = some e) (hmax : ∀ e ∈ ep, s.references e + 1 < 2 ^ 31) :
    ∃ h', s.heap.setEndpoint rq ep = some h' ∧ Good ⟨h', s.explicit⟩ := by
  rw [Heap.setEndpoint, hrq, Option.bind_some]
  cases endpoint with
  | none =>
      cases ep with
      | none =>
          refine ⟨_, rfl, ?_⟩
          have hback : s.heap.writeRequest rq (some none) = s.heap := by
            unfold Heap.writeRequest
            rw [update_eq_self_iff.mpr hrq.symm]
          change Good ⟨s.heap.writeRequest rq (some none), s.explicit⟩
          rw [hback]
          exact h
      | some ep =>
          rw [Heap.forEndpoint, h.endpointAttach_eq (hpos ep rfl) (hmax ep rfl), Option.bind_some,
            if_neg (by simp), Option.map_some]
          exact ⟨_, rfl, h.attachRequest hrq (hpos ep rfl)⟩
  | some ep' =>
      obtain rfl := hsame ep' rfl
      have hfree : (s.heap.writeEndpoint ep' (some (s.references ep' + 1))).endpointFree ep' =
          some s.heap := by
        have hback : update s.heap.endpoints ep' (some (s.references ep')) =
            s.heap.endpoints := update_eq_self_iff.mpr (h.endpoint (hpos ep' rfl)).symm
        have hgt : s.references ep' + 1 > 1 := Nat.succ_lt_succ (hpos ep' rfl)
        unfold Heap.endpointFree Heap.writeEndpoint
        dsimp only
        rw [update_self, Option.map_some, if_pos hgt, update_idem,
          Nat.add_sub_cancel, hback]
      have hback : s.heap.writeRequest rq (some (some ep')) = s.heap := by
        unfold Heap.writeRequest
        rw [update_eq_self_iff.mpr hrq.symm]
      rw [Heap.forEndpoint, h.endpointAttach_eq (hpos ep' rfl) (hmax ep' rfl), Option.bind_some,
        if_pos (by simp), Heap.forEndpoint, hfree, Option.map_some, hback]
      exact ⟨_, rfl, h⟩

theorem Good.requestFree (h : Good s) {endpoint : Option ℕ}
    (hrq : s.heap.requests rq = some endpoint) :
    ∃ h', s.heap.requestFree rq = some h' ∧ Good ⟨h', s.explicit⟩ := by
  have hlt : rq < s.heap.nextRequest := h.lt_nextRequest (by rw [hrq]; nofun)
  have hzero : ∀ e, Heap.refers e none = 0 := fun e => rfl
  rw [Heap.requestFree, hrq, Option.bind_some]
  cases endpoint with
  | none =>
      refine ⟨_, rfl, ⟨fun e => ?_, h.pos, h.endpoints_lt, h.requests_write hlt _⟩⟩
      have hheld := held_writeRequest s.heap hlt none e
      rw [hrq] at hheld
      exact (h.counts e).trans (congrArg (s.explicit e + ·) hheld.symm)
  | some ep =>
      have hpos : 0 < s.references ep := by
        have hheld := held_writeRequest s.heap hlt none ep
        rw [hrq, refers_self, hzero] at hheld
        rw [references]
        omega
      obtain ⟨x, hfree, hx, hcount⟩ := h.endpointFree_eq hpos
      have hheld : ∀ e, ((s.heap.writeEndpoint ep x).writeRequest rq none).held e +
          Heap.refers e (s.heap.requests rq) = s.heap.held e :=
        held_writeRequest (s.heap.writeEndpoint ep x) hlt none
      rw [hrq] at hheld
      rw [Heap.forEndpoint, hfree, Option.map_some]
      refine ⟨_, rfl, h.write rfl hx ?_ (fun e he => ?_) le_rfl (h.lt_nextEndpoint hpos)
        (h.requests_write hlt _)⟩
      · have hself := hheld ep
        rw [refers_self] at hself
        simp only [hcount, references]
        omega
      · have hother := hheld e
        rw [refers_of_ne he] at hother
        simp only [references]
        omega

end

theorem Good.step {s : State} (h : Good s) {o : Op} (ha : Allowed s o) (hs : Safe s o) :
    ∃ t, s.step o = some t ∧ Good t := by
  cases o with
  | endpointNew => exact ⟨_, rfl, h.endpointNew⟩
  | endpointAttach ep =>
      refine ⟨_, ?_, h.endpointAttach ha⟩
      rw [State.step, h.endpointAttach_eq ha hs, Option.map_some]
  | endpointFree ep =>
      obtain ⟨h', hfree, hgood⟩ := h.endpointFree ha
      exact ⟨_, by rw [State.step, hfree, Option.map_some], hgood⟩
  | requestNew => exact ⟨_, rfl, h.requestNew⟩
  | setEndpoint rq ep =>
      obtain ⟨hlive, hpos⟩ := ha
      obtain ⟨endpoint, hrq⟩ := Option.ne_none_iff_exists'.mp hlive
      have hsame : ∀ e, endpoint = some e → ep = some e := by
        rintro e rfl
        have heq := hs.1
        rw [hrq] at heq
        exact (Option.some.inj (heq.resolve_left (by simp))).symm
      obtain ⟨h', hset, hgood⟩ := h.setEndpoint hrq hpos hsame hs.2
      exact ⟨_, by rw [State.step, hset, Option.map_some], hgood⟩
  | requestFree rq =>
      obtain ⟨endpoint, hrq⟩ := Option.ne_none_iff_exists'.mp ha
      obtain ⟨h', hfree, hgood⟩ := h.requestFree hrq
      exact ⟨_, by rw [State.step, hfree, Option.map_some], hgood⟩

/-- A run in which no endpoint of a request is replaced by another one. -/
theorem holdsEndpoints (ops : List Op) (hs : Along step Safe start ops) : HoldsEndpoints ops := by
  intro ha pre hpre
  obtain ⟨t, hexec, hgood⟩ := (ha.and hs).exec_initial (fun s o h hp => h.step hp.1 hp.2)
    good_start pre hpre
  exact ⟨t, hexec, hgood.holds⟩

/-- Two requests share an endpoint, and one of them is set to it once more. -/
theorem holdsEndpoints_shared : HoldsEndpoints
    [.endpointNew, .requestNew, .requestNew, .setEndpoint 0 (some 0), .setEndpoint 1 (some 0),
      .endpointFree 0, .setEndpoint 0 (some 0), .requestFree 0, .requestFree 1] :=
  holdsEndpoints _ (by decide)

/-- The endpoint that is replaced keeps its counter. -/
theorem not_holdsEndpoints_replace : ¬∀ ops, HoldsEndpoints ops := by
  intro h
  obtain ⟨s, hexec, hholds⟩ := h [.endpointNew, .requestNew, .setEndpoint 0 (some 0),
    .endpointNew, .setEndpoint 0 (some 1)] (by decide) _ (List.prefix_refl _)
  have hcount : (exec step start [.endpointNew, .requestNew, .setEndpoint 0 (some 0),
      .endpointNew, .setEndpoint 0 (some 1)]).map
        (fun s => (s.heap.endpoints 0, s.references 0)) = some (some 2, 1) := by decide
  rw [hexec, Option.map_some, Option.some.injEq, Prod.mk.injEq] at hcount
  have heq := ((hholds 0).1 2 hcount.1).1
  rw [hcount.2] at heq
  cases heq

end State
end Gwenhywfar.MsgRequest
