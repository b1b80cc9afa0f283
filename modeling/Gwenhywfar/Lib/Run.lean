import Mathlib.Algebra.Order.Group.Nat
import Mathlib.Data.List.Infix
import Mathlib.Tactic.Common

/-! # Runs of a partial step function

`exec step s os` executes the operations `os` one after the other from `s`; it is `none` when
one of them has no outcome (a failed assertion, an access the language leaves undefined).

* An invariant of the steps holds after a run (`exec_invariant`).
* A property of every prefix of a run is decided step by step (`forall_prefix_iff`).
* `Along step P s os`: the condition `P` holds of every step of the run; a run whose steps all
  meet the condition succeeds and keeps the invariant (`Along.exec_initial`). -/

namespace Gwenhywfar

variable {σ ι : Type}

def exec (step : σ → ι → Option σ) (s : σ) : List ι → Option σ
  | [] => some s
  | o :: os => (step s o).bind fun s' => exec step s' os

@[simp] theorem exec_nil (step : σ → ι → Option σ) (s : σ) : exec step s [] = some s := rfl

theorem exec_cons (step : σ → ι → Option σ) (s : σ) (o : ι) (os : List ι) :
    exec step s (o :: os) = (step s o).bind fun s' => exec step s' os := rfl

theorem exec_append (step : σ → ι → Option σ) : ∀ (s : σ) (os os' : List ι),
    exec step s (os ++ os') = (exec step s os).bind fun s' => exec step s' os'
  | s, [], os' => rfl
  | s, o :: os, os' => by
      rw [List.cons_append, exec_cons, exec_cons, Option.bind_assoc]
      congr 1
      funext s'
      exact exec_append step s' os os'

theorem exec_snoc (step : σ → ι → Option σ) (s : σ) (os : List ι) (o : ι) :
    exec step s (os ++ [o]) = (exec step s os).bind fun s' => step s' o := by
  rw [exec_append]
  congr 1
  funext s'
  rw [exec_cons]
  cases step s' o <;> rfl

theorem exec_snoc_eq_some {step : σ → ι → Option σ} {s t : σ} {os : List ι} {o : ι} :
    exec step s (os ++ [o]) = some t ↔ ∃ u, exec step s os = some u ∧ step u o = some t := by
  rw [exec_snoc, Option.bind_eq_some_iff]

theorem exec_invariant {step : σ → ι → Option σ} {I : σ → Prop}
    (h : ∀ s o t, I s → step s o = some t → I t) :
    ∀ {os : List ι} {s t : σ}, I s → exec step s os = some t → I t
  | [], s, t, hs, he => by
      simp only [exec_nil, Option.some.injEq] at he
      exact he ▸ hs
  | o :: os, s, t, hs, he => by
      rw [exec_cons, Option.bind_eq_some_iff] at he
      obtain ⟨u, hu, ht⟩ := he
      exact exec_invariant h (h s o u hs hu) ht

/-- A property of every prefix of a run, and of every step of it, is decided step by step. -/
theorem forall_prefix_iff {P : List ι → Prop} {Q R : List ι → ι → Prop} {ops : List ι} (h0 : P [])
    (h : ∀ pre o, pre ++ [o] <+: ops → P pre → (P (pre ++ [o]) ∧ R pre o ↔ Q pre o)) :
    ((∀ pre, pre <+: ops → P pre) ∧ ∀ pre o, pre ++ [o] <+: ops → R pre o) ↔
      ∀ pre o, pre ++ [o] <+: ops → Q pre o := by
  constructor
  · rintro ⟨hP, hR⟩ pre o hpre
    exact (h pre o hpre (hP pre ((List.prefix_append pre [o]).trans hpre))).mp
      ⟨hP _ hpre, hR pre o hpre⟩
  · intro hQ
    have hP : ∀ pre, pre <+: ops → P pre := by
      intro pre
      induction pre using List.reverseRecOn with
      | nil => exact fun _ => h0
      | append_singleton pre o ih =>
          intro hpre
          have hp := ih ((List.prefix_append pre [o]).trans hpre)
          exact ((h pre o hpre hp).mpr (hQ pre o hpre)).1
    refine ⟨hP, fun pre o hpre => ?_⟩
    have hp := hP pre ((List.prefix_append pre [o]).trans hpre)
    exact ((h pre o hpre hp).mpr (hQ pre o hpre)).2

theorem forall_snoc_prefix_iff {P : List ι → ι → Prop} {ops : List ι} :
    (∀ pre o, pre ++ [o] <+: ops → P pre o) ↔ ∀ i : Fin ops.length, P (ops.take i) (ops.get i) := by
  constructor
  · rintro h ⟨i, hi⟩
    refine h _ _ ?_
    rw [List.get_eq_getElem, List.take_append_getElem hi]
    exact List.take_prefix (i + 1) ops
  · rintro h pre o ⟨post, rfl⟩
    simpa using h ⟨pre.length, by simp⟩

/-! ### Conditions along a run -/

/-- Every step of the run, as far as it goes, meets the condition in the state it starts from. -/
def Along (step : σ → ι → Option σ) (P : σ → ι → Prop) (s : σ) : List ι → Prop
  | [] => True
  | o :: os => P s o ∧
      match step s o with
      | none => True
      | some s' => Along step P s' os

variable {step : σ → ι → Option σ} {P : σ → ι → Prop}

theorem along_cons {s t : σ} {o : ι} {os : List ι} (h : step s o = some t) :
    Along step P s (o :: os) ↔ P s o ∧ Along step P t os := by
  rw [Along, h]

instance decidableAlong [∀ s o, Decidable (P s o)] : ∀ (s : σ) (os : List ι),
    Decidable (Along step P s os)
  | _, [] => isTrue trivial
  | s, o :: os =>
      match h : step s o with
      | none => decidable_of_iff (P s o) (by rw [Along, h, and_true])
      | some s' =>
          have := decidableAlong s' os
          decidable_of_iff (P s o ∧ Along step P s' os) (along_cons h).symm

theorem Along.of_exec : ∀ {os : List ι} {s : σ}, Along step P s os → ∀ pre o,
    pre ++ [o] <+: os → ∀ t, exec step s pre = some t → P t o
  | [], _, _, pre, o, hpre, _, _ => absurd (List.prefix_nil.mp hpre) (by simp)
  | p :: os, s, ha, [], o, hpre, t, ht => by
      obtain ⟨rfl, -⟩ := List.cons_prefix_cons.mp hpre
      rw [exec_nil, Option.some.injEq] at ht
      exact ht ▸ ha.1
  | p :: os, s, ha, q :: pre, o, hpre, t, ht => by
      rw [List.cons_append] at hpre
      obtain ⟨rfl, hpre'⟩ := List.cons_prefix_cons.mp hpre
      rw [exec_cons, Option.bind_eq_some_iff] at ht
      obtain ⟨u, hu, ht⟩ := ht
      exact ((along_cons hu).mp ha).2.of_exec pre o hpre' t ht

theorem along_iff : ∀ {os : List ι} {s : σ}, Along step P s os ↔
    ∀ pre o, pre ++ [o] <+: os → ∀ t, exec step s pre = some t → P t o
  | [], s => iff_of_true trivial fun pre o hpre => by simp at hpre
  | o :: os, s => by
      refine ⟨Along.of_exec, fun h => ?_⟩
      have hhead : P s o := h [] o (by simp) s rfl
      cases hstep : step s o with
      | none =>
          rw [Along, hstep]
          exact ⟨hhead, trivial⟩
      | some t =>
          refine (along_cons hstep).mpr ⟨hhead, along_iff.mpr fun pre p hpre u hu => ?_⟩
          refine h (o :: pre) p ?_ u ?_
          · rw [List.cons_append]
            exact List.cons_prefix_cons.mpr ⟨rfl, hpre⟩
          · rw [exec_cons, hstep, Option.bind_some, hu]

theorem Along.and {Q : σ → ι → Prop} : ∀ {os : List ι} {s : σ}, Along step P s os →
    Along step Q s os → Along step (fun s o => P s o ∧ Q s o) s os
  | [], _, _, _ => trivial
  | o :: os, s, hp, hq => by
      cases h : step s o with
      | none =>
          rw [Along, h] at hp hq ⊢
          exact ⟨⟨hp.1, hq.1⟩, trivial⟩
      | some t =>
          rw [along_cons h] at hp hq ⊢
          exact ⟨⟨hp.1, hq.1⟩, hp.2.and hq.2⟩

/-- When the condition of a step is enough for it to succeed and to keep the invariant, so are
the conditions of all steps for the run and each of its prefixes. -/
theorem Along.exec_initial {I : σ → Prop}
    (h : ∀ s o, I s → P s o → ∃ t, step s o = some t ∧ I t) :
    ∀ {os : List ι} {s : σ}, I s → Along step P s os →
      ∀ pre, pre <+: os → ∃ t, exec step s pre = some t ∧ I t
  | _, s, hs, _, [], _ => ⟨s, rfl, hs⟩
  | [], _, _, _, p :: pre, hpre => absurd (List.prefix_nil.mp hpre) (by simp)
  | o :: os, s, hs, ha, p :: pre, hpre => by
      obtain ⟨rfl, hpre'⟩ := List.cons_prefix_cons.mp hpre
      obtain ⟨t, ht, hi⟩ := h s p hs ha.1
      obtain ⟨u, hu, hi'⟩ := Along.exec_initial h hi ((along_cons ht).mp ha).2 pre hpre'
      exact ⟨u, by rw [exec_cons, ht, Option.bind_some, hu], hi'⟩

theorem Along.simulation {τ : Type} {step' : τ → ι → Option τ} {R : σ → τ → Prop}
    (h : ∀ s r o, R s r → P s o → ∃ t u, step s o = some t ∧ step' r o = some u ∧ R t u) :
    ∀ {os : List ι} {s : σ} {r : τ}, R s r → Along step P s os → ∀ pre post, pre ++ post = os →
      ∃ (t : σ) (u : τ), exec step s pre = some t ∧ exec step' r pre = some u ∧ R t u ∧
        Along step P t post
  | _, s, r, hr, ha, [], post, hpost => ⟨s, r, rfl, rfl, hr, by rwa [← hpost] at ha⟩
  | o :: os, s, r, hr, ha, p :: pre, post, hpost => by
      obtain ⟨rfl, hpost'⟩ := List.cons.inj hpost
      obtain ⟨t, u, ht, hu, hr'⟩ := h s r p hr ha.1
      obtain ⟨t', u', ht', hu', hr'', ha'⟩ :=
        Along.simulation h hr' ((along_cons ht).mp ha).2 pre post hpost'
      exact ⟨t', u', by rw [exec_cons, ht, Option.bind_some, ht'],
        by rw [exec_cons, hu, Option.bind_some, hu'], hr'', ha'⟩

end Gwenhywfar
