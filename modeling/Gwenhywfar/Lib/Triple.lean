import Mathlib.Tactic.TypeStar

/-! # Programs with a state and errors

A triple says where a program ends that begins in a state with a property: either it returns, and
then the result and the state have a property, or it fails, and then the error and the state have
one. -/

namespace Gwenhywfar

variable {ε σ α β : Type}

/-- What holds of the end of a program that begins in states with the property `P`. -/
def Triple (P : σ → Prop) (m : EStateM ε σ α) (Q : α → σ → Prop) (E : ε → σ → Prop) : Prop :=
  ∀ s, P s → match m s with
    | .ok a s' => Q a s'
    | .error e s' => E e s'

namespace Triple

variable {P P' : σ → Prop} {Q Q' : α → σ → Prop} {R : β → σ → Prop} {E : ε → σ → Prop}
  {m : EStateM ε σ α} {f : α → EStateM ε σ β}

theorem ok (h : Triple P m Q E) {s s' : σ} {a : α} (hs : P s) (hm : m s = .ok a s') : Q a s' := by
  have hall := h s hs
  rw [hm] at hall
  exact hall

theorem error (h : Triple P m Q E) {s s' : σ} {e : ε} (hs : P s) (hm : m s = .error e s') :
    E e s' := by
  have hall := h s hs
  rw [hm] at hall
  exact hall

theorem pure (a : α) (h : ∀ s, P s → Q a s) : Triple P (Pure.pure a : EStateM ε σ α) Q E := h

theorem throw (e : ε) (h : ∀ s, P s → E e s) :
    Triple P (MonadExcept.throw e : EStateM ε σ α) Q E := h

theorem bind_eq_ok {s s' : σ} {a : α} (h : m s = .ok a s') : (m >>= f) s = f a s' := by
  change EStateM.bind m f s = f a s'
  rw [EStateM.bind, h]

theorem bind_eq_error {s s' : σ} {e : ε} (h : m s = .error e s') : (m >>= f) s = .error e s' := by
  change EStateM.bind m f s = .error e s'
  rw [EStateM.bind, h]

theorem bind (hm : Triple P m Q E) (hf : ∀ a, Triple (Q a) (f a) R E) : Triple P (m >>= f) R E := by
  intro s hs
  cases hms : m s with
  | ok a s' =>
      rw [bind_eq_ok hms]
      exact hf a s' (hm.ok hs hms)
  | error e s' =>
      rw [bind_eq_error hms]
      exact hm.error hs hms

theorem weaken (h : Triple P' m Q' E) (hP : ∀ s, P s → P' s) (hQ : ∀ a s, Q' a s → Q a s) :
    Triple P m Q E := by
  intro s hs
  have h1 := h s (hP s hs)
  cases hms : m s with
  | ok a s' =>
      rw [hms] at h1
      exact hQ a s' h1
  | error e s' =>
      rw [hms] at h1
      exact h1

theorem of_pre (h : ∀ s, P s → Triple (· = s) m Q E) : Triple P m Q E := fun s hs => h s hs s rfl

theorem ite {c : Prop} [Decidable c] {m' : EStateM ε σ α} (h : c → Triple P m Q E)
    (h' : ¬ c → Triple P m' Q E) : Triple P (if c then m else m') Q E := by
  split
  · next hc => exact h hc
  · next hc => exact h' hc

end Triple
end Gwenhywfar
