import Mathlib.Logic.Function.Basic
import Mathlib.Data.Fintype.Defs
import Mathlib.Tactic.Common

/-! # Tries of fixed height

A trie of height `n` over branching type `ι` is a table of optional tries of height `n - 1`;
at height `0` it is a stored value.  A key is a function `ℕ → ι` giving the digit read at each
level, so that a trie of height `n` looks at the digits `n - 1, …, 0` of the key, from the top.

* `find` follows a key, `insert` stores a value and creates the missing tables, `erase` removes
  the value of a key and drops every table that becomes empty on the way back up.
* `Pruned t` says that no table below the top one is empty.  It holds of the empty trie and is
  kept by `insert` and `erase`; in a pruned trie every occupied table holds a key
  (`Pruned.exists_find`). -/

namespace Gwenhywfar

/-- Tries of height `n`. -/
def Trie (ι α : Type) : ℕ → Type
  | 0 => α
  | n + 1 => ι → Option (Trie ι α n)

namespace Trie

variable {ι α : Type}

/-- Two keys have the same digits below level `n`. -/
def Agree (n : ℕ) (k k' : ℕ → ι) : Prop := ∀ i < n, k i = k' i

theorem agree_succ {n : ℕ} {k k' : ℕ → ι} : Agree (n + 1) k k' ↔ k n = k' n ∧ Agree n k k' := by
  constructor
  · intro h
    exact ⟨h n (Nat.lt_succ_self n), fun i hi => h i (Nat.lt_succ_of_lt hi)⟩
  · rintro ⟨h0, h⟩ i hi
    rcases Nat.lt_succ_iff_lt_or_eq.mp hi with hi | rfl
    · exact h i hi
    · exact h0

/-- The table without entries. -/
def empty (n : ℕ) : Trie ι α (n + 1) := fun _ => none

/-- The entry of a table at `i`. -/
def get {n : ℕ} (t : Trie ι α (n + 1)) (i : ι) : Option (Trie ι α n) := t i

@[simp] theorem get_empty (n : ℕ) (i : ι) : (empty n : Trie ι α (n + 1)).get i = none := rfl

/-- The table with the entry at `i` replaced. -/
def set [DecidableEq ι] {n : ℕ} (t : Trie ι α (n + 1)) (i : ι) (s : Option (Trie ι α n)) :
    Trie ι α (n + 1) := fun j => if j = i then s else t.get j

@[simp] theorem get_set_self [DecidableEq ι] {n : ℕ} (t : Trie ι α (n + 1)) (i : ι)
    (s : Option (Trie ι α n)) : (t.set i s).get i = s := if_pos rfl

theorem get_set_ne [DecidableEq ι] {n : ℕ} (t : Trie ι α (n + 1)) {i j : ι}
    (s : Option (Trie ι α n)) (h : j ≠ i) : (t.set i s).get j = t.get j := if_neg h

theorem set_set [DecidableEq ι] {n : ℕ} (t : Trie ι α (n + 1)) (i : ι)
    (s s' : Option (Trie ι α n)) : (t.set i s).set i s' = t.set i s' := by
  funext j
  by_cases h : j = i
  · subst h; exact (get_set_self _ _ _).trans (get_set_self t j s').symm
  · exact (get_set_ne _ s' h).trans ((get_set_ne t s h).trans (get_set_ne t s' h).symm)

/-- The value stored under a key. -/
def find : (n : ℕ) → Trie ι α n → (ℕ → ι) → Option α
  | 0, a, _ => some a
  | n + 1, t, k => (t.get (k n)).bind fun s => find n s k

@[simp] theorem find_zero (a : Trie ι α 0) (k : ℕ → ι) : find 0 a k = some a := rfl

theorem find_some {n : ℕ} {t : Trie ι α (n + 1)} {k : ℕ → ι} {s : Trie ι α n}
    (h : t.get (k n) = some s) : find (n + 1) t k = find n s k := by
  simp [find, h]

theorem find_none {n : ℕ} {t : Trie ι α (n + 1)} {k : ℕ → ι} (h : t.get (k n) = none) :
    find (n + 1) t k = none := by
  simp [find, h]

@[simp] theorem find_empty (n : ℕ) (k : ℕ → ι) :
    find (n + 1) (empty n : Trie ι α (n + 1)) k = none := rfl

theorem find_congr : ∀ {n : ℕ} (t : Trie ι α n) {k k' : ℕ → ι}, Agree n k k' →
    find n t k = find n t k'
  | 0, _, _, _, _ => rfl
  | n + 1, t, k, k', h => by
      obtain ⟨h0, h⟩ := agree_succ.mp h
      cases hs : t.get (k' n) with
      | none => rw [find_none (h0 ▸ hs), find_none hs]
      | some s => rw [find_some (h0 ▸ hs), find_some hs, find_congr s h]

/-! ### Pruned tries -/

/-- A table has an entry; a stored value counts as occupied. -/
def Occupied : (n : ℕ) → Trie ι α n → Prop
  | 0, _ => True
  | _ + 1, t => ∃ i, (t.get i).isSome

/-- No table below the top one is empty. -/
def Pruned : (n : ℕ) → Trie ι α n → Prop
  | 0, _ => True
  | n + 1, t => ∀ i s, t.get i = some s → Occupied n s ∧ Pruned n s

theorem pruned_empty (n : ℕ) : Pruned (n + 1) (empty n : Trie ι α (n + 1)) :=
  fun _ _ h => by cases h

theorem Pruned.exists_find [Inhabited ι] : ∀ {n : ℕ} {t : Trie ι α n},
    Pruned n t → Occupied n t → ∃ k, (find n t k).isSome
  | 0, _, _, _ => ⟨fun _ => default, rfl⟩
  | n + 1, t, hp, ho => by
      obtain ⟨i, hi⟩ := ho
      obtain ⟨s, hs⟩ := Option.isSome_iff_exists.mp hi
      obtain ⟨k, hk⟩ := (hp i s hs).2.exists_find (hp i s hs).1
      have hag : Agree n (Function.update k n i) k := fun j hj => by
        rw [Function.update_of_ne (Nat.ne_of_lt hj)]
      refine ⟨Function.update k n i, ?_⟩
      rw [find_some (s := s) (by rw [Function.update_self, hs]), find_congr s hag]
      exact hk

/-! ### Storing a value -/

section insert
variable [DecidableEq ι]

/-- The trie holding one value. -/
def single : (n : ℕ) → (ℕ → ι) → α → Trie ι α n
  | 0, _, a => a
  | n + 1, k, a => (empty n).set (k n) (some (single n k a))

/-- Stores `a` under the key `k`. -/
def insert : (n : ℕ) → Trie ι α n → (ℕ → ι) → α → Trie ι α n
  | 0, _, _, a => a
  | n + 1, t, k, a => t.set (k n) (some (match t.get (k n) with
      | none => single n k a
      | some s => insert n s k a))

theorem find_single : ∀ (n : ℕ) (k : ℕ → ι) (a : α), find n (single n k a) k = some a
  | 0, _, _ => rfl
  | n + 1, k, a => by
      rw [find_some (s := single n k a) (by simp [single]), find_single n]

theorem find_single_ne : ∀ (n : ℕ) {k k' : ℕ → ι} (a : α), ¬ Agree n k k' →
    find n (single n k a) k' = none
  | 0, _, _, _, h => absurd (fun _ hi => absurd hi (Nat.not_lt_zero _)) h
  | n + 1, k, k', a, h => by
      rw [agree_succ, not_and] at h
      by_cases h0 : k n = k' n
      · rw [find_some (s := single n k a) (by simp [single, h0]), find_single_ne n a (h h0)]
      · rw [find_none (by simp [single, get_set_ne _ _ (Ne.symm h0)])]

theorem find_insert : ∀ (n : ℕ) (t : Trie ι α n) (k : ℕ → ι) (a : α),
    find n (insert n t k a) k = some a
  | 0, _, _, _ => rfl
  | n + 1, t, k, a => by
      cases hs : t.get (k n) with
      | none => rw [find_some (s := single n k a) (by simp [insert, hs]), find_single]
      | some s => rw [find_some (s := insert n s k a) (by simp [insert, hs]), find_insert n s]

theorem find_insert_ne : ∀ (n : ℕ) (t : Trie ι α n) {k k' : ℕ → ι} (a : α), ¬ Agree n k k' →
    find n (insert n t k a) k' = find n t k'
  | 0, _, _, _, _, h => absurd (fun _ hi => absurd hi (Nat.not_lt_zero _)) h
  | n + 1, t, k, k', a, h => by
      rw [agree_succ, not_and] at h
      by_cases h0 : k n = k' n
      · cases hs : t.get (k n) with
        | none =>
            rw [find_some (s := single n k a) (by simp [insert, ← h0, hs]),
              find_single_ne n a (h h0), find_none (h0 ▸ hs)]
        | some s =>
            rw [find_some (s := insert n s k a) (by simp [insert, ← h0, hs]),
              find_insert_ne n s a (h h0), find_some (h0 ▸ hs)]
      · simp only [find, insert, get_set_ne _ _ (Ne.symm h0)]

theorem single_ok : ∀ (n : ℕ) (k : ℕ → ι) (a : α),
    Occupied n (single n k a) ∧ Pruned n (single n k a)
  | 0, _, _ => ⟨trivial, trivial⟩
  | n + 1, k, a => by
      refine ⟨⟨k n, by simp [single]⟩, fun i s hs => ?_⟩
      by_cases hi : i = k n
      · subst hi
        simp only [single, get_set_self, Option.some.injEq] at hs
        exact hs ▸ single_ok n k a
      · simp [single, get_set_ne _ _ hi] at hs

theorem insert_ok : ∀ (n : ℕ) {t : Trie ι α n} (k : ℕ → ι) (a : α), Pruned n t →
    Occupied n (insert n t k a) ∧ Pruned n (insert n t k a)
  | 0, _, _, _, _ => ⟨trivial, trivial⟩
  | n + 1, t, k, a, hp => by
      refine ⟨⟨k n, by simp [insert]⟩, fun i s hs => ?_⟩
      by_cases hi : i = k n
      · subst hi
        simp only [insert, get_set_self, Option.some.injEq] at hs
        cases ht : t.get (k n) with
        | none => rw [ht] at hs; exact hs ▸ single_ok n k a
        | some s' => rw [ht] at hs; exact hs ▸ insert_ok n k a (hp _ s' ht).2
      · rw [insert, get_set_ne _ _ hi] at hs
        exact hp i s hs

end insert

/-! ### Removing a value -/

section erase
variable [DecidableEq ι] [Fintype ι]

instance decidableOccupied : (n : ℕ) → (t : Trie ι α n) → Decidable (Occupied n t)
  | 0, _ => isTrue trivial
  | _ + 1, t => inferInstanceAs (Decidable (∃ i, (t.get i).isSome))

/-- Removes the value of `k` and the tables that become empty. -/
def erase : (n : ℕ) → Trie ι α (n + 1) → (ℕ → ι) → Trie ι α (n + 1)
  | 0, t, k => t.set (k 0) none
  | n + 1, t, k => match t.get (k (n + 1)) with
      | none => t
      | some s => t.set (k (n + 1))
          (if Occupied (n + 1) (erase n s k) then some (erase n s k) else none)

omit [DecidableEq ι] [Fintype ι] in
theorem find_eq_none_of_not_occupied {n : ℕ} {t : Trie ι α (n + 1)}
    (h : ¬ Occupied (n + 1) t) (k : ℕ → ι) : find (n + 1) t k = none :=
  find_none (by
    cases hs : t.get (k n) with
    | none => rfl
    | some s => exact absurd ⟨k n, by rw [hs]; rfl⟩ h)

theorem find_set_occupied {n : ℕ} (t : Trie ι α (n + 2)) (s : Trie ι α (n + 1)) {i : ι}
    {k : ℕ → ι} (hk : k (n + 1) = i) :
    find (n + 2) (t.set i (if Occupied (n + 1) s then some s else none)) k =
      find (n + 1) s k := by
  subst hk
  by_cases ho : Occupied (n + 1) s
  · rw [find_some (s := s) (by simp [ho])]
  · rw [find_none (by simp [ho]), find_eq_none_of_not_occupied ho]

theorem find_erase : ∀ (n : ℕ) (t : Trie ι α (n + 1)) (k : ℕ → ι),
    find (n + 1) (erase n t k) k = none
  | 0, t, k => find_none (by simp [erase])
  | n + 1, t, k => by
      cases hs : t.get (k (n + 1)) with
      | none => rw [erase, hs]; exact find_none hs
      | some s =>
          simp only [erase, hs]
          rw [find_set_occupied t _ rfl, find_erase n s]

theorem find_erase_ne : ∀ (n : ℕ) (t : Trie ι α (n + 1)) {k k' : ℕ → ι},
    ¬ Agree (n + 1) k k' → find (n + 1) (erase n t k) k' = find (n + 1) t k'
  | 0, t, k, k', h => by
      have h0 : k' 0 ≠ k 0 := fun e => h (agree_succ.mpr
        ⟨e.symm, fun _ hi => absurd hi (Nat.not_lt_zero _)⟩)
      simp only [find, erase, get_set_ne _ _ h0]
  | n + 1, t, k, k', h => by
      rw [agree_succ, not_and] at h
      cases hs : t.get (k (n + 1)) with
      | none => rw [erase, hs]
      | some s =>
          simp only [erase, hs]
          by_cases h0 : k (n + 1) = k' (n + 1)
          · rw [find_set_occupied t _ h0.symm, find_erase_ne n s (h h0),
              find_some (t := t) (h0 ▸ hs)]
          · simp only [find, get_set_ne _ _ (Ne.symm h0)]

theorem pruned_erase : ∀ (n : ℕ) {t : Trie ι α (n + 1)} (k : ℕ → ι), Pruned (n + 1) t →
    Pruned (n + 1) (erase n t k)
  | 0, _, _, _ => fun _ _ _ => ⟨trivial, trivial⟩
  | n + 1, t, k, hp => by
      cases hs : t.get (k (n + 1)) with
      | none => rw [erase, hs]; exact hp
      | some s =>
          simp only [erase, hs]
          intro i s' hs'
          by_cases hi : i = k (n + 1)
          · subst hi
            rw [get_set_self] at hs'
            split at hs'
            · rename_i ho
              cases hs'
              exact ⟨ho, pruned_erase n k (hp _ s hs).2⟩
            · cases hs'
          · rw [get_set_ne _ _ hi] at hs'
            exact hp i s' hs'

end erase

end Trie
end Gwenhywfar
