import Mathlib.Data.Set.Card
import Mathlib.Logic.Relation
import Mathlib.Tactic.Common

/-! # Parents and pre-orders

A forest is given by the parent of each node, and by the lists of their children.

* There is no cycle in the tree of a root (`Below.not_cycle`), and going down from a root ends
  when finitely many nodes have a parent (`Below.acc`).
* `Preorder kids l xs`: `xs` are the nodes of the trees under `l` in pre-order.  There is such a
  list where going down ends (`exists_preorder`), it holds the nodes below `l`
  (`Preorder.mem_iff`) and in the tree of a root each of them once (`Preorder.nodup`). -/

namespace Gwenhywfar

variable {α : Type} {parent : α → Option α}

/-- `x` is `a`, or below it. -/
def Below (parent : α → Option α) : α → α → Prop :=
  Relation.ReflTransGen fun x p => parent x = some p

theorem below_iff {x a : α} :
    Below parent x a ↔ x = a ∨ ∃ p, parent x = some p ∧ Below parent p a := by
  rw [Below, Relation.ReflTransGen.cases_head_iff]

theorem Below.of_parent {x p a : α} (hp : parent x = some p) (h : Below parent p a) :
    Below parent x a :=
  Relation.ReflTransGen.head hp h

theorem Below.total {x a b : α} (ha : Below parent x a) (hb : Below parent x b) :
    Below parent a b ∨ Below parent b a :=
  Relation.ReflTransGen.total_of_right_unique
    (fun _ _ _ h h' => Option.some.inj (h.symm.trans h')) ha hb

/-! ### Trees with a root -/

theorem Below.not_cycle {root x : α} (h : Below parent x root) (hroot : parent root = none) :
    ¬ Relation.TransGen (fun x p => parent x = some p) x x := by
  induction h using Relation.ReflTransGen.head_induction_on with
  | refl =>
      intro hc
      obtain ⟨p, hp, -⟩ := Relation.TransGen.head'_iff.mp hc
      rw [hroot] at hp
      cases hp
  | @head x p hp _ ih =>
      intro hc
      obtain ⟨q, hq, hback⟩ := Relation.TransGen.head'_iff.mp hc
      rw [hp, Option.some.injEq] at hq
      subst hq
      exact ih (Relation.TransGen.tail' hback hp)

theorem Below.not_below_child {root a c : α} (h : Below parent a root)
    (hroot : parent root = none) (hc : parent c = some a) : ¬ Below parent a c :=
  fun hac => h.not_cycle hroot (Relation.TransGen.tail' hac hc)

/-- Going down from a root ends when finitely many nodes have a parent. -/
theorem Below.acc (hfin : {x | parent x ≠ none}.Finite) {root : α} (hroot : parent root = none) :
    ∀ {x : α}, Below parent x root → Acc (fun x p => parent x = some p) x := by
  have hbelow : ∀ x, {y | Relation.TransGen (fun x p => parent x = some p) y x} ⊆
      {x | parent x ≠ none} := by
    intro x y hy
    obtain ⟨p, hp, -⟩ := Relation.TransGen.head'_iff.mp hy
    rw [Set.mem_ofPred_eq, hp]
    exact Option.some_ne_none p
  intro x
  induction hn : {y | Relation.TransGen (fun x p => parent x = some p) y x}.ncard using
    Nat.strong_induction_on generalizing x with
  | _ n ih =>
      subst hn
      refine fun hx => Acc.intro x fun y hy => ?_
      have hyroot : Below parent y root := Below.of_parent hy hx
      refine ih _ (Set.ncard_lt_ncard ?_ (hfin.subset (hbelow x))) rfl hyroot
      refine ⟨fun z hz => Relation.TransGen.tail hz hy, fun hsub => ?_⟩
      exact hyroot.not_cycle hroot (hsub (Relation.TransGen.single hy))

/-! ### Pre-order -/

/-- The nodes of the trees under a list of nodes, each node before its children. -/
inductive Preorder (kids : α → List α) : List α → List α → Prop
  | nil : Preorder kids [] []
  | cons {a : α} {rest below right : List α} (hbelow : Preorder kids (kids a) below)
      (hright : Preorder kids rest right) : Preorder kids (a :: rest) (a :: (below ++ right))

variable {kids : α → List α}

theorem exists_preorder (hk : ∀ a x, x ∈ kids a ↔ parent x = some a) {l : List α}
    (hacc : ∀ x ∈ l, Acc (fun x p => parent x = some p) x) : ∃ xs, Preorder kids l xs := by
  have hlist : ∀ l : List α, (∀ x ∈ l, ∃ xs, Preorder kids (kids x) xs) →
      ∃ xs, Preorder kids l xs := by
    intro l
    induction l with
    | nil => exact fun _ => ⟨[], .nil⟩
    | cons a rest ih =>
        intro hl
        obtain ⟨below, hbelow⟩ := hl a (by simp)
        obtain ⟨right, hright⟩ := ih fun x hx => hl x (List.mem_cons_of_mem a hx)
        exact ⟨_, .cons hbelow hright⟩
  have hnode : ∀ x, Acc (fun x p => parent x = some p) x → ∃ xs, Preorder kids (kids x) xs := by
    intro x hx
    induction hx with
    | intro x _ ih => exact hlist (kids x) fun y hy => ih y ((hk x y).mp hy)
  exact hlist l fun x hx => hnode x (hacc x hx)

theorem Preorder.mem_iff (hk : ∀ a x, x ∈ kids a ↔ parent x = some a) {l xs : List α}
    (h : Preorder kids l xs) (x : α) : x ∈ xs ↔ ∃ a ∈ l, Below parent x a := by
  induction h with
  | nil => simp
  | @cons a rest below right _ _ ihb ihr =>
      have hroot : Below parent x a ↔ x = a ∨ x ∈ below := by
        rw [ihb, Below, Relation.ReflTransGen.cases_tail_iff, eq_comm]
        simp only [hk, and_comm]
      rw [List.mem_cons, List.mem_append, ihr, ← or_assoc, ← hroot]
      simp

theorem Preorder.nodup (hk : ∀ a x, x ∈ kids a ↔ parent x = some a)
    (hd : ∀ a, (kids a).Nodup) {root : α} (hroot : parent root = none) {l xs : List α}
    (h : Preorder kids l xs) (hl : l.Nodup) (hbelow : ∀ a ∈ l, Below parent a root)
    (hs : ∀ a ∈ l, ∀ b ∈ l, Below parent a b → a = b) : xs.Nodup := by
  induction h with
  | nil => exact List.nodup_nil
  | @cons a rest below right hb hr ihb ihr =>
      obtain ⟨ha, hrest⟩ := List.nodup_cons.mp hl
      have haroot : Below parent a root := hbelow a (by simp)
      have hnot : ∀ c ∈ kids a, ¬ Below parent a c := fun c hc =>
        haroot.not_below_child hroot ((hk a c).mp hc)
      have hbelow' : below.Nodup := by
        refine ihb (hd a) (fun c hc => Below.of_parent ((hk a c).mp hc) haroot)
          fun c hc d hd' hcd => ?_
        rcases below_iff.mp hcd with rfl | ⟨p, hp, hpd⟩
        · rfl
        · rw [(hk a c).mp hc, Option.some.injEq] at hp
          exact absurd (hp ▸ hpd) (hnot d hd')
      have hright : right.Nodup := by
        refine ihr hrest (fun b hb => hbelow b (List.mem_cons_of_mem a hb)) fun b hb c hc => ?_
        exact hs b (List.mem_cons_of_mem a hb) c (List.mem_cons_of_mem a hc)
      have hunder : ∀ x ∈ below, Below parent x a := by
        intro x hx
        obtain ⟨c, hc, hxc⟩ := (hb.mem_iff hk x).mp hx
        exact hxc.tail ((hk a c).mp hc)
      have hapart : ∀ x, Below parent x a → x ∉ right := by
        intro x hx hxr
        obtain ⟨b, hb', hxb⟩ := (hr.mem_iff hk x).mp hxr
        have hmem := List.mem_cons_of_mem a hb'
        rcases hx.total hxb with hab | hba
        · exact ha (hs a (by simp) b hmem hab ▸ hb')
        · exact ha (hs b hmem a (by simp) hba ▸ hb')
      refine List.nodup_cons.mpr ⟨?_, ?_⟩
      · rw [List.mem_append, not_or]
        refine ⟨fun hx => ?_, hapart a Relation.ReflTransGen.refl⟩
        obtain ⟨c, hc, hac⟩ := (hb.mem_iff hk a).mp hx
        exact hnot c hc hac
      · refine List.nodup_append.mpr ⟨hbelow', hright, ?_⟩
        rintro x hx _ hy rfl
        exact hapart x (hunder x hx) hy

end Gwenhywfar
