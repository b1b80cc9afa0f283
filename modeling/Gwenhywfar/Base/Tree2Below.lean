import Gwenhywfar.Base.Tree2
import Gwenhywfar.Lib.Run

/-! # GWEN_TREE2: going through a tree

`GWEN_Tree2Element_GetBelow` looks down, then right, then for a parent with a right neighbour.

* `Visits h start xs stop`: from `start`, repeated calls give the elements `xs` and then `stop`.
* Over a forest the calls follow the pre-order (`visits_preorder`); from a root they end with
  the null pointer.
* `links_intact`: links and traversal are right after every run exactly when every insertion
  was into an element without children. -/

namespace Gwenhywfar.Tree2

namespace Heap

/-- The loop of `GWEN_Tree2Element_GetBelow`: the right neighbour of the nearest parent that has
one.  It is `none` when the fuel runs out. -/
def rightOfParent (h : Heap) : ℕ → ℕ → Option (Option ℕ)
  | 0, _ => none
  | k + 1, el =>
      match h.parent el with
      | none => some none
      | some p =>
          match h.nextElement p with
          | some n => some (some n)
          | none => rightOfParent h k p

/-- `GWEN_Tree2Element_GetBelow`. -/
def getBelow (h : Heap) (fuel el : ℕ) : Option (Option ℕ) :=
  match h.firstChild el with
  | some c => some (some c)
  | none =>
      match h.nextElement el with
      | some n => some (some n)
      | none => rightOfParent h fuel el

/-- The elements that repeated calls give, from an element to the null pointer. -/
def visit (h : Heap) (fuel : ℕ) : ℕ → Option ℕ → Option (List ℕ)
  | _, none => some []
  | 0, some _ => none
  | k + 1, some el =>
      (h.getBelow fuel el).bind fun next => (visit h fuel k next).map (el :: ·)

end Heap

open Heap Function

variable {h : Heap} {el p n : ℕ} {r : Option ℕ}

/-! ### The calls -/

/-- The loop ends with `r`, whatever the fuel from some amount on. -/
def Climbs (h : Heap) (el : ℕ) (r : Option ℕ) : Prop :=
  ∃ k, ∀ fuel, k ≤ fuel → h.rightOfParent fuel el = some r

/-- What follows after an element and everything below it. -/
def Leaves (h : Heap) (el : ℕ) (r : Option ℕ) : Prop :=
  match h.nextElement el with
  | some n => r = some n
  | none => Climbs h el r

theorem Leaves.climbs (hp : h.parent el = some p) (hl : Leaves h p r) : Climbs h el r := by
  unfold Leaves at hl
  split at hl
  case h_1 n hn =>
    refine ⟨1, fun fuel hfuel => ?_⟩
    obtain ⟨k, rfl⟩ : ∃ k, fuel = k + 1 := ⟨fuel - 1, by omega⟩
    simp only [rightOfParent, hp, hn, hl]
  case h_2 hn =>
    obtain ⟨k, hk⟩ := hl
    refine ⟨k + 1, fun fuel hfuel => ?_⟩
    obtain ⟨m, rfl⟩ : ∃ m, fuel = m + 1 := ⟨fuel - 1, by omega⟩
    simp only [rightOfParent, hp, hn]
    exact hk m (by omega)

theorem leaves_root (hp : h.parent el = none) (hn : h.nextElement el = none) :
    Leaves h el none := by
  unfold Leaves
  rw [hn]
  refine ⟨1, fun fuel hfuel => ?_⟩
  obtain ⟨k, rfl⟩ : ∃ k, fuel = k + 1 := ⟨fuel - 1, by omega⟩
  simp only [rightOfParent, hp]

/-- A call gives `r`, whatever the fuel from some amount on. -/
def GetsBelow (h : Heap) (el : ℕ) (r : Option ℕ) : Prop :=
  ∃ k, ∀ fuel, k ≤ fuel → h.getBelow fuel el = some r

theorem Leaves.getsBelow (hl : Leaves h el r) : GetsBelow h el ((h.firstChild el).or r) := by
  cases hc : h.firstChild el with
  | some c => exact ⟨0, fun fuel _ => by simp only [getBelow, hc, Option.some_or]⟩
  | none =>
      unfold Leaves at hl
      split at hl
      case h_1 n hn => exact ⟨0, fun fuel _ => by simp only [getBelow, hc, hn, hl, Option.none_or]⟩
      case h_2 hn =>
        obtain ⟨k, hk⟩ := hl
        refine ⟨k, fun fuel hfuel => ?_⟩
        simp only [getBelow, hc, hn, Option.none_or]
        exact hk fuel hfuel

/-- From one pointer, repeated calls give the elements of the list and then the other pointer. -/
inductive Visits (h : Heap) : Option ℕ → List ℕ → Option ℕ → Prop
  | nil (p : Option ℕ) : Visits h p [] p
  | cons {el : ℕ} {q stop : Option ℕ} {xs : List ℕ} (hcall : GetsBelow h el q)
      (hrest : Visits h q xs stop) : Visits h (some el) (el :: xs) stop

theorem Visits.append {p q stop : Option ℕ} {xs ys : List ℕ} (h1 : Visits h p xs q)
    (h2 : Visits h q ys stop) : Visits h p (xs ++ ys) stop := by
  induction h1 with
  | nil => exact h2
  | cons hcall _ ih => exact .cons hcall (ih h2)

theorem Visits.visit {p stop : Option ℕ} {xs : List ℕ} (hv : Visits h p xs stop)
    (hstop : stop = none) :
    ∃ k, ∀ fuel steps, k ≤ fuel → k ≤ steps → h.visit fuel steps p = some xs := by
  induction hv with
  | nil p => exact ⟨0, fun fuel steps _ _ => by subst hstop; simp only [Heap.visit]⟩
  | cons hcall _ ih =>
      obtain ⟨k, hk⟩ := hcall
      obtain ⟨m, hm⟩ := ih hstop
      refine ⟨max k (m + 1), fun fuel steps hfuel hsteps => ?_⟩
      obtain ⟨s, rfl⟩ : ∃ s, steps = s + 1 := ⟨steps - 1, by omega⟩
      simp only [Heap.visit, hk fuel (by omega), Option.bind_some, hm fuel s (by omega) (by omega),
        Option.map_some]

/-! ### The pre-order -/

/-- Each tree of the list leads to the next one, and the last to `r`. -/
def Leads (h : Heap) : List ℕ → Option ℕ → Prop
  | [], _ => True
  | x :: rest, r => Leaves h x (rest.head?.or r) ∧ Leads h rest r

theorem leads_children {a : ℕ} (hl : Leaves h a r) : ∀ {q : Option ℕ} {l : List ℕ},
    Seg h.nextElement h.prevElement q l none → (∀ x ∈ l, h.parent x = some a) → Leads h l r
  | _, [], _, _ => trivial
  | q, x :: rest, ⟨_, hnext, hseg⟩, hp => by
      refine ⟨?_, leads_children hl hseg fun y hy => hp y (List.mem_cons_of_mem x hy)⟩
      have hx := hl.climbs (hp x (by simp))
      unfold Leaves
      rw [hnext]
      cases rest with
      | nil => exact hx
      | cons y rest => rfl

theorem visits_preorder {kids : ℕ → List ℕ} (hr : Represents h kids) {l xs : List ℕ}
    (ho : Preorder kids l xs) : ∀ {r : Option ℕ}, Leads h l r → Visits h (l.head?.or r) xs r := by
  induction ho with
  | nil => exact fun {r} _ => .nil r
  | @cons a rest below right _ _ ihb ihr =>
      rintro r ⟨ha, hrest⟩
      have hkids : Leads h (kids a) (rest.head?.or r) :=
        leads_children ha (hr.list a).seg fun x hx => (hr.mem_iff a x).mp hx
      have hcall := ha.getsBelow
      rw [(hr.list a).first] at hcall
      exact .cons hcall ((ihb hkids).append (ihr hrest))

/-! ### Runs -/

/-- The operations that change links. -/
inductive Op
  | addChild (place el : ℕ)
  | insertChild (place el : ℕ)
  | unlink (el : ℕ)
  | replace (elToReplace elReplacement : ℕ)

def Heap.step (h : Heap) : Op → Heap
  | .addChild place el => h.addChild place el
  | .insertChild place el => h.insertChild place el
  | .unlink el => h.unlink el
  | .replace elToReplace elReplacement => h.replace elToReplace elReplacement

def Op.meaning (kids : ℕ → List ℕ) : Op → ℕ → List ℕ
  | .addChild place el => update kids place (kids place ++ [el])
  | .insertChild place el => update kids place (el :: kids place)
  | .unlink el => fun a => (kids a).erase el
  | .replace elToReplace elReplacement =>
      fun a => (kids a).map fun x => if x = elToReplace then elReplacement else x

def run (ops : List Op) : Heap := ops.foldl Heap.step Heap.new

def kidsAfter (ops : List Op) : ℕ → List ℕ := ops.foldl Op.meaning fun _ => []

/-- An element that comes into a tree is unlinked. -/
def Legal (h : Heap) : Op → Prop
  | .addChild _ el | .insertChild _ el | .replace _ el =>
      h.parent el = none ∧ h.nextElement el = none ∧ h.prevElement el = none
  | .unlink _ => True

instance (h : Heap) (o : Op) : Decidable (Legal h o) := by
  cases o <;> dsimp only [Legal] <;> infer_instance

/-- Links and traversal are those of the forest. -/
structure Intact (h : Heap) (kids : ℕ → List ℕ) : Prop where
  links : Represents h kids
  traversal : ∀ root, h.parent root = none → ∃ xs, Preorder kids [root] xs ∧ xs.Nodup ∧
    (∀ x, x ∈ xs ↔ Below h.parent x root) ∧
    ∃ k, ∀ fuel steps, k ≤ fuel → k ≤ steps → h.visit fuel steps (some root) = some xs

/-- The condition of a step: an insertion is into an element without children. -/
def Fits (h : Heap) : Op → Prop
  | .insertChild place _ => h.firstChild place = none
  | _ => True

variable {kids : ℕ → List ℕ} {o : Op}

instance (h : Heap) (o : Op) : Decidable (Fits h o) := by
  cases o <;> dsimp only [Fits] <;> infer_instance

theorem Represents.intact (hr : Represents h kids) (hfin : {x | h.parent x ≠ none}.Finite) :
    Intact h kids where
  links := hr
  traversal root hroot := by
    have hroots : ∀ a ∈ [root], a = root := fun a => List.mem_singleton.mp
    obtain ⟨xs, hxs⟩ := exists_preorder hr.mem_iff (l := [root]) fun a ha =>
      hroots a ha ▸ Below.acc hfin hroot Relation.ReflTransGen.refl
    refine ⟨xs, hxs, ?_, fun x => by simpa using hxs.mem_iff hr.mem_iff x, ?_⟩
    · refine hxs.nodup hr.mem_iff (fun a => (hr.list a).nodup) hroot (List.nodup_singleton root)
        (fun a ha => ?_) fun a ha b hb _ => (hroots a ha).trans (hroots b hb).symm
      rw [hroots a ha]
      exact Relation.ReflTransGen.refl
    · have hlead : Leads h [root] none := ⟨leaves_root hroot (hr.unlinked root hroot).1, trivial⟩
      exact (visits_preorder hr hxs hlead).visit rfl

theorem replace_self {el : ℕ} (hp : h.parent el = none) (hn : h.nextElement el = none)
    (hv : h.prevElement el = none) : h.replace el el = h := by
  have hnext : update h.nextElement el none = h.nextElement := by
    rw [← hn, update_eq_self]
  have hprev : update h.prevElement el none = h.prevElement := by
    rw [← hv, update_eq_self]
  have hparent : update h.parent el none = h.parent := by
    rw [← hp, update_eq_self]
  simp only [Heap.replace, hnext, hprev, hparent, hn, hv, setAt, replaceInParent, hp]

theorem insertChild_parent (place el : ℕ) : (h.insertChild place el).parent =
    update h.parent el (some place) := by
  simp only [Heap.insertChild]
  split <;> rfl

theorem Represents.step (hr : Represents h kids) (hl : Legal h o) (hf : Fits h o) :
    Represents (h.step o) (o.meaning kids) := by
  cases o with
  | addChild place el => exact hr.addChild hl.1
  | insertChild place el => exact hr.insertChild hl.1 hf
  | unlink el => exact hr.unlink el
  | replace e f =>
      obtain ⟨hp, hn, hv⟩ := hl
      by_cases hef : e = f
      · subst hef
        have hid : ∀ x : ℕ, (if x = e then e else x) = x := by
          intro x
          split
          case isTrue hx => exact hx.symm
          case isFalse => rfl
        simpa only [Heap.step, Op.meaning, replace_self hp hn hv, hid, List.map_id'] using hr
      · exact hr.replace hp hef

theorem finite_step (hl : Legal h o) (hfin : {x | h.parent x ≠ none}.Finite) :
    {x | (h.step o).parent x ≠ none}.Finite := by
  have hupdate : ∀ e v, {x | update h.parent e v x ≠ none}.Finite := by
    intro e v
    refine (hfin.insert e).subset fun x hx => ?_
    by_cases he : x = e
    · exact Or.inl he
    · rw [Set.mem_ofPred_eq, update_of_ne he] at hx
      exact Or.inr hx
  cases o with
  | addChild place el =>
      rw [Heap.step, addChild_parent]
      exact hupdate el (some place)
  | insertChild place el =>
      rw [Heap.step, insertChild_parent]
      exact hupdate el (some place)
  | unlink el => exact hupdate el none
  | replace e f =>
      obtain ⟨hp, hn, hv⟩ := hl
      by_cases hef : e = f
      · subst hef
        rwa [Heap.step, replace_self hp hn hv]
      · refine (hupdate f (h.parent e)).subset fun x hx => ?_
        rw [Set.mem_ofPred_eq, Heap.step, replace_parent x hef] at hx
        rw [Set.mem_ofPred_eq, update_apply]
        split at hx
        case isTrue => exact absurd rfl hx
        case isFalse => exact hx

theorem fits_of_represents (hr : Represents h kids) (hr' : Represents (h.step o) (o.meaning kids)) :
    Fits h o := by
  cases o with
  | insertChild place el =>
      by_contra hf
      exact not_represents_insertChild hr hf hr'
  | addChild | unlink | replace => trivial

theorem run_snoc (ops : List Op) (o : Op) : run (ops ++ [o]) = (run ops).step o :=
  List.foldl_concat ..

theorem kidsAfter_snoc (ops : List Op) (o : Op) :
    kidsAfter (ops ++ [o]) = o.meaning (kidsAfter ops) :=
  List.foldl_concat ..

/-- In a run that puts only unlinked elements into trees, the links are consistent, the
operations have their list meaning and the traversal is the pre-order after every step, exactly
when `insertChild` is only called on elements without children. -/
theorem links_intact (ops : List Op) (hl : ∀ pre o, pre ++ [o] <+: ops → Legal (run pre) o) :
    (∀ pre, pre <+: ops → Intact (run pre) (kidsAfter pre)) ↔
      ∀ pre o, pre ++ [o] <+: ops → Fits (run pre) o := by
  constructor
  · intro hi pre o hpre
    have hr' := (hi _ hpre).links
    rw [run_snoc, kidsAfter_snoc] at hr'
    exact fits_of_represents (hi pre ((List.prefix_append pre [o]).trans hpre)).links hr'
  · intro hf
    have hrun : ∀ pre, pre <+: ops →
        Represents (run pre) (kidsAfter pre) ∧ {x | (run pre).parent x ≠ none}.Finite := by
      intro pre
      induction pre using List.reverseRecOn with
      | nil => exact fun _ => ⟨represents_new, Set.finite_empty.subset fun x hx => hx rfl⟩
      | append_singleton pre o ih =>
          intro hpre
          obtain ⟨hr, hfin⟩ := ih ((List.prefix_append pre [o]).trans hpre)
          rw [run_snoc, kidsAfter_snoc]
          have hlegal := hl pre o hpre
          exact ⟨hr.step hlegal (hf pre o hpre), finite_step hlegal hfin⟩
    exact fun pre hpre => (hrun pre hpre).1.intact (hrun pre hpre).2

/-- Elements are added, replaced and unlinked in a tree of three generations. -/
theorem links_intact_six : Intact
      (run [.addChild 0 1, .insertChild 1 2, .addChild 0 3, .addChild 1 4, .replace 1 5, .unlink 3])
      (kidsAfter
        [.addChild 0 1, .insertChild 1 2, .addChild 0 3, .addChild 1 4, .replace 1 5, .unlink 3]) :=
  (links_intact
    [.addChild 0 1, .insertChild 1 2, .addChild 0 3, .addChild 1 4, .replace 1 5, .unlink 3]
    (forall_snoc_prefix_iff.mpr (by decide))).mpr (forall_snoc_prefix_iff.mpr (by decide)) _
    (List.prefix_refl _)

/-- After an insertion before a child, this child is unlinked: it is still visited, and the
parent has no last child. -/
theorem links_intact_fails : (∀ pre o, pre ++ [o] <+: [.addChild 0 1, .insertChild 0 2, .unlink 1] →
      Legal (run pre) o) ∧ kidsAfter [.addChild 0 1, .insertChild 0 2, .unlink 1] 0 = [2] ∧
    (run [.addChild 0 1, .insertChild 0 2, .unlink 1]).visit 4 4 (some 0) = some [0, 2, 1] ∧
    ¬ Intact (run [.addChild 0 1, .insertChild 0 2, .unlink 1])
      (kidsAfter [.addChild 0 1, .insertChild 0 2, .unlink 1]) := by
  refine ⟨forall_snoc_prefix_iff.mpr (by decide), by decide, by decide, fun hi => ?_⟩
  have hlast := (hi.links.list 0).last
  revert hlast
  decide
end Gwenhywfar.Tree2
