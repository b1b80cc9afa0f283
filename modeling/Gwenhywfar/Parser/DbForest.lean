import Gwenhywfar.Parser.DbRead
import Gwenhywfar.Parser.DbVars

/-! # Trees in a growing heap

* `addChild`: a new node as the last child of a node, which is what reading adds.
* `Grown`: the heap before and after some children were added to one node; nothing else changed.
* `Shows`: some children of a node make up a tree; the tree stays there while the heap grows
  elsewhere (`Shows.grown`), and it is what `nodesOf` collects (`Shows.nodesOf`). -/

namespace Gwenhywfar.Db

open Gwenhywfar.Path

section
variable {h h' h'' : DbHeap} {n m a x lo : ℕ} {ids new new' : List ℕ} {name : CString}
  {typ : DbNodeType}

/-! ### Adding a child -/

/-- A new node becomes the last child of `n`. -/
def addChild (h : DbHeap) (n : ℕ) (typ : DbNodeType) (name : CString) : DbHeap :=
  nodeAppend (newNode h typ name) n h.size

@[simp] theorem size_addChild : (addChild h n typ name).size = h.size + 1 := rfl

theorem node_addChild (hn : n < h.size) (x : ℕ) : (addChild h n typ name).node x =
    if x = h.size then ⟨typ, name, [], some n⟩
    else if x = n then { h.node n with children := (h.node n).children ++ [h.size] }
    else h.node x := by
  have hne := Nat.ne_of_lt hn
  rw [addChild, nodeAppend, setParent, setChildren, newNode]
  by_cases hx : x = h.size
  · subst hx
    simp [Ne.symm hne]
  · by_cases hxn : x = n
    · subst hxn
      simp [hne]
    · simp [hx, hxn]

theorem createNode_eq {el : UInt32} (hinsert : has el flagsInsert = false) :
    createNode el h n name = addChild h n (if has el flagsVariable then .var else .group) name := by
  rw [createNode, nodeAdd, hinsert, if_neg Bool.false_ne_true, addChild]

theorem appendValue_eq (val : DbValue) :
    appendValue h n val = addChild h n (.value val) (CString.ofBytes []) := rfl

/-! ### Growing at one node -/

/-- The nodes `new` have become the last children of `n`, and all other old nodes are the same. -/
structure Grown (h h' : DbHeap) (n : ℕ) (new : List ℕ) : Prop where
  size : h.size ≤ h'.size
  new_ge : ∀ a ∈ new, h.size ≤ a
  new_lt : ∀ a ∈ new, a < h'.size
  at_node : h'.node n = { h.node n with children := (h.node n).children ++ new }
  other : ∀ x < h.size, x ≠ n → h'.node x = h.node x

theorem Grown.refl (h : DbHeap) (n : ℕ) : Grown h h n [] where
  size := le_rfl
  new_ge := fun _ ha => absurd ha List.not_mem_nil
  new_lt := fun _ ha => absurd ha List.not_mem_nil
  at_node := by rw [List.append_nil]
  other := fun _ _ _ => rfl

theorem Grown.trans (h1 : Grown h h' n new) (h2 : Grown h' h'' n new') :
    Grown h h'' n (new ++ new') where
  size := h1.size.trans h2.size
  new_ge := fun a ha => (List.mem_append.mp ha).elim (h1.new_ge a)
    fun ha => h1.size.trans (h2.new_ge a ha)
  new_lt := fun a ha => (List.mem_append.mp ha).elim (fun ha => (h1.new_lt a ha).trans_le h2.size)
    (h2.new_lt a)
  at_node := by rw [h2.at_node, h1.at_node, List.append_assoc]
  other := fun x hx hne => by rw [h2.other x (hx.trans_le h1.size) hne, h1.other x hx hne]

theorem grown_addChild (hn : n < h.size) (typ : DbNodeType) (name : CString) :
    Grown h (addChild h n typ name) n [h.size] where
  size := Nat.le_succ _
  new_ge := fun a ha => (List.mem_singleton.mp ha).ge
  new_lt := fun a ha => by
    rw [List.mem_singleton.mp ha]
    exact Nat.lt_succ_self _
  at_node := by rw [node_addChild hn, if_neg (Nat.ne_of_lt hn), if_pos rfl]
  other := fun x hx hne => by rw [node_addChild hn, if_neg (Nat.ne_of_lt hx), if_neg hne]

theorem Grown.below (hn : n < h.size)
    (hg : Grown (addChild h n typ name) h' h.size new) : Grown h h' n [h.size] where
  size := (Nat.le_succ _).trans hg.size
  new_ge := fun a ha => (List.mem_singleton.mp ha).ge
  new_lt := fun a ha => by
    rw [List.mem_singleton.mp ha]
    exact hg.size
  at_node := by
    rw [hg.other n (Nat.lt_succ_of_lt hn) (Nat.ne_of_lt hn), (grown_addChild hn typ name).at_node]
  other := fun x hx hne => by
    rw [hg.other x (Nat.lt_succ_of_lt hx) (Nat.ne_of_lt hx),
      (grown_addChild hn typ name).other x hx hne]

theorem Grown.below_node (hn : n < h.size) (hg : Grown (addChild h n typ name) h' h.size new) :
    h'.node h.size = ⟨typ, name, new, some n⟩ := by
  rw [hg.at_node, node_addChild hn, if_pos rfl]
  rfl

theorem Grown.same (hg : Grown h h' n new) (hx : x < h.size) :
    (h'.node x).typ = (h.node x).typ ∧ (h'.node x).dataName = (h.node x).dataName ∧
      (h'.node x).parent = (h.node x).parent := by
  by_cases hxn : x = n
  · rw [hxn, hg.at_node]
    exact ⟨rfl, rfl, rfl⟩
  · rw [hg.other x hx hxn]
    exact ⟨rfl, rfl, rfl⟩

/-! ### Trees -/

/-- The nodes `ids` are the values of the variable `v`. -/
structure ShowsValues (lo : ℕ) (h : DbHeap) (v : ℕ) (ids : List ℕ) (vals : List DbValue) :
    Prop where
  ge : ∀ a ∈ ids, lo ≤ a
  lt : ∀ a ∈ ids, a < h.size
  nodes : ids.map h.node = vals.map fun val => ⟨.value val, CString.ofBytes [], [], some v⟩

/-- The nodes `ids`, which are children of `n`, make up a tree with what is below them.  All its
nodes are at `lo` or above. -/
inductive Shows (lo : ℕ) (h : DbHeap) : ℕ → List ℕ → DbNodes → Prop where
  | nil {n : ℕ} : Shows lo h n [] .nil
  | group {n a : ℕ} {ids cs : List ℕ} {flags : UInt32} {name : CString} {children next : DbNodes} :
      lo ≤ a → a < h.size → h.node a = ⟨.group, name, cs, some n⟩ → Shows lo h a cs children →
      Shows lo h n ids next → Shows lo h n (a :: ids) (.group flags name children next)
  | var {n a : ℕ} {ids vs : List ℕ} {flags : UInt32} {name : CString} {values : List DbValue}
      {next : DbNodes} :
      lo ≤ a → a < h.size → h.node a = ⟨.var, name, vs, some n⟩ → ShowsValues lo h a vs values →
      Shows lo h n ids next → Shows lo h n (a :: ids) (.var flags name values next)

/-- Nodes from `lo` on are the same in a larger heap. -/
def SameFrom (lo : ℕ) (h h' : DbHeap) : Prop :=
  h.size ≤ h'.size ∧ ∀ x, lo ≤ x → x < h.size → h'.node x = h.node x

theorem ShowsValues.congr {vals : List DbValue} (hs : ShowsValues lo h a ids vals)
    (hsame : SameFrom lo h h') : ShowsValues lo h' a ids vals where
  ge := hs.ge
  lt := fun x hx => (hs.lt x hx).trans_le hsame.1
  nodes := by
    rw [← hs.nodes]
    exact List.map_congr_left fun x hx => hsame.2 x (hs.ge x hx) (hs.lt x hx)

theorem Shows.congr {t : DbNodes} (hs : Shows lo h n ids t) (hsame : SameFrom lo h h') :
    Shows lo h' n ids t := by
  induction hs with
  | nil => exact .nil
  | group hlo hlt hnode _ _ ihc ihn =>
      exact .group hlo (hlt.trans_le hsame.1) ((hsame.2 _ hlo hlt).trans hnode) ihc ihn
  | var hlo hlt hnode hvals _ ihn =>
      exact .var hlo (hlt.trans_le hsame.1) ((hsame.2 _ hlo hlt).trans hnode) (hvals.congr hsame)
        ihn

theorem ShowsValues.mono {vals : List DbValue} (hs : ShowsValues lo h a ids vals) (hm : m ≤ lo) :
    ShowsValues m h a ids vals := ⟨fun x hx => hm.trans (hs.ge x hx), hs.lt, hs.nodes⟩

theorem Shows.mono {t : DbNodes} (hs : Shows lo h n ids t) (hm : m ≤ lo) : Shows m h n ids t := by
  induction hs with
  | nil => exact .nil
  | group hlo hlt hnode _ _ ihc ihn => exact .group (hm.trans hlo) hlt hnode ihc ihn
  | var hlo hlt hnode hvals _ ihn => exact .var (hm.trans hlo) hlt hnode (hvals.mono hm) ihn

theorem Shows.grown {t : DbNodes} (hs : Shows lo h m ids t) (hn : n < lo)
    (hg : Grown h h' n new) : Shows lo h' m ids t :=
  hs.congr ⟨hg.size, fun x hlo hx => hg.other x hx (hn.trans_le hlo).ne'⟩

/-! ### Collecting a tree -/

def withoutFlags : DbNodes → DbNodes
  | .nil => .nil
  | .group _ name children next => .group 0 name (withoutFlags children) (withoutFlags next)
  | .var _ name vals next => .var 0 name vals (withoutFlags next)

/-- The number of levels of groups. -/
def depth : DbNodes → ℕ
  | .nil => 0
  | .group _ _ children next => max (depth children + 1) (depth next)
  | .var _ _ _ next => depth next

theorem ShowsValues.values {vals : List DbValue} (hs : ShowsValues lo h x ids vals)
    (hids : (h.node x).children = ids) : values h x = vals := by
  rw [Db.values, hids]
  have hnodes := hs.nodes
  clear hids hs
  induction vals generalizing ids with
  | nil =>
      rw [List.map_eq_nil_iff.mp hnodes]
      rfl
  | cons val vals ih =>
      cases ids with
      | nil => cases hnodes
      | cons n ids =>
          obtain ⟨hnode, hrest⟩ := List.cons.inj hnodes
          have hvalue : valueOf h n = some val := by rw [valueOf, hnode]
          rw [List.filterMap_cons_some hvalue, ih hrest]

theorem Shows.nodesOf {t : DbNodes} (hs : Shows lo h n ids t) :
    ∀ {k : ℕ}, depth t < k → Db.nodesOf h k ids = withoutFlags t := by
  induction hs with
  | nil =>
      intro k hk
      obtain ⟨k, rfl⟩ := Nat.exists_eq_succ_of_ne_zero (Nat.ne_of_gt hk)
      rfl
  | @group n a ids cs flags name children next hlo hlt hnode _ _ ihc ihn =>
      intro k hk
      rw [depth, max_lt_iff] at hk
      obtain ⟨k, rfl⟩ := Nat.exists_eq_succ_of_ne_zero (Nat.ne_of_gt (Nat.zero_lt_of_lt hk.1))
      have hnext := ihn hk.2
      rw [Db.nodesOf] at hnext ⊢
      rw [List.foldr_cons, hnext, hnode]
      dsimp only
      rw [ihc (Nat.lt_of_succ_lt_succ hk.1), withoutFlags]
  | @var n a ids vs flags name vals next hlo hlt hnode hvals _ ihn =>
      intro k hk
      obtain ⟨k, rfl⟩ := Nat.exists_eq_succ_of_ne_zero (Nat.ne_of_gt (Nat.zero_lt_of_lt hk))
      have hnext := ihn hk
      rw [Db.nodesOf] at hnext ⊢
      rw [List.foldr_cons, hnext, hvals.values (by rw [hnode]), hnode]
      rfl

end
end Gwenhywfar.Db
