import Gwenhywfar.Lib.Ancestors
import Gwenhywfar.Parser.DbFlat
import Gwenhywfar.Parser.DbTree

/-! # Dirty nodes

* `Tracked`: the groups above every node that a call changes are marked as dirty.
* `dirty_modifyBranchFlagsUp`: the loop along the parents marks all nodes above a node.
* `Follows`: what the steps of a call have in common; the nodes keep their parents, and above every
  node that has changed all nodes are dirty.
* `tracked_iff`: the calls that change nodes without marking them. -/

namespace Gwenhywfar.DbTree

open Db Gwenhywfar.Path Text Function
open CString (ofBytes)

def parentOf (t : DbTree) (x : ℕ) : Option ℕ := (t.heap.node x).parent

def content (t : DbTree) (x : ℕ) : DbNodeType × CString × List ℕ :=
  ((t.heap.node x).typ, (t.heap.node x).dataName, (t.heap.node x).children)

def Dirty (t : DbTree) (x : ℕ) : Prop := has (t.nodeFlags x) nodeFlagsDirty = true

/-- The groups above every node that has changed are dirty. -/
def Tracked (t t' : DbTree) : Prop :=
  ∀ y < t.heap.size, t'.content y ≠ t.content y →
    ∀ z, Below t'.parentOf y z → (t'.heap.node z).typ = .group → t'.Dirty z

/-- The nodes are those of trees: children and parents are nodes, and there are no cycles, so that
the parent of a node has a smaller depth, and depths are below the number of nodes. -/
structure Forest (t : DbTree) : Prop where
  wf : Wf t.heap
  parent_lt : ∀ x < t.heap.size, ∀ p, t.parentOf x = some p → p < t.heap.size
  depth : ∃ d : ℕ → ℕ, (∀ x < t.heap.size, d x < t.heap.size) ∧
    ∀ x < t.heap.size, ∀ p, t.parentOf x = some p → d p < d x

section
variable {t t' t'' : DbTree} {n m x z : ℕ} {flags : UInt32} {name : CString}

/-! ### Marking -/

theorem modified_flags (f mask : UInt32) : ((f ^^^ mask) &&& mask) ^^^ f = f ||| mask := by
  rw [← UInt32.toBitVec_inj]
  simp only [UInt32.toBitVec_and, UInt32.toBitVec_or, UInt32.toBitVec_xor]
  ext i hi
  simp only [BitVec.getElem_and, BitVec.getElem_or, BitVec.getElem_xor]
  cases f.toBitVec[i] <;> cases mask.toBitVec[i] <;> rfl

theorem heap_modifyLoop (newflags mask : UInt32) : ∀ (k : ℕ) (t : DbTree) (n : ℕ),
    (modifyLoop newflags mask k t n).heap = t.heap
  | 0, _, _ => rfl
  | k + 1, t, n => by
      rw [modifyLoop]
      dsimp only
      cases (t.heap.node n).parent with
      | none => rfl
      | some p => exact heap_modifyLoop newflags mask k _ p

/-- A node and those above it can be walked in as many rounds as there are nodes. -/
structure Grounded (t : DbTree) (n k : ℕ) (d : ℕ → ℕ) : Prop where
  lt : d n < k
  step : ∀ x, Below t.parentOf n x → ∀ p, t.parentOf x = some p → d p < d x

/-- The first round of the loop. -/
def marked (t : DbTree) (n : ℕ) : DbTree :=
  { t with nodeFlags := update t.nodeFlags n (t.nodeFlags n ||| nodeFlagsDirty) }

theorem dirty_marked (h : t.Dirty x ∨ x = n) : (t.marked n).Dirty x := by
  unfold Dirty marked
  dsimp only
  by_cases hx : x = n
  · subst hx
    rw [update_self, has_or, Bool.or_eq_true]
    exact .inr (by decide)
  · rw [update_of_ne hx]
    exact h.resolve_right hx

theorem modifyLoop_succ (k : ℕ) (t : DbTree) (n : ℕ) :
    modifyLoop nodeFlagsDirty nodeFlagsDirty (k + 1) t n =
      match t.parentOf n with
      | none => t.marked n
      | some p => modifyLoop nodeFlagsDirty nodeFlagsDirty k (t.marked n) p := by
  rw [modifyLoop, modified_flags]
  rfl

theorem dirty_modifyLoop_mono : ∀ (k : ℕ) (t : DbTree) (n : ℕ), t.Dirty z →
    (modifyLoop nodeFlagsDirty nodeFlagsDirty k t n).Dirty z
  | 0, _, _, h => h
  | k + 1, t, n, h => by
      rw [modifyLoop_succ]
      cases t.parentOf n with
      | none => exact dirty_marked (.inl h)
      | some p => exact dirty_modifyLoop_mono k _ p (dirty_marked (.inl h))

variable {d : ℕ → ℕ}

theorem dirty_modifyLoop : ∀ (k : ℕ) (t : DbTree) (n : ℕ), t.Grounded n k d →
    Below t.parentOf n z → (modifyLoop nodeFlagsDirty nodeFlagsDirty k t n).Dirty z
  | 0, _, _, hg, _ => absurd hg.lt (Nat.not_lt_zero _)
  | k + 1, t, n, hg, hz => by
      rw [modifyLoop_succ]
      rw [below_iff] at hz
      cases hp : t.parentOf n with
      | none =>
          rcases hz with rfl | ⟨p, hp', -⟩
          · exact dirty_marked (.inr rfl)
          · rw [hp] at hp'
            cases hp'
      | some p =>
          rcases hz with rfl | ⟨q, hq, hz⟩
          · exact dirty_modifyLoop_mono k _ p (dirty_marked (.inr rfl))
          · rw [hp] at hq
            obtain rfl := Option.some.inj hq
            have hlt := hg.step n Relation.ReflTransGen.refl p hp
            have hg' : (t.marked n).Grounded p k d :=
              ⟨by have := hg.lt; omega, fun x hx => hg.step x (Below.of_parent hp hx)⟩
            exact dirty_modifyLoop k (t.marked n) p hg' hz

/-- `GWEN_DB_ModifyBranchFlagsUp` for the flag of dirty nodes. -/
def markDirty (t : DbTree) (n : ℕ) : DbTree :=
  modifyBranchFlagsUp t n nodeFlagsDirty nodeFlagsDirty

theorem heap_markDirty (t : DbTree) (n : ℕ) : (t.markDirty n).heap = t.heap :=
  heap_modifyLoop _ _ _ t n

theorem dirty_markDirty_mono (h : t.Dirty z) : (t.markDirty n).Dirty z :=
  dirty_modifyLoop_mono _ t n h

theorem dirty_markDirty (hg : t.Grounded n (t.heap.size + 1) d)
    (hz : Below t.parentOf n z) : (t.markDirty n).Dirty z :=
  dirty_modifyLoop _ t n hg hz

theorem Forest.below_lt (hf : t.Forest) (hn : n < t.heap.size) (hx : Below t.parentOf n x) :
    x < t.heap.size := by
  induction hx with
  | refl => exact hn
  | tail _ hp ih => exact hf.parent_lt _ ih _ hp

theorem Forest.grounded (hf : t.Forest) (hn : n < t.heap.size) :
    ∃ d, t.Grounded n (t.heap.size + 1) d := by
  obtain ⟨d, hlt, hstep⟩ := hf.depth
  exact ⟨d, Nat.lt_succ_of_lt (hlt n hn), fun x hx => hstep x (hf.below_lt hn hx)⟩

theorem below_congr (h : ∀ x, Below t.parentOf n x → t'.parentOf x = t.parentOf x) :
    Below t'.parentOf n z ↔ Below t.parentOf n z := by
  constructor
  · intro hz
    induction hz with
    | refl => exact Relation.ReflTransGen.refl
    | @tail a b _ hp ih =>
        have hp : t'.parentOf a = some b := hp
        exact Relation.ReflTransGen.tail ih (h a ih ▸ hp)
  · intro hz
    induction hz with
    | refl => exact Relation.ReflTransGen.refl
    | @tail a b ha hp ih =>
        exact Relation.ReflTransGen.tail ih (show t'.parentOf a = some b from (h a ha).trans hp)

theorem Grounded.congr {k k' : ℕ} (hg : t.Grounded n k d) (hk : k ≤ k')
    (h : ∀ x, Below t.parentOf n x → ∀ p, t'.parentOf x = some p → t.parentOf x = some p) :
    t'.Grounded n k' d where
  lt := hg.lt.trans_le hk
  step := by
    have hsub : ∀ x, Below t'.parentOf n x → Below t.parentOf n x := by
      intro x hx
      induction hx with
      | refl => exact Relation.ReflTransGen.refl
      | tail _ hp ih => exact Relation.ReflTransGen.tail ih (h _ ih _ hp)
    exact fun x hx p hp => hg.step x (hsub x hx) p (h x (hsub x hx) p hp)

theorem tracked_markDirty (hg : t'.Grounded n (t'.heap.size + 1) d)
    (hsame : ∀ x < t.heap.size, x ≠ n → t'.content x = t.content x) :
    Tracked t (t'.markDirty n) := by
  intro y hy hne z hz _
  unfold content parentOf at *
  rw [heap_markDirty] at hne hz
  have hyn : y = n := by
    by_contra hyn
    exact hne (hsame y hy hyn)
  subst hyn
  exact dirty_markDirty hg hz

/-! ### Steps of a call -/

/-- The nodes keep their parents, and above every node that has changed all nodes are dirty. -/
structure Follows (t t' : DbTree) : Prop where
  size : t.heap.size ≤ t'.heap.size
  parent : ∀ x < t.heap.size, t'.parentOf x = t.parentOf x
  tracked : ∀ y < t.heap.size, t'.content y ≠ t.content y →
    ∀ z, Below t.parentOf y z → t'.Dirty z
  mono : ∀ z < t.heap.size, t.Dirty z → t'.Dirty z

theorem Follows.refl (t : DbTree) : Follows t t :=
  ⟨le_rfl, fun _ _ => rfl, fun _ _ hne => absurd rfl hne, fun _ _ h => h⟩

theorem Follows.trans (hf : t.Forest) (h : Follows t t') (h' : Follows t' t'') : Follows t t'' where
  size := h.size.trans h'.size
  parent := fun x hx => (h'.parent x (hx.trans_le h.size)).trans (h.parent x hx)
  tracked := by
    intro y hy hne z hz
    by_cases hsame : t'.content y = t.content y
    · refine h'.tracked y (hy.trans_le h.size) (hsame ▸ hne) z ?_
      exact (below_congr fun x hx => h.parent x (hf.below_lt hy hx)).mpr hz
    · exact h'.mono z ((hf.below_lt hy hz).trans_le h.size) (h.tracked y hy hsame z hz)
  mono := fun z hz hd => h'.mono z (hz.trans_le h.size) (h.mono z hz hd)

theorem Follows.all_tracked (hf : t.Forest) (h : Follows t t') : Tracked t t' := by
  intro y hy hne z hz _
  refine h.tracked y hy hne z ?_
  exact (below_congr fun x hx => h.parent x (hf.below_lt hy hx)).mp hz

/-- Nodes are added, and one of the nodes is changed and then marked. -/
theorem follows_markDirty (hsize : t.heap.size ≤ t'.heap.size)
    (hparent : ∀ x < t.heap.size, t'.parentOf x = t.parentOf x)
    (hsame : ∀ x < t.heap.size, x ≠ n → t'.content x = t.content x)
    (hflags : ∀ x < t.heap.size, t'.nodeFlags x = t.nodeFlags x)
    (hchain : ∀ x, Below t.parentOf n x → x < t.heap.size)
    (hg : t.Grounded n (t.heap.size + 1) d) : Follows t (t'.markDirty n) where
  size := by rwa [heap_markDirty]
  parent := by
    intro x hx
    unfold parentOf
    rw [heap_markDirty]
    exact hparent x hx
  tracked := by
    intro y hy hne z hz
    unfold content at hne
    rw [heap_markDirty] at hne
    have hyn : y = n := by
      by_contra hyn
      exact hne (hsame y hy hyn)
    subst hyn
    have hkept : ∀ x, Below t.parentOf y x → t'.parentOf x = t.parentOf x :=
      fun x hx => hparent x (hchain x hx)
    refine dirty_markDirty (hg.congr (Nat.succ_le_succ hsize) fun x hx p hp => ?_)
      ((below_congr hkept).mpr hz)
    rwa [hkept x hx] at hp
  mono := by
    intro z hz hd
    refine dirty_markDirty_mono ?_
    unfold Dirty at *
    rwa [hflags z hz]

/-! ### Creating nodes -/

theorem nodeAdd_eq (flags : UInt32) (t : DbTree) (n m : ℕ) :
    nodeAdd flags t n m = markDirty { t with heap := Db.nodeAdd flags t.heap n m } n := by
  unfold nodeAdd Db.nodeAdd
  split <;> rfl

theorem createNode_eq (flags : UInt32) (t : DbTree) (n : ℕ) (name : CString) :
    createNode flags t n name = markDirty ⟨Db.createNode flags t.heap n name,
      update t.nodeFlags t.heap.size 0⟩ n := nodeAdd_eq flags _ n _

theorem heap_createNode : (createNode flags t n name).heap = Db.createNode flags t.heap n name := by
  rw [createNode_eq, heap_markDirty]

theorem follows_createNode (hf : t.Forest) (hn : n < t.heap.size) :
    Follows t (createNode flags t n name) := by
  obtain ⟨d, hg⟩ := hf.grounded hn
  rw [createNode_eq]
  refine follows_markDirty ?_ (fun x hx => parent_createNode hn hx) (fun x hx hne => ?_)
    (fun x hx => update_of_ne (Nat.ne_of_lt hx) ..) (fun x hx => hf.below_lt hn hx) hg
  · rw [size_createNode]
    exact Nat.le_succ _
  · unfold content
    dsimp only
    rw [createNode_other hx hne]

theorem forest_createNode (hf : t.Forest) (hn : n < t.heap.size) :
    (createNode flags t n name).Forest := by
  obtain ⟨d, hlt, hstep⟩ := hf.depth
  have hsize := @size_createNode t.heap n name flags
  have hparent (x : ℕ) (hx : x < t.heap.size) : (createNode flags t n name).parentOf x =
      t.parentOf x := by
    unfold parentOf
    rw [heap_createNode, parent_createNode hn hx]
  have hnew : (createNode flags t n name).parentOf t.heap.size = some n := by
    unfold parentOf
    rw [heap_createNode, parent_createNode_new hn]
  refine ⟨?_, ?_, update d t.heap.size (d n + 1), ?_, ?_⟩
  · rw [heap_createNode]
    intro x hx c hc
    rw [hsize] at hx ⊢
    rcases Nat.lt_succ_iff_lt_or_eq.mp hx with hx | rfl
    · rw [(createNode_old hn hx).2.2] at hc
      have hchild : ∀ c ∈ (t.heap.node x).children, c < t.heap.size + 1 :=
        fun c hc => Nat.lt_succ_of_lt (hf.wf x hx c hc)
      split at hc
      · next hxn =>
          subst hxn
          split at hc
          · rcases List.mem_cons.mp hc with rfl | hc
            · exact Nat.lt_succ_self _
            · exact hchild c hc
          · rcases List.mem_append.mp hc with hc | hc
            · exact hchild c hc
            · rw [List.mem_singleton.mp hc]
              exact Nat.lt_succ_self _
      · exact hchild c hc
    · rw [(createNode_new hn).2.2] at hc
      cases hc
  · rw [heap_createNode, hsize]
    intro x hx p hp
    rcases Nat.lt_succ_iff_lt_or_eq.mp hx with hx | rfl
    · rw [hparent x hx] at hp
      exact Nat.lt_succ_of_lt (hf.parent_lt x hx p hp)
    · rw [hnew] at hp
      obtain rfl := Option.some.inj hp
      exact Nat.lt_succ_of_lt hn
  · rw [heap_createNode, hsize]
    intro x hx
    rcases Nat.lt_succ_iff_lt_or_eq.mp hx with hx | rfl
    · rw [update_of_ne (Nat.ne_of_lt hx)]
      exact Nat.lt_succ_of_lt (hlt x hx)
    · rw [update_self]
      exact Nat.succ_lt_succ (hlt n hn)
  · rw [heap_createNode, hsize]
    intro x hx p hp
    rcases Nat.lt_succ_iff_lt_or_eq.mp hx with hx | rfl
    · rw [hparent x hx] at hp
      rw [update_of_ne (Nat.ne_of_lt hx),
        update_of_ne (Nat.ne_of_lt (hf.parent_lt x hx p hp))]
      exact hstep x hx p hp
    · rw [hnew] at hp
      obtain rfl := Option.some.inj hp
      rw [update_self, update_of_ne (Nat.ne_of_lt hn)]
      exact Nat.lt_succ_self _

/-! ### Paths -/

theorem handlePath_element (e : PathElement) (t : DbTree) (n : ℕ) :
    handlePath e.entry n e.idx e.flags t =
      match e.found t.heap n with
      | some nn => if e.mustNotExist then (none, t) else (some nn, t)
      | none =>
          if e.Creatable then
            (some t.heap.size, createNode e.flags t n (ofBytes e.entry))
          else (none, t) :=
  handle_element e (find t.heap n (has e.flags flagsVariable) (ofBytes e.entry) e.idx)
    (none, t) (some t.heap.size, createNode e.flags t n (ofBytes e.entry))
    fun nn => (some nn, t)

variable {origflags : UInt32}

/-- The walk along a path, by induction on its rounds. -/
theorem follows_handleLoop : ∀ (k : ℕ) (path : List UInt8)
    (startAtRoot : Bool) {n : ℕ} {t : DbTree}, t.Forest → n < t.heap.size →
    Follows t (handleLoop handlePath origflags k path startAtRoot n t).2 ∧
      (handleLoop handlePath origflags k path startAtRoot n t).2.Forest ∧
      ∀ a, (handleLoop handlePath origflags k path startAtRoot n t).1 = some a →
        a < (handleLoop handlePath origflags k path startAtRoot n t).2.heap.size
  | _, [], _, n, t, hf, hn => by
      rw [handleLoop]
      refine ⟨Follows.refl t, hf, fun a ha => ?_⟩
      obtain rfl := Option.some.inj ha
      exact hn
  | 0, _ :: _, _, n, t, hf, hn => by
      rw [handleLoop]
      exact ⟨Follows.refl t, hf, fun _ ha => absurd ha.symm (Option.some_ne_none _)⟩
  | k + 1, c :: path, startAtRoot, n, t, hf, hn => by
      rw [handleLoop_element]
      cases element origflags startAtRoot (c :: path) with
      | none => exact ⟨Follows.refl t, hf, fun _ ha => absurd ha.symm (Option.some_ne_none _)⟩
      | some e =>
          rw [Option.elim_some, handlePath_element]
          cases hfound : e.found t.heap n with
          | none =>
              dsimp only
              by_cases hc : e.Creatable
              · have hcreated := @follows_createNode t n e.flags (ofBytes e.entry) hf hn
                have hforest := @forest_createNode t n e.flags (ofBytes e.entry) hf hn
                have hlt : t.heap.size <
                    (createNode e.flags t n (ofBytes e.entry)).heap.size := by
                  rw [heap_createNode, size_createNode]
                  exact Nat.lt_succ_self _
                obtain ⟨hrest, hforest', hresult⟩ :=
                  @follows_handleLoop k e.rest false _ _ hforest hlt
                rw [if_pos hc]
                exact ⟨hcreated.trans hf hrest, hforest', hresult⟩
              · rw [if_neg hc]
                exact ⟨Follows.refl t, hf, fun _ ha => absurd ha.symm (Option.some_ne_none _)⟩
          | some nn =>
              dsimp only
              cases e.mustNotExist with
              | true =>
                  exact ⟨Follows.refl t, hf, fun _ ha => absurd ha.symm (Option.some_ne_none _)⟩
              | false => exact follows_handleLoop k e.rest false hf (found_lt hf.wf hn hfound)

theorem follows_getNode (hf : t.Forest) (hn : n < t.heap.size) (path : CString) :
    Follows t (t.getNode n path flags).2 ∧ (t.getNode n path flags).2.Forest ∧
      ∀ a, (t.getNode n path flags).1 = some a → a < (t.getNode n path flags).2.heap.size :=
  follows_handleLoop _ _ _ hf hn

/-! ### Adding values -/

theorem follows_addValue {a : ℕ} {val : DbValue} (hf : t.Forest) (ha : a < t.heap.size) :
    Follows t (markDirty ⟨addValue flags t.heap a val,
      update t.nodeFlags t.heap.size 0⟩ a) := by
  obtain ⟨d, hg⟩ := hf.grounded ha
  refine follows_markDirty ?_ (fun x hx => parent_addValue ha hx) (fun x hx hne => ?_)
    (fun x hx => update_of_ne (Nat.ne_of_lt hx) ..) (fun x hx => hf.below_lt ha hx) hg
  · rw [size_addValue]
    exact Nat.le_succ _
  · obtain ⟨htyp, hname, hchildren⟩ := @addValue_old t.heap a x flags val ha hx
    unfold content
    dsimp only
    rw [htyp, hname, hchildren, if_neg hne]

theorem follows_setValue (hf : t.Forest) (hn : n < t.heap.size) (path : CString) (val : DbValue) :
    Follows t (t.setValue n flags path val).2 := by
  obtain ⟨hwalk, hforest, hresult⟩ := @follows_getNode t n (flags ||| flagsVariable) hf hn path
  unfold setValue
  cases hnode : t.getNode n path (flags ||| flagsVariable) with
  | mk r u =>
      rw [hnode] at hwalk hforest hresult
      cases r with
      | none => exact hwalk
      | some a =>
          dsimp only
          have hadd := @follows_addValue u flags a val hforest (hresult a rfl)
          rw [nodeAdd_eq]
          refine hwalk.trans hf ?_
          unfold addValue at hadd
          by_cases how : has flags flagsOverwriteVars = true
          · rw [if_pos how] at hadd ⊢
            exact hadd
          · rw [if_neg how] at hadd ⊢
            exact hadd

theorem follows_addCharValue (hf : t.Forest) (hn : n < t.heap.size) (path val : CString)
    (senseCase check : Bool) : Follows t (t.addCharValue n path val senseCase check).2 := by
  obtain ⟨hwalk, hforest, hresult⟩ :=
    @follows_getNode t n (flagsDefault ||| flagsVariable) hf hn path
  unfold addCharValue
  cases hnode : t.getNode n path (flagsDefault ||| flagsVariable) with
  | mk r u =>
      rw [hnode] at hwalk hforest hresult
      cases r with
      | none => exact hwalk
      | some a =>
          dsimp only
          split
          · exact hwalk
          · exact hwalk.trans hf
              (@follows_addValue u 0 a (.char val) hforest (hresult a rfl))

/-! ### Copies -/

/-- A copy does not change the nodes that it is made of. -/
structure Extends (t t' : DbTree) : Prop where
  size : t.heap.size < t'.heap.size
  same : ∀ x < t.heap.size, t'.heap.node x = t.heap.node x ∧ t'.nodeFlags x = t.nodeFlags x

theorem extends_newNode (typ : DbNodeType) (name : CString) : Extends t (t.newNode typ name) where
  size := Nat.lt_succ_self _
  same := fun _ hx => ⟨node_newNode hx, update_of_ne (Nat.ne_of_lt hx) ..⟩

theorem node_nodeAppend {h : DbHeap} (hxn : x ≠ n) (hxm : x ≠ m) :
    (Db.nodeAppend h n m).node x = h.node x := by
  unfold Db.nodeAppend setParent setChildren
  dsimp only
  rw [update_of_ne hxm, update_of_ne hxn]

theorem extends_nodeDup : ∀ (k : ℕ) (t : DbTree) (n : ℕ), Extends t (nodeDup k t n)
  | 0, t, n => extends_newNode _ _
  | k + 1, t, n => by
      rw [nodeDup]
      have hloop : ∀ (nodes : List ℕ) (u : DbTree), Extends t u →
          Extends t (nodes.foldl (fun u cn =>
            (nodeDup k u cn).nodeAppendUnDirty t.heap.size u.heap.size) u) := by
        intro nodes
        induction nodes with
        | nil => exact fun u hu => hu
        | cons cn nodes ih =>
            intro u hu
            have hcopy := extends_nodeDup k u cn
            refine ih _ ⟨hu.size.trans hcopy.size, fun x hx => ?_⟩
            obtain ⟨hnode, hflags⟩ := hcopy.same x (hx.trans hu.size)
            obtain ⟨hnode', hflags'⟩ := hu.same x hx
            refine ⟨?_, hflags.trans hflags'⟩
            unfold nodeAppendUnDirty
            dsimp only
            rw [node_nodeAppend (Nat.ne_of_lt hx) (Nat.ne_of_lt (hx.trans hu.size)), hnode, hnode']
      exact hloop _ _ (extends_newNode _ _)

theorem follows_nodeDup (hf : t.Forest) (hn : n < t.heap.size) {u : DbTree} (hu : Follows t u)
    (k cn : ℕ) : Follows t ((nodeDup k u cn).nodeAppend n u.heap.size) := by
  obtain ⟨d, hg⟩ := hf.grounded hn
  have hkept : ∀ x, Below t.parentOf n x → u.parentOf x = t.parentOf x :=
    fun x hx => hu.parent x (hf.below_lt hn hx)
  have hgu : u.Grounded n (u.heap.size + 1) d :=
    hg.congr (Nat.succ_le_succ hu.size) fun x hx p hp => by rwa [hkept x hx] at hp
  have hcopy := extends_nodeDup k u cn
  have hnu := hn.trans_le hu.size
  refine hu.trans hf (follows_markDirty hcopy.size.le (fun x hx => ?_) (fun x hx hne => ?_)
    (fun x hx => (hcopy.same x hx).2) (fun x hx => ?_) hgu)
  · have hparent := @parent_nodeAdd (nodeDup k u cn).heap n u.heap.size x 0 (Nat.ne_of_lt hnu)
    rw [if_neg (Nat.ne_of_lt hx), (hcopy.same x hx).1] at hparent
    exact hparent
  · unfold content nodeAppendUnDirty
    dsimp only
    rw [node_nodeAppend hne (Nat.ne_of_lt hx), (hcopy.same x hx).1]
  · rw [below_congr hkept] at hx
    exact (hf.below_lt hn hx).trans_le hu.size

theorem follows_addGroupChildren (hf : t.Forest) (hn : n < t.heap.size) : ∀ (nodes : List ℕ)
    (u : DbTree), Follows t u → Follows t (nodes.foldl (fun u cn =>
      (nodeDup (u.heap.size + 1) u cn).nodeAppend n u.heap.size) u) := by
  intro nodes
  induction nodes with
  | nil => exact fun u hu => hu
  | cons cn nodes ih => exact fun u hu => ih _ (follows_nodeDup hf hn hu _ cn)

/-! ### Looking up -/

/-- The flags only find nodes. -/
structure LooksUp (flags : UInt32) : Prop extends PlainFlags flags where
  mustExist : has flags flagsNameMustExist = true

theorem looksUp_lookupFlags : LooksUp lookupFlags := ⟨plainFlags_lookupFlags, by decide⟩

theorem looksUp_groupFlags : LooksUp groupFlags :=
  ⟨⟨by decide, by decide, by decide, by decide⟩, by decide⟩

theorem element_flags {startAtRoot : Bool} {path : List UInt8}
    {e : PathElement} (he : element origflags startAtRoot path = some e) : ∃ last,
      e.flags = elementFlags origflags startAtRoot last (last && has origflags flagsVariable) := by
  unfold element at he
  dsimp only at he
  split at he
  · cases he
  · rw [Option.map_eq_some_iff] at he
    obtain ⟨p, -, rfl⟩ := he
    exact ⟨_, rfl⟩

theorem not_creatable {startAtRoot : Bool} {path : List UInt8}
    {e : PathElement} (hl : LooksUp origflags)
    (he : element origflags startAtRoot path = some e) : ¬ e.Creatable := by
  obtain ⟨last, hflags⟩ := element_flags he
  have hforced : e.forced = false := by
    unfold PathElement.forced
    rw [hflags]
    exact hl.toPlainFlags.not_create _ _
  have hmust : e.mustExist = true := by
    unfold PathElement.mustExist
    rw [hflags, has_elementFlags flagsNameMustExist (by decide) (by decide) (by decide) (by decide),
      hl.mustExist, Bool.or_true]
  rintro ⟨-, hc | hc⟩
  · rw [hforced] at hc
    cases hc
  · rw [hmust] at hc
    cases hc

/-- A walk that only finds nodes changes nothing, and groups are found below groups. -/
theorem handleLoop_looksUp (hl : LooksUp origflags) (hf : t.Forest) :
    ∀ (k : ℕ) (path : List UInt8) (startAtRoot : Bool) {n : ℕ}, n < t.heap.size →
      (handleLoop handlePath origflags k path startAtRoot n t).2 = t ∧
      ∀ a, (handleLoop handlePath origflags k path startAtRoot n t).1 = some a →
        a < t.heap.size ∧ (has origflags flagsVariable = false → (t.heap.node n).typ = .group →
          (t.heap.node a).typ = .group)
  | _, [], _, n, hn => by
      rw [handleLoop]
      refine ⟨rfl, fun a ha => ?_⟩
      obtain rfl := Option.some.inj ha
      exact ⟨hn, fun _ hgroup => hgroup⟩
  | 0, _ :: _, _, n, hn => by
      rw [handleLoop]
      exact ⟨rfl, fun _ ha => absurd ha.symm (Option.some_ne_none _)⟩
  | k + 1, c :: path, startAtRoot, n, hn => by
      rw [handleLoop_element]
      cases he : element origflags startAtRoot (c :: path) with
      | none => exact ⟨rfl, fun _ ha => absurd ha.symm (Option.some_ne_none _)⟩
      | some e =>
          rw [Option.elim_some, handlePath_element, if_neg (not_creatable hl he)]
          cases hfound : e.found t.heap n with
          | none => exact ⟨rfl, fun _ ha => absurd ha.symm (Option.some_ne_none _)⟩
          | some nn =>
              dsimp only
              cases e.mustNotExist with
              | true => exact ⟨rfl, fun _ ha => absurd ha.symm (Option.some_ne_none _)⟩
              | false =>
                  obtain ⟨hsame, hresult⟩ :=
                    handleLoop_looksUp hl hf k e.rest false (found_lt hf.wf hn hfound)
                  refine ⟨hsame, fun a ha => ⟨(hresult a ha).1, fun hvar _ => ?_⟩⟩
                  refine (hresult a ha).2 hvar ?_
                  obtain ⟨last, hflags⟩ := element_flags he
                  rw [PathElement.found, hflags, has_elementFlags_variable, hvar,
                    Bool.and_false] at hfound
                  split at hfound
                  · cases hfound
                  · exact (find_spec hfound).2

theorem getNode_looksUp (hl : LooksUp flags) (hf : t.Forest) (hn : n < t.heap.size)
    (path : CString) : (t.getNode n path flags).2 = t ∧
      ∀ a, (t.getNode n path flags).1 = some a → a < t.heap.size ∧
        (has flags flagsVariable = false → (t.heap.node n).typ = .group →
          (t.heap.node a).typ = .group) :=
  handleLoop_looksUp hl hf _ _ _ hn

/-! ### Linking and unlinking -/

theorem tracked_nodeAdd (hf : t.Forest) (hn : n < t.heap.size) (hm : ¬ Below t.parentOf n m) :
    Tracked t (nodeAdd flags t n m) := by
  obtain ⟨d, hg⟩ := hf.grounded hn
  have hne : n ≠ m := fun h => hm (h ▸ Relation.ReflTransGen.refl)
  have hparent (x : ℕ) (hx : x ≠ m) :
      (({ t with heap := Db.nodeAdd flags t.heap n m } : DbTree)).parentOf x = t.parentOf x := by
    unfold parentOf
    dsimp only
    rw [parent_nodeAdd hne, if_neg hx]
  rw [nodeAdd_eq]
  refine tracked_markDirty (hg.congr ?_ fun x hx p hp => ?_) fun x hx hxn => ?_
  · dsimp only
    rw [size_nodeAdd]
  · rwa [hparent x fun h => hm (h ▸ hx)] at hp
  · obtain ⟨htyp, hname, hchildren⟩ := node_nodeAdd flags t.heap hne x
    unfold content
    dsimp only
    rw [htyp, hname, hchildren, if_neg hxn]

theorem tracked_nodeUnlink (hf : t.Forest) (hn : n < t.heap.size)
    (hunlink : t.nodeUnlink n = some t') : Tracked t t' := by
  unfold nodeUnlink at hunlink
  rw [Option.map_eq_some_iff] at hunlink
  obtain ⟨p, hp, rfl⟩ := hunlink
  have hplt := hf.parent_lt n hn p hp
  obtain ⟨d, hg⟩ := hf.grounded hplt
  have hnode (x : ℕ) : (t.nodeUnlinkUnDirty p n).content x =
      ((t.heap.node x).typ, (t.heap.node x).dataName,
        if x = p then (t.heap.node p).children.erase n else (t.heap.node x).children) ∧
      (t.nodeUnlinkUnDirty p n).parentOf x = if x = n then none else t.parentOf x := by
    unfold content parentOf nodeUnlinkUnDirty setChildren
    dsimp only
    by_cases hxn : x = n
    · subst hxn
      by_cases hxp : x = p
      · subst hxp
        simp
      · simp [hxp]
    · by_cases hxp : x = p
      · subst hxp
        simp [hxn]
      · simp [hxn, hxp]
  refine tracked_markDirty (hg.congr le_rfl fun x _ q hq => ?_) fun x hx hxp => ?_
  · rw [(hnode x).2] at hq
    split at hq
    · cases hq
    · exact hq
  · rw [(hnode x).1, if_neg hxp]
    rfl

theorem tracked_deleteNode (hl : LooksUp flags) (hf : t.Forest) (hn : n < t.heap.size)
    {path : CString} {r : ℤ × DbTree} (hrun : deleteNode flags t n path = some r) :
    Tracked t r.2 := by
  obtain ⟨hsame, hresult⟩ := getNode_looksUp hl hf hn path
  unfold deleteNode at hrun
  cases hnode : t.getNode n path flags with
  | mk a u =>
      rw [hnode] at hrun hsame hresult
      obtain rfl : u = t := hsame
      cases a with
      | none =>
          obtain rfl := Option.some.inj hrun
          exact (Follows.refl u).all_tracked hf
      | some a =>
          dsimp only at hrun
          rw [Option.map_eq_some_iff] at hrun
          obtain ⟨u', hunlink, rfl⟩ := hrun
          exact tracked_nodeUnlink hf (hresult a rfl).1 hunlink

/-! ### Changes that are not marked -/

def Clean (t : DbTree) : Prop := ∀ x, ¬ t.Dirty x

theorem tracked_of_same (hsame : ∀ x < t.heap.size, t'.content x = t.content x) : Tracked t t' :=
  fun y hy hne => absurd (hsame y hy) hne

theorem not_tracked (hclean : t.Clean) (hflags : t'.nodeFlags = t.nodeFlags)
    (hn : n < t.heap.size) (hne : t'.content n ≠ t.content n) (hz : Below t'.parentOf n z)
    (hgroup : (t'.heap.node z).typ = .group) : ¬ Tracked t t' := by
  intro htracked
  have hd := htracked n hn hne z hz hgroup
  unfold Dirty at hd
  rw [hflags] at hd
  exact hclean z hd

theorem tracked_clearNode (hclean : t.Clean) (hn : n < t.heap.size)
    (hgroup : (t.heap.node n).typ = .group) :
    Tracked t (t.clearNode n) ↔ (t.heap.node n).children = [] := by
  have hnode : (t.clearNode n).heap.node n = { t.heap.node n with children := [] } :=
    update_self ..
  constructor
  · intro htracked
    by_contra hne
    refine @not_tracked t (t.clearNode n) n n hclean rfl hn (fun heq => hne ?_)
      Relation.ReflTransGen.refl ?_ htracked
    · unfold content at heq
      rw [hnode] at heq
      exact (Prod.mk.inj (Prod.mk.inj heq).2).2.symm
    · rw [hnode]
      exact hgroup
  · intro hnil
    refine tracked_of_same fun x _ => ?_
    by_cases hx : x = n
    · subst hx
      unfold content
      rw [hnode, hnil]
    · unfold content clearNode Db.clearNode setChildren
      dsimp only
      rw [update_of_ne hx]

theorem tracked_update {node : DbNode} (hclean : t.Clean) (hn : n < t.heap.size)
    (hparent : node.parent = t.parentOf n) (hchildren : node.children = (t.heap.node n).children)
    (hz : Below t.parentOf n z) (hgroup : (t.heap.node z).typ = .group)
    (htyp : z = n → node.typ = .group) :
    Tracked t { t with heap := { t.heap with node := update t.heap.node n node } } ↔
      node.typ = (t.heap.node n).typ ∧ node.dataName = (t.heap.node n).dataName := by
  generalize ht' : ({ t with heap := { t.heap with
    node := update t.heap.node n node } } : DbTree) = t'
  have hself : t'.heap.node n = node := by
    rw [← ht']
    exact update_self ..
  have hother (x : ℕ) (hx : x ≠ n) : t'.heap.node x = t.heap.node x := by
    rw [← ht']
    exact update_of_ne hx ..
  have hparents : t'.parentOf = t.parentOf := by
    funext x
    unfold parentOf at *
    by_cases hx : x = n
    · rw [hx, hself, hparent]
    · rw [hother x hx]
  constructor
  · intro htracked
    by_contra hne
    refine not_tracked hclean (by rw [← ht']) hn (fun heq => hne ?_) (hparents ▸ hz) ?_ htracked
    · unfold content at heq
      rw [hself] at heq
      exact ⟨(Prod.mk.inj heq).1, (Prod.mk.inj (Prod.mk.inj heq).2).1⟩
    · by_cases hzn : z = n
      · rw [hzn, hself]
        exact htyp hzn
      · rw [hother z hzn]
        exact hgroup
  · rintro ⟨htyp', hname⟩
    refine tracked_of_same fun x _ => ?_
    unfold content
    by_cases hx : x = n
    · rw [hx, hself, htyp', hname, hchildren]
    · rw [hother x hx]

/-! ### All calls -/

/-- The call is one for the node: a group, or a value or a variable in a group; a group that is
added belongs to no tree that the node is in. -/
def Valid (t : DbTree) (n : ℕ) : Call → Prop
  | .setCharValueInNode _ | .variableRename _ =>
      ∃ z, Below t.parentOf n z ∧ (t.heap.node z).typ = .group
  | .addGroup nn | .insertGroup nn =>
      (t.heap.node n).typ = .group ∧ nn < t.heap.size ∧ t.parentOf nn = none ∧
        ¬ Below t.parentOf n nn
  | .addGroupChildren nn => (t.heap.node n).typ = .group ∧ nn < t.heap.size
  | _ => (t.heap.node n).typ = .group

/-- The call changes a node directly: it clears a group that has children, or it gives another text
to a value or another name to a node. -/
def ChangesUnmarked (t : DbTree) (n : ℕ) : Call → Prop
  | .clearGroup none => (t.heap.node n).children ≠ []
  | .clearGroup (some path) =>
      ∃ nn, (t.getNode n path groupFlags).1 = some nn ∧ (t.heap.node nn).children ≠ []
  | .setCharValueInNode s => ∃ s', (t.heap.node n).typ = .value (.char s') ∧ s' ≠ s
  | .groupRename newname | .variableRename newname => (t.heap.node n).dataName ≠ newname
  | _ => False

theorem tracked_clearGroup (hf : t.Forest) (hclean : t.Clean) (hn : n < t.heap.size)
    (hgroup : (t.heap.node n).typ = .group) (path : Option CString) :
    Tracked t (t.clearGroup n path).2 ↔ ¬ t.ChangesUnmarked n (.clearGroup path) := by
  cases path with
  | none =>
      unfold ChangesUnmarked
      rw [not_not]
      exact tracked_clearNode hclean hn hgroup
  | some path =>
      obtain ⟨hsame, hresult⟩ := getNode_looksUp looksUp_groupFlags hf hn path
      unfold clearGroup ChangesUnmarked
      dsimp only
      cases hnode : t.getNode n path groupFlags with
      | mk r u =>
          rw [hnode] at hsame hresult
          obtain rfl : u = t := hsame
          cases r with
          | none =>
              refine iff_of_true ((Follows.refl u).all_tracked hf) ?_
              rintro ⟨nn, hnn, -⟩
              cases hnn
          | some a =>
              obtain ⟨ha, hgroup'⟩ := hresult a rfl
              dsimp only
              rw [tracked_clearNode hclean ha (hgroup' (by decide) hgroup)]
              constructor
              · rintro hnil ⟨nn, hnn, hne⟩
                obtain rfl := Option.some.inj hnn
                exact hne hnil
              · intro hnot
                by_contra hne
                exact hnot ⟨a, rfl, hne⟩

theorem tracked_setCharValueInNode (hf : t.Forest) (hclean : t.Clean) (hn : n < t.heap.size)
    (hz : Below t.parentOf n z) (hgroup : (t.heap.node z).typ = .group) (s : CString) :
    Tracked t (t.setCharValueInNode n s).2 ↔ ¬ t.ChangesUnmarked n (.setCharValueInNode s) := by
  unfold ChangesUnmarked setCharValueInNode
  cases htyp : (t.heap.node n).typ with
  | group | var =>
      refine iff_of_true ((Follows.refl t).all_tracked hf) ?_
      rintro ⟨s', hs', -⟩
      cases hs'
  | value v =>
      cases v with
      | int | bin | ptr =>
          refine iff_of_true ((Follows.refl t).all_tracked hf) ?_
          rintro ⟨s', hs', -⟩
          cases hs'
      | char s' =>
          have hzn : z ≠ n := by
            rintro rfl
            rw [htyp] at hgroup
            cases hgroup
          refine (@tracked_update t n z { t.heap.node n with typ := .value (.char s) } hclean hn rfl
            rfl hz hgroup fun h => absurd h hzn).trans ?_
          rw [htyp]
          constructor
          · rintro ⟨hs, -⟩ ⟨s'', hs'', hne⟩
            cases hs
            cases hs''
            exact hne rfl
          · intro hnot
            have heq : s' = s := by
              by_contra hne
              exact hnot ⟨s', rfl, hne⟩
            rw [heq]
            exact ⟨rfl, rfl⟩

theorem tracked_setName (hclean : t.Clean) (hn : n < t.heap.size) (hz : Below t.parentOf n z)
    (hgroup : (t.heap.node z).typ = .group) (newname : CString) :
    Tracked t (t.setName n newname) ↔ ¬ (t.heap.node n).dataName ≠ newname := by
  refine (@tracked_update t n z { t.heap.node n with dataName := newname } hclean hn rfl rfl hz
    hgroup fun h => h ▸ hgroup).trans ?_
  rw [not_not]
  exact ⟨fun h => h.2.symm, fun h => ⟨rfl, h.symm⟩⟩

/-- The groups above every node that a call changes are dirty afterwards, exactly when the call is
not one of those that change a node without marking it. -/
theorem tracked_iff {call : Call} (hf : t.Forest) (hclean : t.Clean) (hn : n < t.heap.size)
    (hvalid : t.Valid n call) (hrun : t.run n call = some t') :
    Tracked t t' ↔ ¬ t.ChangesUnmarked n call := by
  cases call with
  | setValue flags path val =>
      obtain rfl := Option.some.inj hrun
      exact iff_of_true ((follows_setValue hf hn path val).all_tracked hf) id
  | addCharValue path val senseCase check =>
      obtain rfl := Option.some.inj hrun
      exact iff_of_true ((follows_addCharValue hf hn path val senseCase check).all_tracked hf) id
  | deleteVar path =>
      obtain ⟨r, hr, rfl⟩ := Option.map_eq_some_iff.mp hrun
      exact iff_of_true (tracked_deleteNode looksUp_lookupFlags hf hn hr) id
  | deleteGroup path =>
      obtain ⟨r, hr, rfl⟩ := Option.map_eq_some_iff.mp hrun
      exact iff_of_true (tracked_deleteNode looksUp_groupFlags hf hn hr) id
  | clearGroup path =>
      obtain rfl := Option.some.inj hrun
      exact tracked_clearGroup hf hclean hn hvalid path
  | addGroup nn =>
      obtain rfl := Option.some.inj hrun
      refine iff_of_true ?_ id
      unfold addGroup
      split
      · exact @tracked_nodeAdd t n nn 0 hf hn hvalid.2.2.2
      · exact (Follows.refl t).all_tracked hf
  | insertGroup nn =>
      obtain rfl := Option.some.inj hrun
      refine iff_of_true ?_ id
      unfold insertGroup
      split
      · exact @tracked_nodeAdd t n nn flagsInsert hf hn hvalid.2.2.2
      · exact (Follows.refl t).all_tracked hf
  | addGroupChildren nn =>
      obtain ⟨r, hr, rfl⟩ := Option.map_eq_some_iff.mp hrun
      refine iff_of_true ?_ id
      unfold addGroupChildren at hr
      split at hr
      · split at hr
        · cases hr
        · obtain rfl := Option.some.inj hr
          exact (follows_addGroupChildren hf hn _ t (Follows.refl t)).all_tracked hf
      · obtain rfl := Option.some.inj hr
        exact (Follows.refl t).all_tracked hf
  | unlinkGroup =>
      refine iff_of_true ?_ id
      have hrun : t.unlinkGroup n = some t' := hrun
      have hgroup : (t.heap.node n).typ = .group := hvalid
      unfold unlinkGroup at hrun
      rw [if_pos hgroup] at hrun
      exact tracked_nodeUnlink hf hn hrun
  | setCharValueInNode s =>
      obtain rfl := Option.some.inj hrun
      obtain ⟨z, hz, hgroup⟩ := hvalid
      exact tracked_setCharValueInNode hf hclean hn hz hgroup s
  | groupRename newname =>
      have hrun : t.groupRename n newname = some t' := hrun
      have hgroup : (t.heap.node n).typ = .group := hvalid
      unfold groupRename at hrun
      rw [if_pos hgroup] at hrun
      obtain rfl := Option.some.inj hrun
      exact tracked_setName hclean hn Relation.ReflTransGen.refl hvalid newname
  | variableRename newname =>
      have hrun : t.variableRename n newname = some t' := hrun
      unfold variableRename at hrun
      split at hrun
      · obtain rfl := Option.some.inj hrun
        obtain ⟨z, hz, hgroup⟩ := hvalid
        exact tracked_setName hclean hn hz hgroup newname
      · cases hrun

/-- An empty group without flags. -/
def newTree : DbTree := ⟨emptyGroup (ofBytes []), fun _ => 0⟩

theorem clean_zero (h : DbHeap) : (⟨h, fun _ => 0⟩ : DbTree).Clean := by
  intro x hx
  have hzero : has 0 nodeFlagsDirty = true := hx
  exact absurd hzero (by decide)

theorem forest_newTree : newTree.Forest where
  wf := (inTree_emptyGroup _).wf
  parent_lt := by
    intro x hx p hp
    obtain rfl : x = 0 := Nat.lt_one_iff.mp hx
    cases hp
  depth := by
    refine ⟨fun _ => 0, fun _ hx => Nat.zero_lt_of_lt hx, fun x hx p hp => ?_⟩
    obtain rfl : x = 0 := Nat.lt_one_iff.mp hx
    cases hp

theorem tracked_iff_setValue : Tracked newTree
    (newTree.setValue 0 flagsDefault (ofBytes (ascii ['g', '/', 'a'])) (.int 1)).2 :=
  (@tracked_iff newTree _ 0 (.setValue flagsDefault (ofBytes (ascii ['g', '/', 'a']))
    (.int 1)) forest_newTree (clean_zero _) Nat.one_pos rfl rfl).mpr id

/-- A group with a variable is cleared, and it is not dirty. -/
theorem not_tracked_clearGroup : ¬ Tracked ⟨groupWithX, fun _ => 0⟩
    (clearGroup ⟨groupWithX, fun _ => 0⟩ 0 none).2 := by
  intro htracked
  have hd := htracked 0 (by decide) (by decide) 0 Relation.ReflTransGen.refl (by decide)
  exact clean_zero _ 0 hd

end
end Gwenhywfar.DbTree
