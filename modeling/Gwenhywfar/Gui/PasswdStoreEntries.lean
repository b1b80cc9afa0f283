import Gwenhywfar.Gui.PasswdStoreTokens
import Gwenhywfar.Parser.DbReadKeeps

/-! # The entries of a password store and the change of one

* `changed`: the entries after the secret of a token has been set or removed; no other entry is
  touched.
* `IsTree`, `entriesOf`: the group of the passwords is a tree, and its entries are the nodes.
* `setInDb_spec`: what the store makes of the entries.  It finds variables up to case and without
  the blanks in front; `after_eq_changed_iff` says when this is the change. -/

namespace Gwenhywfar.PasswdStore

open Db Gwenhywfar.Path

/-! ### Changing entries -/

/-- A position behind one more node. -/
def later (e : ℕ × List DbValue) : ℕ × List DbValue := (e.1 + 1, e.2)

theorem later_injective : Function.Injective later := by
  rintro ⟨i, vs⟩ ⟨j, ws⟩ h
  simpa [later] using h

def firstVar (p : CString → Bool) : DbNodes → Option (ℕ × List DbValue)
  | .nil => none
  | .group _ _ _ next => (firstVar p next).map later
  | .var _ name vals next =>
      if p name then some (0, vals) else (firstVar p next).map later

/-- The values of the first variable with such a name are replaced, or a variable is added. -/
def setVar (p : CString → Bool) (name : CString) (vals : List DbValue) : DbNodes → DbNodes
  | .nil => .var 0 name vals .nil
  | .group flags m children next => .group flags m children (setVar p name vals next)
  | .var flags m vs next =>
      if p m then .var flags m vals next else .var flags m vs (setVar p name vals next)

/-- The first variable with such a name is removed. -/
def dropVar (p : CString → Bool) : DbNodes → DbNodes
  | .nil => .nil
  | .group flags m children next => .group flags m children (dropVar p next)
  | .var flags m vs next => if p m then next else .var flags m vs (dropVar p next)

section
variable {p q : CString → Bool} {name name' : CString} {vals : List DbValue}

theorem eq_setVar_iff : ∀ t : DbNodes,
    t = setVar p name vals t ↔ (firstVar p t).map Prod.snd = some vals
  | .nil => by simp [setVar, firstVar]
  | .group _ _ _ next => by
      rw [setVar, firstVar, Option.map_map, DbNodes.group.injEq]
      simpa [Function.comp_def, later] using eq_setVar_iff next
  | .var _ m _ next => by
      rw [setVar, firstVar]
      split
      · simp
      · rw [Option.map_map, DbNodes.var.injEq]
        simpa [Function.comp_def, later] using eq_setVar_iff next

/-- Two ways to look for the variable lead to the same entries. -/
theorem setVar_eq_iff : ∀ t : DbNodes, setVar p name vals t = setVar q name' vals t ↔
    (firstVar p t = firstVar q t ∧ (firstVar p t = none → name = name')) ∨
      (firstVar p t).map Prod.snd = some vals ∧ (firstVar q t).map Prod.snd = some vals
  | .nil => by simp [setVar, firstVar]
  | .group _ _ _ next => by
      rw [setVar, setVar, firstVar, firstVar, Option.map_map, Option.map_map,
        (Option.map_injective later_injective).eq_iff, Option.map_eq_none_iff, DbNodes.group.injEq]
      simpa [Function.comp_def, later] using setVar_eq_iff next
  | .var _ m vs next => by
      have hp := @eq_setVar_iff p name vals next
      have hq := @eq_setVar_iff q name' vals next
      rw [setVar, setVar, firstVar, firstVar]
      cases p m <;> cases q m
      · simp only [Bool.false_eq_true, if_false]
        rw [Option.map_map, Option.map_map, (Option.map_injective later_injective).eq_iff,
          Option.map_eq_none_iff, DbNodes.var.injEq]
        simpa [Function.comp_def, later] using setVar_eq_iff next
      · simp only [Bool.false_eq_true, if_false, if_true]
        rw [DbNodes.var.injEq, eq_comm (a := setVar p name vals next), hp]
        cases firstVar p next <;> simp [later, eq_comm, and_comm]
      · simp only [Bool.false_eq_true, if_false, if_true]
        rw [DbNodes.var.injEq, hq]
        cases firstVar q next <;> simp [later, eq_comm]
      · simp

theorem ne_var_dropVar {m : CString} (hm : p m = false) {flags : UInt32} {vs : List DbValue} :
    ∀ t : DbNodes, t ≠ .var flags m vs (dropVar p t)
  | .nil => nofun
  | .group _ _ _ _ => nofun
  | .var _ m' _ next => by
      intro h
      obtain ⟨rfl, rfl, rfl, hnext⟩ := DbNodes.var.inj h
      rw [dropVar, hm, if_neg Bool.false_ne_true] at hnext
      exact ne_var_dropVar hm next hnext

theorem dropVar_eq_iff : ∀ t : DbNodes, dropVar p t = dropVar q t ↔ firstVar p t = firstVar q t
  | .nil => by simp [dropVar, firstVar]
  | .group _ _ _ next => by
      rw [dropVar, dropVar, firstVar, firstVar, (Option.map_injective later_injective).eq_iff,
        DbNodes.group.injEq]
      simpa using dropVar_eq_iff next
  | .var _ m vs next => by
      rw [dropVar, dropVar, firstVar, firstVar]
      cases hp : p m <;> cases hq : q m
      · simp only [Bool.false_eq_true, if_false]
        rw [(Option.map_injective later_injective).eq_iff, DbNodes.var.injEq]
        simpa using dropVar_eq_iff next
      · simp only [Bool.false_eq_true, if_false, if_true]
        refine iff_of_false (fun h => ne_var_dropVar hp next h.symm) ?_
        cases firstVar p next <;> simp [later]
      · simp only [Bool.false_eq_true, if_false, if_true]
        refine iff_of_false (ne_var_dropVar hq next) ?_
        cases firstVar q next <;> simp [later]
      · simp

theorem setVar_eq_single_iff (t : DbNodes) : setVar p name vals t = .var 0 name' vals .nil ↔
    t = .nil ∧ name = name' ∨ ∃ vs, t = .var 0 name' vs .nil ∧ p name' = true := by
  cases t with
  | nil => simp [setVar]
  | group => simp [setVar]
  | var flags m vs next =>
      rw [setVar]
      split
      · next hm =>
          constructor
          · intro h
            obtain ⟨rfl, rfl, -, rfl⟩ := DbNodes.var.inj h
            exact .inr ⟨vs, rfl, hm⟩
          · rintro (⟨h, -⟩ | ⟨_, h, -⟩)
            · cases h
            · obtain ⟨rfl, rfl, rfl, rfl⟩ := DbNodes.var.inj h
              rfl
      · next hm =>
          refine iff_of_false (fun h => ?_) ?_
          · have hnext := (DbNodes.var.inj h).2.2.2
            cases next with
            | nil => cases hnext
            | group => cases hnext
            | var =>
                rw [setVar] at hnext
                split at hnext <;> cases hnext
          · rintro (⟨h, -⟩ | ⟨_, h, hp⟩)
            · cases h
            · obtain ⟨-, rfl, -, -⟩ := DbNodes.var.inj h
              exact hm hp

theorem dropVar_eq_nil_iff (t : DbNodes) :
    dropVar p t = .nil ↔ t = .nil ∨ ∃ flags m vs, t = .var flags m vs .nil ∧ p m = true := by
  cases t with
  | nil => simp [dropVar]
  | group => simp [dropVar]
  | var flags m vs next =>
      rw [dropVar]
      split
      · next hm => simp [hm]
      · next hm => simp [hm]

end

/-! ### The change -/

/-- The name of the variable of a token. -/
def isOwn (token m : CString) : Bool := m = pathOf token

def isFound (token m : CString) : Bool := strcaseEq m (pathOf (lookedUp token))

def changed (token : CString) (secret : Option CString) (t : DbNodes) : DbNodes :=
  match secret with
  | none => dropVar (isOwn token) t
  | some secret => setVar (isOwn token) (pathOf token) [.char secret] t

/-- What the store makes of entries; a token that consists of blanks clears them. -/
def after (token : CString) (secret : Option CString) (t : DbNodes) : DbNodes :=
  match secret with
  | none => dropVar (isFound token) t
  | some secret =>
      if (lookedUp token).bytes = [] then .nil
      else setVar (isFound token) (pathOf (lookedUp token)) [.char secret] t

/-- The token finds its own variable, or both that variable and the one it finds have the secret
already. -/
def TokenFits (token : CString) (secret : Option CString) (t : DbNodes) : Prop :=
  match secret with
  | none => firstVar (isFound token) t = firstVar (isOwn token) t
  | some secret => (lookedUp token).bytes ≠ [] ∧
      ((firstVar (isFound token) t = firstVar (isOwn token) t ∧
        (firstVar (isFound token) t = none → pathOf (lookedUp token) = pathOf token)) ∨
      (firstVar (isFound token) t).map Prod.snd = some [.char secret] ∧
        (firstVar (isOwn token) t).map Prod.snd = some [.char secret])

/-- There are no entries, or just the one that is changed. -/
def OnlyToken (token : CString) (secret : Option CString) (t : DbNodes) : Prop :=
  match secret with
  | none => t = .nil ∨ ∃ flags m vs, t = .var flags m vs .nil ∧ isFound token m = true
  | some _ => (lookedUp token).bytes ≠ [] ∧
      (t = .nil ∧ pathOf (lookedUp token) = pathOf token ∨
        ∃ vs, t = .var 0 (pathOf token) vs .nil ∧ isFound token (pathOf token) = true)

theorem changed_ne_nil {token secret : CString} : ∀ t, changed token (some secret) t ≠ .nil
  | .nil => nofun
  | .group _ _ _ _ => nofun
  | .var _ _ _ _ => by
      rw [changed, setVar]
      split <;> exact nofun

theorem after_eq_changed_iff {token : CString} {secret : Option CString} (t : DbNodes) :
    after token secret t = changed token secret t ↔ TokenFits token secret t := by
  cases secret with
  | none => exact dropVar_eq_iff t
  | some secret =>
      rw [after, TokenFits]
      by_cases hblank : (lookedUp token).bytes = []
      · rw [if_pos hblank]
        exact iff_of_false (fun h => changed_ne_nil t h.symm) fun h => h.1 hblank
      · rw [if_neg hblank, changed, setVar_eq_iff]
        exact (and_iff_right hblank).symm

theorem after_eq_changed_nil_iff {token : CString} {secret : Option CString} (t : DbNodes) :
    after token secret t = changed token secret .nil ↔ OnlyToken token secret t := by
  cases secret with
  | none => exact dropVar_eq_nil_iff t
  | some secret =>
      rw [after, OnlyToken]
      by_cases hblank : (lookedUp token).bytes = []
      · rw [if_pos hblank]
        exact iff_of_false (fun h => changed_ne_nil .nil h.symm) fun h => h.1 hblank
      · rw [if_neg hblank, changed, setVar, setVar_eq_single_iff]
        exact (and_iff_right hblank).symm

/-! ### The group of the passwords -/

/-- The nodes below the first one, which is a group, make up a tree. -/
structure IsTree (h : DbHeap) : Prop where
  pos : 0 < h.size
  typ : (h.node 0).typ = .group
  parent : (h.node 0).parent = none
  child : ∀ x < h.size, ∀ c ∈ (h.node x).children,
    x < c ∧ c < h.size ∧ (h.node c).parent = some x
  nodup : (h.node 0).children.Nodup

def entriesOf (h : DbHeap) : DbNodes := nodesOf h (h.size + 1) (h.node 0).children

def nodeBefore (h : DbHeap) (k n : ℕ) (next : DbNodes) : DbNodes :=
  match (h.node n).typ with
  | .group => .group 0 (h.node n).dataName (nodesOf h k (h.node n).children) next
  | .var => .var 0 (h.node n).dataName (values h n) next
  | .value _ => next

theorem nodesOf_cons (h : DbHeap) (k n : ℕ) (nodes : List ℕ) :
    nodesOf h (k + 1) (n :: nodes) = nodeBefore h k n (nodesOf h (k + 1) nodes) := rfl

section
variable {h h' : DbHeap} {a n : ℕ} {p : CString → Bool} {name : CString} {vals : List DbValue}

theorem setVar_nodeBefore {k : ℕ} (hn : ¬((h.node n).typ = .var ∧ p (h.node n).dataName = true))
    (next : DbNodes) : setVar p name vals (nodeBefore h k n next) =
      nodeBefore h k n (setVar p name vals next) := by
  rw [nodeBefore, nodeBefore]
  cases htyp : (h.node n).typ with
  | group => rfl
  | var =>
      dsimp only
      rw [setVar, if_neg fun hp => hn ⟨htyp, hp⟩]
  | value => rfl

theorem dropVar_nodeBefore {k : ℕ} (hn : ¬((h.node n).typ = .var ∧ p (h.node n).dataName = true))
    (next : DbNodes) : dropVar p (nodeBefore h k n next) = nodeBefore h k n (dropVar p next) := by
  rw [nodeBefore, nodeBefore]
  cases htyp : (h.node n).typ with
  | group => rfl
  | var =>
      dsimp only
      rw [dropVar, if_neg fun hp => hn ⟨htyp, hp⟩]
  | value => rfl

/-- Two heaps have the same old nodes, up to the first one and one of its children. -/
structure SameBut (a : ℕ) (h h' : DbHeap) : Prop where
  size : h.size ≤ h'.size
  node : ∀ x < h.size, x ≠ 0 → x ≠ a → h'.node x = h.node x
  top : a = 0 ∨ (h.node a).parent = some 0

theorem SameBut.children (hs : SameBut a h h') (ht : IsTree h) {x : ℕ} (hx : x < h.size)
    (hx0 : x ≠ 0) : ∀ c ∈ (h.node x).children, x < c ∧ c < h.size ∧ c ≠ 0 ∧ c ≠ a := by
  intro c hc
  obtain ⟨hlt, hsize, hparent⟩ := ht.child x hx c hc
  refine ⟨hlt, hsize, Nat.ne_zero_of_lt hlt, ?_⟩
  rintro rfl
  rcases hs.top with rfl | htop
  · exact Nat.not_lt_zero x hlt
  · exact hx0 (Option.some.inj (hparent.symm.trans htop))

theorem SameBut.values (hs : SameBut a h h') (ht : IsTree h) (hn : n < h.size) (hn0 : n ≠ 0)
    (hna : n ≠ a) : Db.values h' n = Db.values h n := by
  rw [Db.values, Db.values, hs.node n hn hn0 hna]
  refine List.filterMap_congr fun c hc => ?_
  obtain ⟨-, hsize, hc0, hca⟩ := hs.children ht hn hn0 c hc
  rw [valueOf, valueOf, hs.node c hsize hc0 hca]

theorem SameBut.nodesOf (hs : SameBut a h h') (ht : IsTree h) : ∀ (k k' : ℕ) {nodes : List ℕ},
    (∀ x ∈ nodes, x < h.size ∧ x ≠ 0 ∧ x ≠ a ∧ h.size < x + k ∧ h.size < x + k') →
    Db.nodesOf h' k' nodes = Db.nodesOf h k nodes
  | k, k', [], _ => by cases k <;> cases k' <;> rfl
  | 0, _, x :: _, hall => by
      obtain ⟨hx, -, -, hk, -⟩ := hall x List.mem_cons_self
      omega
  | _ + 1, 0, x :: _, hall => by
      obtain ⟨hx, -, -, -, hk'⟩ := hall x List.mem_cons_self
      omega
  | k + 1, k' + 1, x :: nodes, hall => by
      rw [List.forall_mem_cons] at hall
      obtain ⟨⟨hx, hx0, hxa, hk, hk'⟩, hall⟩ := hall
      have hchildren : Db.nodesOf h' k' (h.node x).children = Db.nodesOf h k (h.node x).children :=
        SameBut.nodesOf hs ht k k' fun c hc => by
          obtain ⟨hlt, hsize, hc0, hca⟩ := hs.children ht hx hx0 c hc
          exact ⟨hsize, hc0, hca, by omega, by omega⟩
      rw [nodesOf_cons, nodesOf_cons, nodeBefore, nodeBefore, hs.node x hx hx0 hxa,
        hs.values ht hx hx0 hxa, hchildren, SameBut.nodesOf hs ht (k + 1) (k' + 1) hall]
  termination_by k _ nodes => (k, nodes.length)

theorem SameBut.nodeBefore (hs : SameBut a h h') (ht : IsTree h) (hn : n ∈ (h.node 0).children)
    (hna : n ≠ a) (next : DbNodes) :
    PasswdStore.nodeBefore h' h'.size n next = PasswdStore.nodeBefore h h.size n next := by
  obtain ⟨hn0, hsize, -⟩ := ht.child 0 ht.pos n hn
  have hn0 := Nat.ne_zero_of_lt hn0
  have hchildren : Db.nodesOf h' h'.size (h.node n).children =
      Db.nodesOf h h.size (h.node n).children :=
    hs.nodesOf ht h.size h'.size fun c hc => by
      obtain ⟨hlt, hsize', hc0, hca⟩ := hs.children ht hsize hn0 c hc
      have := hs.size
      exact ⟨hsize', hc0, hca, by omega, by omega⟩
  rw [PasswdStore.nodeBefore, PasswdStore.nodeBefore, hs.node n hsize hn0 hna,
    hs.values ht hsize hn0 hna, hchildren]

theorem SameBut.nodesOf_below (hs : SameBut a h h') (ht : IsTree h) {nodes : List ℕ}
    (hall : ∀ c ∈ nodes, c ∈ (h.node 0).children) (ha : a ∉ nodes) :
    Db.nodesOf h' (h'.size + 1) nodes = Db.nodesOf h (h.size + 1) nodes :=
  hs.nodesOf ht _ _ fun c hc => by
    obtain ⟨hlt, hsize, -⟩ := ht.child 0 ht.pos c (hall c hc)
    have := hs.size
    exact ⟨hsize, Nat.ne_zero_of_lt hlt, fun heq => ha (heq ▸ hc), by omega, by omega⟩

theorem SameBut.nodesOf_found (hs : SameBut a h h') (ht : IsTree h)
    (ha : (h'.node a).typ = .var ∧ (h'.node a).dataName = (h.node a).dataName ∧
      Db.values h' a = vals) :
    ∀ {nodes : List ℕ}, nodes.Nodup → (∀ n ∈ nodes, n ∈ (h.node 0).children) →
    findNode h .var name nodes 0 = some a → Db.nodesOf h' (h'.size + 1) nodes =
      setVar (fun m => strcaseEq m name) name vals (Db.nodesOf h (h.size + 1) nodes)
  | [], _, _, hf => by cases hf
  | v :: nodes, hnodup, hall, hf => by
      rw [List.nodup_cons] at hnodup
      rw [List.forall_mem_cons] at hall
      rw [nodesOf_cons, nodesOf_cons]
      by_cases hv : (h.node v).typ = .var ∧ strcaseEq (h.node v).dataName name = true
      · rw [findNode, if_pos hv, if_pos rfl] at hf
        obtain rfl := Option.some.inj hf
        rw [PasswdStore.nodeBefore, PasswdStore.nodeBefore, hv.1, ha.1, ha.2.1, ha.2.2,
          hs.nodesOf_below ht hall.2 hnodup.1]
        dsimp only
        rw [setVar, if_pos hv.2]
      · rw [findNode, if_neg hv] at hf
        have hva : v ≠ a := by
          rintro rfl
          exact hv ⟨(findNode_mem hf).2, findNode_name hf⟩
        rw [hs.nodeBefore ht hall.1 hva, setVar_nodeBefore hv,
          SameBut.nodesOf_found hs ht ha hnodup.2 hall.2 hf]

theorem SameBut.nodesOf_added (hs : SameBut 0 h h') (ht : IsTree h)
    (hb : (h'.node a).typ = .var ∧ (h'.node a).dataName = name ∧ Db.values h' a = vals) :
    ∀ {nodes : List ℕ}, (∀ n ∈ nodes, n ∈ (h.node 0).children) →
    findNode h .var name nodes 0 = none → Db.nodesOf h' (h'.size + 1) (nodes ++ [a]) =
      setVar (fun m => strcaseEq m name) name vals (Db.nodesOf h (h.size + 1) nodes)
  | [], _, _ => by
      rw [List.nil_append, nodesOf_cons, PasswdStore.nodeBefore, hb.1, hb.2.1, hb.2.2]
      rfl
  | v :: nodes, hall, hf => by
      rw [List.forall_mem_cons] at hall
      have hv := findNode_zero_none hf v List.mem_cons_self
      rw [findNode, if_neg hv] at hf
      have hv0 : v ≠ 0 := Nat.ne_zero_of_lt (ht.child 0 ht.pos v hall.1).1
      rw [List.cons_append, nodesOf_cons, nodesOf_cons, hs.nodeBefore ht hall.1 hv0,
        setVar_nodeBefore hv, SameBut.nodesOf_added hs ht hb hall.2 hf]

theorem SameBut.nodesOf_erase (hs : SameBut 0 h h') (ht : IsTree h) :
    ∀ {nodes : List ℕ}, (∀ n ∈ nodes, n ∈ (h.node 0).children) →
    findNode h .var name nodes 0 = some a → Db.nodesOf h' (h'.size + 1) (nodes.erase a) =
      dropVar (fun m => strcaseEq m name) (Db.nodesOf h (h.size + 1) nodes)
  | [], _, hf => by cases hf
  | v :: nodes, hall, hf => by
      rw [List.forall_mem_cons] at hall
      rw [nodesOf_cons]
      by_cases hv : (h.node v).typ = .var ∧ strcaseEq (h.node v).dataName name = true
      · rw [findNode, if_pos hv, if_pos rfl] at hf
        obtain rfl := Option.some.inj hf
        have hroot : 0 ∉ nodes := fun h0 => absurd (ht.child 0 ht.pos 0 (hall.2 0 h0)).1 (by omega)
        rw [List.erase_cons_head, hs.nodesOf_below ht hall.2 hroot, PasswdStore.nodeBefore, hv.1]
        dsimp only
        rw [dropVar, if_pos hv.2]
      · rw [findNode, if_neg hv] at hf
        have hva : v ≠ a := by
          rintro rfl
          exact hv ⟨(findNode_mem hf).2, findNode_name hf⟩
        have hv0 : v ≠ 0 := Nat.ne_zero_of_lt (ht.child 0 ht.pos v hall.1).1
        rw [List.erase_cons_tail (by simpa using hva), nodesOf_cons, hs.nodeBefore ht hall.1 hv0,
          dropVar_nodeBefore hv, SameBut.nodesOf_erase hs ht hall.2 hf]

theorem dropVar_nodesOf_none : ∀ {nodes : List ℕ}, findNode h .var name nodes 0 = none →
    dropVar (fun m => strcaseEq m name) (Db.nodesOf h (h.size + 1) nodes) =
      Db.nodesOf h (h.size + 1) nodes
  | [], _ => rfl
  | v :: nodes, hf => by
      have hv := findNode_zero_none hf v List.mem_cons_self
      rw [findNode, if_neg hv] at hf
      rw [nodesOf_cons, dropVar_nodeBefore hv, dropVar_nodesOf_none hf]

end

/-! ### The trees after a change -/

section
variable {h : DbHeap} {a : ℕ}

theorem node_overwrite (ha : a < h.size) (val : DbValue) (x : ℕ) :
    (addValue flagsOverwriteVars h a val).node x =
      if x = h.size then ⟨.value val, CString.ofBytes [], [], some a⟩
      else if x = a then { h.node a with children := [h.size] } else h.node x := by
  have hinsert : has flagsOverwriteVars flagsInsert = false := by decide
  have hover : has flagsOverwriteVars flagsOverwriteVars = true := by decide
  have hne := Nat.ne_of_lt ha
  rw [addValue, nodeAdd, hinsert, hover, if_neg Bool.false_ne_true, if_pos rfl, nodeAppend,
    setParent, setChildren, clearNode, setChildren, newNode]
  by_cases hx : x = h.size
  · subst hx
    simp [Ne.symm hne]
  · by_cases hxa : x = a
    · subst hxa
      simp [hne]
    · simp [hx, hxa]

theorem size_overwrite (val : DbValue) :
    (addValue flagsOverwriteVars h a val).size = h.size + 1 := size_addValue

theorem IsTree.overwrite (ht : IsTree h) (ha : a < h.size) (val : DbValue) :
    IsTree (addValue flagsOverwriteVars h a val) := by
  have hnode := node_overwrite ha val
  have hold : ∀ x < h.size, ((addValue flagsOverwriteVars h a val).node x).typ = (h.node x).typ ∧
      ((addValue flagsOverwriteVars h a val).node x).parent = (h.node x).parent ∧
      ((addValue flagsOverwriteVars h a val).node x).children =
        if x = a then [h.size] else (h.node x).children := by
    intro x hx
    rw [hnode, if_neg (Nat.ne_of_lt hx)]
    by_cases hxa : x = a
    · subst hxa
      simp
    · simp [hxa]
  obtain ⟨htyp, hparent, hchildren⟩ := hold 0 ht.pos
  refine ⟨?_, htyp.trans ht.typ, hparent.trans ht.parent, fun x hx c hc => ?_, ?_⟩
  · rw [size_overwrite]
    exact Nat.succ_pos _
  · rw [size_overwrite] at hx ⊢
    rcases Nat.lt_succ_iff_lt_or_eq.mp hx with hx | rfl
    · rw [(hold x hx).2.2] at hc
      by_cases hxa : x = a
      · rw [if_pos hxa] at hc
        obtain rfl := List.mem_singleton.mp hc
        rw [hnode, if_pos rfl, hxa]
        exact ⟨ha, Nat.lt_succ_self _, rfl⟩
      · rw [if_neg hxa] at hc
        obtain ⟨hlt, hsize, hparent⟩ := ht.child x hx c hc
        exact ⟨hlt, Nat.lt_succ_of_lt hsize, (hold c hsize).2.1.trans hparent⟩
    · rw [hnode, if_pos rfl] at hc
      cases hc
  · rw [hchildren]
    split
    · exact List.nodup_singleton _
    · exact ht.nodup

theorem IsTree.addVar (ht : IsTree h) (name : CString) : IsTree (addChild h 0 .var name) := by
  have hnode := @node_addChild h 0 name .var ht.pos
  have hold : ∀ x < h.size, ((addChild h 0 .var name).node x).typ = (h.node x).typ ∧
      ((addChild h 0 .var name).node x).parent = (h.node x).parent ∧
      ((addChild h 0 .var name).node x).children =
        if x = 0 then (h.node 0).children ++ [h.size] else (h.node x).children := by
    intro x hx
    rw [hnode, if_neg (Nat.ne_of_lt hx)]
    by_cases hx0 : x = 0
    · subst hx0
      simp
    · simp [hx0]
  obtain ⟨htyp, hparent, hchildren⟩ := hold 0 ht.pos
  refine ⟨Nat.succ_pos _, htyp.trans ht.typ, hparent.trans ht.parent, fun x hx c hc => ?_, ?_⟩
  · rw [size_addChild] at hx ⊢
    have hcase : c ∈ (h.node x).children ∧ x < h.size ∨ x = 0 ∧ c = h.size := by
      rcases Nat.lt_succ_iff_lt_or_eq.mp hx with hx | rfl
      · rw [(hold x hx).2.2] at hc
        split at hc
        · next hx0 =>
            rcases List.mem_append.mp hc with hc | hc
            · exact .inl ⟨hx0 ▸ hc, hx⟩
            · exact .inr ⟨hx0, List.mem_singleton.mp hc⟩
        · exact .inl ⟨hc, hx⟩
      · rw [hnode, if_pos rfl] at hc
        cases hc
    rcases hcase with ⟨hc, hx⟩ | ⟨rfl, rfl⟩
    · obtain ⟨hlt, hsize, hparent⟩ := ht.child x hx c hc
      exact ⟨hlt, Nat.lt_succ_of_lt hsize, (hold c hsize).2.1.trans hparent⟩
    · exact ⟨ht.pos, Nat.lt_succ_self _, by rw [hnode, if_pos rfl]⟩
  · rw [hchildren, if_pos rfl]
    refine List.Nodup.append ht.nodup (List.nodup_singleton _) ?_
    exact List.disjoint_singleton.mpr fun hmem => lt_irrefl _ (ht.child 0 ht.pos _ hmem).2.1

theorem IsTree.unlink (ht : IsTree h) (a : ℕ) :
    IsTree (setChildren h 0 ((h.node 0).children.erase a)) := by
  have hsub := (h.node 0).children.erase_sublist (a := a)
  have hnode : ∀ x, ((setChildren h 0 ((h.node 0).children.erase a)).node x).typ =
        (h.node x).typ ∧
      ((setChildren h 0 ((h.node 0).children.erase a)).node x).parent = (h.node x).parent ∧
      ((setChildren h 0 ((h.node 0).children.erase a)).node x).children =
        if x = 0 then (h.node 0).children.erase a else (h.node x).children := by
    intro x
    rw [setChildren]
    by_cases hx : x = 0
    · subst hx
      simp
    · simp [hx]
  refine ⟨ht.pos, (hnode 0).1.trans ht.typ, (hnode 0).2.1.trans ht.parent, fun x hx c hc => ?_, ?_⟩
  · rw [(hnode x).2.2] at hc
    rw [(hnode c).2.1]
    split at hc
    · next hx0 =>
        subst hx0
        exact ht.child 0 ht.pos c (hsub.subset hc)
    · exact ht.child x hx c hc
  · rw [(hnode 0).2.2, if_pos rfl]
    exact ht.nodup.sublist hsub

theorem isTree_newPasswords : IsTree newPasswords where
  pos := Nat.one_pos
  typ := rfl
  parent := rfl
  child := by
    intro x hx c hc
    obtain rfl := Nat.lt_one_iff.mp hx
    cases hc
  nodup := List.nodup_nil

theorem isTree_readFromString {text : List UInt8} {r : ℤ × DbHeap}
    (hr : readFromString newPasswords 0 text flagsDefault = some r) : IsTree r.2 := by
  obtain ⟨hwf, hkeeps⟩ := readFromFastBuffer_keeps (wellFormed_emptyGroup _) Nat.one_pos rfl
    (by decide) (by decide) _ _ hr
  have hpos : 0 < newPasswords.size := Nat.one_pos
  exact ⟨hpos.trans_le hkeeps.size, hkeeps.typ 0 hpos, hkeeps.parent 0 hpos,
    fun x hx c hc => ⟨(hwf.child x hx c hc).1, (hwf.child x hx c hc).2.1,
      (hwf.child x hx c hc).2.2.1⟩, hwf.nodup 0 (hpos.trans_le hkeeps.size)⟩

/-! ### What the store makes of its entries -/

theorem values_overwrite (ha : a < h.size) (val : DbValue) :
    values (addValue flagsOverwriteVars h a val) a = [val] := by
  have hnode := node_overwrite ha val
  rw [values, hnode a, if_neg (Nat.ne_of_lt ha), if_pos rfl]
  dsimp only
  rw [List.filterMap_cons_some (b := val) (by rw [valueOf, hnode, if_pos rfl])]
  rfl

theorem setCharValue_spec (ht : IsTree h) (token secret : CString) :
    IsTree (setCharValue h 0 flagsOverwriteVars (pathOf token) secret).2 ∧
      entriesOf (setCharValue h 0 flagsOverwriteVars (pathOf token) secret).2 =
        after token (some secret) (entriesOf h) := by
  have hsingle := single_pathOf token
  rw [after]
  by_cases hblank : (lookedUp token).bytes = []
  · have hpath : (withoutBlanks (pathOf token)).bytes = [] := by
      rw [withoutBlanks_pathOf, pathOf_bytes, hblank]
      rfl
    have hget : getNode h 0 (pathOf token) (flagsOverwriteVars ||| flagsVariable) =
        (some 0, h) := by
      have hcheck : has (flagsOverwriteVars ||| flagsVariable) flagsCheckRoot = false := by decide
      rw [getNode, handleWithIdx, hcheck, Bool.false_and, ← elementsOf, elementsOf_single hsingle,
        hpath, List.length_nil, handleLoop]
    have hset : (setCharValue h 0 flagsOverwriteVars (pathOf token) secret).2 =
        addValue flagsOverwriteVars h 0 (.char secret) := by
      rw [setCharValue, setValue, hget]
      rfl
    rw [hset, if_pos hblank]
    refine ⟨ht.overwrite ht.pos _, ?_⟩
    rw [entriesOf, node_overwrite ht.pos, if_neg (Nat.ne_of_lt ht.pos), if_pos rfl, nodesOf_cons,
      nodeBefore, node_overwrite ht.pos, if_pos rfl]
    rfl
  · have hpath : (withoutBlanks (pathOf token)).bytes ≠ [] := by
      rw [withoutBlanks_pathOf, pathOf_bytes]
      obtain ⟨c, s, hs⟩ := List.exists_cons_of_ne_nil hblank
      rw [hs, escape_cons]
      split <;> exact List.cons_ne_nil _ _
    obtain ⟨el, hvar, hinsert, hnode⟩ :=
      @getNode_single _ hsingle hpath flagsOverwriteVars (.inr rfl) h 0
    rw [withoutBlanks_pathOf, findVar, if_pos ht.typ] at hnode
    rw [if_neg hblank]
    cases hfind : findNode h .var (pathOf (lookedUp token)) (h.node 0).children 0 with
    | some a =>
        rw [hfind, Option.elim_some] at hnode
        obtain ⟨hmem, htyp⟩ := findNode_mem hfind
        obtain ⟨ha0, ha, hparent⟩ := ht.child 0 ht.pos a hmem
        have hset : (setCharValue h 0 flagsOverwriteVars (pathOf token) secret).2 =
            addValue flagsOverwriteVars h a (.char secret) := by
          rw [setCharValue, setValue, hnode]
          rfl
        have hsame : SameBut a h (addValue flagsOverwriteVars h a (.char secret)) :=
          ⟨by rw [size_overwrite]; exact Nat.le_succ _, fun x hx _ hxa => by
            rw [node_overwrite ha, if_neg (Nat.ne_of_lt hx), if_neg hxa], .inr hparent⟩
        have hroot : ((addValue flagsOverwriteVars h a (.char secret)).node 0).children =
            (h.node 0).children := by
          rw [node_overwrite ha, if_neg (Nat.ne_of_lt ht.pos), if_neg (Nat.ne_of_lt ha0)]
        rw [hset]
        refine ⟨ht.overwrite ha _, ?_⟩
        rw [entriesOf, hroot]
        refine hsame.nodesOf_found ht ⟨?_, ?_, values_overwrite ha _⟩ ht.nodup (fun _ hn => hn)
          hfind
        · rw [node_overwrite ha, if_neg (Nat.ne_of_lt ha), if_pos rfl]
          exact htyp
        · rw [node_overwrite ha, if_neg (Nat.ne_of_lt ha), if_pos rfl]
    | none =>
        rw [hfind, Option.elim_none, createNode_eq hinsert, if_pos hvar] at hnode
        have ht' := ht.addVar (pathOf (lookedUp token))
        have hnew := @node_addChild h 0 (pathOf (lookedUp token)) .var ht.pos
        have hlt : h.size < (addChild h 0 .var (pathOf (lookedUp token))).size :=
          Nat.lt_succ_self _
        have hset : (setCharValue h 0 flagsOverwriteVars (pathOf token) secret).2 =
            addValue flagsOverwriteVars (addChild h 0 .var (pathOf (lookedUp token))) h.size
              (.char secret) := by
          rw [setCharValue, setValue, hnode]
          rfl
        have hover := node_overwrite hlt (.char secret)
        have hold : ∀ x < h.size, (addValue flagsOverwriteVars
            (addChild h 0 .var (pathOf (lookedUp token))) h.size (.char secret)).node x =
              if x = 0 then { h.node 0 with children := (h.node 0).children ++ [h.size] }
              else h.node x := by
          intro x hx
          rw [hover, if_neg (Nat.ne_of_lt (hx.trans hlt)), if_neg (Nat.ne_of_lt hx), hnew,
            if_neg (Nat.ne_of_lt hx)]
        have hsame : SameBut 0 h (addValue flagsOverwriteVars
            (addChild h 0 .var (pathOf (lookedUp token))) h.size (.char secret)) :=
          ⟨by rw [size_overwrite, size_addChild]; omega, fun x hx hx0 _ => by
            rw [hold x hx, if_neg hx0], .inl rfl⟩
        have hvarNode : (addValue flagsOverwriteVars
            (addChild h 0 .var (pathOf (lookedUp token))) h.size (.char secret)).node h.size =
              ⟨.var, pathOf (lookedUp token), [h.size + 1], some 0⟩ := by
          rw [hover, if_neg (Nat.ne_of_lt hlt), if_pos rfl, hnew, if_pos rfl]
          rfl
        rw [hset]
        refine ⟨ht'.overwrite hlt _, ?_⟩
        rw [entriesOf, hold 0 ht.pos, if_pos rfl]
        exact hsame.nodesOf_added ht ⟨by rw [hvarNode], by rw [hvarNode], values_overwrite hlt _⟩
          (fun _ hn => hn) hfind

/-- What setting or removing a token makes of the entries, unless an assertion fails. -/
theorem setInDb_spec (ht : IsTree h) {token : CString} {secret : Option CString} {h' : DbHeap}
    (hset : setInDb h token secret = some h') :
    IsTree h' ∧ entriesOf h' = after token secret (entriesOf h) := by
  cases secret with
  | some secret =>
      obtain rfl := Option.some.inj hset
      exact setCharValue_spec ht token secret
  | none =>
      obtain ⟨r, hdelete, rfl⟩ := Option.map_eq_some_iff.mp hset
      rw [deleteVar, resolve_blanks (single_pathOf token)] at hdelete
      by_cases hblank : (withoutBlanks (pathOf token)).bytes = []
      · -- the path of blanks is the group itself, which has no parent
        rw [if_pos hblank] at hdelete
        dsimp only at hdelete
        rw [nodeUnlink, ht.parent] at hdelete
        cases hdelete
      · rw [if_neg hblank, findVar, if_pos ht.typ, withoutBlanks_pathOf] at hdelete
        cases hfind : findNode h .var (pathOf (lookedUp token)) (h.node 0).children 0 with
        | none =>
            rw [hfind] at hdelete
            obtain rfl := Option.some.inj hdelete
            exact ⟨ht, (dropVar_nodesOf_none hfind).symm⟩
        | some a =>
            rw [hfind] at hdelete
            dsimp only at hdelete
            obtain ⟨-, -, hparent⟩ := ht.child 0 ht.pos a (findNode_mem hfind).1
            rw [nodeUnlink, hparent] at hdelete
            obtain rfl := Option.some.inj hdelete
            refine ⟨ht.unlink a, ?_⟩
            have hsame : SameBut 0 h (setChildren h 0 ((h.node 0).children.erase a)) :=
              ⟨le_rfl, fun x _ hx0 _ => by rw [setChildren]; simp [hx0], .inl rfl⟩
            have hchildren : ((setChildren h 0 ((h.node 0).children.erase a)).node 0).children =
                (h.node 0).children.erase a := by
              rw [setChildren]
              simp
            rw [entriesOf, hchildren]
            exact hsame.nodesOf_erase ht (fun _ hn => hn) hfind

end
end Gwenhywfar.PasswdStore
