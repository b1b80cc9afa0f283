import Gwenhywfar.Parser.DbForest
import Gwenhywfar.Parser.DbInts
import Gwenhywfar.Parser.DbLines
import Mathlib.Logic.Relation

/-! # What reading any text leaves as it was

* `WellFormed`: children and parents agree, and no node is below itself.
* `Builds`: a heap is made from another one by adding nodes below a node.  All functions that read
  do just this (`readLine_builds`), whatever the bytes are.
* `readFromFastBuffer_keeps`: after reading, with or without an error, the heap is well formed and
  the old nodes are where they were.
* `readFromFastBuffer_within`: when the names of groups are no paths then a text that is accepted
  changes nothing outside of the group it is read into. -/

namespace Gwenhywfar

set_option maxRecDepth 4000

namespace Db

open Gwenhywfar.Path Text
open CString (ofBytes)

/-! ### Well formed heaps -/

/-- The types of the children of a node: a value has none, and a variable has values. -/
def MayHold : DbNodeType → DbNodeType → Prop
  | .group, _ => True
  | .var, .value _ => True
  | .var, _ => False
  | .value _, _ => False

/-- Children and parents agree; a child is newer than its parent. -/
structure WellFormed (h : DbHeap) : Prop where
  child : ∀ x < h.size, ∀ c ∈ (h.node x).children, x < c ∧ c < h.size ∧
    (h.node c).parent = some x ∧ MayHold (h.node x).typ (h.node c).typ
  nodup : ∀ x < h.size, (h.node x).children.Nodup
  parent : ∀ c < h.size, ∀ x, (h.node c).parent = some x →
    x < h.size ∧ c ∈ (h.node x).children

/-- Nodes were added; the old nodes have got more children at most. -/
structure Keeps (h h' : DbHeap) : Prop where
  size : h.size ≤ h'.size
  typ : ∀ x < h.size, (h'.node x).typ = (h.node x).typ
  dataName : ∀ x < h.size, (h'.node x).dataName = (h.node x).dataName
  parent : ∀ x < h.size, (h'.node x).parent = (h.node x).parent
  children : ∀ x < h.size, (h.node x).children <+: (h'.node x).children

theorem Keeps.refl (h : DbHeap) : Keeps h h :=
  ⟨le_rfl, fun _ _ => rfl, fun _ _ => rfl, fun _ _ => rfl, fun _ _ => List.prefix_rfl⟩

theorem Keeps.trans {h1 h2 h3 : DbHeap} (h12 : Keeps h1 h2) (h23 : Keeps h2 h3) : Keeps h1 h3 where
  size := h12.size.trans h23.size
  typ := fun x hx => (h23.typ x (hx.trans_le h12.size)).trans (h12.typ x hx)
  dataName := fun x hx => (h23.dataName x (hx.trans_le h12.size)).trans (h12.dataName x hx)
  parent := fun x hx => (h23.parent x (hx.trans_le h12.size)).trans (h12.parent x hx)
  children := fun x hx => (h12.children x hx).trans (h23.children x (hx.trans_le h12.size))

theorem wellFormed_emptyGroup (name : CString) : WellFormed (emptyGroup name) := by
  have hnode : ∀ x, ((emptyGroup name).node x).children = [] ∧
      ((emptyGroup name).node x).parent = none := by
    intro x
    rw [emptyGroup, newNode]
    dsimp only
    rw [Function.update_apply]
    split <;> exact ⟨rfl, rfl⟩
  refine ⟨fun x _ c hc => ?_, fun x _ => ?_, fun c _ x hx => ?_⟩
  · rw [(hnode x).1] at hc
    cases hc
  · rw [(hnode x).1]
    exact List.nodup_nil
  · rw [(hnode c).2] at hx
    cases hx

/-- A node is another one, or below it. -/
def Under (h : DbHeap) : ℕ → ℕ → Prop :=
  Relation.ReflTransGen fun p c => p < h.size ∧ c ∈ (h.node p).children

section
variable {h h' h'' : DbHeap} {n m r x : ℕ} {typ : DbNodeType} {name : CString}

theorem Under.keeps (hk : Keeps h h') (hu : Under h r x) : Under h' r x := by
  induction hu with
  | refl => exact .refl
  | @tail p c _ hpc ih =>
      exact ih.tail ⟨hpc.1.trans_le hk.size, (hk.children p hpc.1).subset hpc.2⟩

theorem Under.before (hwf : WellFormed h) (hwf' : WellFormed h') (hk : Keeps h h')
    (hx : x < h.size) (hu : Under h' r x) : Under h r x := by
  induction hu with
  | refl => exact .refl
  | @tail p c hrp hpc ih =>
      have hparent := (hwf'.child p hpc.1 c hpc.2).2.2.1
      rw [hk.parent c hx] at hparent
      obtain ⟨hp, hmem⟩ := hwf.parent c hx p hparent
      exact (ih hp).tail ⟨hp, hmem⟩

/-! ### Adding nodes -/

theorem Grown.keeps {new : List ℕ} (hg : Grown h h' n new) : Keeps h h' where
  size := hg.size
  typ := fun _ hx => (hg.same hx).1
  dataName := fun _ hx => (hg.same hx).2.1
  parent := fun _ hx => (hg.same hx).2.2
  children := fun x hx => by
    by_cases hxn : x = n
    · rw [hxn, hg.at_node]
      exact List.prefix_append _ _
    · rw [hg.other x hx hxn]

theorem WellFormed.addChild (hwf : WellFormed h) (hn : n < h.size)
    (hhold : MayHold (h.node n).typ typ) (name : CString) : WellFormed (addChild h n typ name) := by
  have hg := grown_addChild hn typ name
  have hnew : (Db.addChild h n typ name).node h.size = ⟨typ, name, [], some n⟩ := by
    rw [node_addChild hn, if_pos rfl]
  have hsplit : ∀ x < (Db.addChild h n typ name).size, x < h.size ∨ x = h.size := fun x hx =>
    Nat.lt_succ_iff_lt_or_eq.mp hx
  have hchildren : ∀ x < h.size, ∀ c, c ∈ ((Db.addChild h n typ name).node x).children ↔
      c ∈ (h.node x).children ∨ x = n ∧ c = h.size := by
    intro x hx c
    by_cases hxn : x = n
    · rw [hxn, hg.at_node]
      simp
    · rw [hg.other x hx hxn]
      simp [hxn]
  refine ⟨fun x hx c hc => ?_, fun x hx => ?_, fun c hc x hparent => ?_⟩
  · rcases hsplit x hx with hx | rfl
    · rcases (hchildren x hx c).mp hc with hc | ⟨rfl, rfl⟩
      · obtain ⟨hlt, hsize, hparent, hold⟩ := hwf.child x hx c hc
        obtain ⟨htyp, -, hsame⟩ := hg.same hsize
        rw [(hg.same hx).1, htyp, hsame]
        exact ⟨hlt, Nat.lt_succ_of_lt hsize, hparent, hold⟩
      · rw [hnew, (hg.same hn).1]
        exact ⟨hn, Nat.lt_succ_self _, rfl, hhold⟩
    · rw [hnew] at hc
      cases hc
  · rcases hsplit x hx with hx | rfl
    · by_cases hxn : x = n
      · have hnot : h.size ∉ (h.node n).children := fun hmem =>
          lt_irrefl _ (hwf.child n hn _ hmem).2.1
        rw [hxn, hg.at_node]
        exact List.Nodup.append (hwf.nodup n hn) (List.nodup_singleton _)
          (List.disjoint_singleton.mpr hnot)
      · rw [hg.other x hx hxn]
        exact hwf.nodup x hx
    · rw [hnew]
      exact List.nodup_nil
  · rcases hsplit c hc with hc | rfl
    · rw [(hg.same hc).2.2] at hparent
      obtain ⟨hx, hmem⟩ := hwf.parent c hc x hparent
      exact ⟨Nat.lt_succ_of_lt hx, (hchildren x hx c).mpr (.inl hmem)⟩
    · rw [hnew] at hparent
      obtain rfl := Option.some.inj hparent
      exact ⟨Nat.lt_succ_of_lt hn, (hchildren n hn _).mpr (.inr ⟨rfl, rfl⟩)⟩

/-- Nodes are added one after the other below `r`. -/
inductive Builds (r : ℕ) (h : DbHeap) : DbHeap → Prop where
  | refl : Builds r h h
  | add {h' : DbHeap} {n : ℕ} {typ : DbNodeType} (name : CString) : Builds r h h' →
      n < h'.size → Under h' r n → MayHold (h'.node n).typ typ → Builds r h (addChild h' n typ name)

theorem Builds.spec (hwf : WellFormed h) (hb : Builds r h h') :
    WellFormed h' ∧ Keeps h h' ∧ ∀ x < h.size, ¬ Under h r x → h'.node x = h.node x := by
  induction hb with
  | refl => exact ⟨hwf, Keeps.refl h, fun _ _ _ => rfl⟩
  | @add h' n typ name _ hn hu hhold ih =>
      obtain ⟨hwf', hkeeps, hother⟩ := ih
      have hg := grown_addChild hn typ name
      refine ⟨hwf'.addChild hn hhold name, hkeeps.trans hg.keeps, fun x hx hnot => ?_⟩
      have hxn : x ≠ n := by
        rintro rfl
        exact hnot (hu.before hwf hwf' hkeeps hx)
      rw [hg.other x (hx.trans_le hkeeps.size) hxn, hother x hx hnot]

theorem Builds.trans (hwf : WellFormed h) (h1 : Builds r h h') (hm : Under h' r m)
    (h2 : Builds m h' h'') : Builds r h h'' := by
  induction h2 with
  | refl => exact h1
  | @add h'' n typ name hb hn hu hhold ih =>
      obtain ⟨-, hkeeps, -⟩ := hb.spec (h1.spec hwf).1
      exact .add name ih hn ((hm.keeps hkeeps).trans hu) hhold

end

/-! ### Paths -/

section
variable {h h' : DbHeap} {n m level : ℕ} {flags : UInt32}

/-- What a path yields: a group, or a variable where one is wanted, below the node it begins at. -/
structure ReachedBelow (h : DbHeap) (n m : ℕ) (isVariable : Bool) : Prop where
  lt : m < h.size
  under : Under h n m
  typ : (h.node m).typ = .group ∨ isVariable = true ∧ (h.node m).typ = .var

theorem under_addChild (hn : n < h.size) (typ : DbNodeType) (name : CString) :
    Under (addChild h n typ name) n h.size :=
  .single ⟨Nat.lt_succ_of_lt hn, by
    rw [(grown_addChild hn typ name).at_node]
    exact List.mem_append_right _ (List.mem_singleton_self _)⟩

theorem handlePath_builds (hwf : WellFormed h) (hn : n < h.size) (hgroup : (h.node n).typ = .group)
    (hinsert : has flags flagsInsert = false) (entry : List UInt8) (idx : Int32) :
    Builds n h (handlePath entry n idx flags h).2 ∧ ∀ m,
      (handlePath entry n idx flags h).1 = some m →
      ReachedBelow (handlePath entry n idx flags h).2 n m (has flags flagsVariable) ∧
      (has flags flagsVariable = false →
        ((handlePath entry n idx flags h).2.node m).typ = .group) := by
  generalize hname : ofBytes entry = name
  have hcreated : Builds n h (createNode flags h n name) ∧
      ReachedBelow (createNode flags h n name) n h.size (has flags flagsVariable) ∧
      (has flags flagsVariable = false →
        ((createNode flags h n name).node h.size).typ = .group) := by
    have hnew : ((createNode flags h n name).node h.size).typ =
        if has flags flagsVariable then .var else .group := by
      rw [createNode_eq hinsert, node_addChild hn, if_pos rfl]
    refine ⟨?_, ⟨?_, ?_, ?_⟩, fun hvar => ?_⟩
    · rw [createNode_eq hinsert]
      refine .add name .refl hn .refl ?_
      rw [hgroup]
      trivial
    · rw [createNode_eq hinsert]
      exact Nat.lt_succ_self _
    · rw [createNode_eq hinsert]
      exact under_addChild hn _ name
    · rw [hnew]
      cases hvar : has flags flagsVariable
      · exact .inl rfl
      · exact .inr ⟨rfl, rfl⟩
    · rw [hnew, hvar, if_neg Bool.false_ne_true]
  have hfound : ∀ m, (if has flags flagsVariable then findVar h n name idx
      else findGroup h n name idx) = some m → ReachedBelow h n m (has flags flagsVariable) ∧
        (has flags flagsVariable = false → (h.node m).typ = .group) := by
    intro m hm
    have hmem : m ∈ (h.node n).children ∧
        (h.node m).typ = if has flags flagsVariable then .var else .group := by
      split at hm
      · next hvar =>
          rw [findVar, if_pos hgroup] at hm
          rw [if_pos hvar]
          exact findNode_mem hm
      · next hvar =>
          rw [findGroup, if_pos hgroup] at hm
          rw [if_neg hvar]
          exact findNode_mem hm
    refine ⟨⟨(hwf.child n hn m hmem.1).2.1, .single ⟨hn, hmem.1⟩, ?_⟩, fun hvar => ?_⟩
    · rw [hmem.2]
      cases hvar : has flags flagsVariable
      · exact .inl rfl
      · exact .inr ⟨rfl, rfl⟩
    · rw [hmem.2, hvar, if_neg Bool.false_ne_true]
  have hnone : Builds n h h ∧ ∀ m, (none : Option ℕ) = some m →
      ReachedBelow h n m (has flags flagsVariable) ∧
        (has flags flagsVariable = false → (h.node m).typ = .group) :=
    ⟨.refl, fun _ hm => by cases hm⟩
  have hsome : Builds n h (createNode flags h n name) ∧ ∀ m, some h.size = some m →
      ReachedBelow (createNode flags h n name) n m (has flags flagsVariable) ∧
        (has flags flagsVariable = false →
          ((createNode flags h n name).node m).typ = .group) :=
    ⟨hcreated.1, fun m hm => Option.some.inj hm ▸ hcreated.2⟩
  rw [handlePath, hname]
  split
  · split
    · exact hnone
    · exact hsome
  · cases hfind : (if has flags flagsVariable then findVar h n name idx
        else findGroup h n name idx) with
    | none =>
        dsimp only
        split
        · exact hnone
        · split
          · exact hnone
          · exact hsome
    | some nn =>
        dsimp only
        split
        · exact hnone
        · exact ⟨.refl, fun m hm => Option.some.inj hm ▸ hfound nn hfind⟩

theorem handleLoop_builds (hinsert : has flags flagsInsert = false) : ∀ (k : ℕ) (path : List UInt8)
    (startAtRoot : Bool) {h : DbHeap} {n : ℕ}, WellFormed h → n < h.size →
    (h.node n).typ = .group →
    Builds n h (handleLoop handlePath flags k path startAtRoot n h).2 ∧ ∀ m,
      (handleLoop handlePath flags k path startAtRoot n h).1 = some m →
      ReachedBelow (handleLoop handlePath flags k path startAtRoot n h).2 n m
        (has flags flagsVariable)
  | _, [], _, h, n, _, hn, hgroup => by
      rw [handleLoop]
      exact ⟨.refl, fun m hm => Option.some.inj hm ▸ ⟨hn, .refl, .inl hgroup⟩⟩
  | 0, _ :: _, _, h, n, _, _, _ => by
      rw [handleLoop]
      exact ⟨.refl, fun _ hm => by cases hm⟩
  | k + 1, c :: path, startAtRoot, h, n, hwf, hn, hgroup => by
      have hnone : Builds n h h ∧ ∀ m, (none : Option ℕ) = some m →
          ReachedBelow h n m (has flags flagsVariable) := ⟨.refl, fun _ hm => by cases hm⟩
      rw [handleLoop]
      dsimp only
      split
      · exact hnone
      · next name idx _ =>
          split
          · exact hnone
          · generalize hrest : List.dropWhile isSlash
              (List.dropWhile (fun c => !isSlash c) (c :: path)) = rest
            generalize hel : elementFlags flags startAtRoot (rest == [])
              (rest == [] && has flags flagsVariable) = el
            have helInsert : has el flagsInsert = false := by
              rw [← hel, has_elementFlags flagsInsert (by decide) (by decide) (by decide)
                (by decide), hinsert]
            have helVar : has el flagsVariable = (rest == [] && has flags flagsVariable) := by
              rw [← hel, has_elementFlags_variable]
            obtain ⟨hbuilds, hreached⟩ := handlePath_builds hwf hn hgroup helInsert
              (convert el startAtRoot name) idx
            cases hstep : handlePath (convert el startAtRoot name) n idx el h with
            | mk r h' =>
                rw [hstep] at hbuilds hreached
                cases r with
                | none => exact ⟨hbuilds, fun _ hm => by cases hm⟩
                | some m =>
                    obtain ⟨hm, hmgroup⟩ := hreached m rfl
                    dsimp only
                    by_cases hnil : rest = []
                    · rw [hnil, handleLoop]
                      refine ⟨hbuilds, fun a ha => ?_⟩
                      obtain rfl := Option.some.inj ha
                      have htyp := hm.typ
                      rw [helVar, Bool.and_eq_true] at htyp
                      exact ⟨hm.lt, hm.under, htyp.imp_right fun hvar => ⟨hvar.1.2, hvar.2⟩⟩
                    · have hvar : has el flagsVariable = false := by
                        rw [helVar, beq_false_of_ne hnil, Bool.false_and]
                      obtain ⟨hbuilds', hreached'⟩ := handleLoop_builds hinsert k rest false
                        (hbuilds.spec hwf).1 hm.lt (hmgroup hvar)
                      refine ⟨hbuilds.trans hwf hm.under hbuilds', fun a ha => ?_⟩
                      have ha' := hreached' a ha
                      have hkeeps := (hbuilds'.spec (hbuilds.spec hwf).1).2.1
                      exact ⟨ha'.lt, (hm.under.keeps hkeeps).trans ha'.under, ha'.typ⟩

theorem getNode_builds (hwf : WellFormed h) (hn : n < h.size) (hgroup : (h.node n).typ = .group)
    (hinsert : has flags flagsInsert = false) (path : CString) :
    Builds n h (getNode h n path flags).2 ∧ ∀ m, (getNode h n path flags).1 = some m →
      ReachedBelow (getNode h n path flags).2 n m (has flags flagsVariable) :=
  handleLoop_builds hinsert _ _ _ hwf hn hgroup

theorem getGroup_builds (hwf : WellFormed h) (hn : n < h.size) (hgroup : (h.node n).typ = .group)
    (hinsert : has flags flagsInsert = false)
    (hover : has flags flagsOverwriteGroups = false) (path : CString) :
    Builds n h (getGroup h n flags path).2 ∧ ∀ m, (getGroup h n flags path).1 = some m →
      ReachedBelow (getGroup h n flags path).2 n m false := by
  have hflags : has (flags &&& ~~~flagsVariable) flagsInsert = false := by
    rw [has_and_of_sub (by decide), hinsert]
  have hvar : has (flags &&& ~~~flagsVariable) flagsVariable = false :=
    has_and_of_disjoint (by decide) flags
  obtain ⟨hbuilds, hreached⟩ := getNode_builds hwf hn hgroup hflags path
  rw [hvar] at hreached
  rw [getGroup]
  cases hnode : getNode h n path (flags &&& ~~~flagsVariable) with
  | mk r h' =>
      rw [hnode] at hbuilds hreached
      cases r with
      | none => exact ⟨hbuilds, fun _ hm => by cases hm⟩
      | some m =>
          dsimp only
          rw [hover, if_neg Bool.false_ne_true]
          exact ⟨hbuilds, fun a ha => hreached a ha⟩

/-! ### Values -/

/-- The loop over the values of a line adds them to their variable. -/
theorem readValuesLoop_builds (ty : ValueType) : ∀ (k : ℕ) (p : List UInt8) {h : DbHeap} {m : ℕ},
    WellFormed h → m < h.size → (∀ val, MayHold (h.node m).typ (.value val)) →
    Builds m h (readValuesLoop ty m k p h).2
  | 0, _, _, _, _, _, _ => .refl
  | k + 1, p, h, m, hwf, hm, hhold => by
      rw [readValuesLoop]
      dsimp only
      split
      · exact .refl
      · split
        · exact .refl
        · next wbuf p' _ =>
            split
            · exact .refl
            · next val _ =>
                have hbuilds : Builds m h (appendValue h m val) :=
                  .add (ofBytes []) .refl hm .refl (hhold val)
                obtain ⟨hwf', hkeeps, -⟩ := hbuilds.spec hwf
                split
                · exact hbuilds
                · split
                  · exact hbuilds
                  · split
                    · exact hbuilds
                    · refine hbuilds.trans hwf .refl (readValuesLoop_builds ty k _ hwf'
                        (hm.trans_le hkeeps.size) fun val => ?_)
                      rw [hkeeps.typ m hm]
                      exact hhold val

theorem readValues_builds (hwf : WellFormed h) (hn : n < h.size)
    (hgroup : (h.node n).typ = .group) (hinsert : has flags flagsInsert = false)
    (typeName : Option CString) (varName : CString) (p : List UInt8) :
    Builds n h (readValues n flags typeName varName p h).2 := by
  have hflags : has (flags ||| flagsVariable) flagsInsert = false := by
    rw [has_or, hinsert]
    rfl
  obtain ⟨hbuilds, hreached⟩ := getNode_builds hwf hn hgroup hflags varName
  rw [readValues]
  split
  · exact .refl
  · next ty _ =>
      cases hnode : getNode h n varName (flags ||| flagsVariable) with
      | mk r h' =>
          rw [hnode] at hbuilds hreached
          cases r with
          | none => exact hbuilds
          | some m =>
              have hm := hreached m rfl
              refine hbuilds.trans hwf hm.under (readValuesLoop_builds ty _ p
                (hbuilds.spec hwf).1 hm.lt fun val => ?_)
              rcases hm.typ with htyp | ⟨-, htyp⟩
              · rw [htyp]
                trivial
              · rw [htyp]
                trivial

/-! ### Lines -/

def opensGroup (dbflags : UInt32) (line : List UInt8) : Option (List UInt8) :=
  let p := (ofBytes line).bytes.dropWhile isSpace
  match (p.dropWhile (isTokenChar dbflags)).dropWhile isSpace with
  | [] => none
  | c :: _ => if c = code '{' then
      some (unescapeToBufferTolerant (p.takeWhile (isTokenChar dbflags))) else none

/-- What a line does to the state of the reader. -/
inductive LineStep (dbflags : UInt32) (line : List UInt8) (st st' : ReadState) : Prop where
  /-- Nodes are added below the current group. -/
  | adds : Builds st.n st.heap st'.heap → st'.n = st.n → st'.level = st.level →
      LineStep dbflags line st st'
  /-- A group is entered. -/
  | enters {name : List UInt8} : opensGroup dbflags line = some name →
      getGroup st.heap st.n dbflags (ofBytes name) = (some st'.n, st'.heap) →
      st'.level = st.level + 1 → LineStep dbflags line st st'
  /-- The current group is left. -/
  | leaves : st'.heap = st.heap → (st.heap.node st.n).parent = some st'.n →
      st.level = st'.level + 1 → LineStep dbflags line st st'

/-- The state of the reader: the current group is one. -/
structure ReaderInv (st : ReadState) : Prop where
  wf : WellFormed st.heap
  lt : st.n < st.heap.size
  group : (st.heap.node st.n).typ = .group

theorem leave_eq_some {st st' : ReadState} (h : st.leave = some st') :
    st'.heap = st.heap ∧ (st.heap.node st.n).parent = some st'.n ∧ st'.level = st.level - 1 := by
  rw [ReadState.leave] at h
  obtain ⟨m, hm, rfl⟩ := Option.map_eq_some_iff.mp h
  exact ⟨rfl, (Option.filter_eq_some_iff.mp hm).1, rfl⟩

variable {line : List UInt8}

/-- Every line that is read adds nodes, enters a group or leaves one. -/
theorem readLine_step {st : ReadState} (hi : ReaderInv st)
    (hinsert : has flags flagsInsert = false) (hover : has flags flagsOverwriteGroups = false) {r : ℤ × ReadState} (hread : readLine flags line st = some r) :
    LineStep flags line st r.2 := by
  have hsame {rv : ℤ} (h : some (rv, st) = some r) : LineStep flags line st r.2 := by
    rw [← Option.some.inj h]
    exact .adds .refl rfl rfl
  have hvalues (typeName : Option CString) (varName p : List UInt8) :
      LineStep flags line st (st.readValues flags typeName varName p).2 :=
    .adds (readValues_builds hi.wf hi.lt hi.group hinsert typeName (ofBytes varName) p)
      rfl rfl
  have htyped (p1 p : List UInt8) : LineStep flags line st (readTypedVar flags p1 p st).2 := by
    rw [readTypedVar]
    split
    · exact .adds .refl rfl rfl
    · split
      · exact .adds .refl rfl rfl
      · split
        · exact .adds .refl rfl rfl
        · exact hvalues _ _ _
  rw [readLine] at hread
  split at hread
  · exact hsame hread
  · next c p hp =>
      split at hread
      · next hend =>
          split at hread
          · exact hsame hread
          · next hlevel =>
              obtain ⟨st', hleave, rfl⟩ := Option.map_eq_some_iff.mp hread
              obtain ⟨hheap, hparent, hlevel'⟩ := leave_eq_some hleave
              exact .leaves hheap hparent (by dsimp only; omega)
      · split at hread
        · exact hsame hread
        · dsimp only at hread
          split at hread
          · exact hsame hread
          · next d p₁ hp1 =>
              split at hread
              · exact hsame hread
              · next e p2 hp2 =>
                  split at hread
                  · next hbrace =>
                      have hopens : opensGroup flags line = some (unescapeToBufferTolerant
                          ((c :: p).takeWhile (isTokenChar flags))) := by
                        rw [opensGroup, hp, hp1, hp2]
                        dsimp only
                        rw [if_pos hbrace]
                      obtain ⟨hbuilds, -⟩ := getGroup_builds hi.wf hi.lt hi.group hinsert hover
                        (ofBytes (unescapeToBufferTolerant
                          ((c :: p).takeWhile (isTokenChar flags))))
                      cases hgr : getGroup st.heap st.n flags (ofBytes
                          (unescapeToBufferTolerant
                            ((c :: p).takeWhile (isTokenChar flags)))) with
                      | mk g h' =>
                          rw [hgr] at hbuilds hread
                          cases g with
                          | none =>
                              rw [← Option.some.inj hread]
                              exact .adds hbuilds rfl rfl
                          | some m =>
                              rw [← Option.some.inj hread]
                              exact .enters hopens hgr rfl
                  · split at hread
                    · rw [← Option.some.inj hread]
                      exact hvalues _ _ _
                    · split at hread
                      · exact hsame hread
                      · rw [← Option.some.inj hread]
                        exact htyped _ _

/-- A line has no outcome only where a group without a parent is left. -/
theorem readLine_eq_none {st : ReadState}
    (h : readLine flags line st = none) : 1 ≤ st.level ∧ st.leave = none := by
  rw [readLine] at h
  split at h
  · cases h
  · split at h
    · split at h
      · cases h
      · next hlevel => exact ⟨by omega, Option.map_eq_none_iff.mp h⟩
    · split at h
      · cases h
      · dsimp only at h
        split at h
        · cases h
        · split at h
          · cases h
          · split at h
            · split at h <;> cases h
            · split at h
              · cases h
              · split at h <;> cases h

theorem group_of_parent (hwf : WellFormed h) (hn : n < h.size) (hgroup : (h.node n).typ = .group)
    (hparent : (h.node n).parent = some m) : m < h.size ∧ (h.node m).typ = .group := by
  obtain ⟨hm, hmem⟩ := hwf.parent n hn m hparent
  have hhold := (hwf.child m hm n hmem).2.2.2
  rw [hgroup] at hhold
  refine ⟨hm, ?_⟩
  cases htyp : (h.node m).typ with
  | group => rfl
  | var =>
      rw [htyp] at hhold
      exact hhold.elim
  | value _ =>
      rw [htyp] at hhold
      exact hhold.elim

/-- A line keeps the state in order, and the old nodes where they are. -/
theorem LineStep.keeps {st st' : ReadState} (hi : ReaderInv st)
    (hinsert : has flags flagsInsert = false) (hover : has flags flagsOverwriteGroups = false)
    (hs : LineStep flags line st st') : ReaderInv st' ∧ Keeps st.heap st'.heap := by
  cases hs with
  | adds hbuilds hn _ =>
      obtain ⟨hwf, hkeeps, -⟩ := hbuilds.spec hi.wf
      refine ⟨⟨hwf, ?_, ?_⟩, hkeeps⟩
      · rw [hn]
        exact hi.lt.trans_le hkeeps.size
      · rw [hn, hkeeps.typ _ hi.lt, hi.group]
  | @enters name _ hget _ =>
      obtain ⟨hbuilds, hreached⟩ := getGroup_builds hi.wf hi.lt hi.group hinsert hover
        (ofBytes name)
      rw [hget] at hbuilds hreached
      have hm := hreached _ rfl
      obtain ⟨hwf, hkeeps, -⟩ := hbuilds.spec hi.wf
      exact ⟨⟨hwf, hm.lt, hm.typ.resolve_right fun hv => absurd hv.1 Bool.false_ne_true⟩, hkeeps⟩
  | leaves hheap hparent _ =>
      rw [hheap]
      have hm := group_of_parent hi.wf hi.lt hi.group hparent
      exact ⟨⟨hheap ▸ hi.wf, hheap ▸ hm.1, hheap ▸ hm.2⟩, Keeps.refl _⟩

theorem readLines_keeps (hinsert : has flags flagsInsert = false)
    (hover : has flags flagsOverwriteGroups = false) : ∀ (k : ℕ) (read : Bool) (fb : FastReader)
    (st : ReadState) {r : ℤ × ReadState}, ReaderInv st → readLines flags k read fb st = some r →
      ReaderInv r.2 ∧ Keeps st.heap r.2.heap
  | 0, _, _, st, r, hi, hr => by
      rw [← Option.some.inj hr]
      exact ⟨hi, Keeps.refl st.heap⟩
  | k + 1, read, fb, st, r, hi, hr => by
      have hsame {rv : ℤ} (h : some (rv, st) = some r) : ReaderInv r.2 ∧ Keeps st.heap r.2.heap := by
        rw [← Option.some.inj h]
        exact ⟨hi, Keeps.refl st.heap⟩
      rw [readLines] at hr
      dsimp only at hr
      split at hr
      · split at hr
        · exact hsame hr
        · exact hsame hr
      · split at hr
        · split at hr
          · exact hsame hr
          · exact readLines_keeps hinsert hover k read _ st hi hr
        · obtain ⟨r', hline, hr⟩ := Option.bind_eq_some_iff.mp hr
          obtain ⟨hi', hkeeps⟩ := (readLine_step hi hinsert hover hline).keeps hi hinsert hover
          split at hr
          · rw [← Option.some.inj hr]
            exact ⟨hi', hkeeps⟩
          · obtain ⟨hi'', hkeeps'⟩ := readLines_keeps hinsert hover k true
              (fb.readLineToBuffer []).2.2 _ hi' hr
            exact ⟨hi'', hkeeps.trans hkeeps'⟩

/-- Reading any bytes into a group leaves, unless an assertion fails on the way, a well formed heap
in which the old nodes are where they were, with or without an error. -/
theorem readFromFastBuffer_keeps (hwf : WellFormed h) (hn : n < h.size)
    (hgroup : (h.node n).typ = .group) (hinsert : has flags flagsInsert = false)
    (hover : has flags flagsOverwriteGroups = false) (fb : FastReader) (lines : ℕ)
    {r : ℤ × DbHeap} (hr : readFromFastBuffer h n fb flags lines = some r) :
    WellFormed r.2 ∧ Keeps h r.2 := by
  obtain ⟨r', hr', rfl⟩ := Option.map_eq_some_iff.mp hr
  obtain ⟨hi, hkeeps⟩ := readLines_keeps hinsert hover (lines + 1) false fb ⟨n, 0, h⟩
    ⟨hwf, hn, hgroup⟩ hr'
  exact ⟨hi.wf, hkeeps⟩

/-- A text with a group in a group and a line without a second token. -/
theorem readFromFastBuffer_keeps_badData : ∃ r,
    readFromFastBuffer (emptyGroup (ofBytes [])) 0
      ⟨[], [.data (ascii ['a', '{'] ++ [0x0a] ++ ascii ['b']), .data (ascii ['{'] ++ [0x0a] ++
        ascii ['}'] ++ [0x0a] ++ ascii ['x', '=', '1'] ++ [0x0a] ++ ascii ['x'])]⟩ flagsDefault 5 =
      some r ∧ r.1 = errorBadData ∧ WellFormed r.2 ∧ Keeps (emptyGroup (ofBytes [])) r.2 := by
  have hrun : (readFromFastBuffer (emptyGroup (ofBytes [])) 0
      ⟨[], [.data (ascii ['a', '{'] ++ [0x0a] ++ ascii ['b']), .data (ascii ['{'] ++ [0x0a] ++
        ascii ['}'] ++ [0x0a] ++ ascii ['x', '=', '1'] ++ [0x0a] ++ ascii ['x'])]⟩
      flagsDefault 5).map Prod.fst = some errorBadData := by decide
  obtain ⟨r, hr, hrv⟩ := Option.map_eq_some_iff.mp hrun
  exact ⟨r, hr, hrv, readFromFastBuffer_keeps (wellFormed_emptyGroup _) Nat.one_pos rfl (by decide)
    (by decide) _ 5 hr⟩

/-! ### Groups that are entered and left -/

/-- A group is so many levels below another one. -/
inductive Nested (h : DbHeap) (r : ℕ) : ℕ → ℕ → Prop where
  | root : Nested h r 0 r
  | inner {k m n : ℕ} : Nested h r k m → (h.node n).parent = some m → Nested h r (k + 1) n

theorem Nested.keeps {r k : ℕ} (hwf : WellFormed h) (hk : Keeps h h') (hn : n < h.size)
    (hnest : Nested h r k n) : Nested h' r k n := by
  induction hnest with
  | root => exact .root
  | @inner k m n _ hparent ih =>
      exact .inner (ih (hwf.parent n hn m hparent).1) ((hk.parent n hn).trans hparent)

theorem Nested.under {r k : ℕ} (hwf : WellFormed h) (hn : n < h.size) (hnest : Nested h r k n) :
    Under h r n := by
  induction hnest with
  | root => exact .refl
  | @inner k m n _ hparent ih =>
      have hm := hwf.parent n hn m hparent
      exact (ih hm.1).tail hm

theorem Nested.eq_root {r : ℕ} (hnest : Nested h r 0 n) : n = r := by
  cases hnest
  rfl

def PlainGroups (lines : List (List UInt8)) : Prop :=
  ∀ line ∈ lines, ∀ name, opensGroup flagsDefault line = some name → IsPlain (ofBytes name)

/-- The depth of the current group is at least `base` behind each of the lines. -/
def StaysAbove (base : ℕ) : List (List UInt8) → ReadState → Prop
  | [], _ => True
  | line :: lines, st =>
      ∃ r, (if line = [] then some (0, st) else readLine flagsDefault line st) = some r ∧
        base ≤ r.2.level ∧ StaysAbove base lines r.2

theorem parent_of_entered (hwf : WellFormed h) (hn : n < h.size) (hgroup : (h.node n).typ = .group)
    {name : CString} (hname : IsPlain name)
    (hget : getGroup h n flagsDefault name = (some m, h')) : (h'.node m).parent = some n := by
  rw [getGroup_plain (.inl rfl) hname] at hget
  cases hfind : findGroup h n name 0 with
  | none =>
      rw [hfind, Option.elim_none, if_pos rfl, createNode_eq (by decide)] at hget
      obtain ⟨hm, hh⟩ := Prod.mk.inj hget
      rw [← hh, ← Option.some.inj hm, node_addChild hn, if_pos rfl]
  | some g =>
      rw [hfind, Option.elim_some] at hget
      obtain ⟨hm, hh⟩ := Prod.mk.inj hget
      rw [findGroup, if_pos hgroup] at hfind
      rw [← hh, ← Option.some.inj hm]
      exact (hwf.child n hn g (findNode_mem hfind).1).2.2.1

/-- What is known of the reader while it is below `r`, which it has entered at the depth
`base`. -/
structure Inside (h0 : DbHeap) (r base : ℕ) (st : ReadState) : Prop where
  inv : ReaderInv st
  nested : Nested st.heap r (st.level - base) st.n
  above : base ≤ st.level
  builds : Builds r h0 st.heap

theorem Inside.step {h0 : DbHeap} {r base : ℕ} {st : ReadState} (hwf : WellFormed h0)
    (hi : Inside h0 r base st) (hplain : PlainGroups [line])
    {res : ℤ × ReadState} (hread : readLine flagsDefault line st = some res)
    (habove : base ≤ res.2.level) : Inside h0 r base res.2 := by
  have hinsert : has flagsDefault flagsInsert = false := by decide
  have hover : has flagsDefault flagsOverwriteGroups = false := by decide
  have hstep := readLine_step hi.inv hinsert hover hread
  obtain ⟨hinv, hkeeps⟩ := hstep.keeps hi.inv hinsert hover
  have hunder := hi.nested.under hi.inv.wf hi.inv.lt
  obtain ⟨rv, st'⟩ := res
  dsimp only at *
  cases hstep with
  | adds hbuilds hn hlevel =>
      refine ⟨hinv, ?_, habove, hi.builds.trans hwf hunder hbuilds⟩
      rw [hn, hlevel]
      exact hi.nested.keeps hi.inv.wf hkeeps hi.inv.lt
  | @enters name hopens hget hlevel =>
      have hname := hplain line (List.mem_singleton_self _) name hopens
      obtain ⟨hbuilds, -⟩ := getGroup_builds hi.inv.wf hi.inv.lt hi.inv.group hinsert
        hover (ofBytes name)
      rw [hget] at hbuilds
      refine ⟨hinv, ?_, habove, hi.builds.trans hwf hunder hbuilds⟩
      have hdepth : st'.level - base = st.level - base + 1 := by
        have hab := hi.above
        omega
      rw [hdepth]
      exact .inner (hi.nested.keeps hi.inv.wf hkeeps hi.inv.lt)
        (parent_of_entered hi.inv.wf hi.inv.lt hi.inv.group hname hget)
  | leaves hheap hn hlevel =>
      refine ⟨hinv, ?_, habove, hheap ▸ hi.builds⟩
      have hdepth : st.level - base = st'.level - base + 1 := by omega
      have hnest := hi.nested
      rw [hdepth] at hnest
      cases hnest with
      | @inner _ m _ hnest hparent =>
          rw [hparent] at hn
          rw [hheap, ← Option.some.inj hn]
          exact hnest

/-- A group that was entered has a parent, so that no assertion fails. -/
theorem Inside.readLine_ne_none {h0 : DbHeap} {r : ℕ} {st : ReadState} (hi : Inside h0 r 0 st)
    (line : List UInt8) : ∃ res, readLine flagsDefault line st = some res := by
  cases hread : readLine flagsDefault line st with
  | some res => exact ⟨res, rfl⟩
  | none =>
      obtain ⟨hlevel, hleave⟩ := readLine_eq_none hread
      have hnest := hi.nested
      obtain ⟨k, hk⟩ : ∃ k, st.level - 0 = k + 1 := ⟨st.level - 1, by omega⟩
      rw [hk] at hnest
      cases hnest with
      | @inner _ m _ _ hparent =>
          have hm := group_of_parent hi.inv.wf hi.inv.lt hi.inv.group hparent
          rw [ReadState.leave, hparent, Option.filter_some, if_pos (decide_eq_true hm.2)] at hleave
          cases hleave

/-- The lines of a text that opens groups by plain names never leave the group it is read into. -/
theorem Inside.staysAbove {h0 : DbHeap} {r : ℕ} (hwf : WellFormed h0) :
    ∀ {lines : List (List UInt8)} {st : ReadState}, Inside h0 r 0 st → PlainGroups lines →
    StaysAbove 0 lines st
  | [], _, _, _ => trivial
  | line :: lines, st, hi, hplain => by
      have hlines : PlainGroups lines := fun l hl => hplain l (List.mem_cons_of_mem _ hl)
      rw [StaysAbove]
      by_cases hnil : line = []
      · rw [if_pos hnil]
        exact ⟨(0, st), rfl, Nat.zero_le _, hi.staysAbove hwf hlines⟩
      · obtain ⟨res, hres⟩ := hi.readLine_ne_none line
        have hstep := hi.step hwf (fun l hl => hplain l (by
          rw [List.mem_singleton.mp hl]
          exact List.mem_cons_self)) hres (Nat.zero_le _)
        rw [if_neg hnil]
        exact ⟨res, hres, Nat.zero_le _, hstep.staysAbove hwf hlines⟩

theorem Inside.run {h0 : DbHeap} {r base : ℕ} (hwf : WellFormed h0) :
    ∀ {lines : List (List UInt8)} {st : ReadState}, Inside h0 r base st → PlainGroups lines →
    StaysAbove base lines st →
    ∃ res, readAll flagsDefault lines st = some res ∧ Inside h0 r base res.2
  | [], st, hi, _, _ => ⟨(0, st), rfl, hi⟩
  | line :: lines, st, hi, hplain, habove => by
      obtain ⟨res, hres, hbase, hrest⟩ := habove
      have hlines : PlainGroups lines := fun l hl => hplain l (List.mem_cons_of_mem _ hl)
      rw [readAll]
      by_cases hnil : line = []
      · rw [if_pos hnil] at hres ⊢
        rw [← Option.some.inj hres] at hrest
        exact Inside.run hwf hi hlines hrest
      · rw [if_neg hnil] at hres ⊢
        have hstep := hi.step hwf (fun l hl => hplain l (by
          rw [List.mem_singleton.mp hl]
          exact List.mem_cons_self)) hres hbase
        rw [hres, Option.bind_some]
        dsimp only
        by_cases hrv : res.1 ≠ 0
        · exact ⟨res, if_pos hrv, hstep⟩
        · rw [if_neg hrv]
          exact Inside.run hwf hstep hlines hrest

/-- Lines that begin and end groups in pairs are read in the group they are read into: behind them
this group is the current one again, and no node outside of it has changed. -/
theorem readLines_returns {lines : List (List UInt8)} {st : ReadState} (hi : ReaderInv st)
    (hlines : ∀ line ∈ lines, IsLine line) (hplain : PlainGroups lines)
    (habove : StaysAbove st.level lines st) {k : ℕ} {read : Bool} {fb : FastReader}
    (hk : lines.length < k) (hfb : fb.Holds (unlines lines))
    (hread : read = true ∨ ∃ line ∈ lines, line ≠ []) :
    ∃ r, readLines flagsDefault k read fb st = some r ∧ (r.2.level = st.level → r.2.n = st.n) ∧
      ∀ x < st.heap.size, ¬ Under st.heap st.n x → r.2.heap.node x = st.heap.node x := by
  have huntil : has flagsDefault flagsUntilEmptyLine = false := by decide
  have hrun := readLines_eq huntil st hlines hk hfb hread
  have hstart : Inside st.heap st.n st.level st :=
    ⟨hi, by rw [Nat.sub_self]; exact .root, le_rfl, .refl⟩
  obtain ⟨r, hr, hend⟩ := hstart.run hi.wf hplain habove
  refine ⟨r, hrun.trans hr, fun hlevel => ?_, (hend.builds.spec hi.wf).2.2⟩
  have hnest := hend.nested
  rw [hlevel, Nat.sub_self] at hnest
  exact hnest.eq_root

theorem plainGroups_pair : PlainGroups [ascii ['a', ' ', '{'], ascii ['}']] := by
  intro line hmem name hopens
  rw [List.mem_cons, List.mem_singleton] at hmem
  rcases hmem with rfl | rfl
  · obtain rfl : ascii ['a'] = name :=
      Option.some.inj ((by decide : opensGroup flagsDefault (ascii ['a', ' ', '{']) =
        some (ascii ['a'])).symm.trans hopens)
    exact ⟨by decide, by decide⟩
  · have hnone : opensGroup flagsDefault (ascii ['}']) = none := by decide
    rw [hnone] at hopens
    cases hopens

theorem inside_emptyGroup : Inside (emptyGroup (ofBytes [])) 0 0
    ⟨0, 0, emptyGroup (ofBytes [])⟩ :=
  ⟨⟨wellFormed_emptyGroup _, Nat.one_pos, rfl⟩, .root, le_rfl, .refl⟩

/-- A group that is entered and left. -/
theorem readLines_returns_group : ∃ r,
    readLines flagsDefault 3 false ⟨[], [.data (unlines [ascii ['a', ' ', '{'], ascii ['}']])]⟩
      ⟨0, 0, emptyGroup (ofBytes [])⟩ = some r ∧ (r.2.level = 0 → r.2.n = 0) ∧
      ∀ x < 1, ¬ Under (emptyGroup (ofBytes [])) 0 x →
        r.2.heap.node x = (emptyGroup (ofBytes [])).node x :=
  @readLines_returns [ascii ['a', ' ', '{'], ascii ['}']] ⟨0, 0, emptyGroup (ofBytes [])⟩
    inside_emptyGroup.inv (by decide) plainGroups_pair
    (inside_emptyGroup.staysAbove (wellFormed_emptyGroup _) plainGroups_pair) 3 false _ (by decide)
    ⟨[unlines [ascii ['a', ' ', '{'], ascii ['}']]], ⟨rfl, by decide⟩, by decide⟩
    (.inr ⟨_, List.mem_cons_self, by decide⟩)

/-- A text in which the names of groups are no paths changes nothing outside of the group that it
is read into. -/
theorem readFromFastBuffer_within (hwf : WellFormed h) (hn : n < h.size)
    (hgroup : (h.node n).typ = .group) {lines : List (List UInt8)}
    (hlines : ∀ line ∈ lines, IsLine line) (hplain : PlainGroups lines) {fb : FastReader} {k : ℕ}
    (hk : lines.length ≤ k) (hfb : fb.Holds (unlines lines)) (hne : ∃ line ∈ lines, line ≠ []) :
    ∃ r, readFromFastBuffer h n fb flagsDefault k = some r ∧
      ∀ x < h.size, ¬ Under h n x → r.2.node x = h.node x := by
  have huntil : has flagsDefault flagsUntilEmptyLine = false := by decide
  have hrun : readLines flagsDefault (k + 1) false fb ⟨n, 0, h⟩ =
      readAll flagsDefault lines ⟨n, 0, h⟩ :=
    readLines_eq huntil ⟨n, 0, h⟩ hlines (Nat.lt_succ_of_le hk) hfb (.inr hne)
  have hstart : Inside h n 0 ⟨n, 0, h⟩ := ⟨⟨hwf, hn, hgroup⟩, .root, le_rfl, .refl⟩
  obtain ⟨r, hr, hend⟩ := hstart.run hwf hplain (hstart.staysAbove hwf hplain)
  refine ⟨(if r.1 = 0 ∧ r.2.level ≠ 0 then errorBadData else r.1, r.2.heap), ?_,
    (hend.builds.spec hwf).2.2⟩
  rw [readFromFastBuffer, hrun, hr]
  rfl

def nestedGroup : DbHeap :=
  addChild (emptyGroup (ofBytes [])) 0 .group (ofBytes (ascii ['b']))

theorem not_under_nestedGroup : ¬ Under nestedGroup 1 0 := by
  have hchildren : ∀ p < nestedGroup.size, 0 ∉ (nestedGroup.node p).children := by decide
  intro hunder
  cases hunder with
  | tail _ hparent => exact hchildren _ hparent.1 hparent.2

/-- The outer group stays as it is when a text is read into the inner one. -/
theorem readFromFastBuffer_within_inner : ∃ r, readFromFastBuffer nestedGroup 1
    ⟨[], [.data (unlines [ascii ['a', ' ', '{'], ascii ['}']])]⟩ flagsDefault 2 = some r ∧
      r.2.node 0 = nestedGroup.node 0 := by
  obtain ⟨r, hr, hsame⟩ := @readFromFastBuffer_within nestedGroup 1
    ((wellFormed_emptyGroup _).addChild Nat.one_pos trivial _)
    Nat.one_lt_two rfl [ascii ['a', ' ', '{'], ascii ['}']] (by decide) plainGroups_pair
    ⟨[], [.data (unlines [ascii ['a', ' ', '{'], ascii ['}']])]⟩ 2 le_rfl
    ⟨[unlines [ascii ['a', ' ', '{'], ascii ['}']]], ⟨rfl, by decide⟩, by decide⟩
    ⟨_, List.mem_cons_self, by decide⟩
  exact ⟨r, hr, hsame 0 Nat.two_pos not_under_nestedGroup⟩

end

end Db
end Gwenhywfar
