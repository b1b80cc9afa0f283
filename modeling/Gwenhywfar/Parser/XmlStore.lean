import Gwenhywfar.Parser.XmlCondense
import Mathlib.Algebra.BigOperators.Group.Multiset.Basic
import Mathlib.Tactic.Abel

/-! # The tree that a context stores

* `XmlForest`, `XmlFrame`: nodes with their children; the current node and its ancestors are
  frames, from the inside out, with the children before and behind the one that is open.
* `storeStep`: `GWEN_XmlCtxStore_StartTag`, `EndTag`, `AddAttr` and `AddData` with what they do to
  the tree; there is no outcome where they return an error or compare a name that is missing.
* `tracks_of_runs`: as long as no closing tag closes the first node or one above it, the current
  node stays below it, the depth is its distance and no node is lost. -/

namespace Gwenhywfar

/-- A list of nodes; each has a number. -/
inductive XmlForest
  | nil
  | data (id : ℕ) (text : List UInt8) (next : XmlForest)
  | tag (id : ℕ) (name : Option CString) (children next : XmlForest)

namespace XmlForest

/-- One list behind another. -/
def append : XmlForest → XmlForest → XmlForest
  | nil, t => t
  | data id text next, t => data id text (append next t)
  | tag id name children next, t => tag id name children (append next t)

/-- The tags of a list, which `GWEN_XMLNode_GetFirstTag` finds one after the other. -/
def tags : XmlForest → XmlForest
  | nil => nil
  | data _ _ next => tags next
  | tag id name children next => tag id name children (tags next)

/-- What is left of a list without its tags. -/
def others : XmlForest → XmlForest
  | nil => nil
  | data id text next => data id text (others next)
  | tag _ _ _ next => others next

/-- The numbers of the nodes of a list and of all below them. -/
def ids : XmlForest → Multiset ℕ
  | nil => 0
  | data id _ next => id ::ₘ ids next
  | tag id _ children next => id ::ₘ (ids children + ids next)

@[simp] theorem ids_append (s t : XmlForest) : (s.append t).ids = s.ids + t.ids := by
  induction s with
  | nil => simp [append, ids]
  | data id text next ih => simp [append, ids, ih]
  | tag id name children next _ ih => simp [append, ids, ih, add_assoc]

theorem ids_others_append (s t : XmlForest) :
    (s.append t).others.ids = s.others.ids + t.others.ids := by
  induction s with
  | nil => simp [append, others, ids]
  | data id text next ih => simp [append, others, ids, ih]
  | tag id name children next _ ih => simp [append, others, ih]

theorem ids_others_tags (s : XmlForest) : s.others.ids + s.tags.ids = s.ids := by
  induction s with
  | nil => simp [others, tags, ids]
  | data id text next ih => simp [others, tags, ids, ih]
  | tag id name children next _ ih =>
      rw [others, tags, ids, ids, ← ih, Multiset.add_cons, add_left_comm]

end XmlForest

/-- A node that is open, with the children before and behind the one that is open. -/
structure XmlFrame where
  id : ℕ
  name : Option CString
  left : XmlForest
  right : XmlForest

namespace XmlFrame

open XmlForest

/-- The numbers of a node and of the nodes below it, the open ones apart. -/
def ids (f : XmlFrame) : Multiset ℕ := f.id ::ₘ (f.left.ids + f.right.ids)

/-- A node becomes the current one, and the one that was open below it is one of its children. -/
def close (p child : XmlFrame) : XmlFrame where
  id := p.id
  name := p.name
  left := p.left.append (.tag child.id child.name (child.left.append child.right) p.right)
  right := .nil

/-- `_moveSubTagsUpOneLevel`: what is left of the node. -/
def withoutTags (child : XmlFrame) : XmlFrame :=
  { child with left := child.left.others, right := child.right.others }

/-- `_moveSubTagsUpOneLevel`: the tags are added behind the children of the parent. -/
def addTags (p child : XmlFrame) : XmlFrame :=
  { p with right := p.right.append (child.left.append child.right).tags }

theorem ids_close (p child : XmlFrame) : (p.close child).ids = p.ids + child.ids := by
  simp only [close, ids, ids_append, XmlForest.ids, add_zero, Multiset.add_cons,
    Multiset.cons_add, Multiset.cons_swap]
  congr 2
  abel

end XmlFrame

/-- A context with the tree that it stores, and the numbers of the nodes that were created. -/
structure XmlStore where
  nodes : List XmlFrame
  depth : ℕ
  header : Bool
  next : ℕ
  created : Multiset ℕ

namespace XmlStore

open Xml XmlFrame

/-- `GWEN_XML_FLAGS_SGML`. -/
def flagsSgml : UInt32 := 0x0400

/-- The calls of the parser. -/
inductive Call
  | startTag (tagName : CString)
  | endTag (closing : Bool)
  | addAttr
  | addData (data : CString)

/-- The loop of `_findTagForClosingTagAndcloseAndMoveSubTags`, from a node up to the parent of the
first ancestor with this name.  A depth of 0 stays as it is. -/
def closeUp (sgml : Bool) (name : CString) (child : XmlFrame) :
    List XmlFrame → ℕ → Option (List XmlFrame × ℕ)
  | [], _ => none
  | p :: rest, depth =>
      let closed := if sgml then (p.addTags child).close child.withoutTags else p.close child
      if p.name = none then none
      else if hasName name p.name then
        match rest with
        | [] => none
        | g :: rest => some (g.close closed :: rest, depth - 1 - 1)
      else closeUp sgml name closed rest (depth - 1)

def closeCurrent (st : XmlStore) : Option XmlStore :=
  match st.nodes with
  | child :: p :: rest => some { st with nodes := p.close child :: rest, depth := st.depth - 1 }
  | _ => none

/-- A node is added to the children of the current one. -/
def addData (st : XmlStore) (text : List UInt8) : XmlStore :=
  match st.nodes with
  | cur :: rest => { st with
      nodes := { cur with left := cur.left.append (.data st.next text .nil) } :: rest
      next := st.next + 1
      created := st.next ::ₘ st.created }
  | [] => st

/-- A tag is added to the current node and becomes the current one. -/
def openTag (st : XmlStore) (tagName : CString) : XmlStore :=
  { st with
    nodes := ⟨st.next, some tagName, .nil, .nil⟩ :: st.nodes
    depth := st.depth + 1
    next := st.next + 1
    created := st.next ::ₘ st.created }

def closedName (tagName : CString) : CString := CString.ofBytes tagName.bytes.tail

/-- `GWEN_XmlCtxStore_StartTag`. -/
def startTag (flags : UInt32) (st : XmlStore) (tagName : CString) : Option XmlStore :=
  match st.nodes with
  | [] => none
  | cur :: rest =>
      if tagName.bytes.head? = some (code '?') ∧ has flags flagsHandleHeaders then
        some { st with header := true }
      else if strcaseEq tagName (str ['!', 'D', 'O', 'C', 'T', 'Y', 'P', 'E']) then
        some { st with header := true }
      else if tagName.bytes.head? = some (code '/') then
        if cur.name = none then none
        else if hasName (closedName tagName) cur.name then st.closeCurrent
        else if !has flags flagsTolerantEndtags then none
        else
          (closeUp (has flags flagsSgml) (closedName tagName) cur rest st.depth).map fun r =>
            { st with nodes := r.1, depth := r.2 }
      else some (st.openTag tagName)

/-- A successful call, and the tree behind it. -/
def storeStep (flags : UInt32) (st : XmlStore) : Call → Option XmlStore
  | .startTag tagName => st.startTag flags tagName
  | .endTag closing =>
      if st.header then some { st with header := false }
      else if st.nodes = [] then none
      else if closing then st.closeCurrent
      else some st
  | .addAttr => if st.header = false ∧ st.nodes = [] then none else some st
  | .addData data =>
      if st.nodes = [] then none
      else (addDataNode flags data.bytes).map fun node => node.elim st st.addData

/-! ### The position -/

/-- The numbers of nodes that are open, and of the nodes below them. -/
def total (fs : List XmlFrame) : Multiset ℕ := (fs.map XmlFrame.ids).sum

/-- A context at a node `n`, with the ancestors `above` and nothing created yet. -/
structure Starts (n : XmlFrame) (above : List XmlFrame) (st : XmlStore) : Prop where
  nodes_eq : st.nodes = n :: above
  depth_eq : st.depth = 0
  created_eq : st.created = 0
  fresh : ∀ i ∈ total st.nodes, i < st.next

/-- The current node is `n` or below it, the depth is its distance, and the nodes below `n` are
those from the start and those created since. -/
def Tracks (n : XmlFrame) (above : List XmlFrame) (st : XmlStore) : Prop :=
  ∃ (inner : List XmlFrame) (m : XmlFrame), st.nodes = inner ++ m :: above ∧ m.id = n.id ∧
    st.depth = inner.length ∧ total (inner ++ [m]) = n.ids + st.created

/-- The tag closes a node below `n`: the current one, or a parent of it. -/
def StaysBelow (n : ℕ) (st : XmlStore) (tagName : CString) : Prop :=
  ∀ cur rest, st.nodes = cur :: rest → cur.id ≠ n ∧
    (hasName (closedName tagName) cur.name = false →
      ∃ f ∈ rest.takeWhile (·.id != n), hasName (closedName tagName) f.name = true)

/-- A call closes neither the node `n` nor one above it. -/
def Stays (n : ℕ) (st : XmlStore) : Call → Prop
  | .startTag tagName => tagName.bytes.head? = some (code '/') → StaysBelow n st tagName
  | .endTag closing => closing = true → st.header = false →
      ∀ cur rest, st.nodes = cur :: rest → cur.id ≠ n
  | .addAttr => True
  | .addData _ => True

/-- Successful calls of which none closes the node `n` or one above it. -/
inductive Runs (flags : UInt32) (n : ℕ) : XmlStore → XmlStore → Prop
  | refl (st : XmlStore) : Runs flags n st st
  | step {st st' st'' : XmlStore} {call : Call} (h : Runs flags n st st') (hstays : Stays n st' call)
      (hstep : storeStep flags st' call = some st'') : Runs flags n st st''

section
variable {n : ℕ} {start : Multiset ℕ} {above : List XmlFrame} {st st' : XmlStore} {flags : UInt32}

theorem total_cons (f : XmlFrame) (fs : List XmlFrame) : total (f :: fs) = f.ids + total fs := by
  simp [total]

theorem total_close (p child : XmlFrame) (fs : List XmlFrame) :
    total (p.close child :: fs) = total (child :: p :: fs) := by
  rw [total_cons, total_cons, total_cons, ids_close, ← add_assoc, add_comm p.ids]

theorem total_move (p child : XmlFrame) (fs : List XmlFrame) :
    total ((p.addTags child).close child.withoutTags :: fs) = total (child :: p :: fs) := by
  rw [total_close, total_cons, total_cons, total_cons, total_cons, ← add_assoc, ← add_assoc]
  congr 1
  have hsplit := XmlForest.ids_others_tags (child.left.append child.right)
  simp only [XmlFrame.ids, withoutTags, addTags, XmlForest.ids_append]
  rw [XmlForest.ids_append, XmlForest.ids_others_append] at hsplit
  simp only [Multiset.cons_add, Multiset.add_cons]
  rw [← hsplit]
  congr 2
  abel

/-- The invariant of a run. -/
def Holds (n : ℕ) (start : Multiset ℕ) (above : List XmlFrame) (st : XmlStore) : Prop :=
  n < st.next ∧ ∃ (inner : List XmlFrame) (m : XmlFrame), st.nodes = inner ++ m :: above ∧
    m.id = n ∧ (∀ f ∈ inner, f.id ≠ n) ∧ st.depth = inner.length ∧
    total (inner ++ [m]) = start + st.created

/-- What the loop over the parents leaves, where one of them below `n` has the name. -/
theorem closeUp_spec {sgml : Bool} {name : CString} {inner : List XmlFrame} {m : XmlFrame}
    (hm : m.id = n) (hinner : ∀ f ∈ inner, f.id ≠ n)
    (hfound : ∃ f ∈ inner, hasName name f.name = true) {child : XmlFrame} {depth : ℕ}
    (hdepth : depth = inner.length + 1) {nodes : List XmlFrame} {depth' : ℕ}
    (h : closeUp sgml name child (inner ++ m :: above) depth = some (nodes, depth')) :
    ∃ (inner' : List XmlFrame) (m' : XmlFrame), nodes = inner' ++ m' :: above ∧ m'.id = n ∧
      (∀ f ∈ inner', f.id ≠ n) ∧ depth' = inner'.length ∧
      total (inner' ++ [m']) = total (child :: inner ++ [m]) := by
  induction inner generalizing child depth with
  | nil => simp at hfound
  | cons p inner ih =>
      rw [List.forall_mem_cons] at hinner
      have hclosed : ∃ closed : XmlFrame, closed.id = p.id ∧
          (∀ fs, total (closed :: fs) = total (child :: p :: fs)) ∧
          (if sgml then (p.addTags child).close child.withoutTags else p.close child) = closed := by
        cases sgml with
        | true =>
            exact ⟨(p.addTags child).close child.withoutTags, rfl, total_move p child, rfl⟩
        | false => exact ⟨p.close child, rfl, total_close p child, rfl⟩
      obtain ⟨closed, hid, htotal, heq⟩ := hclosed
      simp only [List.cons_append, closeUp, heq] at h
      by_cases hnone : p.name = none
      · simp [hnone] at h
      rw [if_neg hnone] at h
      by_cases hname : hasName name p.name = true
      · rw [if_pos hname] at h
        cases inner with
        | nil =>
            obtain ⟨rfl, rfl⟩ := Prod.mk.inj (Option.some.inj h)
            refine ⟨[], m.close closed, rfl, hm, by simp, by rw [hdepth]; rfl, ?_⟩
            rw [List.nil_append, total_close, htotal]
            rfl
        | cons q inner =>
            rw [List.forall_mem_cons] at hinner
            obtain ⟨rfl, rfl⟩ := Prod.mk.inj (Option.some.inj h)
            refine ⟨q.close closed :: inner, m, rfl, hm,
              List.forall_mem_cons.mpr ⟨hinner.2.1, hinner.2.2⟩, by rw [hdepth]; rfl, ?_⟩
            rw [List.cons_append, total_close, htotal]
            rfl
      · rw [if_neg hname] at h
        have hfound' : ∃ f ∈ inner, hasName name f.name = true := by
          obtain ⟨f, hf, hfname⟩ := hfound
          rcases List.mem_cons.mp hf with rfl | hf
          · exact absurd hfname hname
          · exact ⟨f, hf, hfname⟩
        obtain ⟨inner', m', hnodes, hid', hne, hlen, hsum⟩ :=
          ih hinner.2 hfound' (by rw [hdepth]; rfl) h
        refine ⟨inner', m', hnodes, hid', hne, hlen, ?_⟩
        rw [hsum, List.cons_append, htotal]
        rfl

/-- Closing the current node keeps the invariant, if it is not `n`. -/
theorem Holds.closeCurrent (h : Holds n start above st)
    (hcur : ∀ cur rest, st.nodes = cur :: rest → cur.id ≠ n) (hclose : st.closeCurrent = some st') :
    Holds n start above st' := by
  obtain ⟨hn, inner, m, hnodes, hm, hinner, hdepth, htotal⟩ := h
  cases inner with
  | nil => exact absurd hm (hcur m above hnodes)
  | cons child inner =>
      rw [List.forall_mem_cons] at hinner
      rw [XmlStore.closeCurrent, hnodes] at hclose
      cases inner with
      | nil =>
          obtain rfl := Option.some.inj hclose
          refine ⟨hn, [], m.close child, rfl, hm, by simp, by simp [hdepth], ?_⟩
          rw [List.nil_append, total_close]
          exact htotal
      | cons q inner =>
          rw [List.forall_mem_cons] at hinner
          obtain rfl := Option.some.inj hclose
          refine ⟨hn, q.close child :: inner, m, rfl, hm,
            List.forall_mem_cons.mpr ⟨hinner.2.1, hinner.2.2⟩, by simp [hdepth], ?_⟩
          rw [List.cons_append, total_close]
          exact htotal

theorem Holds.openTag (h : Holds n start above st) (tagName : CString) :
    Holds n start above (st.openTag tagName) := by
  obtain ⟨hn, inner, m, hnodes, hm, hinner, hdepth, htotal⟩ := h
  refine ⟨hn.trans (Nat.lt_succ_self _), ⟨st.next, some tagName, .nil, .nil⟩ :: inner, m,
    by rw [XmlStore.openTag, hnodes]; rfl, hm,
    List.forall_mem_cons.mpr ⟨hn.ne', hinner⟩, by simp [XmlStore.openTag, hdepth], ?_⟩
  rw [List.cons_append, total_cons, htotal]
  simp [XmlStore.openTag, XmlFrame.ids, XmlForest.ids]

theorem Holds.addData (h : Holds n start above st) (text : List UInt8) :
    Holds n start above (st.addData text) := by
  obtain ⟨hn, inner, m, hnodes, hm, hinner, hdepth, htotal⟩ := h
  have hids : ∀ f : XmlFrame, ({ f with left := f.left.append (.data st.next text .nil) } :
      XmlFrame).ids = f.ids + {st.next} := by
    intro f
    simp only [XmlFrame.ids, XmlForest.ids_append, XmlForest.ids, ← Multiset.singleton_add]
    abel
  cases inner with
  | nil =>
      have hst : st.addData text = { st with
          nodes := { m with left := m.left.append (.data st.next text .nil) } :: above
          next := st.next + 1
          created := st.next ::ₘ st.created } := by
        rw [XmlStore.addData, hnodes]
        rfl
      rw [hst]
      refine ⟨hn.trans (Nat.lt_succ_self _), [], _, rfl, hm, by simp, hdepth, ?_⟩
      rw [List.nil_append, total_cons] at htotal ⊢
      rw [hids, add_right_comm, htotal, add_assoc, add_comm st.created, Multiset.singleton_add]
  | cons cur inner =>
      rw [List.forall_mem_cons] at hinner
      have hst : st.addData text = { st with
          nodes := { cur with left := cur.left.append (.data st.next text .nil) } ::
            (inner ++ m :: above)
          next := st.next + 1
          created := st.next ::ₘ st.created } := by
        rw [XmlStore.addData, hnodes]
        rfl
      rw [hst]
      refine ⟨hn.trans (Nat.lt_succ_self _),
        { cur with left := cur.left.append (.data st.next text .nil) } :: inner, m, rfl, hm,
        List.forall_mem_cons.mpr ⟨hinner.1, hinner.2⟩, hdepth, ?_⟩
      rw [List.cons_append, total_cons] at htotal ⊢
      rw [hids, add_right_comm, htotal, add_assoc, add_comm st.created, Multiset.singleton_add]

theorem Holds.setHeader (h : Holds n start above st) (header : Bool) :
    Holds n start above { st with header := header } := h

theorem Holds.startTag {tagName : CString} (h : Holds n start above st)
    (hstays : Stays n st (.startTag tagName)) (hstep : st.startTag flags tagName = some st') :
    Holds n start above st' := by
  have hcopy := h
  obtain ⟨hn, inner, m, hnodes, hm, hinner, hdepth, htotal⟩ := h
  obtain ⟨cur, rest, hcur⟩ : ∃ cur rest, st.nodes = cur :: rest := by
    cases inner with
    | nil => exact ⟨m, above, hnodes⟩
    | cons c inner => exact ⟨c, inner ++ m :: above, hnodes⟩
  rw [XmlStore.startTag, hcur] at hstep
  dsimp only at hstep
  by_cases hheader : tagName.bytes.head? = some (code '?') ∧ has flags flagsHandleHeaders
  · rw [if_pos hheader] at hstep
    obtain rfl := Option.some.inj hstep
    rw [← hcur]
    exact hcopy.setHeader true
  rw [if_neg hheader] at hstep
  by_cases hdoctype : strcaseEq tagName (str ['!', 'D', 'O', 'C', 'T', 'Y', 'P', 'E'])
  · rw [if_pos hdoctype] at hstep
    obtain rfl := Option.some.inj hstep
    rw [← hcur]
    exact hcopy.setHeader true
  rw [if_neg hdoctype] at hstep
  by_cases hslash : tagName.bytes.head? = some (code '/')
  · obtain ⟨hne, hparent⟩ := hstays hslash cur rest hcur
    rw [if_pos hslash] at hstep
    by_cases hnone : cur.name = none
    · simp [hnone] at hstep
    rw [if_neg hnone] at hstep
    by_cases hname : hasName (closedName tagName) cur.name = true
    · rw [if_pos hname] at hstep
      refine hcopy.closeCurrent (fun c r hc => ?_) hstep
      rw [hcur] at hc
      rw [← (List.cons.inj hc).1]
      exact hne
    rw [if_neg hname] at hstep
    by_cases htolerant : (!has flags flagsTolerantEndtags) = true
    · simp [htolerant] at hstep
    rw [if_neg htolerant] at hstep
    obtain ⟨⟨nodes, depth'⟩, hup, rfl⟩ := Option.map_eq_some_iff.mp hstep
    cases inner with
    | nil =>
        rw [hcur, List.nil_append] at hnodes
        rw [(List.cons.inj hnodes).1] at hne
        exact absurd hm hne
    | cons c inner =>
        rw [hcur, List.cons_append] at hnodes
        obtain ⟨rfl, rfl⟩ := List.cons.inj hnodes
        rw [List.forall_mem_cons] at hinner
        have htake : (inner ++ m :: above).takeWhile (·.id != n) = inner := by
          rw [List.takeWhile_append_of_pos fun f hf => by simpa using hinner.2 f hf]
          simp [hm]
        have hfound := hparent (by simpa using hname)
        rw [htake] at hfound
        obtain ⟨inner', m', hnodes', hm', hinner', hlen, hsum⟩ :=
          closeUp_spec hm hinner.2 hfound (by rw [hdepth]; rfl) hup
        exact ⟨hn, inner', m', hnodes', hm', hinner', hlen, by rw [hsum]; exact htotal⟩
  · rw [if_neg hslash] at hstep
    obtain rfl := Option.some.inj hstep
    exact hcopy.openTag tagName

/-- A call keeps the invariant. -/
theorem Holds.storeStep {call : Call} (h : Holds n start above st) (hstays : Stays n st call)
    (hstep : storeStep flags st call = some st') : Holds n start above st' := by
  cases call with
  | startTag tagName => exact h.startTag hstays hstep
  | endTag closing =>
      rw [XmlStore.storeStep] at hstep
      by_cases hheader : st.header = true
      · rw [if_pos hheader] at hstep
        obtain rfl := Option.some.inj hstep
        exact h.setHeader false
      rw [if_neg hheader] at hstep
      by_cases hnil : st.nodes = []
      · simp [hnil] at hstep
      rw [if_neg hnil] at hstep
      by_cases hclosing : closing = true
      · rw [if_pos hclosing] at hstep
        exact h.closeCurrent (hstays hclosing (by simpa using hheader)) hstep
      · rw [if_neg hclosing] at hstep
        obtain rfl := Option.some.inj hstep
        exact h
  | addAttr =>
      rw [XmlStore.storeStep] at hstep
      by_cases hnone : st.header = false ∧ st.nodes = []
      · simp [hnone] at hstep
      · rw [if_neg hnone] at hstep
        obtain rfl := Option.some.inj hstep
        exact h
  | addData data =>
      rw [XmlStore.storeStep] at hstep
      by_cases hnil : st.nodes = []
      · simp [hnil] at hstep
      rw [if_neg hnil] at hstep
      obtain ⟨node, -, rfl⟩ := Option.map_eq_some_iff.mp hstep
      cases node with
      | none => exact h
      | some text => exact h.addData text

end

theorem tracks_of_runs {flags : UInt32} {n : XmlFrame} {above : List XmlFrame} {st st' : XmlStore}
    (hstart : Starts n above st) (h : Runs flags n.id st st') : Tracks n above st' := by
  have hholds : Holds n.id n.ids above st' := by
    induction h with
    | refl =>
        refine ⟨hstart.fresh n.id ?_, [], n, hstart.nodes_eq, rfl, by simp, hstart.depth_eq, ?_⟩
        · rw [hstart.nodes_eq, total_cons]
          simp [XmlFrame.ids]
        · rw [List.nil_append, total_cons, hstart.created_eq]
          simp [total]
    | step _ hstays hstep ih => exact ih.storeStep hstays hstep
  obtain ⟨-, inner, m, hnodes, hm, -, hdepth, htotal⟩ := hholds
  exact ⟨inner, m, hnodes, hm, hdepth, htotal⟩

/-- A node without children. -/
def leaf (id : ℕ) (name : Option CString) : XmlFrame := ⟨id, name, .nil, .nil⟩

/-- A context at the first child of a root. -/
def atChild : XmlStore where
  nodes := [leaf 1 (some (str ['n'])), leaf 0 none]
  depth := 0
  header := false
  next := 2
  created := 0

theorem atChild_starts : Starts (leaf 1 (some (str ['n']))) [leaf 0 none] atChild where
  nodes_eq := rfl
  depth_eq := rfl
  created_eq := rfl
  fresh := by decide

/-- The context behind `<a><b>x<c/>`, below the node that was current before. -/
def inTwo : XmlStore :=
  { (((atChild.openTag (str ['a'])).openTag (str ['b'])).addData [code 'x']) with
    nodes := [⟨3, some (str ['b']), .data 4 [code 'x'] (.tag 5 (some (str ['c'])) .nil .nil), .nil⟩,
      leaf 2 (some (str ['a'])), leaf 1 (some (str ['n'])), leaf 0 none]
    next := 6
    created := {5, 4, 3, 2} }

/-- The context behind a tolerant `</a>`, which closes both elements. -/
def behindTwo : XmlStore :=
  { inTwo with
    nodes := [⟨1, some (str ['n']), .tag 2 (some (str ['a'])) (.tag 3 (some (str ['b']))
      (.data 4 [code 'x'] (.tag 5 (some (str ['c'])) .nil .nil)) .nil) .nil, .nil⟩, leaf 0 none]
    depth := 0 }

theorem tracks_of_runs_open : Tracks (leaf 1 (some (str ['n']))) [leaf 0 none] behindTwo := by
  have hdata : addDataNode flagsTolerantEndtags (str ['x']).bytes = some (some [code 'x']) := by
    rw [addDataNode, show (str ['x']).bytes = Text.escapeXml [code 'x'] by decide,
      Text.unescapeXml_escapeXml]
    decide
  have ha := @Runs.step flagsTolerantEndtags 1 _ _ _ (.startTag (str ['a'])) (.refl atChild)
    (fun hslash => absurd hslash (by decide)) rfl
  have hb := @Runs.step _ _ _ _ _ (.startTag (str ['b'])) ha
    (fun hslash => absurd hslash (by decide)) rfl
  have hx := @Runs.step _ _ _ _ (((atChild.openTag (str ['a'])).openTag (str ['b'])).addData
    [code 'x']) (.addData (str ['x'])) hb trivial (by rw [storeStep, hdata]; rfl)
  have hc := @Runs.step _ _ _ _ _ (.startTag (str ['c'])) hx
    (fun hslash => absurd hslash (by decide)) rfl
  have hend : Runs flagsTolerantEndtags 1 atChild inTwo := @Runs.step _ _ _ _ _ (.endTag true) hc
    (fun _ _ cur rest hcur => (List.cons.inj hcur).1 ▸ by decide) rfl
  refine @tracks_of_runs flagsTolerantEndtags _ _ _ _ atChild_starts
    (@Runs.step _ _ _ _ _ (.startTag (str ['/', 'a'])) hend (fun _ cur rest hcur => ?_) rfl)
  obtain ⟨rfl, rfl⟩ := List.cons.inj hcur
  exact ⟨by decide, fun _ => ⟨leaf 2 (some (str ['a'])), by simp [leaf], by decide⟩⟩

/-- A tag that ends at the first node makes its parent the current node; the depth stays 0. -/
theorem not_tracks_above : ¬∀ (flags : UInt32) (n : XmlFrame) (above : List XmlFrame)
    (st st' : XmlStore) (call : Call), Starts n above st → storeStep flags st call = some st' →
      Tracks n above st' := by
  intro h
  obtain ⟨inner, m, hnodes, -⟩ := h 0 _ _ atChild _ (.endTag true) atChild_starts rfl
  have hlen := congrArg List.length hnodes
  simp at hlen

end XmlStore
end Gwenhywfar
