import Gwenhywfar.Lib.Run
import Gwenhywfar.Parser.Url
import Mathlib.Logic.Equiv.Basic

/-! # Changing and copying URLs

* `setProtocol` and the like: the functions that set the parts of a URL.
* `dup`: `GWEN_Url_dup`, which copies the text of a URL but not whether it is modified.
* `showsState_iff`: what is printed is the current state in every run exactly when no URL is copied
  while its text is outdated. -/

namespace Gwenhywfar.Url

open Text Db

/-! ### Setting and copying -/

/-- `GWEN_DB_Group_dup`: the copied nodes have addresses of their own, the group the address 0. -/
def groupDup (h : DbHeap) (n : ℕ) : DbHeap where
  node a :=
    let nd := h.node (Equiv.swap 0 n a)
    { nd with
      children := nd.children.map (Equiv.swap 0 n)
      parent := if a = 0 then none else nd.parent.map (Equiv.swap 0 n) }
  size := h.size

/-- `GWEN_Url_SetProtocol`. -/
def setProtocol (url : Url) (d : List UInt8) : Url :=
  { url with protocol := setString d, modified := true }

/-- `GWEN_Url_SetServer`. -/
def setServer (url : Url) (d : List UInt8) : Url :=
  { url with server := setString d, modified := true }

/-- `GWEN_Url_SetPort`. -/
def setPort (url : Url) (d : Int32) : Url := { url with port := d, modified := true }

/-- `GWEN_Url_SetPath`. -/
def setPath (url : Url) (d : List UInt8) : Url :=
  { url with path := setString d, modified := true }

/-- `GWEN_Url_SetVars`; a URL without a group is one with an empty group here. -/
def setVars (url : Url) (d : Option (DbHeap × ℕ)) : Url :=
  { url with
    vars := d.elim new.vars fun d => groupDup d.1 d.2
    modified := true }

/-- `GWEN_Url_dup`. -/
def dup (d : Url) : Url :=
  { new with
    protocol := d.protocol
    server := d.server
    port := d.port
    path := d.path
    userName := d.userName
    password := d.password
    vars := groupDup d.vars 0
    url := d.url }

/-- The calls; after a copy it is the copy that is used. -/
inductive Op where
  | setProtocol (d : List UInt8)
  | setServer (d : List UInt8)
  | setPort (d : Int32)
  | setPath (d : List UInt8)
  | setVars (d : Option (DbHeap × ℕ))
  | dup

/-- A call. -/
def step (url : Url) : Op → Option Url
  | .setProtocol d => some (url.setProtocol d)
  | .setServer d => some (url.setServer d)
  | .setPort d => some (url.setPort d)
  | .setPath d => some (url.setPath d)
  | .setVars d => some (url.setVars d)
  | .dup => some url.dup

/-- All calls but the copy set a part. -/
def Op.IsSetter : Op → Prop
  | .dup => False
  | _ => True

/-! ### What is printed -/

def fresh (url : Url) : Url :=
  { new with
    protocol := url.protocol
    server := url.server
    port := url.port
    path := url.path
    vars := url.vars }

/-- In every state of a run in which a part has been set, the text is that of a new URL with the
same parts, and a copy has the text of the original. -/
def ShowsState (start : Url) (ops : List Op) : Prop :=
  (∀ pre, pre <+: ops → ∀ url, exec step start pre = some url →
      (∃ o ∈ pre, o.IsSetter) → url.toString = url.fresh.toString) ∧
    ∀ pre, pre ++ [.dup] <+: ops → ∀ url, exec step start pre = some url →
      url.dup.toString = url.toString

def CopiesText (url : Url) : Op → Prop
  | .dup => url.modified = true → ∀ s ∈ url.url, s ≠ [] → s = url.fresh.toString
  | _ => True

section
variable {url : Url}

theorem varsOf_groupDup (h : DbHeap) (n : ℕ) : varsOf (groupDup h n) 0 = varsOf h n := by
  unfold varsOf groupDup values valueOf
  simp [List.filter_map, Function.comp_def, List.filterMap_map]

theorem toString_modified (h : url.modified = true) : url.toString = url.fresh.toString := by
  unfold toString
  rw [h]
  rfl

theorem toString_stored {s : List UInt8} (h : url.modified = false) (hurl : url.url = some s)
    (hs : s ≠ []) : url.toString = s := by
  obtain ⟨c, s, rfl⟩ := List.exists_cons_of_ne_nil hs
  unfold toString
  rw [h, hurl]

theorem toString_unread (h : ∀ s ∈ url.url, s = []) : url.toString = url.fresh.toString := by
  unfold toString
  cases hurl : url.url with
  | none => cases url.modified <;> rfl
  | some s =>
      obtain rfl := h s hurl
      cases url.modified <;> rfl

theorem toString_fresh_dup (url : Url) : url.dup.fresh.toString = url.fresh.toString := by
  unfold toString
  simp only [fresh, dup, new, varsOf_groupDup]
  rfl

theorem toString_dup_iff : url.dup.toString = url.toString ↔ CopiesText url .dup := by
  constructor
  · intro h hmod s hurl hs
    rw [toString_modified hmod, @toString_stored url.dup s rfl hurl hs] at h
    exact h
  · intro h
    by_cases hread : ∀ s ∈ url.url, s = []
    · rw [toString_unread hread, @toString_unread url.dup hread, toString_fresh_dup]
    · push Not at hread
      obtain ⟨s, hurl, hs⟩ := hread
      rw [@toString_stored url.dup s rfl hurl hs]
      cases hmod : url.modified with
      | false => rw [toString_stored hmod hurl hs]
      | true => rw [toString_modified hmod, h hmod s hurl hs]

theorem modified_of_setter {o : Op} {url' : Url} (ho : o.IsSetter)
    (h : step url o = some url') : url'.modified = true := by
  cases o with
  | dup => exact ho.elim
  | setProtocol | setServer | setPort | setPath | setVars =>
      cases h
      rfl

/-- Once a part has been set, copies keep the text current. -/
theorem toString_eq_fresh {start : Url} {ops : List Op} (h : Along step CopiesText start ops) :
    ∀ pre, pre <+: ops → ∀ url, exec step start pre = some url →
      (∃ o ∈ pre, o.IsSetter) → url.toString = url.fresh.toString := by
  intro pre
  induction pre using List.reverseRecOn with
  | nil =>
      rintro - url - ⟨o, ho, -⟩
      cases ho
  | append_singleton pre o ih =>
      intro hpre url hexec hset
      obtain ⟨u, hu, hstep⟩ := exec_snoc_eq_some.mp hexec
      by_cases ho : o.IsSetter
      · exact toString_modified (modified_of_setter ho hstep)
      · cases o with
        | setProtocol | setServer | setPort | setPath | setVars => exact absurd trivial ho
        | dup =>
            cases hstep
            obtain ⟨p, hp, hsetter⟩ := hset
            rw [List.mem_append, List.mem_singleton] at hp
            have hp' : p ∈ pre := hp.resolve_right (by rintro rfl; exact ho hsetter)
            have hcurrent := ih ((List.prefix_append pre [.dup]).trans hpre) u hu ⟨p, hp', hsetter⟩
            rw [toString_dup_iff.mpr (h.of_exec pre .dup hpre u hu), hcurrent, toString_fresh_dup]

end

/-- The current state is printed exactly when no URL is copied while its text is outdated. -/
theorem showsState_iff (start : Url) (ops : List Op) :
    ShowsState start ops ↔ Along step CopiesText start ops := by
  constructor
  · rintro ⟨-, hdup⟩
    refine along_iff.mpr fun pre o hpre url hexec => ?_
    cases o with
    | setProtocol | setServer | setPort | setPath | setVars => trivial
    | dup => exact toString_dup_iff.mp (hdup pre hpre url hexec)
  · intro h
    refine ⟨toString_eq_fresh h, fun pre hpre url hexec => ?_⟩
    exact toString_dup_iff.mpr (h.of_exec pre .dup hpre url hexec)

/-- A URL that was read gets another server, and its copy has the old one. -/
theorem not_showsState_dup : ¬∀ str start ops, fromString str = some start →
    ShowsState start ops := by
  intro h
  have hread : (fromString (ascii ['h', '/'])).isSome = true := by decide
  obtain ⟨start, hstart⟩ := Option.isSome_iff_exists.mp hread
  have hshows := (h _ start [.setServer (ascii ['g']), .dup] hstart).2
    [.setServer (ascii ['g'])] (List.prefix_refl _) _ rfl
  have htexts : (fromString (ascii ['h', '/'])).map (fun url =>
      decide ((url.setServer (ascii ['g'])).dup.toString =
        (url.setServer (ascii ['g'])).toString)) = some false := by decide
  rw [hstart, Option.map_some, Option.some.injEq, decide_eq_false_iff_not] at htexts
  exact htexts hshows
end Gwenhywfar.Url
