import Gwenhywfar.Base.SimplePtrListLedger

/-! # The reference balance of `GWEN_SIMPLEPTRLIST`

A list with the flags ATTACHTOOBJECTS and DETACHFROMOBJECTS and all lists derived from it by lazy
copying, with attach and free functions that count their calls (`Calls`).

`RefBalanced` says that at every moment of a sequence of calls each object has been attached to
as often as it has been detached from, plus once for each slot of a living block that holds it.
`refBalanced_iff` says when this is so: as long as no list that is marked copy-on-write is
written to after it has become the only list on its block. -/

namespace Gwenhywfar.SimplePtrList

open PtrHeap Function

variable {ι : Type} [DecidableEq ι]

/-- How often each object has been attached to and detached from. -/
structure Calls (ι : Type) where
  attached : ι → ℕ
  detached : ι → ℕ

def countAttach (p : ι) (w : Calls ι) : Option (Calls ι) :=
  some { w with attached := update w.attached p (w.attached p + 1) }

def countDetach (p : ι) (w : Calls ι) : Option (Calls ι) :=
  some { w with detached := update w.detached p (w.detached p + 1) }

/-- The counting functions as a ledger: the references are the attach calls that no detach call
has answered. -/
def callLedger : Ledger (Calls ι) ι where
  attach := countAttach
  free := countDetach
  refs := fun w o => w.attached o - w.detached o
  Ok := fun w => ∀ o, w.detached o ≤ w.attached o
  Can := fun _ _ => True
  Same := fun _ _ => True
  same_refl := fun _ => trivial
  same_trans := fun _ _ => trivial
  can_of_refs := fun _ => trivial
  attach_spec := by
    intro w p hok _
    refine ⟨_, rfl, fun o => ?_, trivial, fun _ _ => trivial, fun o => ?_⟩
    · have := hok o
      by_cases ho : o = p
      · subst ho; simp only [update_self]; omega
      · simp only [update_of_ne ho]; exact this
    · have := hok o
      by_cases ho : o = p
      · subst ho; simp only [update_self, if_true]; omega
      · simp [update_of_ne ho, Ne.symm ho]
  free_spec := by
    intro w p hok hpos
    refine ⟨_, rfl, fun o => ?_, trivial, fun o => ?_⟩
    · have := hok o
      by_cases ho : o = p
      · subst ho; simp only [update_self]; omega
      · simp only [update_of_ne ho]; exact this
    · by_cases ho : o = p
      · subst ho; simp only [update_self, if_true]; omega
      · simp [update_of_ne ho, Ne.symm ho]

/-- A new list with both flags and both functions set. -/
def start (startEntries steps : ℕ) : Option (PtrHeap (Calls ι) ι) := do
  let (l, h) ← new (fun _ => true) ⟨[], [], ⟨fun _ => 0, fun _ => 0⟩⟩ startEntries steps
  let h ← setAttachObjectFn h l countAttach
  let h ← setFreeObjectFn h l countDetach
  let h ← addFlags h l flagsAttachToObjects
  addFlags h l flagsDetachFromObjects

/-- The calls for the list at an address. -/
inductive Call (ι : Type) where
  | addPtr (l : ℕ) (p : Option ι)
  | setPtrAt (l idx : ℕ) (p : Option ι)
  | lazyCopy (l : ℕ)
  | clear (l : ℕ)
  | free (l : ℕ)

def Call.list : Call ι → ℕ
  | .addPtr l _ | .setPtrAt l _ _ | .lazyCopy l | .clear l | .free l => l

def Call.exec (fits : ℕ → Bool) (h : PtrHeap (Calls ι) ι) : Call ι → Option (PtrHeap (Calls ι) ι)
  | .addPtr l p => (SimplePtrList.addPtr fits h l p).map Prod.snd
  | .setPtrAt l idx p => (SimplePtrList.setPtrAt fits h l idx p).map Prod.snd
  | .lazyCopy l => (SimplePtrList.lazyCopy h l).map Prod.snd
  | .clear l => SimplePtrList.clear h l
  | .free l => SimplePtrList.free h l

/-- The heap after a sequence of calls, each with what the allocator can serve during it. -/
def run (startEntries steps : ℕ) (calls : List ((ℕ → Bool) × Call ι)) :
    Option (PtrHeap (Calls ι) ι) :=
  (start startEntries steps).bind fun h =>
    Gwenhywfar.exec (fun h (c : (ℕ → Bool) × Call ι) => c.2.exec c.1 h) h calls

def LiveCalls (startEntries steps : ℕ) (calls : List ((ℕ → Bool) × Call ι)) : Prop :=
  ∀ pre c, pre ++ [c] <+: calls → ∀ h, run startEntries steps pre = some h →
    h.list c.2.list ≠ none

def Balance (h : PtrHeap (Calls ι) ι) : Prop :=
  ∀ o, (h.objects.attached o : ℤ) - h.objects.detached o = h.slots o

/-- At every moment the calls have succeeded and are balanced, and once all lists are freed every
object has been detached from as often as attached to. -/
def RefBalanced (startEntries steps : ℕ) (calls : List ((ℕ → Bool) × Call ι)) : Prop :=
  ∀ pre, pre <+: calls → ∃ h, run startEntries steps pre = some h ∧ Balance h ∧
    ((∀ l, h.list l = none) → ∀ o, h.objects.attached o = h.objects.detached o)

/-- The list is marked copy-on-write, is the only one on its block, the block holds an object,
and the allocator serves a copy of it. -/
def DropsBlock (fits : ℕ → Bool) (h : PtrHeap (Calls ι) ι) (l : ℕ) : Prop :=
  ∃ pl b, h.list l = some pl ∧ h.block pl.entryList = some b ∧
    pl.hasFlag flagsCopyOnWrite = true ∧ copyFits fits pl b = true ∧ b.refCounter = 1 ∧
    ∃ o, some o ∈ b.entries

def Call.Leaks (fits : ℕ → Bool) (h : PtrHeap (Calls ι) ι) : Call ι → Prop
  | .addPtr l _ => DropsBlock fits h l
  | .setPtrAt l idx _ => DropsBlock fits h l ∧ ∃ pl, h.list l = some pl ∧ idx < pl.usedEntries
  | _ => False

/-! ### One call -/

theorem balance_iff {h : PtrHeap (Calls ι) ι} (hi : callLedger.Inv h) :
    Balance h ↔ ∀ o, callLedger.refs h.objects o = h.slots o := by
  refine forall_congr' fun o => ?_
  have := hi.ok o
  change _ ↔ h.objects.attached o - h.objects.detached o = h.slots o
  omega

theorem balance_of_kept {h h' : PtrHeap (Calls ι) ι} {k : ι → ℕ} (hi : callLedger.Inv h)
    (hb : Balance h) (hk : callLedger.Kept h h' k) : Balance h' ↔ ∀ o, k o = 0 := by
  rw [balance_iff hi] at hb
  rw [balance_iff hk.inv]
  refine forall_congr' fun o => ?_
  have h1 := hk.drift o
  have h2 := hb o
  omega

theorem leak_eq_zero_iff {fits : ℕ → Bool} {h : PtrHeap (Calls ι) ι} {l : ℕ}
    {pl : SimplePtrList (Calls ι) ι} {b : PtrBlock ι} (hl : h.list l = some pl)
    (hb : h.block pl.entryList = some b) :
    (∀ o, Ledger.leak fits pl b o = 0) ↔ ¬ DropsBlock fits h l := by
  constructor
  · rintro hz ⟨pl', b', hl', hb', hcow, hf, h1, o, ho⟩
    rw [hl, Option.some.injEq] at hl'
    subst hl'
    rw [hb, Option.some.injEq] at hb'
    subst hb'
    have hz' := hz o
    rw [Ledger.leak, if_pos ⟨hcow, hf, h1⟩] at hz'
    exact List.count_eq_zero.mp hz' ho
  · intro hno o
    rw [Ledger.leak]
    split
    · rename_i hc
      exact List.count_eq_zero.mpr fun ho => hno ⟨pl, b, hl, hb, hc.1, hc.2.1, hc.2.2, o, ho⟩
    · rfl

/-- A call for a living list succeeds; it keeps the balance exactly when it does not leak. -/
theorem exec_spec {h : PtrHeap (Calls ι) ι} (hi : callLedger.Inv h) (fits : ℕ → Bool)
    (c : Call ι) (hl : h.list c.list ≠ none) :
    ∃ h' k, c.exec fits h = some h' ∧ callLedger.Kept h h' k ∧
      ((∀ o, k o = 0) ↔ ¬ c.Leaks fits h) := by
  obtain ⟨pl, hl⟩ := Option.ne_none_iff_exists'.mp hl
  obtain ⟨b, hb, ho⟩ := hi.wf.owned _ pl hl
  cases c with
  | addPtr l p =>
      obtain ⟨rv, h', he, hcase⟩ :=
        Ledger.addPtr_effect fits hi hl hb ho p fun _ _ => trivial
      refine ⟨h', Ledger.leak fits pl b, congrArg (Option.map Prod.snd) he, ?_,
        leak_eq_zero_iff hl hb⟩
      rcases hcase with ⟨-, heff⟩ | ⟨-, heff, -⟩
      · exact heff.toKept
      · exact heff.toKept
  | setPtrAt l idx p =>
      by_cases hidx : idx < pl.usedEntries
      · obtain ⟨rv, h', he, hcase⟩ :=
          Ledger.setPtrAt_effect fits hi hl hb ho hidx p fun _ _ => trivial
        refine ⟨h', Ledger.leak fits pl b, congrArg (Option.map Prod.snd) he, ?_, ?_⟩
        · rcases hcase with ⟨-, heff⟩ | ⟨-, heff, -⟩
          · exact heff.toKept
          · exact heff.toKept
        · rw [leak_eq_zero_iff hl hb]
          exact not_congr (and_iff_left ⟨pl, hl, hidx⟩).symm
      · refine ⟨h, fun _ => 0, ?_, (Ledger.Effect.refl hi (l := l)).toKept, ?_⟩
        · exact congrArg (Option.map Prod.snd) (setPtrAt_of_le hl (Nat.not_lt.mp hidx))
        · refine iff_of_true (fun _ => rfl) ?_
          rintro ⟨-, pl', hl', hlt⟩
          have he := hl.symm.trans hl'
          rw [Option.some.injEq] at he
          exact hidx (he ▸ hlt)
  | lazyCopy l =>
      obtain ⟨h', he, hk, -⟩ := Ledger.lazyCopy_spec hi hl hb
      exact ⟨h', _, congrArg (Option.map Prod.snd) he, hk,
        iff_of_true (fun _ => rfl) fun h => h⟩
  | clear l =>
      obtain ⟨h', he, hk, -⟩ := Ledger.clear_spec hi hl hb ho
      exact ⟨h', _, he, hk, iff_of_true (fun _ => rfl) fun h => h⟩
  | free l =>
      obtain ⟨h', he, heff⟩ := Ledger.free_effect hi hl hb ho
      exact ⟨h', _, he, heff.toKept, iff_of_true (fun _ => rfl) fun h => h⟩

/-! ### Runs -/

theorem start_spec (startEntries steps : ℕ) :
    ∃ h : PtrHeap (Calls ι) ι, start startEntries steps = some h ∧ callLedger.Inv h ∧
      Balance h := by
  have hi0 := Ledger.inv_empty (L := callLedger (ι := ι)) (w := ⟨fun _ => 0, fun _ => 0⟩)
    fun _ => le_rfl
  have hf : (0 ||| flagsAttachToObjects ||| flagsDetachFromObjects) &&& flagsAttachToObjects != 0 := by
    decide
  have hf' : (0 ||| flagsAttachToObjects ||| flagsDetachFromObjects) &&&
      flagsDetachFromObjects != 0 := by decide
  have hc : (callLedger (ι := ι)).Counting ⟨startEntries, 0, steps,
      0 ||| flagsAttachToObjects ||| flagsDetachFromObjects, 1, 0, 0, 0, some countAttach,
      some countDetach⟩ := ⟨rfl, hf, hf', rfl, rfl⟩
  have heff := Ledger.added_effect hi0 (n := startEntries) hc rfl rfl rfl
  refine ⟨_, ?_, heff.inv, (balance_of_kept hi0 (fun _ => rfl) heff.toKept).mpr fun _ => rfl⟩
  simp only [start, new_eq, Option.bind_eq_bind, Option.bind_some]
  rfl

theorem run_snoc (startEntries steps : ℕ) (pre : List ((ℕ → Bool) × Call ι))
    (c : (ℕ → Bool) × Call ι) : run startEntries steps (pre ++ [c]) =
      (run startEntries steps pre).bind fun h => c.2.exec c.1 h := by
  rw [run, run, Option.bind_assoc]
  congr 1
  funext h
  exact exec_snoc _ _ _ _

theorem run_inv {startEntries steps : ℕ} {calls : List ((ℕ → Bool) × Call ι)}
    (hv : LiveCalls startEntries steps calls) : ∀ pre, pre <+: calls →
    ∃ h, run startEntries steps pre = some h ∧ callLedger.Inv h := by
  intro pre
  induction pre using List.reverseRecOn with
  | nil =>
      intro _
      obtain ⟨h, hs, hi, -⟩ := start_spec (ι := ι) startEntries steps
      exact ⟨h, by rw [run, hs]; rfl, hi⟩
  | append_singleton pre c ih =>
      intro hpre
      obtain ⟨h, hr, hi⟩ := ih ((List.prefix_append pre [c]).trans hpre)
      obtain ⟨h', k, he, hk, -⟩ := exec_spec hi c.1 c.2 (hv pre c hpre h hr)
      exact ⟨h', by rw [run_snoc, hr]; exact he, hk.inv⟩

theorem balanced_of_freed {h : PtrHeap (Calls ι) ι} (hi : callLedger.Inv h) (hb : Balance h)
    (hf : ∀ l, h.list l = none) (o : ι) : h.objects.attached o = h.objects.detached o := by
  have := hb o
  rw [slots_of_freed hi.wf hf] at this
  omega

/-- A sequence of calls is balanced at every moment exactly when no call writes to a list that
is marked copy-on-write and alone on a block that holds an object. -/
theorem refBalanced_iff {startEntries steps : ℕ} {calls : List ((ℕ → Bool) × Call ι)}
    (hv : LiveCalls startEntries steps calls) : RefBalanced startEntries steps calls ↔
      ∀ pre c, pre ++ [c] <+: calls → ∀ h, run startEntries steps pre = some h →
        ¬ c.2.Leaks c.1 h := by
  let P : List ((ℕ → Bool) × Call ι) → Prop := fun pre =>
    ∃ h, run startEntries steps pre = some h ∧ callLedger.Inv h ∧ Balance h
  have hP : RefBalanced startEntries steps calls ↔
      (∀ pre, pre <+: calls → P pre) ∧ ∀ pre c, pre ++ [c] <+: calls → True := by
    refine ⟨fun hr => ⟨fun pre hpre => ?_, fun _ _ _ => trivial⟩, fun hp pre hpre => ?_⟩
    · obtain ⟨h, hh, hb, -⟩ := hr pre hpre
      obtain ⟨h', hh', hi⟩ := run_inv hv pre hpre
      rw [hh, Option.some.injEq] at hh'
      exact ⟨h, hh, hh' ▸ hi, hb⟩
    · obtain ⟨h, hh, hi, hb⟩ := hp.1 pre hpre
      exact ⟨h, hh, hb, balanced_of_freed hi hb⟩
  rw [hP]
  refine forall_prefix_iff (R := fun _ _ => True) ?_ ?_
  · obtain ⟨h, hs, hi, hb⟩ := start_spec (ι := ι) startEntries steps
    exact ⟨h, by rw [run, hs]; rfl, hi, hb⟩
  · rintro pre c hpre ⟨h, hr, hi, hb⟩
    obtain ⟨h', k, he, hk, hleak⟩ := exec_spec hi c.1 c.2 (hv pre c hpre h hr)
    have hr' : run startEntries steps (pre ++ [c]) = some h' := by
      rw [run_snoc, hr]
      exact he
    constructor
    · rintro ⟨⟨h'', hr'', -, hb''⟩, -⟩ g hg
      rw [hr', Option.some.injEq] at hr''
      rw [hr, Option.some.injEq] at hg
      subst hr'' hg
      exact hleak.mp ((balance_of_kept hi hb hk).mp hb'')
    · intro hno
      exact ⟨⟨h', hr', hk.inv, (balance_of_kept hi hb hk).mpr (hleak.mpr (hno h hr))⟩, trivial⟩

/-- A list is copied lazily, the copy is written to, and the list is freed. -/
theorem refBalanced_add_free : RefBalanced 4 4
    [(fun _ => true, .addPtr 0 (some 'a')), (fun _ => true, .lazyCopy 0),
      (fun _ => true, .addPtr 1 (some 'b')), (fun _ => true, .free 0)] := by
  refine (refBalanced_iff fun pre c hpre h hr => ?_).mpr fun pre c hpre h hr => ?_
  · obtain ⟨t, ht⟩ := hpre
    rcases pre with _ | ⟨c1, _ | ⟨c2, _ | ⟨c3, _ | ⟨c4, pre⟩⟩⟩⟩
    all_goals
      simp only [List.nil_append, List.cons_append, List.cons.injEq] at ht
    · obtain ⟨rfl, -⟩ := ht
      cases hr
      exact Option.ne_none_iff_exists'.mpr ⟨_, rfl⟩
    · obtain ⟨rfl, rfl, -⟩ := ht
      cases hr
      exact Option.ne_none_iff_exists'.mpr ⟨_, rfl⟩
    · obtain ⟨rfl, rfl, rfl, -⟩ := ht
      cases hr
      exact Option.ne_none_iff_exists'.mpr ⟨_, rfl⟩
    · obtain ⟨rfl, rfl, rfl, rfl, -⟩ := ht
      cases hr
      exact Option.ne_none_iff_exists'.mpr ⟨_, rfl⟩
    · simp at ht
  · obtain ⟨t, ht⟩ := hpre
    rcases pre with _ | ⟨c1, _ | ⟨c2, _ | ⟨c3, _ | ⟨c4, pre⟩⟩⟩⟩
    all_goals
      simp only [List.nil_append, List.cons_append, List.cons.injEq] at ht
    · obtain ⟨rfl, -⟩ := ht
      cases hr
      rintro ⟨pl, b, hl, -, hcow, -⟩
      cases hl
      exact absurd hcow (by decide)
    · obtain ⟨rfl, rfl, -⟩ := ht
      exact fun hleak => hleak
    · obtain ⟨rfl, rfl, rfl, -⟩ := ht
      cases hr
      rintro ⟨pl, b, hl, hb, -, -, href, -⟩
      cases hl
      cases hb
      exact absurd href (by decide)
    · obtain ⟨rfl, rfl, rfl, rfl, -⟩ := ht
      exact fun hleak => hleak
    · simp at ht

/-- A list is copied lazily, the copy is freed, and then a pointer is added to the list: its block
is dropped for a copy, and the object in it has been attached to twice for one slot. -/
theorem refBalanced_fails : ¬ RefBalanced 4 4
    [(fun _ => true, .addPtr 0 (some 'a')), (fun _ => true, .lazyCopy 0), (fun _ => true, .free 1),
      (fun _ => true, .addPtr 0 (some 'b'))] := by
  intro h
  obtain ⟨h, hr, hb, -⟩ := h _ (List.prefix_refl _)
  have hrun : (run 4 4 [(fun _ => true, .addPtr 0 (some 'a')), (fun _ => true, .lazyCopy 0),
      (fun _ => true, .free 1), (fun _ => true, .addPtr 0 (some 'b'))]).map
      (fun h => (h.objects.attached 'a', h.objects.detached 'a', h.slots 'a')) =
      some (2, 0, 1) := by decide
  rw [hr, Option.map_some, Option.some.injEq, Prod.mk.injEq, Prod.mk.injEq] at hrun
  have := hb 'a'
  omega
end Gwenhywfar.SimplePtrList
