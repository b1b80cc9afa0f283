import Gwenhywfar.Base.CString

/-! # Trusted data and its replacements

* `TrustedData`: an entry of the list that `msgengine.c` collects.  The data is a block of its own
  size, so a byte behind it is outside.
* `createReplacements`: `GWEN_MsgEngine_TrustedData_CreateReplacements`; without a result where a
  byte outside the data of an entry is read.
* `createReplacements_consistent_iff`: the replacements tell the data apart exactly when the
  comparison over the size of the head decides whether two entries of one size are equal. -/

namespace Gwenhywfar

/-- `GWEN_MSGENGINE_TRUSTEDDATA`, as far as the replacements depend on it. -/
structure TrustedData where
  data : List UInt8
  replacement : Option (List UInt8)
  deriving DecidableEq

namespace TrustedData

/-- The comparison of the first bytes of two blocks, if it stays inside of them. -/
def compareData : ℕ → List UInt8 → List UInt8 → Option Bool
  | 0, _, _ => some true
  | n + 1, c :: s, d :: t => if c ≠ d then some false else compareData n s t
  | _ + 1, _, _ => none

/-- The loop over the entries before `ntd`: the replacement of the first that is taken as equal.
The number of bytes that are compared is `td->size`. -/
def findMatch (size : ℕ) (data : List UInt8) :
    List TrustedData → Option (Option (Option (List UInt8)))
  | [] => some none
  | std :: rest =>
      if std.data.length = data.length then
        (compareData size std.data data).bind fun found =>
          if found then some (some std.replacement) else findMatch size data rest
      else findMatch size data rest

/-- `sprintf(numbuffer, "%02X", nr)`. -/
def numbuffer (nr : ℕ) : List UInt8 :=
  let digits := (Nat.digits 16 nr).reverse.map fun d => hexDigit (UInt8.ofNat d)
  List.replicate (2 - digits.length) (code '0') ++ digits

def newReplacement (count nextNr size : ℕ) : List UInt8 :=
  (List.range size).map fun i =>
    (numbuffer nextNr).getD (if count < 0x10 then 1 else 1 - i % 2) 0

/-- The loop over the entries; those before `ntd` have their replacement. -/
def createRounds (count size : ℕ) :
    ℕ → List TrustedData → List TrustedData → Option (List TrustedData)
  | _, before, [] => some before
  | nextNr, before, ntd :: rest =>
      (findMatch size ntd.data before).bind fun found =>
        if found.isSome then
          createRounds count size nextNr (before ++ [{ ntd with replacement := found.join }]) rest
        else
          let nr := if ntd.data.length = 1 ∧ 0x10 ≤ count then nextNr + 0x10 else nextNr
          createRounds count size (nr + 1)
            (before ++ [{ ntd with
              replacement := some (newReplacement count nr ntd.data.length) }]) rest

/-- `GWEN_MsgEngine_TrustedData_CreateReplacements` for a list with this head. -/
def createReplacements (td : TrustedData) (next : List TrustedData) : Option (List TrustedData) :=
  let count := (td :: next).length
  createRounds count td.data.length (if count < 0x10 then 0x01 else 0x11) [] (td :: next)

/-! ### Comparing -/

theorem compareData_eq (n : ℕ) {s t : List UInt8} (h : s.length = t.length) : compareData n s t =
      if s.take n = t.take n then if n ≤ s.length then some true else none else some false := by
  induction n generalizing s t with
  | zero => simp [compareData]
  | succ n ih =>
      cases s with
      | nil =>
          obtain rfl := List.length_eq_zero_iff.mp h.symm
          simp [compareData]
      | cons c s =>
          obtain ⟨d, t, rfl⟩ := List.exists_cons_of_length_eq_add_one h.symm
          rw [compareData, ih (by simpa using h)]
          by_cases hcd : c = d
          · simp [hcd]
          · simp [hcd]

/-- The first `size` bytes of two blocks of one size tell whether they are equal, and equal ones
have that many. -/
def Decided (size : ℕ) (s t : List UInt8) : Prop :=
  s.length = t.length → s.take size = t.take size → s = t ∧ size ≤ s.length

theorem compareData_of_decided {size : ℕ} {s t : List UInt8} (hlen : s.length = t.length)
    (h : Decided size s t) : compareData size s t = some (decide (s = t)) := by
  rw [compareData_eq size hlen]
  by_cases htake : s.take size = t.take size
  · obtain ⟨rfl, hle⟩ := h hlen htake
    simp [hle]
  · have hne : s ≠ t := fun heq => htake (heq ▸ rfl)
    simp [htake, hne]

variable {before : List TrustedData}

theorem findMatch_of_decided {size : ℕ} {data : List UInt8}
    (h : ∀ std ∈ before, Decided size std.data data) : findMatch size data before =
      some ((before.find? fun std => std.data = data).map TrustedData.replacement) := by
  induction before with
  | nil => rfl
  | cons std before ih =>
      rw [List.forall_mem_cons] at h
      rw [findMatch, ih h.2]
      by_cases hlen : std.data.length = data.length
      · rw [if_pos hlen, compareData_of_decided hlen h.1]
        by_cases heq : std.data = data
        · simp [heq]
        · simp [heq]
      · have hne : std.data ≠ data := fun heq => hlen (heq ▸ rfl)
        simp [hlen, hne]

/-- A search that comes to an end has compared only inside the blocks, and what it finds is of an
entry with the same first bytes. -/
theorem findMatch_sound {size : ℕ} {data : List UInt8}
    {found : Option (Option (List UInt8))} (h : findMatch size data before = some found)
    {std : TrustedData} (hmem : std ∈ before) (hlen : std.data.length = data.length)
    (htake : std.data.take size = data.take size) :
    size ≤ data.length ∧ ∃ e ∈ before, e.data.length = data.length ∧
      e.data.take size = data.take size ∧ found = some e.replacement := by
  induction before with
  | nil => simp at hmem
  | cons e before ih =>
      rw [findMatch] at h
      have hrest : findMatch size data before = some found → std ≠ e →
          size ≤ data.length ∧ ∃ e' ∈ e :: before, e'.data.length = data.length ∧
            e'.data.take size = data.take size ∧ found = some e'.replacement := by
        intro hfind hne
        obtain ⟨hle, e', he', hrest⟩ := ih hfind ((List.mem_cons.mp hmem).resolve_left hne)
        exact ⟨hle, e', List.mem_cons_of_mem _ he', hrest⟩
      by_cases helen : e.data.length = data.length
      · rw [if_pos helen, compareData_eq size helen] at h
        by_cases hetake : e.data.take size = data.take size
        · by_cases hle : size ≤ e.data.length
          · rw [if_pos hetake, if_pos hle] at h
            obtain rfl : some e.replacement = found := by simpa using h
            exact ⟨helen ▸ hle, e, List.mem_cons_self, helen, hetake, rfl⟩
          · simp [hetake, hle] at h
        · rw [if_neg hetake] at h
          refine hrest (by simpa using h) ?_
          rintro rfl
          exact hetake htake
      · rw [if_neg helen] at h
        refine hrest h ?_
        rintro rfl
        exact helen hlen

/-! ### Replacements of fewer than 16 entries -/

theorem numbuffer_injective : ∀ n m : Fin 16,
    (numbuffer n).getD 1 0 = (numbuffer m).getD 1 0 → n = m := by
  decide

theorem newReplacement_few {count : ℕ} (hcount : count < 0x10) (nr size : ℕ) :
    newReplacement count nr size = List.replicate size ((numbuffer nr).getD 1 0) := by
  simp [newReplacement, hcount, List.map_const']

theorem newReplacement_inj {count n m k l : ℕ} (hcount : count < 0x10) (hn : n < 0x10)
    (hm : m < 0x10) (hk : 0 < k)
    (h : newReplacement count n k = newReplacement count m l) : n = m := by
  rw [newReplacement_few hcount, newReplacement_few hcount] at h
  obtain ⟨k, rfl⟩ := Nat.exists_eq_add_one_of_ne_zero hk.ne'
  have hl : k + 1 = l := by simpa using congrArg List.length h
  subst hl
  rw [List.replicate_succ, List.replicate_succ] at h
  exact Fin.mk.inj_iff.mp (numbuffer_injective ⟨n, hn⟩ ⟨m, hm⟩ (List.cons.inj h).1)

/-- The replacements below this number are used, one for each data. -/
structure Assigned (count nextNr : ℕ) (before : List TrustedData) : Prop where
  made : ∀ e ∈ before, ∃ n < nextNr, e.replacement = some (newReplacement count n e.data.length)
  same : ∀ e ∈ before, ∀ f ∈ before, e.replacement = f.replacement ↔ e.data = f.data

theorem Assigned.of_found {count nextNr : ℕ}
    (h : Assigned count nextNr before) {e : TrustedData} (he : e ∈ before) {ntd : TrustedData}
    (heq : e.data = ntd.data) :
    Assigned count nextNr (before ++ [{ ntd with replacement := e.replacement }]) := by
  constructor
  · intro f hf
    rcases List.mem_append.mp hf with hf | hf
    · exact h.made f hf
    · obtain rfl := List.mem_singleton.mp hf
      obtain ⟨n, hn, hr⟩ := h.made e he
      exact ⟨n, hn, by rw [hr, heq]⟩
  · intro f hf g hg
    rcases List.mem_append.mp hf with hf | hf <;> rcases List.mem_append.mp hg with hg | hg
    · exact h.same f hf g hg
    · obtain rfl := List.mem_singleton.mp hg
      rw [h.same f hf e he, heq]
    · obtain rfl := List.mem_singleton.mp hf
      rw [h.same e he g hg, heq]
    · obtain rfl := List.mem_singleton.mp hf
      obtain rfl := List.mem_singleton.mp hg
      simp

theorem Assigned.of_new {count nextNr : ℕ} (hcount : count < 0x10) (hnr : nextNr < 0x10) (h : Assigned count nextNr before)
    (hdata : ∀ e ∈ before, e.data ≠ []) {ntd : TrustedData}
    (hne : ∀ e ∈ before, e.data ≠ ntd.data) : Assigned count (nextNr + 1) (before ++ [{ ntd with
      replacement := some (newReplacement count nextNr ntd.data.length) }]) := by
  have hfresh : ∀ e ∈ before,
      e.replacement ≠ some (newReplacement count nextNr ntd.data.length) := by
    intro e he heq
    obtain ⟨n, hn, hr⟩ := h.made e he
    rw [hr, Option.some.injEq] at heq
    have hpos : 0 < e.data.length := List.length_pos_iff.mpr (hdata e he)
    have := newReplacement_inj hcount (hn.trans hnr) hnr hpos heq
    omega
  constructor
  · intro f hf
    rcases List.mem_append.mp hf with hf | hf
    · obtain ⟨n, hn, hr⟩ := h.made f hf
      exact ⟨n, hn.trans (Nat.lt_succ_self _), hr⟩
    · obtain rfl := List.mem_singleton.mp hf
      exact ⟨nextNr, Nat.lt_succ_self _, rfl⟩
  · intro f hf g hg
    rcases List.mem_append.mp hf with hf | hf <;> rcases List.mem_append.mp hg with hg | hg
    · exact h.same f hf g hg
    · obtain rfl := List.mem_singleton.mp hg
      exact iff_of_false (hfresh f hf) (hne f hf)
    · obtain rfl := List.mem_singleton.mp hf
      exact iff_of_false (Ne.symm (hfresh g hg)) (Ne.symm (hne g hg))
    · obtain rfl := List.mem_singleton.mp hf
      obtain rfl := List.mem_singleton.mp hg
      simp

/-- The loop, where every comparison decides. -/
theorem createRounds_of_decided {count size : ℕ} (hcount : count < 0x10) {nextNr : ℕ}
    {before rest : List TrustedData} (h : Assigned count nextNr before)
    (hnr : nextNr + rest.length ≤ 0x10) (hdata : ∀ e ∈ before ++ rest, e.data ≠ [])
    (hdecided : ∀ e ∈ before, ∀ ntd ∈ rest, Decided size e.data ntd.data)
    (hrest : rest.Pairwise fun e ntd => Decided size e.data ntd.data) :
    ∃ after nr, createRounds count size nextNr before rest = some after ∧ Assigned count nr after ∧
      after.map TrustedData.data = (before ++ rest).map TrustedData.data := by
  induction rest generalizing nextNr before with
  | nil => exact ⟨before, nextNr, rfl, h, by rw [List.append_nil]⟩
  | cons ntd rest ih =>
      rw [List.length_cons] at hnr
      rw [List.pairwise_cons] at hrest
      have hfind := findMatch_of_decided fun e he => hdecided e he ntd List.mem_cons_self
      have hdata' : ∀ r, ∀ e ∈ (before ++ [{ ntd with replacement := r }]) ++ rest,
          e.data ≠ [] := by
        simpa [or_imp, forall_and] using hdata
      have hdecided' : ∀ r, ∀ e ∈ before ++ [{ ntd with replacement := r }],
          ∀ e' ∈ rest, Decided size e.data e'.data := by
        intro r e he e' he'
        rcases List.mem_append.mp he with he | he
        · exact hdecided e he e' (List.mem_cons_of_mem _ he')
        · rw [List.mem_singleton.mp he]
          exact hrest.1 e' he'
      have hmap : ∀ r, ((before ++ [{ ntd with replacement := r }]) ++ rest).map
          TrustedData.data = (before ++ ntd :: rest).map TrustedData.data := by
        simp
      rw [createRounds, hfind, Option.bind_some]
      cases hf : before.find? fun std => std.data = ntd.data with
      | some e =>
          have heq : e.data = ntd.data := by simpa using List.find?_some hf
          have hstep := h.of_found (List.mem_of_find?_eq_some hf) heq
          obtain ⟨after, nr, hrun, hassigned, hafter⟩ :=
            ih hstep (by omega) (hdata' _) (hdecided' _) hrest.2
          exact ⟨after, nr, by simpa using hrun, hassigned, hafter.trans (hmap _)⟩
      | none =>
          have hne : ∀ e ∈ before, e.data ≠ ntd.data := by
            simpa [List.find?_eq_none] using hf
          have hstep := h.of_new hcount (by omega)
            (fun e he => hdata e (List.mem_append_left _ he)) hne
          obtain ⟨after, nr, hrun, hassigned, hafter⟩ :=
            ih hstep (by omega) (hdata' _) (hdecided' _) hrest.2
          refine ⟨after, nr, ?_, hassigned, hafter.trans (hmap _)⟩
          simpa [show ¬ 0x10 ≤ count by omega] using hrun

/-! ### What a run has compared -/

/-- Entries that are taken as equal have the same replacement, and were compared inside. -/
def Compared (size : ℕ) (e f : TrustedData) : Prop :=
  e.data.length = f.data.length → e.data.take size = f.data.take size →
    size ≤ f.data.length ∧ e.replacement = f.replacement

theorem compared_replacement {size : ℕ}
    (h : before.Pairwise (Compared size)) : ∀ e ∈ before, ∀ f ∈ before,
      e.data.length = f.data.length → e.data.take size = f.data.take size →
        e.replacement = f.replacement := by
  apply List.Pairwise.forall_of_forall_of_flip
  · intro e _ _ _
    rfl
  · exact h.imp fun hef hlen htake => (hef hlen htake).2
  · exact h.imp fun hef hlen htake => ((hef hlen.symm htake.symm).2).symm

theorem createRounds_compared {count size nextNr : ℕ} {before rest after : List TrustedData}
    (hrun : createRounds count size nextNr before rest = some after)
    (h : before.Pairwise (Compared size)) : after.Pairwise (Compared size) ∧
      after.map TrustedData.data = (before ++ rest).map TrustedData.data := by
  induction rest generalizing nextNr before with
  | nil =>
      obtain rfl : before = after := by simpa [createRounds] using hrun
      exact ⟨h, by rw [List.append_nil]⟩
  | cons ntd rest ih =>
      rw [createRounds, Option.bind_eq_some_iff] at hrun
      obtain ⟨found, hfind, hrun⟩ := hrun
      have hmap : ∀ r, ((before ++ [{ ntd with replacement := r }]) ++ rest).map
          TrustedData.data = (before ++ ntd :: rest).map TrustedData.data := by
        simp
      have hadd : ∀ r, (found = none ∨ found = some r) →
          (before ++ [{ ntd with replacement := r }]).Pairwise (Compared size) := by
        intro r hr
        rw [List.pairwise_append]
        refine ⟨h, List.pairwise_singleton _ _, ?_⟩
        intro e he f hf hlen htake
        obtain rfl := List.mem_singleton.mp hf
        obtain ⟨hle, e', he', hlen', htake', hfound⟩ := findMatch_sound hfind he hlen htake
        obtain rfl : e'.replacement = r := by
          rcases hr with hr | hr
          · simp [hr] at hfound
          · exact Option.some.inj (hfound.symm.trans hr)
        refine ⟨hle, ?_⟩
        exact compared_replacement h e he e' he' (hlen.trans hlen'.symm)
          (htake.trans htake'.symm)
      cases found with
      | some r =>
          obtain ⟨hcompared, hafter⟩ := ih (by simpa using hrun) (hadd r (Or.inr rfl))
          exact ⟨hcompared, hafter.trans (hmap _)⟩
      | none =>
          obtain ⟨hcompared, hafter⟩ := ih (by simpa using hrun) (hadd _ (Or.inl rfl))
          exact ⟨hcompared, hafter.trans (hmap _)⟩

/-! ### The replacements -/

/-- Every entry of a list with this head has a replacement of its size, equal ones for equal data
only, and no byte outside of the data is read. -/
def Consistent (td : TrustedData) (next : List TrustedData) : Prop :=
  ∃ after, createReplacements td next = some after ∧
    after.map TrustedData.data = (td :: next).map TrustedData.data ∧
    (∀ e ∈ after, ∃ r, e.replacement = some r ∧ r.length = e.data.length) ∧
    ∀ e ∈ after, ∀ f ∈ after, e.replacement = f.replacement ↔ e.data = f.data

theorem createReplacements_consistent_iff (td : TrustedData) (next : List TrustedData)
    (hcount : (td :: next).length < 0x10) (hdata : ∀ e ∈ td :: next, e.data ≠ []) :
    Consistent td next ↔ (td :: next).Pairwise fun e f => Decided td.data.length e.data f.data := by
  have hstart : createReplacements td next =
      createRounds (td :: next).length td.data.length 0x01 [] (td :: next) := by
    rw [createReplacements, if_pos hcount]
  rw [Consistent, hstart]
  constructor
  · rintro ⟨after, hrun, hmap, -, hsame⟩
    have hcompared := (createRounds_compared hrun List.Pairwise.nil).1
    have hdecided : after.Pairwise fun e f => Decided td.data.length e.data f.data := by
      refine hcompared.imp_of_mem ?_
      intro e f he hf hef hlen htake
      obtain ⟨hle, hr⟩ := hef hlen htake
      exact ⟨(hsame e he f hf).mp hr, hlen ▸ hle⟩
    rw [← List.pairwise_map (f := TrustedData.data) (R := Decided td.data.length)] at hdecided ⊢
    rwa [← hmap]
  · intro hdecided
    have hnone : Assigned (td :: next).length 0x01 [] := ⟨by simp, by simp⟩
    obtain ⟨after, nr, hrun, hassigned, hmap⟩ :=
      createRounds_of_decided hcount hnone (by omega) hdata (by simp) hdecided
    refine ⟨after, hrun, hmap, ?_, hassigned.same⟩
    intro e he
    obtain ⟨n, -, hr⟩ := hassigned.made e he
    exact ⟨_, hr, by rw [newReplacement, List.length_map, List.length_range]⟩

/-- An entry without a replacement. -/
def ofText (s : List Char) : TrustedData := ⟨s.map code, none⟩

/-- Entries of one size, of which two have the same data. -/
theorem createReplacements_consistent_head :
    Consistent (ofText ['a', 'b']) [ofText ['a', 'c'], ofText ['a', 'b'], ofText ['d']] :=
  (createReplacements_consistent_iff _ _ (by decide) (by decide)).mpr (by
    unfold Decided
    decide)

/-- Behind a head of one byte, two entries that begin alike are taken as equal. -/
theorem createReplacements_short_head :
    ¬ Consistent (ofText ['x']) [ofText ['a', 'b'], ofText ['a', 'c']] := by
  rintro ⟨after, hrun, -, -, hsame⟩
  have hafter : createReplacements (ofText ['x']) [ofText ['a', 'b'], ofText ['a', 'c']] =
      some [⟨['x'].map code, some (['1'].map code)⟩,
        ⟨['a', 'b'].map code, some (['2', '2'].map code)⟩,
        ⟨['a', 'c'].map code, some (['2', '2'].map code)⟩] := by
    decide
  obtain rfl := Option.some.inj (hafter.symm.trans hrun)
  exact absurd ((hsame _ (.tail _ (.head _)) _ (.tail _ (.tail _ (.head _)))).mp rfl) (by decide)

end TrustedData
end Gwenhywfar
