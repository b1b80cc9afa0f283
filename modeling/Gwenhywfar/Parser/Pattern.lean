import Gwenhywfar.Sio.HttpText

/-! # Patterns

* `Glob`: what the characters `*` and `?` of a pattern stand for.
* `compareCase`: `GWEN_Text_ComparePattern` in both modes.  The segments between the stars are
  looked up from left to right, each at the first place where it matches.
* The first place is good enough, since a star stands for any text.  But a segment is looked up
  only where there is a rest of the word, and so is the empty one between two stars: the word
  must not be used up when two stars end the pattern (`comparesGlob_iff`). -/

namespace Gwenhywfar

set_option maxRecDepth 4000

namespace Http

open Text

/-- The characters are compared as they are if `sensecase` is set. -/
def caseFold (sensecase : Bool) : UInt8 → UInt8 := if sensecase then id else toUpper

/-- `GWEN_Text_ComparePattern(w, p, sensecase)` does not return -1. -/
def compareCase (sensecase : Bool) (w p : List UInt8) : Bool :=
  match cmpSegment (caseFold sensecase) w p with
  | none => false
  | some (w, p) => compareSegments (caseFold sensecase) p.length w p

/-- A text matches a pattern. -/
inductive Glob (fold : UInt8 → UInt8) : List UInt8 → List UInt8 → Prop
  | nil : Glob fold [] []
  | star {p v : List UInt8} (u : List UInt8) : Glob fold p v → Glob fold (code '*' :: p) (u ++ v)
  | one {a b : UInt8} {p v : List UInt8} : b ≠ code '*' → fold a = fold b ∨ b = code '?' →
      Glob fold p v → Glob fold (b :: p) (a :: v)

/-- A text matches a pattern, and no shorter beginning of it does. -/
def Shortest (fold : UInt8 → UInt8) (p w : List UInt8) : Prop :=
  Glob fold p w ∧ ∀ u v, w = u ++ v → v ≠ [] → ¬Glob fold p u

/-- Two stars end the pattern, and before the last one the word is used up: a shorter beginning of
the word would not do. -/
def UsedUp (fold : UInt8 → UInt8) (p w : List UInt8) : Prop :=
  ∃ q, p = q ++ [code '*', code '*'] ∧ Shortest fold (q ++ [code '*']) w

/-- The part of a pattern before its first star. -/
def segment (p : List UInt8) : List UInt8 := p.takeWhile (· != code '*')

/-- The rest, which begins with that star. -/
def behindSegment (p : List UInt8) : List UInt8 := p.dropWhile (· != code '*')

variable {fold : UInt8 → UInt8} {a b : UInt8} {p q s w w' u v r seg : List UInt8}

/-! ### Matching -/

theorem Glob.star_append (h : Glob fold (code '*' :: p) v) (u : List UInt8) :
    Glob fold (code '*' :: p) (u ++ v) := by
  cases h with
  | @star _ v1 u1 hv =>
      rw [← List.append_assoc]
      exact .star (u ++ u1) hv
  | one hb => exact absurd rfl hb

theorem glob_nil : Glob fold [] w ↔ w = [] := by
  constructor
  · intro h
    cases h
    rfl
  · rintro rfl
    exact .nil

theorem glob_star : Glob fold (code '*' :: p) w ↔ ∃ u v, w = u ++ v ∧ Glob fold p v := by
  constructor
  · intro h
    cases h with
    | star u hv => exact ⟨u, _, rfl, hv⟩
    | one hb => exact absurd rfl hb
  · rintro ⟨u, v, rfl, hv⟩
    exact .star u hv

theorem glob_one (hb : b ≠ code '*') : Glob fold (b :: p) w ↔
    ∃ a v, w = a :: v ∧ (fold a = fold b ∨ b = code '?') ∧ Glob fold p v := by
  constructor
  · intro h
    cases h with
    | star => exact absurd rfl hb
    | one _ hab hv => exact ⟨_, _, rfl, hab, hv⟩
  · rintro ⟨a, v, rfl, hab, hv⟩
    exact .one hb hab hv

theorem Glob.length_eq (hseg : code '*' ∉ seg) (h : Glob fold seg s) : s.length = seg.length := by
  induction h with
  | nil => rfl
  | star => exact absurd List.mem_cons_self hseg
  | one _ _ _ ih =>
      rw [List.mem_cons, not_or] at hseg
      rw [List.length_cons, List.length_cons, ih hseg.2]

theorem glob_append (hseg : code '*' ∉ seg) :
    Glob fold (seg ++ p) w ↔ ∃ s v, w = s ++ v ∧ Glob fold seg s ∧ Glob fold p v := by
  induction seg generalizing w with
  | nil =>
      rw [List.nil_append]
      constructor
      · exact fun h => ⟨[], w, rfl, .nil, h⟩
      · rintro ⟨s, v, rfl, hs, hv⟩
        rw [glob_nil.mp hs]
        exact hv
  | cons b seg ih =>
      rw [List.mem_cons, not_or] at hseg
      rw [List.cons_append, glob_one (Ne.symm hseg.1)]
      constructor
      · rintro ⟨a, v, rfl, hab, hv⟩
        obtain ⟨s, v', rfl, hs, hv'⟩ := (ih hseg.2).mp hv
        exact ⟨a :: s, v', rfl, .one (Ne.symm hseg.1) hab hs, hv'⟩
      · rintro ⟨s, v, rfl, hs, hv⟩
        obtain ⟨a, s', rfl, hab, hs'⟩ := (glob_one (Ne.symm hseg.1)).mp hs
        exact ⟨a, s' ++ v, rfl, hab, (ih hseg.2).mpr ⟨s', v, rfl, hs', hv⟩⟩

/-! ### Segments -/

theorem segment_append (p : List UInt8) : segment p ++ behindSegment p = p :=
  List.takeWhile_append_dropWhile

theorem star_notMem_segment (p : List UInt8) : code '*' ∉ segment p := by
  intro h
  simpa using List.mem_takeWhile_imp h

theorem behindSegment_eq (p : List UInt8) :
    behindSegment p = [] ∨ ∃ q, behindSegment p = code '*' :: q := by
  cases h : behindSegment p with
  | nil => exact Or.inl rfl
  | cons b q =>
      have hhead := List.head?_dropWhile_not (· != code '*') p
      rw [← behindSegment, h] at hhead
      have hb : b = code '*' := by simpa using hhead
      exact Or.inr ⟨q, by rw [hb]⟩

theorem segment_cons (hb : b ≠ code '*') : segment (b :: p) = b :: segment p :=
  List.takeWhile_cons_of_pos (by simpa using hb)

theorem behindSegment_cons (hb : b ≠ code '*') : behindSegment (b :: p) = behindSegment p :=
  List.dropWhile_cons_of_pos (by simpa using hb)

theorem segment_star : segment (code '*' :: p) = [] := List.takeWhile_cons_of_neg (by simp)

theorem behindSegment_star : behindSegment (code '*' :: p) = code '*' :: p :=
  List.dropWhile_cons_of_neg (by simp)

/-- `_cmpSegment` finds the segment at the beginning of a word, and a segment that ends the pattern
at the end of it. -/
theorem cmpSegment_eq_some (hfold : ∀ b, fold b = code '?' ↔ b = code '?') :
    ∀ {w p : List UInt8}, cmpSegment fold w p = some (w', q) ↔
      ∃ s, w = s ++ w' ∧ Glob fold (segment p) s ∧ q = behindSegment p ∧ (q = [] → w' = [])
  | [], [] => by
      rw [cmpSegment, Option.some.injEq, Prod.mk.injEq]
      constructor
      · rintro ⟨rfl, rfl⟩
        exact ⟨[], rfl, .nil, rfl, fun _ => rfl⟩
      · rintro ⟨s, hw, -, rfl, -⟩
        exact ⟨(List.append_eq_nil_iff.mp hw.symm).2.symm, rfl⟩
  | [], b :: p => by
      rw [cmpSegment]
      by_cases hb : b = code '*'
      · rw [if_pos hb, hb, segment_star, behindSegment_star, Option.some.injEq, Prod.mk.injEq]
        constructor
        · rintro ⟨rfl, rfl⟩
          exact ⟨[], rfl, .nil, rfl, fun _ => rfl⟩
        · rintro ⟨s, hw, -, rfl, -⟩
          exact ⟨(List.append_eq_nil_iff.mp hw.symm).2.symm, rfl⟩
      · rw [if_neg hb, segment_cons hb]
        refine ⟨fun h => absurd h (Option.some_ne_none _).symm, ?_⟩
        rintro ⟨s, hw, hs, -⟩
        obtain ⟨a, v, rfl, -⟩ := (glob_one hb).mp hs
        cases hw
  | a :: w, [] => by
      refine ⟨fun h => absurd h (Option.some_ne_none _).symm, ?_⟩
      rintro ⟨s, hw, hs, rfl, hrest⟩
      rw [glob_nil.mp hs, hrest rfl] at hw
      cases hw
  | a :: w, b :: p => by
      rw [cmpSegment]
      by_cases hb : b = code '*'
      · rw [if_pos hb, hb, segment_star, behindSegment_star, Option.some.injEq, Prod.mk.injEq]
        constructor
        · rintro ⟨rfl, rfl⟩
          exact ⟨[], rfl, .nil, rfl, fun h => absurd h (List.cons_ne_nil _ _)⟩
        · rintro ⟨s, hw, hs, rfl, -⟩
          rw [glob_nil.mp hs] at hw
          exact ⟨hw, rfl⟩
      · have hmatch : (fold a = fold b ∨ fold b = code '?') ↔ (fold a = fold b ∨ b = code '?') := by
          rw [hfold]
        rw [if_neg hb, segment_cons hb, behindSegment_cons hb]
        by_cases hab : fold a = fold b ∨ b = code '?'
        · rw [if_pos (hmatch.mpr hab), cmpSegment_eq_some hfold]
          constructor
          · rintro ⟨s, rfl, hs, hq⟩
            exact ⟨a :: s, rfl, .one hb hab hs, hq⟩
          · rintro ⟨s, hw, hs, hq⟩
            obtain ⟨a', v, rfl, -, hv⟩ := (glob_one hb).mp hs
            exact ⟨v, (List.cons.inj hw).2, hv, hq⟩
        · rw [if_neg fun h => hab (hmatch.mp h)]
          refine ⟨fun h => absurd h (Option.some_ne_none _).symm, ?_⟩
          rintro ⟨s, hw, hs, -⟩
          obtain ⟨a', v, rfl, hab', -⟩ := (glob_one hb).mp hs
          rw [← (List.cons.inj hw).1] at hab'
          exact absurd hab' hab

theorem cmpSegment_found (hfold : ∀ b, fold b = code '?' ↔ b = code '?')
    (hs : Glob fold (segment p) s) (hend : behindSegment p = [] → v = []) :
    cmpSegment fold (s ++ v) p = some (v, behindSegment p) :=
  (cmpSegment_eq_some hfold).mpr ⟨s, rfl, hs, rfl, hend⟩

/-- `_findSegment` finds the first place where there is a rest of the word. -/
theorem findSegment_eq_some {p : List UInt8} : ∀ {w : List UInt8} {r : List UInt8 × List UInt8},
    findSegment fold p w = some r →
      ∃ u v, w = u ++ v ∧ v ≠ [] ∧ cmpSegment fold v p = some r ∧
        ∀ u' v', w = u' ++ v' → v' ≠ [] → cmpSegment fold v' p ≠ none → u.length ≤ u'.length
  | [], _, h => by cases h
  | a :: w, r, h => by
      rw [findSegment] at h
      cases hcmp : cmpSegment fold (a :: w) p with
      | some r' =>
          rw [hcmp] at h
          exact ⟨[], a :: w, rfl, List.cons_ne_nil a w, by rw [hcmp, ← h],
            fun _ _ _ _ _ => Nat.zero_le _⟩
      | none =>
          rw [hcmp] at h
          obtain ⟨u, v, rfl, hv, hr, hfirst⟩ := findSegment_eq_some h
          refine ⟨a :: u, v, rfl, hv, hr, fun u' v' hw hv' hne => ?_⟩
          cases u' with
          | nil =>
              rw [List.nil_append] at hw
              rw [← hw] at hne
              exact absurd hcmp hne
          | cons c u' =>
              have := hfirst u' v' (List.cons.inj hw).2 hv' hne
              rw [List.length_cons, List.length_cons]
              omega

theorem findSegment_eq_none {p : List UInt8} : ∀ {w : List UInt8}, findSegment fold p w = none →
    ∀ u v, w = u ++ v → v ≠ [] → cmpSegment fold v p = none
  | [], _, u, v, hw, hv => absurd (List.append_eq_nil_iff.mp hw.symm).2 hv
  | a :: w, h, u, v, hw, hv => by
      rw [findSegment] at h
      cases hcmp : cmpSegment fold (a :: w) p with
      | some r =>
          rw [hcmp] at h
          cases h
      | none =>
          rw [hcmp] at h
          cases u with
          | nil =>
              rw [List.nil_append] at hw
              rw [← hw, hcmp]
          | cons c u => exact findSegment_eq_none h u v (List.cons.inj hw).2 hv

/-! ### The first place is good enough -/

theorem exists_rest {P : List UInt8 → Prop} : (∃ z, u ++ w = u ++ z ∧ P z) ↔ P w := by
  constructor
  · rintro ⟨z, hz, h⟩
    rwa [List.append_cancel_left hz]
  · exact fun h => ⟨w, rfl, h⟩

/-- Where the first segment is found, everything up to behind it may be given to the star before
it: a beginning of the word matches iff its rest does. -/
theorem glob_star_append (hseg : code '*' ∉ seg) (hs : Glob fold seg s)
    (hfirst : ∀ u' s' v', u ++ s ++ w = u' ++ s' ++ v' → Glob fold seg s' → s' ++ v' ≠ [] →
      u.length ≤ u'.length) {x y : List UInt8} (hw : u ++ s ++ w = x ++ y) :
    Glob fold (code '*' :: seg ++ code '*' :: p) x ↔
      ∃ z, x = u ++ s ++ z ∧ Glob fold (code '*' :: p) z := by
  rw [List.cons_append, glob_star]
  constructor
  · rintro ⟨u', t, rfl, ht⟩
    obtain ⟨s', v', rfl, hs', hv'⟩ := (glob_append hseg).mp ht
    have hlength : u.length ≤ u'.length := by
      by_cases hne : s' ++ (v' ++ y) = []
      · have hlen := congrArg List.length hw
        rw [List.append_eq_nil_iff, List.append_eq_nil_iff] at hne
        rw [hne.1, hne.2.1, hne.2.2] at hlen
        simp only [List.length_append, List.length_nil] at hlen
        omega
      · exact hfirst u' s' (v' ++ y) (by simpa only [List.append_assoc] using hw) hs' hne
    have hlens := (hs'.length_eq hseg).trans (hs.length_eq hseg).symm
    obtain ⟨z, hz⟩ : u ++ s <+: u' ++ (s' ++ v') := by
      refine List.prefix_of_prefix_length_le (List.prefix_append (u ++ s) w) ⟨y, hw.symm⟩ ?_
      simp only [List.length_append]
      omega
    refine ⟨z, hz.symm, ?_⟩
    have hsuffix : v' <:+ u ++ s ++ z := by
      rw [hz, ← List.append_assoc]
      exact List.suffix_append _ _
    obtain ⟨z', hz'⟩ : v' <:+ z := by
      refine List.suffix_of_suffix_length_le hsuffix (List.suffix_append (u ++ s) z) ?_
      have hlen := congrArg List.length hz
      simp only [List.length_append] at hlen
      omega
    rw [← hz']
    exact hv'.star_append z'
  · rintro ⟨z, rfl, hz⟩
    exact ⟨u, s ++ z, List.append_assoc _ _ _, (glob_append hseg).mpr ⟨s, z, rfl, hs, hz⟩⟩

/-- Beginnings of a word that match are beginnings of its rest that match, behind a part that is
the same for all of them. -/
theorem shortest_append {head : List UInt8} (h : ∀ {x y : List UInt8}, head ++ w = x ++ y →
      (Glob fold q x ↔ ∃ z, x = head ++ z ∧ Glob fold r z)) :
    Shortest fold q (head ++ w) ↔ Shortest fold r w := by
  have hall := h (List.append_nil (head ++ w)).symm
  constructor
  · rintro ⟨hglob, hshort⟩
    obtain ⟨z, hz, hr⟩ := hall.mp hglob
    rw [← List.append_cancel_left hz] at hr
    refine ⟨hr, fun u v hw hv hu => ?_⟩
    have hw' : head ++ w = head ++ u ++ v := by rw [hw, List.append_assoc]
    exact hshort _ v hw' hv ((h hw').mpr ⟨u, rfl, hu⟩)
  · rintro ⟨hglob, hshort⟩
    refine ⟨hall.mpr ⟨w, rfl, hglob⟩, fun u v hw hv hu => ?_⟩
    obtain ⟨z, rfl, hz⟩ := (h hw).mp hu
    rw [List.append_assoc] at hw
    exact hshort z v (List.append_cancel_left hw) hv hz

theorem exists_stars : ∀ {seg q : List UInt8}, code '*' ∉ seg →
    seg ++ code '*' :: p = q ++ [code '*', code '*'] →
      ∃ r, q = seg ++ r ∧ code '*' :: p = r ++ [code '*', code '*']
  | [], q, _, h => ⟨q, rfl, h⟩
  | b :: seg, [], hseg, h => by
      rw [List.cons_append, List.nil_append] at h
      exact absurd (List.cons.inj h).1.symm fun hb => hseg (hb ▸ List.mem_cons_self)
  | b :: seg, c :: q, hseg, h => by
      rw [List.mem_cons, not_or] at hseg
      rw [List.cons_append, List.cons_append] at h
      obtain ⟨r, rfl, hr⟩ := exists_stars hseg.2 (List.cons.inj h).2
      exact ⟨r, by rw [(List.cons.inj h).1]; rfl, hr⟩

/-- One of the two stars is behind a part of the pattern that the word is compared with first. -/
theorem usedUp_append {head seg : List UInt8}
    (hstars : ∀ {q}, seg ++ code '*' :: p = q ++ [code '*', code '*'] →
      ∃ r, q = seg ++ r ∧ code '*' :: p = r ++ [code '*', code '*'])
    (h : ∀ {r x y : List UInt8}, head ++ w = x ++ y → (Glob fold (seg ++ code '*' :: r) x ↔
      ∃ z, x = head ++ z ∧ Glob fold (code '*' :: r) z)) :
    UsedUp fold (seg ++ code '*' :: p) (head ++ w) ↔ UsedUp fold (code '*' :: p) w := by
  have hhead : ∀ {r : List UInt8}, code '*' :: p = r ++ [code '*', code '*'] →
      ∃ r', r ++ [code '*'] = code '*' :: r' := by
    intro r hr
    cases r with
    | nil => exact ⟨[], rfl⟩
    | cons b r => exact ⟨r ++ [code '*'], by rw [(List.cons.inj hr).1]; rfl⟩
  constructor
  · rintro ⟨q, hq, hshort⟩
    obtain ⟨r, rfl, hr⟩ := hstars hq
    obtain ⟨r', hr'⟩ := hhead hr
    rw [List.append_assoc, hr', shortest_append h] at hshort
    exact ⟨r, hr, hr' ▸ hshort⟩
  · rintro ⟨r, hr, hshort⟩
    obtain ⟨r', hr'⟩ := hhead hr
    rw [hr', ← shortest_append h, ← hr', ← List.append_assoc] at hshort
    exact ⟨seg ++ r, by rw [hr, List.append_assoc], hshort⟩

theorem not_usedUp (hseg : code '*' ∉ seg) (hne : seg ≠ []) {p : List UInt8} :
    ¬UsedUp fold (p ++ seg) w := by
  rintro ⟨q, hq, -⟩
  have hlast := congrArg List.getLast? hq
  rw [List.getLast?_append, List.getLast?_append, List.getLast?_eq_some_getLast hne] at hlast
  refine hseg ?_
  have hmem := List.getLast_mem hne
  have hstar : seg.getLast hne = code '*' := by simpa using hlast
  rwa [hstar] at hmem

theorem UsedUp.glob (h : UsedUp fold p w) : Glob fold p w := by
  obtain ⟨q, rfl, hglob, -⟩ := h
  have hstar : ∀ {q w : List UInt8}, Glob fold q w → Glob fold (q ++ [code '*']) w := by
    intro q w hq
    induction hq with
    | nil => exact .star [] .nil
    | star u _ ih => exact .star u ih
    | one hb hab _ ih => exact .one hb hab ih
  have htwo := hstar hglob
  rwa [List.append_assoc] at htwo

theorem not_usedUp_single : ¬UsedUp fold [code '*'] w := by
  rintro ⟨q, hq, -⟩
  have hlength := congrArg List.length hq
  rw [List.length_append, List.length_cons, List.length_cons] at hlength
  simp only [List.length_cons, List.length_nil] at hlength
  omega

theorem not_usedUp_two (hw : w ≠ []) : ¬UsedUp fold [code '*', code '*'] w := by
  rintro ⟨q, hq, -, hshort⟩
  have hq' : q = [] := by
    have hlength := congrArg List.length hq
    rw [List.length_append] at hlength
    exact List.length_eq_zero_iff.mp (by omega)
  rw [hq'] at hshort
  exact hshort [] w rfl hw (.star [] .nil)

theorem usedUp_star (hseg : code '*' ∉ seg) (hs : Glob fold seg s)
    (hfirst : ∀ u' s' v', u ++ s ++ w = u' ++ s' ++ v' → Glob fold seg s' → s' ++ v' ≠ [] →
      u.length ≤ u'.length) (hne : u ++ s ++ w ≠ []) :
    UsedUp fold (code '*' :: seg ++ code '*' :: p) (u ++ s ++ w) ↔
      UsedUp fold (code '*' :: p) w := by
  by_cases hempty : seg = [] ∧ p = []
  · rw [hempty.1, hempty.2]
    exact ⟨fun h => absurd h (not_usedUp_two hne), fun h => absurd h not_usedUp_single⟩
  · refine usedUp_append (fun {q} hq => ?_) fun hw => glob_star_append hseg hs hfirst hw
    cases q with
    | nil =>
        have hrest : seg ++ code '*' :: p = [code '*'] := (List.cons.inj hq).2
        have hlength := congrArg List.length hrest
        simp only [List.length_append, List.length_cons, List.length_nil] at hlength
        exact absurd ⟨List.length_eq_zero_iff.mp (by omega),
          List.length_eq_zero_iff.mp (by omega)⟩ hempty
    | cons b q =>
        rw [List.cons_append, List.cons_append] at hq
        obtain ⟨r, rfl, hr⟩ := exists_stars hseg (List.cons.inj hq).2
        exact ⟨r, by rw [(List.cons.inj hq).1]; rfl, hr⟩

/-! ### The rounds -/

theorem glob_empty : Glob fold p [] ↔ p = List.replicate p.length (code '*') := by
  induction p with
  | nil => exact ⟨fun _ => rfl, fun _ => .nil⟩
  | cons b p ih =>
      rw [List.length_cons, List.replicate_succ, List.cons.injEq, ← ih]
      constructor
      · intro h
        by_cases hb : b = code '*'
        · rw [hb] at h
          obtain ⟨u, v, hw, hv⟩ := glob_star.mp h
          rw [(List.append_eq_nil_iff.mp hw.symm).2] at hv
          exact ⟨hb, hv⟩
        · obtain ⟨a, v, hw, -⟩ := (glob_one hb).mp h
          cases hw
      · rintro ⟨rfl, hp⟩
        exact .star [] hp

theorem usedUp_stars (n : ℕ) : UsedUp fold (List.replicate (n + 2) (code '*')) [] := by
  refine ⟨List.replicate n (code '*'), List.replicate_add n 2 _, ?_, fun u v hw hv _ => ?_⟩
  · rw [glob_empty, ← List.replicate_succ', List.length_replicate]
  · exact hv (List.append_eq_nil_iff.mp hw.symm).2

/-- Where a segment is not found, a word matches only if it is used up and stars are left. -/
theorem usedUp_of_not_found (hfold : ∀ b, fold b = code '?' ↔ b = code '?')
    (hnone : ∀ u v, w = u ++ v → v ≠ [] → cmpSegment fold v (b :: p) = none)
    (hglob : Glob fold (code '*' :: b :: p) w) : UsedUp fold (code '*' :: b :: p) w := by
  obtain ⟨u, v, rfl, hv⟩ := glob_star.mp hglob
  have hvnil : v = [] := by
    by_contra hne
    have hcmp := hnone u v rfl hne
    rw [← segment_append (b :: p)] at hv
    obtain ⟨s, v', rfl, hs, hv'⟩ := (glob_append (star_notMem_segment _)).mp hv
    have hsome := cmpSegment_found hfold hs fun hq => glob_nil.mp (hq ▸ hv')
    rw [hcmp] at hsome
    cases hsome
  subst hvnil
  have hstars := glob_empty.mp hv
  have hunil : u = [] := by
    by_contra hne
    have hcmp := hnone [] u (List.append_nil u) hne
    rw [hstars, List.length_cons, List.replicate_succ] at hcmp
    obtain ⟨a, u, rfl⟩ := List.exists_cons_of_ne_nil hne
    rw [cmpSegment, if_pos rfl] at hcmp
    cases hcmp
  subst hunil
  rw [hstars]
  exact usedUp_stars p.length

/-- One round: the segment is at its first place, and the star before it takes the rest. -/
theorem compareSegments_found (hfold : ∀ b, fold b = code '?' ↔ b = code '?') {k : ℕ}
    (ih : ∀ {q}, q.length ≤ k → (compareSegments fold k w (code '*' :: q) = true ↔
      Glob fold (code '*' :: q) w ∧ ¬UsedUp fold (code '*' :: q) w))
    (hk : (b :: p).length ≤ k + 1) (hs : Glob fold (segment (b :: p)) s) (hne : s ++ w ≠ [])
    (hend : behindSegment (b :: p) = [] → w = [])
    (hfirst : ∀ u' v', u ++ (s ++ w) = u' ++ v' → v' ≠ [] → cmpSegment fold v' (b :: p) ≠ none →
      u.length ≤ u'.length) : compareSegments fold k w (behindSegment (b :: p)) = true ↔
      Glob fold (code '*' :: b :: p) (u ++ (s ++ w)) ∧
        ¬UsedUp fold (code '*' :: b :: p) (u ++ (s ++ w)) := by
  have hseg := star_notMem_segment (b :: p)
  have hp := segment_append (b :: p)
  rcases behindSegment_eq (b :: p) with hq | ⟨q, hq⟩
  · rw [hq, List.append_nil] at hp
    rw [hp] at hs hseg
    have hglob : Glob fold (code '*' :: b :: p) (u ++ (s ++ w)) := by
      rw [hend hq, List.append_nil]
      exact .star u hs
    have hused : ¬UsedUp fold ([code '*'] ++ b :: p) (u ++ (s ++ w)) :=
      not_usedUp hseg (List.cons_ne_nil b p)
    rw [hq]
    exact ⟨fun _ => ⟨hglob, hused⟩, fun _ => by rw [compareSegments]⟩
  · rw [hq] at hp
    have hlength := congrArg List.length hp
    rw [List.length_append, List.length_cons] at hlength
    have hfirst' : ∀ u' s' v', u ++ s ++ w = u' ++ s' ++ v' →
        Glob fold (segment (b :: p)) s' → s' ++ v' ≠ [] → u.length ≤ u'.length := by
      intro u' s' v' hw hs' hv'
      rw [List.append_assoc, List.append_assoc] at hw
      refine hfirst u' (s' ++ v') hw hv' ?_
      rw [cmpSegment_found hfold hs' fun hnil => absurd (hq.symm.trans hnil) (List.cons_ne_nil _ _)]
      exact Option.some_ne_none _
    have hparts := glob_star_append (p := q) hseg hs hfirst' (List.append_nil (u ++ s ++ w)).symm
    have hglob := hparts.trans exists_rest
    have hused := usedUp_star (p := q) hseg hs hfirst' (by
      rw [List.append_assoc]
      exact fun hnil => hne (List.append_eq_nil_iff.mp hnil).2)
    rw [List.cons_append, hp, List.append_assoc] at hglob hused
    rw [hq, ih (by omega), hglob, hused]

/-- A round for each star. -/
theorem compareSegments_iff (hfold : ∀ b, fold b = code '?' ↔ b = code '?') (k : ℕ) :
    ∀ {w p : List UInt8}, p.length ≤ k → (compareSegments fold k w (code '*' :: p) = true ↔
      Glob fold (code '*' :: p) w ∧ ¬UsedUp fold (code '*' :: p) w) := by
  induction k with
  | zero =>
      intro w p hk
      rw [List.length_eq_zero_iff.mp (Nat.le_zero.mp hk)]
      have hglob : Glob fold [code '*'] w := glob_star.mpr ⟨w, [], (List.append_nil w).symm, .nil⟩
      exact ⟨fun _ => ⟨hglob, not_usedUp_single⟩, fun _ => rfl⟩
  | succ k ih =>
      intro w p hk
      cases p with
      | nil =>
          have hglob : Glob fold [code '*'] w :=
            glob_star.mpr ⟨w, [], (List.append_nil w).symm, .nil⟩
          exact ⟨fun _ => ⟨hglob, not_usedUp_single⟩, fun _ => rfl⟩
      | cons b p =>
          rw [compareSegments]
          cases hfind : findSegment fold (b :: p) w with
          | none =>
              refine ⟨fun h => absurd h Bool.false_ne_true, fun h => absurd ?_ h.2⟩
              exact usedUp_of_not_found hfold (findSegment_eq_none hfind) h.1
          | some r =>
              obtain ⟨w', p'⟩ := r
              obtain ⟨u, v, rfl, hv, hcmp, hfirst⟩ := findSegment_eq_some hfind
              obtain ⟨s, rfl, hs, rfl, hend⟩ := (cmpSegment_eq_some hfold).mp hcmp
              exact compareSegments_found hfold (fun hq => ih hq) hk hs hv hend hfirst

theorem glob_segment_append (hseg : code '*' ∉ seg) (hs : Glob fold seg s) {x y : List UInt8}
    (hw : s ++ w = x ++ y) :
    Glob fold (seg ++ code '*' :: p) x ↔ ∃ z, x = s ++ z ∧ Glob fold (code '*' :: p) z := by
  rw [glob_append hseg]
  constructor
  · rintro ⟨s', z, rfl, hs', hz⟩
    rw [List.append_assoc] at hw
    have hlength := (hs.length_eq hseg).trans (hs'.length_eq hseg).symm
    exact ⟨z, by rw [(List.append_inj hw hlength).1], hz⟩
  · rintro ⟨z, rfl, hz⟩
    exact ⟨s, z, rfl, hs, hz⟩

theorem compareCase_eq (sensecase : Bool) (w p : List UInt8) : compareCase sensecase w p = true ↔
    Glob (caseFold sensecase) p w ∧ ¬UsedUp (caseFold sensecase) p w := by
  have hfold : ∀ b, caseFold sensecase b = code '?' ↔ b = code '?' := by
    cases sensecase
    · have hall : ∀ b, toUpper b = code '?' ↔ b = code '?' := by decide
      exact hall
    · exact fun b => Iff.rfl
  have hseg := star_notMem_segment p
  rw [compareCase]
  cases hcmp : cmpSegment (caseFold sensecase) w p with
  | none =>
      refine ⟨fun h => absurd h Bool.false_ne_true, fun h => ?_⟩
      have hglob := h.1
      rw [← segment_append p] at hglob
      obtain ⟨s, v, rfl, hs, hv⟩ := (glob_append hseg).mp hglob
      have hsome := cmpSegment_found hfold hs fun hq => glob_nil.mp (hq ▸ hv)
      rw [hcmp] at hsome
      cases hsome
  | some r =>
      obtain ⟨w', p'⟩ := r
      obtain ⟨s, rfl, hs, rfl, hend⟩ := (cmpSegment_eq_some hfold).mp hcmp
      rcases behindSegment_eq p with hq | ⟨q, hq⟩
      · have hp : segment p = p := by
          have happend := segment_append p
          rwa [hq, List.append_nil] at happend
        rw [hp] at hs hseg
        rw [hq, hend hq, List.append_nil]
        refine ⟨fun _ => ⟨hs, ?_⟩, fun _ => rfl⟩
        rintro ⟨q', hq', -⟩
        exact hseg (hq' ▸ List.mem_append_right q' List.mem_cons_self)
      · have hp := segment_append p
        rw [hq] at hp
        have hrounds := compareSegments_iff hfold (code '*' :: q).length (w := w') (Nat.le_succ _)
        have hparts := glob_segment_append (p := q) hseg hs (List.append_nil (s ++ w')).symm
        have hglob := hparts.trans exists_rest
        have hused := usedUp_append (p := q) (w := w') (fun hstars => exists_stars hseg hstars)
          fun hw => glob_segment_append hseg hs hw
        rw [hp] at hglob hused
        rw [hq, hglob, hused]
        exact hrounds

/-- A word matches a pattern, and what the function returns says so, unless two stars are left
when the word is used up. -/
theorem comparesGlob_iff (sensecase : Bool) (w p : List UInt8) :
    (compareCase sensecase w p = true ↔ Glob (caseFold sensecase) p w) ↔
      ¬UsedUp (caseFold sensecase) p w := by
  rw [compareCase_eq]
  constructor
  · exact fun h hused => (h.mpr hused.glob).2 hused
  · exact fun h => ⟨fun hglob => hglob.1, fun hglob => ⟨hglob, h⟩⟩

/-- `"a"` matches `"a**"`. -/
theorem not_compareCase_letter :
    ¬∀ sensecase w p, compareCase sensecase w p = true ↔ Glob (caseFold sensecase) p w := by
  intro h
  have hglob : Glob toUpper (ascii ['a', '*', '*']) (ascii ['a']) :=
    .one (by decide) (Or.inl rfl) (.star [] (.star [] .nil))
  exact absurd ((h false (ascii ['a']) (ascii ['a', '*', '*'])).mpr hglob) (by decide)

end Http
end Gwenhywfar
