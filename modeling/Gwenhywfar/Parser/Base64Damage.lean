import Gwenhywfar.Parser.Base64

/-! # Damaged Base64 texts

* `Complete`: the groups a text should have.
* `EndsEarly`, `PaddedEarly`: the texts that are not seen to be damaged.
* `reportsDamage_iff`: with a size the decoder is content with a text that ends between two groups,
  and without one it takes a "=" anywhere in the last group. -/

namespace Gwenhywfar.Base64

/-- Groups of four characters up to the first one with a "=", which has it only as its last or its
last two. -/
def Complete : List UInt8 → Prop
  | [] => True
  | x :: y :: z :: w :: rest => x ≠ eq ∧ y ≠ eq ∧ (w = eq ∨ z ≠ eq ∧ Complete rest)
  | _ => False

/-- What is returned tells that the text is damaged: it is 0 only if all bytes that were asked for
are there, or the groups are complete when the size was not given. -/
def ReportsDamage (src : CString) (size : ℕ) : Prop :=
  ∃ rv dst, decode src size = some (rv, dst) ∧
    (rv = 0 → if size = 0 then Complete (chars src.bytes) else dst.length = size)

/-- The characters before the first "=". -/
def clear (cs : List UInt8) : List UInt8 := cs.takeWhile (· != eq)

/-- How many characters of its group stand before the first "=", or before the end. -/
def inGroup (cs : List UInt8) : ℕ := (clear cs).length % 4

/-- How many bytes the groups before this one have. -/
def before (cs : List UInt8) : ℕ := 3 * ((clear cs).length / 4)

/-- There are enough "=" for the group of the first one. -/
def Padded (cs : List UInt8) : Prop := eq ∈ cs ∧ 4 - inGroup cs ≤ cs.count eq

/-- A text that has less than the bytes asked for and ends between two groups or with a padded
group. -/
def EndsEarly (cs : List UInt8) (size : ℕ) : Prop :=
  (eq ∉ cs ∧ inGroup cs = 0 ∧ before cs < size) ∨ Padded cs ∧ before cs + 3 < size

/-- A padded group whose first "=" is its first or second character, or its third one with
another character than "=" behind it. -/
def PaddedEarly (cs : List UInt8) : Prop :=
  Padded cs ∧ (inGroup cs < 2 ∨ inGroup cs = 2 ∧ cs[(clear cs).length + 1]? ≠ some eq)

/-! ### Groups of characters -/

section
variable {cs g t : List UInt8} {x y z w : UInt8}

/-- A text has a full group, is at its end, ends inside a group or has a "=" in the group. -/
theorem group_cases (cs : List UInt8) : (∃ g t, cs = g ++ t ∧ g.length = 4 ∧ eq ∉ g) ∨ cs = [] ∨
      (cs ≠ [] ∧ cs.length < 4 ∧ eq ∉ cs) ∨ ∃ g t, cs = g ++ eq :: t ∧ g.length < 4 ∧ eq ∉ g := by
  have hclear : eq ∉ clear cs := fun h => by
    simpa using List.mem_takeWhile_imp h
  by_cases h4 : 4 ≤ (clear cs).length
  · refine Or.inl ⟨(clear cs).take 4, (clear cs).drop 4 ++ cs.dropWhile (· != eq), ?_, ?_, ?_⟩
    · rw [← List.append_assoc, List.take_append_drop]
      exact List.takeWhile_append_dropWhile.symm
    · rw [List.length_take, Nat.min_eq_left h4]
    · exact fun h => hclear (List.mem_of_mem_take h)
  · have hcs : clear cs ++ cs.dropWhile (· != eq) = cs := List.takeWhile_append_dropWhile
    cases hdrop : cs.dropWhile (· != eq) with
    | nil =>
        rw [hdrop, List.append_nil] at hcs
        rw [hcs] at hclear h4
        by_cases hnil : cs = []
        · exact Or.inr (Or.inl hnil)
        · exact Or.inr (Or.inr (Or.inl ⟨hnil, Nat.lt_of_not_le h4, hclear⟩))
    | cons c t =>
        have hc : c = eq := by
          have hhead := List.head?_dropWhile_not (fun c => c != eq) cs
          rw [hdrop] at hhead
          simpa using hhead
        subst hc
        rw [hdrop] at hcs
        exact Or.inr (Or.inr (Or.inr ⟨clear cs, t, hcs.symm, Nat.lt_of_not_le h4, hclear⟩))

theorem clear_append (h : eq ∉ g) : clear (g ++ t) = g ++ clear t := by
  refine List.takeWhile_append_of_pos fun c hc => bne_iff_ne.mpr ?_
  rintro rfl
  exact h hc

theorem clear_eq (h : eq ∉ g) : clear (g ++ eq :: t) = g := by
  rw [clear_append h]
  exact List.append_nil g

theorem mem_append_iff (h : eq ∉ g) : eq ∈ g ++ t ↔ eq ∈ t := by
  rw [List.mem_append]
  exact or_iff_right h

theorem count_append (h : eq ∉ g) : (g ++ t).count eq = t.count eq := by
  rw [List.count_append, List.count_eq_zero_of_not_mem h, Nat.zero_add]

theorem inGroup_append (h : eq ∉ g) (hlen : g.length = 4) : inGroup (g ++ t) = inGroup t := by
  rw [inGroup, inGroup, clear_append h, List.length_append, hlen, Nat.add_mod_left]

theorem before_append (h : eq ∉ g) (hlen : g.length = 4) : before (g ++ t) = before t + 3 := by
  rw [before, before, clear_append h, List.length_append, hlen]
  omega

theorem padded_append (h : eq ∉ g) (hlen : g.length = 4) : Padded (g ++ t) ↔ Padded t := by
  rw [Padded, Padded, mem_append_iff h, inGroup_append h hlen, count_append h]

theorem padded_eq (h : eq ∉ g) (hlen : g.length < 4) :
    Padded (g ++ eq :: t) ↔ 3 - g.length ≤ t.count eq := by
  have hmem : eq ∈ g ++ eq :: t := List.mem_append_right _ List.mem_cons_self
  rw [Padded, inGroup, clear_eq h, count_append h, List.count_cons_self, Nat.mod_eq_of_lt hlen,
    and_iff_right hmem]
  omega

theorem not_padded (h : eq ∉ cs) : ¬Padded cs := fun hp => h hp.1

/-! ### With a size -/

theorem length_wanted {v size : ℕ} (h : size ≠ 0) : (wanted v size).length = min 3 size := by
  rcases size with _ | _ | _ | size
  · exact absurd rfl h
  · rfl
  · rfl
  · exact (Nat.min_eq_left (Nat.le_add_left 3 size)).symm

theorem endsEarly_append (size : ℕ) (h : eq ∉ g) (hlen : g.length = 4) :
    EndsEarly (g ++ t) size ↔ EndsEarly t (size - min 3 size) := by
  rw [EndsEarly, EndsEarly, mem_append_iff h, padded_append h hlen, before_append h hlen,
    inGroup_append h hlen]
  have h1 : before t + 3 < size ↔ before t < size - min 3 size := by omega
  have h2 : before t + 3 + 3 < size ↔ before t + 3 < size - min 3 size := by omega
  rw [h1, h2]

theorem not_endsEarly {size : ℕ} (hcs : eq ∉ cs) (hnil : cs ≠ []) (hlen : cs.length < 4) :
    ¬EndsEarly cs size := by
  rintro (⟨-, hzero, -⟩ | ⟨hpad, -⟩)
  · have hclear : clear cs = cs := List.takeWhile_eq_self_iff.mpr fun c hc =>
      bne_iff_ne.mpr fun he => hcs (he ▸ hc)
    rw [inGroup, hclear, Nat.mod_eq_of_lt hlen] at hzero
    exact hnil (List.length_eq_zero_iff.mp hzero)
  · exact not_padded hcs hpad

theorem endsEarly_eq_iff (size : ℕ) (hg : eq ∉ g) (hlen : g.length < 4) :
    EndsEarly (g ++ eq :: t) size ↔ 3 - g.length ≤ t.count eq ∧ 3 < size := by
  have hmem : eq ∈ g ++ eq :: t := List.mem_append_right _ List.mem_cons_self
  have hbefore : before (g ++ eq :: t) = 0 := by
    rw [before, clear_eq hg, Nat.div_eq_of_lt hlen]
  rw [EndsEarly, padded_eq hg hlen, hbefore, Nat.zero_add]
  exact or_iff_right fun hn => hn.1 hmem

/-- The loop returns 0 with less than the size for the texts that end early. -/
theorem groups_size {fuel : ℕ} (size : ℕ) {src : List UInt8} (dst : List UInt8) (h : chars src = cs)
    (hfuel : cs.length < fuel) : ∃ rv out, groups true fuel size 0 src dst = some (rv, dst ++ out) ∧
      ((rv = 0 → out.length = size) ↔ ¬EndsEarly cs size) := by
  induction fuel generalizing cs size src dst with
  | zero => exact absurd hfuel (Nat.not_lt_zero _)
  | succ fuel ih =>
      by_cases hsize : size = 0
      · subst hsize
        refine ⟨0, [], by rw [groups_done ⟨rfl, rfl⟩, List.append_nil], iff_of_true (fun _ => rfl) ?_⟩
        rintro (⟨-, -, hlt⟩ | ⟨-, hlt⟩)
        · exact Nat.not_lt_zero _ hlt
        · exact Nat.not_lt_zero _ hlt
      · have hgo : ¬(true = true ∧ size = 0) := fun hz => hsize hz.2
        rcases group_cases cs with ⟨g, t, rfl, hlen, hg⟩ | rfl | ⟨hnil, hlen, hcs⟩ |
          ⟨g, t, rfl, hlen, hg⟩
        · obtain ⟨src', hsrc', hgroups⟩ := groups_full fuel dst hgo h hlen hg
          rw [List.length_append, hlen] at hfuel
          obtain ⟨rv, out, hrest, hiff⟩ := ih (leftOf true size)
            (dst ++ bytesOf true size (g.foldl push 0) 0) hsrc' (by omega)
          refine ⟨rv, bytesOf true size (g.foldl push 0) 0 ++ out, ?_, ?_⟩
          · rw [hgroups, hrest, List.append_assoc]
          · have hout : (bytesOf true size (g.foldl push 0) 0 ++ out).length =
                min 3 size + out.length := by
              rw [List.length_append, bytesOf, if_pos rfl, length_wanted hsize]
            have hleft : leftOf true size = size - min 3 size := if_pos rfl
            rw [endsEarly_append size hg hlen, ← hleft, ← hiff, hout, hleft]
            exact imp_congr_right fun _ => by omega
        · refine ⟨0, [], by rw [groups_end h, List.append_nil], ?_⟩
          refine iff_of_false (fun hz => hsize (hz rfl).symm) (not_not.mpr (Or.inl ?_))
          exact ⟨List.not_mem_nil, rfl, Nat.pos_of_ne_zero hsize⟩
        · exact ⟨-1, [], by rw [groups_short hgo h hnil hlen hcs, List.append_nil],
            iff_of_true (fun hz => absurd hz (by decide)) (not_endsEarly hcs hnil hlen)⟩
        · obtain ⟨fuel, rfl⟩ : ∃ n, fuel = n + 1 := Nat.exists_eq_succ_of_ne_zero fun hz => by
            rw [hz, List.length_append, List.length_cons] at hfuel
            omega
          have hgroups := groups_eq fuel dst hgo h hlen hg
          have hends := @endsEarly_eq_iff g t size hg hlen
          by_cases hpad : 3 - g.length ≤ t.count eq
          · rw [if_pos hpad] at hgroups
            refine ⟨0, _, hgroups, ?_⟩
            rw [hends, bytesOf, if_pos rfl, length_wanted hsize]
            omega
          · rw [if_neg hpad] at hgroups
            refine ⟨-1, [], by rw [hgroups, List.append_nil], ?_⟩
            rw [hends]
            exact iff_of_true (fun hz => absurd hz (by decide)) fun hn => hpad hn.1

/-! ### Without a size -/

theorem complete_append (h : eq ∉ g) (hlen : g.length = 4) : Complete (g ++ t) ↔ Complete t := by
  obtain ⟨x, y, z, w, rfl⟩ := List.length_eq_four.mp hlen
  simp only [List.mem_cons, List.not_mem_nil, or_false, not_or] at h
  obtain ⟨hx, hy, hz, hw⟩ := h
  rw [List.cons_append, List.cons_append, List.cons_append, List.cons_append, Complete,
    List.nil_append, and_iff_right (Ne.symm hx), and_iff_right (Ne.symm hy),
    or_iff_right (Ne.symm hw), and_iff_right (Ne.symm hz)]

theorem paddedEarly_append (h : eq ∉ g) (hlen : g.length = 4) :
    PaddedEarly (g ++ t) ↔ PaddedEarly t := by
  have hget : (g ++ t)[(g ++ clear t).length + 1]? = t[(clear t).length + 1]? := by
    rw [List.length_append, Nat.add_assoc, List.getElem?_append_right (Nat.le_add_right _ _),
      Nat.add_sub_cancel_left]
  rw [PaddedEarly, PaddedEarly, padded_append h hlen, inGroup_append h hlen, clear_append h, hget]

/-- What the first "=" of a group means for the group. -/
theorem complete_eq_iff (h : eq ∉ g) (hlen : g.length < 4) (hpad : 3 - g.length ≤ t.count eq) :
    Complete (g ++ eq :: t) ↔ ¬PaddedEarly (g ++ eq :: t) := by
  have hget : (g ++ eq :: t)[g.length + 1]? = t[0]? := by
    rw [List.getElem?_append_right (Nat.le_add_right _ 1), Nat.add_sub_cancel_left]
    rfl
  rw [PaddedEarly, padded_eq h hlen, and_iff_right hpad, inGroup, clear_eq h,
    Nat.mod_eq_of_lt hlen, hget]
  rcases g with _ | ⟨x, _ | ⟨y, _ | ⟨z, _ | ⟨w, g⟩⟩⟩⟩
  · refine iff_of_false ?_ (not_not.mpr (Or.inl (Nat.zero_lt_succ 1)))
    rcases t with _ | ⟨a, _ | ⟨b, _ | ⟨c, t⟩⟩⟩ <;> simp [Complete]
  · refine iff_of_false ?_ (not_not.mpr (Or.inl (Nat.lt_succ_self 1)))
    rcases t with _ | ⟨a, _ | ⟨b, t⟩⟩ <;> simp [Complete]
  · cases t with
    | nil => exact absurd hpad (by rw [List.count_nil]; exact Nat.not_succ_le_zero 0)
    | cons c t =>
        simp only [List.mem_cons, List.not_mem_nil, or_false, not_or] at h
        obtain ⟨hx, hy⟩ := h
        simp [Complete, Ne.symm hx, Ne.symm hy]
  · simp only [List.mem_cons, List.not_mem_nil, or_false, not_or] at h
    obtain ⟨hx, hy, hz⟩ := h
    simp [Complete, Ne.symm hx, Ne.symm hy]
  · exact absurd hlen (by simp)

/-- The loop returns 0 with groups that are not complete for the texts that are padded early. -/
theorem groups_no_size {fuel : ℕ} {src : List UInt8} (dst : List UInt8) (h : chars src = cs)
    (hfuel : cs.length < fuel) : ∃ rv out, groups false fuel 0 0 src dst = some (rv, out) ∧
      ((rv = 0 → Complete cs) ↔ ¬PaddedEarly cs) := by
  have hgo : ¬(false = true ∧ 0 = 0) := fun hz => Bool.false_ne_true hz.1
  induction fuel generalizing cs src dst with
  | zero => exact absurd hfuel (Nat.not_lt_zero _)
  | succ fuel ih =>
      rcases group_cases cs with ⟨g, t, rfl, hlen, hg⟩ | rfl | ⟨hnil, hlen, hcs⟩ |
        ⟨g, t, rfl, hlen, hg⟩
      · obtain ⟨src', hsrc', hgroups⟩ := groups_full fuel dst hgo h hlen hg
        rw [List.length_append, hlen] at hfuel
        obtain ⟨rv, out, hrest, hiff⟩ := ih (dst ++ bytesOf false 0 (g.foldl push 0) 0) hsrc'
          (by omega)
        refine ⟨rv, out, hgroups.trans hrest, ?_⟩
        rw [complete_append hg hlen, paddedEarly_append hg hlen]
        exact hiff
      · exact ⟨0, dst, groups_end h, iff_of_true (fun _ => trivial) fun hp =>
          not_padded List.not_mem_nil hp.1⟩
      · exact ⟨-1, dst, groups_short hgo h hnil hlen hcs,
          iff_of_true (fun hz => absurd hz (by decide)) fun hp => not_padded hcs hp.1⟩
      · obtain ⟨fuel, rfl⟩ : ∃ n, fuel = n + 1 := Nat.exists_eq_succ_of_ne_zero fun hz => by
          rw [hz, List.length_append, List.length_cons] at hfuel
          omega
        have hgroups := groups_eq fuel dst hgo h hlen hg
        by_cases hpad : 3 - g.length ≤ t.count eq
        · rw [if_pos hpad] at hgroups
          refine ⟨0, _, hgroups, ?_⟩
          rw [imp_iff_right rfl]
          exact complete_eq_iff hg hlen hpad
        · rw [if_neg hpad] at hgroups
          exact ⟨-1, dst, hgroups, iff_of_true (fun hz => absurd hz (by decide)) fun hp =>
            hpad ((padded_eq hg hlen).mp hp.1)⟩

end

/-- Damage is reported for all texts but those that end early, when the size is given, and those
that are padded early, when it is not. -/
theorem reportsDamage_iff (src : CString) (size : ℕ) : ReportsDamage src size ↔
    if size = 0 then ¬PaddedEarly (chars src.bytes) else ¬EndsEarly (chars src.bytes) size := by
  have hfuel : (chars src.bytes).length < src.bytes.length + 1 :=
    Nat.lt_succ_of_le (List.length_filter_le _ _)
  have honly : ∀ {rv : ℤ} {dst : List UInt8}, decode src size = some (rv, dst) →
      (ReportsDamage src size ↔
        (rv = 0 → if size = 0 then Complete (chars src.bytes) else dst.length = size)) := by
    intro rv dst hdecode
    constructor
    · rintro ⟨rv', dst', hdecode', hrv⟩
      rw [hdecode] at hdecode'
      obtain ⟨rfl, rfl⟩ := Prod.mk.inj (Option.some.inj hdecode')
      exact hrv
    · exact fun hrv => ⟨rv, dst, hdecode, hrv⟩
  by_cases hsize : size = 0
  · subst hsize
    obtain ⟨rv, out, hgroups, hiff⟩ := groups_no_size [] rfl hfuel
    rw [honly hgroups, if_pos rfl, if_pos rfl]
    exact hiff
  · obtain ⟨rv, out, hgroups, hiff⟩ := groups_size size [] rfl hfuel
    rw [List.nil_append] at hgroups
    have hdecode : decode src size = some (rv, out) := by
      rw [decode, bne_iff_ne.mpr hsize]
      exact hgroups
    rw [honly hdecode, if_neg hsize, if_neg hsize]
    exact hiff

/-- "QUJD" has three bytes, and decoding it to five returns 0. -/
theorem not_reportsDamage_three : ¬∀ src size, ReportsDamage src size := by
  intro h
  obtain ⟨rv, dst, hdecode, hlen⟩ :=
    h (CString.ofBytes ((['Q', 'U', 'J', 'D'] : List Char).map code)) 5
  have hthree : decode (CString.ofBytes ((['Q', 'U', 'J', 'D'] : List Char).map code)) 5 =
      some (0, [65, 66, 67]) := by decide
  rw [hthree] at hdecode
  obtain ⟨rfl, rfl⟩ := Prod.mk.inj (Option.some.inj hdecode)
  exact absurd (show ([65, 66, 67] : List UInt8).length = 5 from hlen rfl) (by decide)
end Gwenhywfar.Base64
