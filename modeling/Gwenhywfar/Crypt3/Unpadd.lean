import Gwenhywfar.Crypt3.Padd

/-! # Which blocks are accepted

* `unpaddsPkcs1_iff`: the blocks of PKCS1 are told from all others, unless a zero behind the
  padding is missing (the scan takes the byte behind the buffer for it) or there is no data behind
  the shortest padding.
* `unpaddsInside_iff`: the scans for ZKA and ISO 9796-2 stay in the buffer unless there are only
  zeros; the 8 bit counter and a block that is cut off make them accept what is no padding. -/

namespace Gwenhywfar.Padd

open Buffer (wsub wsub_of_le)

/-! ### PKCS1 -/

/-- A block with the data `data`; the leading zero is optional. -/
def IsBlock (b data : List UInt8) : Prop :=
  ∃ t padding, (t = 0x01 ∨ t = 0x02) ∧ 8 ≤ padding.length ∧ (∀ c ∈ padding, c ≠ 0) ∧
    (b = t :: (padding ++ 0 :: data) ∨ b = 0 :: t :: (padding ++ 0 :: data))

/-- Exactly the blocks are accepted, and then the data is left; else nothing changes. -/
def UnpaddsPkcs1 (b : List UInt8) : Prop :=
  ∃ rv b', unpaddWithPkcs1Bt1Or2 b = some (rv, b') ∧ (rv = 0 ↔ ∃ data, IsBlock b data) ∧
    (rv = 0 → IsBlock b b') ∧ (rv ≠ 0 → b' = b)

/-- At least ten bytes follow the type, and none of them is 0. -/
def NoSeparator (b : List UInt8) : Prop :=
  ∃ t rest, (t = 0x01 ∨ t = 0x02) ∧ 10 ≤ rest.length ∧ (∀ c ∈ rest, c ≠ 0) ∧
    (b = t :: rest ∨ b = 0 :: t :: rest)

def ShortestBlock (b : List UInt8) : Prop :=
  ∃ t padding, (t = 0x01 ∨ t = 0x02) ∧ padding.length = 8 ∧ (∀ c ∈ padding, c ≠ 0) ∧
    (b = t :: (padding ++ [0]) ∨ b = 0 :: t :: (padding ++ [0]))

section
variable {b p q data front rest : List UInt8} {t c : UInt8} {n y : ℕ}

/-- What is left behind an optional zero. -/
def skipZero (b : List UInt8) : List UInt8 := if b.head? = some 0 then b.tail else b

theorem ne_zero_of_type (ht : t = 0x01 ∨ t = 0x02) : t ≠ 0 := by
  rcases ht with rfl | rfl <;> decide

theorem skipZero_eq_iff (ht : t = 0x01 ∨ t = 0x02) :
    skipZero b = t :: q ↔ b = t :: q ∨ b = 0 :: t :: q := by
  have hne := ne_zero_of_type ht
  unfold skipZero
  cases b with
  | nil => simp
  | cons c b =>
      rw [List.head?_cons, List.tail_cons]
      by_cases hc : c = 0
      · subst hc
        rw [if_pos rfl]
        constructor
        · rintro rfl
          exact Or.inr rfl
        · rintro (h | h)
          · exact absurd (List.cons.inj h).1.symm hne
          · exact (List.cons.inj h).2
      · rw [if_neg (by simpa using hc)]
        constructor
        · exact Or.inl
        · rintro (h | h)
          · exact h
          · exact absurd (List.cons.inj h).1 hc

theorem isBlock_iff : IsBlock b data ↔ ∃ t padding, (t = 0x01 ∨ t = 0x02) ∧
    8 ≤ padding.length ∧ (∀ c ∈ padding, c ≠ 0) ∧ skipZero b = t :: (padding ++ 0 :: data) := by
  unfold IsBlock
  refine exists_congr fun t => exists_congr fun padding => ?_
  refine and_congr_right fun ht => ?_
  rw [skipZero_eq_iff ht]

theorem split_unique {u v : List UInt8} (hp : ∀ c ∈ p, c ≠ 0) (hq : ∀ c ∈ q, c ≠ 0)
    (h : p ++ 0 :: u = q ++ 0 :: v) : p = q ∧ u = v := by
  have h1 := Scan.append_cons (· != 0) p u 0 (fun x hx => bne_iff_ne.mpr (hp x hx)) rfl
  have h2 := Scan.append_cons (· != 0) q v 0 (fun x hx => bne_iff_ne.mpr (hq x hx)) rfl
  rw [h] at h1
  exact ⟨h1.1.symm.trans h2.1, (List.cons.inj (h1.2.symm.trans h2.2)).2⟩

theorem split_zero (q : List UInt8) : (∀ c ∈ q, c ≠ 0) ∨
    ∃ padding data, q = padding ++ 0 :: data ∧ ∀ c ∈ padding, c ≠ 0 := by
  rcases Scan.exists_first (· != 0) q with hall | ⟨padding, c, data, rfl, hpadding, hc⟩
  · exact Or.inl fun c hc => bne_iff_ne.mp (hall c hc)
  · obtain rfl : c = 0 := bne_eq_false_iff_eq.mp hc
    exact Or.inr ⟨padding, data, rfl, fun c hc => bne_iff_ne.mp (hpadding c hc)⟩

theorem unpaddsPkcs1_of_error (h : unpaddWithPkcs1Bt1Or2 b = some (errorInvalid, b)) :
    UnpaddsPkcs1 b ↔ ¬∃ data, IsBlock b data := by
  have hne : errorInvalid ≠ 0 := by decide
  constructor
  · rintro ⟨rv, b', hb, hiff, -⟩ hblock
    obtain ⟨rfl, -⟩ := Prod.mk.inj (Option.some.inj (h.symm.trans hb))
    exact hne (hiff.mpr hblock)
  · intro hblock
    exact ⟨errorInvalid, b, h, iff_of_false hne hblock, fun h0 => absurd h0 hne, fun _ => rfl⟩

/-- The scan, where there are enough bytes. -/
theorem unpaddWithPkcs1Bt1Or2_skipZero (hb : b ≠ []) (ht : t = 0x01 ∨ t = 0x02)
    (hskip : skipZero b = t :: rest) : unpaddWithPkcs1Bt1Or2 b =
      if rest.length < 10 then some (errorInvalid, b)
      else if rest.dropWhile (· != 0) = [] then none
      else if (rest.takeWhile (· != 0)).length < 8 then some (errorInvalid, b)
      else (crop b (b.length - (rest.dropWhile (· != 0)).tail.length)
        (rest.dropWhile (· != 0)).tail.length).map fun b => (0, b) := by
  have hp : (if b.head? = some 0 then b.tail else b) = t :: rest := hskip
  rw [unpaddWithPkcs1Bt1Or2, if_neg hb]
  dsimp only
  rw [hp, List.length_cons, List.head?_cons, List.tail_cons]
  by_cases hlen : rest.length < 10
  · rw [if_pos (by omega), if_pos hlen]
  · have htype : ¬(some t ≠ some 0x01 ∧ some t ≠ some 0x02) := by
      rintro ⟨h1, h2⟩
      rcases ht with rfl | rfl
      · exact h1 rfl
      · exact h2 rfl
    rw [if_neg (by omega), if_neg hlen, if_neg htype]

theorem unpaddsPkcs1_of_zero (hb : b ≠ []) (ht : t = 0x01 ∨ t = 0x02)
    (hpadding : ∀ c ∈ q, c ≠ 0) (hskip : skipZero b = t :: (q ++ 0 :: data)) :
    UnpaddsPkcs1 b ↔ ¬ShortestBlock b := by
  have hscan := Scan.append_cons (· != 0) q data 0 (fun x hx => bne_iff_ne.mpr (hpadding x hx)) rfl
  have heq := unpaddWithPkcs1Bt1Or2_skipZero hb ht hskip
  rw [hscan.1, hscan.2, if_neg (List.cons_ne_nil _ _), List.tail_cons, List.length_append,
    List.length_cons] at heq
  have hblock : ∀ d, IsBlock b d ↔ 8 ≤ q.length ∧ d = data := by
    intro d
    rw [isBlock_iff]
    constructor
    · rintro ⟨t', q', ht', h8, hq', hskip'⟩
      obtain ⟨-, hsame⟩ := List.cons.inj (hskip.symm.trans hskip')
      obtain ⟨rfl, rfl⟩ := split_unique hpadding hq' hsame
      exact ⟨h8, rfl⟩
    · rintro ⟨h8, rfl⟩
      exact ⟨t, q, ht, h8, hpadding, hskip⟩
  have hshort : ShortestBlock b ↔ q.length = 8 ∧ data = [] := by
    constructor
    · rintro ⟨t', q', ht', h8, hq', hform⟩
      have hskip' := (skipZero_eq_iff ht').mpr hform
      obtain ⟨-, hsame⟩ := List.cons.inj (hskip.symm.trans hskip')
      obtain ⟨rfl, rfl⟩ := split_unique hpadding hq' hsame
      exact ⟨h8, rfl⟩
    · rintro ⟨h8, rfl⟩
      exact ⟨t, q, ht, h8, hpadding, (skipZero_eq_iff ht).mp hskip⟩
  rw [hshort]
  by_cases h8 : q.length < 8
  · rw [if_pos h8, ite_self] at heq
    rw [unpaddsPkcs1_of_error heq]
    exact iff_of_true (fun ⟨d, hd⟩ => by have := ((hblock d).mp hd).1; omega) (by omega)
  · have hdata : IsBlock b data := (hblock data).mpr ⟨by omega, rfl⟩
    by_cases hlen : q.length + (data.length + 1) < 10
    · rw [if_pos hlen] at heq
      rw [unpaddsPkcs1_of_error heq]
      have hnil : data = [] := List.length_eq_zero_iff.mp (by omega)
      exact iff_of_false (fun h => h ⟨data, hdata⟩) fun h => h ⟨by omega, hnil⟩
    · rw [if_neg hlen, if_neg h8] at heq
      obtain ⟨front, hfront⟩ : ∃ front, b = front ++ data := by
        rcases (skipZero_eq_iff ht).mp hskip with rfl | rfl
        · exact ⟨t :: (q ++ [0]), by simp⟩
        · exact ⟨0 :: t :: (q ++ [0]), by simp⟩
      have hcrop : crop b (b.length - data.length) data.length = some data := by
        have happend := @crop_append data front []
        rw [List.append_nil] at happend
        rw [hfront, List.length_append, Nat.add_sub_cancel, happend]
      rw [hcrop, Option.map_some] at heq
      refine iff_of_true ⟨0, data, heq, iff_of_true rfl ⟨data, hdata⟩, fun _ => hdata,
        fun h0 => absurd rfl h0⟩ ?_
      rintro ⟨h, rfl⟩
      rw [List.length_nil] at hlen
      omega

theorem unpaddsPkcs1_of_no_type (hb : b ≠ [])
    (hnone : ∀ t q, t = 0x01 ∨ t = 0x02 → skipZero b ≠ t :: q) :
    UnpaddsPkcs1 b ∧ ¬NoSeparator b ∧ ¬ShortestBlock b := by
  have herror : unpaddWithPkcs1Bt1Or2 b = some (errorInvalid, b) := by
    have htype : ∀ t, t = 0x01 ∨ t = 0x02 → (skipZero b).head? ≠ some t := by
      intro t ht h
      obtain ⟨q, hq⟩ := List.head?_eq_some_iff.mp h
      exact hnone t q ht hq
    rw [unpaddWithPkcs1Bt1Or2, if_neg hb]
    dsimp only
    rw [← skipZero, if_pos (⟨htype 0x01 (Or.inl rfl), htype 0x02 (Or.inr rfl)⟩ : _ ∧ _), ite_self]
  rw [unpaddsPkcs1_of_error herror]
  refine ⟨?_, ?_, ?_⟩
  · rintro ⟨data, h⟩
    obtain ⟨t, q, ht, -, -, hskip⟩ := isBlock_iff.mp h
    exact hnone t _ ht hskip
  · rintro ⟨t, rest, ht, -, -, h⟩
    exact hnone t rest ht ((skipZero_eq_iff ht).mpr h)
  · rintro ⟨t, padding, ht, -, -, h⟩
    exact hnone t _ ht ((skipZero_eq_iff ht).mpr h)

theorem unpaddsPkcs1_of_no_zero (hb : b ≠ []) (ht : t = 0x01 ∨ t = 0x02)
    (hrest : ∀ c ∈ rest, c ≠ 0) (hskip : skipZero b = t :: rest) :
    (UnpaddsPkcs1 b ↔ ¬NoSeparator b) ∧ ¬ShortestBlock b := by
  have hscan := Scan.all (· != 0) rest fun c hc => bne_iff_ne.mpr (hrest c hc)
  have heq := unpaddWithPkcs1Bt1Or2_skipZero hb ht hskip
  rw [hscan.2, if_pos rfl] at heq
  have hzero : ∀ {t' q data}, skipZero b ≠ t' :: (q ++ 0 :: data) := by
    intro t' q data h
    obtain ⟨-, hsame⟩ := List.cons.inj (hskip.symm.trans h)
    exact hrest 0 (hsame ▸ List.mem_append_right q List.mem_cons_self) rfl
  have hno : NoSeparator b ↔ 10 ≤ rest.length := by
    constructor
    · rintro ⟨t', rest', ht', h10, -, h⟩
      obtain ⟨-, rfl⟩ := List.cons.inj (hskip.symm.trans ((skipZero_eq_iff ht').mpr h))
      exact h10
    · exact fun h10 => ⟨t, rest, ht, h10, hrest, (skipZero_eq_iff ht).mp hskip⟩
  constructor
  · rw [hno]
    by_cases hlen : rest.length < 10
    · rw [if_pos hlen] at heq
      rw [unpaddsPkcs1_of_error heq]
      refine iff_of_true ?_ (by omega)
      rintro ⟨data, h⟩
      obtain ⟨_, _, -, -, -, hform⟩ := isBlock_iff.mp h
      exact hzero hform
    · rw [if_neg hlen] at heq
      refine iff_of_false ?_ (by omega)
      rintro ⟨rv, b', h, -⟩
      rw [heq] at h
      cases h
  · rintro ⟨t', padding, ht', -, -, h⟩
    exact hzero ((skipZero_eq_iff ht').mpr h)

/-- The blocks are told from all others, unless a zero is missing or there is no data behind the
shortest padding. -/
theorem unpaddsPkcs1_iff (b : List UInt8) (hb : b ≠ []) :
    UnpaddsPkcs1 b ↔ ¬NoSeparator b ∧ ¬ShortestBlock b := by
  by_cases htype : ∃ t rest, (t = 0x01 ∨ t = 0x02) ∧ skipZero b = t :: rest
  · obtain ⟨t, rest, ht, hskip⟩ := htype
    rcases split_zero rest with hrest | ⟨padding, data, rfl, hpadding⟩
    · obtain ⟨hiff, hshort⟩ := unpaddsPkcs1_of_no_zero hb ht hrest hskip
      rw [hiff, and_iff_left hshort]
    · have hno : ¬NoSeparator b := by
        rintro ⟨t', rest', ht', -, hrest, h⟩
        obtain ⟨-, rfl⟩ := List.cons.inj (hskip.symm.trans ((skipZero_eq_iff ht').mpr h))
        exact hrest 0 (List.mem_append_right _ List.mem_cons_self) rfl
      rw [unpaddsPkcs1_of_zero hb ht hpadding hskip, and_iff_right hno]
  · obtain ⟨hmeets, hno, hshort⟩ := unpaddsPkcs1_of_no_type hb fun t q ht h =>
      htype ⟨t, q, ht, h⟩
    exact iff_of_true hmeets ⟨hno, hshort⟩

end

/-- A block with two bytes of data. -/
theorem unpaddsPkcs1_two : UnpaddsPkcs1 (0 :: 1 :: (List.replicate 8 0xff ++ [0, 65, 66])) := by
  refine (unpaddsPkcs1_iff _ (by decide)).mpr ⟨?_, ?_⟩
  · rintro ⟨t, rest, -, -, hrest, h | h⟩
    · obtain ⟨-, rfl⟩ := List.cons.inj h
      exact hrest 0 (by decide) rfl
    · obtain ⟨-, rfl⟩ := List.cons.inj (List.cons.inj h).2
      exact hrest 0 (by decide) rfl
  · rintro ⟨t, padding, -, h8, -, h | h⟩
    · have hlength := congrArg List.length h
      simp [h8] at hlength
    · have hlength := congrArg List.length h
      simp [h8] at hlength

/-- Eleven bytes without a zero. -/
theorem not_unpaddsPkcs1_ones : ¬UnpaddsPkcs1 (1 :: List.replicate 10 0xff) := by
  intro h
  exact ((unpaddsPkcs1_iff _ (by decide)).mp h).1
    ⟨1, _, Or.inl rfl, by decide, fun c hc => List.eq_of_mem_replicate hc ▸ by decide, Or.inl rfl⟩

/-! ### ZKA -/

def EndsInZeros (b : List UInt8) : Prop :=
  ∃ front n, 0 < n ∧ b = front ++ List.replicate n 0 ∧ front.getLast? ≠ some 0 ∧
    front.getLast? ≠ some 0x80

/-- Only a padding of at most `y` bytes is removed; zeros without 0x80 are an error. -/
def UnpaddsZka (b : List UInt8) (y : ℕ) : Prop :=
  ∃ rv b', unpaddWithZkaFromMultipleOf b y = some (rv, b') ∧
    (rv = 0 → ∃ s, b = b' ++ s ∧ s.length ≤ y ∧ (s = [] ∨ ∃ n, s = 0x80 :: List.replicate n 0)) ∧
    (EndsInZeros b → rv ≠ 0) ∧ (rv ≠ 0 → b' = b)

/-- The number of zeros does not fit its 8 bits, and what is left of it passes the tests. -/
def WrapsZka (b : List UInt8) (y : ℕ) : Prop :=
  ∃ front c n, b = front ++ c :: List.replicate n 0 ∧ 256 ≤ n ∧
    (c ≠ 0 ∧ c ≠ 0x80 ∧ n % 256 = 0 ∨ c = 0x80 ∧ (n + 1) % 256 ≠ 0 ∧ (n + 1) % 256 ≤ y)

section
variable {b front : List UInt8} {c : UInt8} {n y : ℕ}

theorem exists_zeros (b : List UInt8) : (∃ n, b = List.replicate n 0) ∨
    ∃ front c n, b = front ++ c :: List.replicate n 0 ∧ c ≠ 0 := by
  rcases Scan.exists_first (· == 0) b.reverse with hall | ⟨xs, c, ys, hrev, hxs, hc⟩
  · refine Or.inl ⟨b.length, List.eq_replicate_iff.mpr ⟨rfl, fun c hc => ?_⟩⟩
    exact beq_iff_eq.mp (hall c (List.mem_reverse.mpr hc))
  · have hzeros : xs = List.replicate xs.length 0 :=
      List.eq_replicate_iff.mpr ⟨rfl, fun x hx => beq_iff_eq.mp (hxs x hx)⟩
    refine Or.inr ⟨ys.reverse, c, xs.length, ?_, by simpa using hc⟩
    rw [← List.reverse_reverse b, hrev, List.reverse_append, List.reverse_cons, List.append_assoc,
      List.singleton_append]
    conv_lhs => rw [hzeros, List.reverse_replicate]

theorem zeros_unique {front' : List UInt8} {c' : UInt8} {n' : ℕ} (hc : c ≠ 0) (hc' : c' ≠ 0)
    (h : front ++ c :: List.replicate n 0 = front' ++ c' :: List.replicate n' 0) :
    front = front' ∧ c = c' ∧ n = n' := by
  have hrev := congrArg List.reverse h
  simp only [List.reverse_append, List.reverse_cons, List.reverse_replicate, List.append_assoc,
    List.singleton_append] at hrev
  have hscan : ∀ (k : ℕ) (d : UInt8) (u : List UInt8), d ≠ 0 →
      (List.replicate k 0 ++ d :: u).takeWhile (· == 0) = List.replicate k 0 ∧
        (List.replicate k 0 ++ d :: u).dropWhile (· == 0) = d :: u := fun k d u hd =>
    Scan.append_cons _ _ u d (fun x hx => by rw [List.eq_of_mem_replicate hx]; rfl)
      (by simpa using hd)
  have h1 := hscan n c front.reverse hc
  have h2 := hscan n' c' front'.reverse hc'
  rw [hrev] at h1
  obtain ⟨hcc, hfront⟩ := List.cons.inj (h1.2.symm.trans h2.2)
  have hlen := congrArg List.length (h1.1.symm.trans h2.1)
  rw [List.length_replicate, List.length_replicate] at hlen
  exact ⟨List.reverse_inj.mp hfront, hcc, hlen⟩

theorem unpaddZka_zeros (hy : ¬n < y) :
    unpaddWithZkaFromMultipleOf (List.replicate n 0) y = none := by
  have hscan := Scan.all (· == (0 : UInt8)) (List.replicate n 0) fun x hx => by
    rw [List.eq_of_mem_replicate hx]
    rfl
  rw [unpaddWithZkaFromMultipleOf, List.length_replicate, if_neg hy, List.reverse_replicate]
  dsimp only
  rw [hscan.1, List.length_replicate,
    List.getElem?_eq_none (Nat.le_of_eq List.length_replicate), Option.bind_none]

theorem unpaddZka_eq (hc : c ≠ 0) :
    unpaddWithZkaFromMultipleOf (front ++ c :: List.replicate n 0) y =
      if (front ++ c :: List.replicate n 0).length < y then
        some (-1, front ++ c :: List.replicate n 0)
      else if c ≠ 0x80 ∧ 0 < UInt8.ofNat n then some (-1, front ++ c :: List.replicate n 0)
      else if y < (if c = 0x80 then UInt8.ofNat n + 1 else UInt8.ofNat n).toNat then
        some (-1, front ++ c :: List.replicate n 0)
      else (crop (front ++ c :: List.replicate n 0) 0
        ((front ++ c :: List.replicate n 0).length -
          (if c = 0x80 then UInt8.ofNat n + 1 else UInt8.ofNat n).toNat)).map fun b => (0, b) := by
  have hrev : (front ++ c :: List.replicate n 0).reverse =
      List.replicate n 0 ++ c :: front.reverse := by simp
  have hscan := Scan.append_cons (· == (0 : UInt8)) (List.replicate n 0) front.reverse c
    (fun x hx => by rw [List.eq_of_mem_replicate hx]; rfl) (by simpa using hc)
  have hget : (List.replicate n 0 ++ c :: front.reverse)[n]? = some c := by
    rw [List.getElem?_append_right (Nat.le_of_eq List.length_replicate), List.length_replicate,
      Nat.sub_self, List.getElem?_cons_zero]
  rw [unpaddWithZkaFromMultipleOf, hrev]
  dsimp only
  rw [hscan.1, List.length_replicate, hget, Option.bind_some]

theorem crop_last (b : List UInt8) (k : ℕ) :
    crop b 0 (b.length - k) = some (b.take (b.length - k)) := by
  have happend := @crop_front (b.take (b.length - k)) (b.drop (b.length - k))
  rwa [List.take_append_drop, List.length_take_of_le (Nat.sub_le ..)] at happend

theorem endsInZeros_iff (hc : c ≠ 0) :
    EndsInZeros (front ++ c :: List.replicate n 0) ↔ 0 < n ∧ c ≠ 0x80 := by
  constructor
  · rintro ⟨front', n', hn', heq, hlast, h80⟩
    rcases List.eq_nil_or_concat front' with rfl | ⟨u, d, rfl⟩
    · have hmem : c ∈ List.replicate n' (0 : UInt8) := by
        rw [List.nil_append] at heq
        rw [← heq]
        exact List.mem_append_right _ List.mem_cons_self
      exact absurd (List.eq_of_mem_replicate hmem) hc
    · rw [List.concat_eq_append, List.getLast?_concat] at hlast h80
      rw [List.concat_eq_append, List.append_assoc, List.singleton_append] at heq
      obtain ⟨-, rfl, rfl⟩ := zeros_unique hc (fun h => hlast (congrArg some h)) heq
      exact ⟨hn', fun h => h80 (congrArg some h)⟩
  · rintro ⟨hn, h80⟩
    refine ⟨front ++ [c], n, hn, by simp, ?_, ?_⟩
    · rw [List.getLast?_concat]
      exact fun h => hc (Option.some.inj h)
    · rw [List.getLast?_concat]
      exact fun h => h80 (Option.some.inj h)

theorem wrapsZka_iff (hc : c ≠ 0) : WrapsZka (front ++ c :: List.replicate n 0) y ↔
    256 ≤ n ∧ (c ≠ 0x80 ∧ n % 256 = 0 ∨ c = 0x80 ∧ (n + 1) % 256 ≠ 0 ∧ (n + 1) % 256 ≤ y) := by
  constructor
  · rintro ⟨front', c', n', heq, hn, hcase⟩
    have hc' : c' ≠ 0 := by
      rcases hcase with ⟨h, -⟩ | ⟨rfl, -⟩
      · exact h
      · decide
    obtain ⟨-, rfl, rfl⟩ := zeros_unique hc hc' heq
    exact ⟨hn, hcase.imp (fun h => ⟨h.2.1, h.2.2⟩) id⟩
  · rintro ⟨hn, hcase⟩
    exact ⟨front, c, n, rfl, hn, hcase.imp (fun h => ⟨hc, h.1, h.2⟩) id⟩

theorem unpaddsZka_of_error (h : unpaddWithZkaFromMultipleOf b y = some (-1, b)) : UnpaddsZka b y :=
  ⟨-1, b, h, fun h0 => absurd h0 (by decide), fun _ => by decide, fun _ => rfl⟩

theorem unpaddsZka_other (hc : c ≠ 0) (h80 : c ≠ 0x80)
    (hy : ¬(front ++ c :: List.replicate n 0).length < y) :
    UnpaddsZka (front ++ c :: List.replicate n 0) y ↔
      ¬WrapsZka (front ++ c :: List.replicate n 0) y := by
  have heq := @unpaddZka_eq front c n y hc
  rw [if_neg hy, if_neg h80] at heq
  rw [wrapsZka_iff hc]
  by_cases hn : n % 256 = 0
  · have hzero : UInt8.ofNat n = 0 := by
      rw [← UInt8.toNat_inj, UInt8.toNat_ofNat']
      exact hn
    rw [hzero, if_neg (by simp), if_neg (by simp), UInt8.toNat_zero, crop_last,
      Nat.sub_zero, List.take_length] at heq
    constructor
    · rintro ⟨rv, b', h, -, hends, -⟩ ⟨h256, -⟩
      obtain ⟨rfl, -⟩ := Prod.mk.inj (Option.some.inj (heq.symm.trans h))
      exact hends ((endsInZeros_iff hc).mpr ⟨by omega, h80⟩) rfl
    · intro h
      have hn0 : n = 0 := by
        by_contra hne
        exact h ⟨by omega, Or.inl ⟨h80, hn⟩⟩
      refine ⟨0, _, heq, fun _ => ⟨[], by simp, Nat.zero_le _, Or.inl rfl⟩, fun hends => ?_,
        fun h0 => absurd rfl h0⟩
      have hpos := ((endsInZeros_iff hc).mp hends).1
      omega
  · have hpos : 0 < UInt8.ofNat n := by
      rw [UInt8.lt_iff_toNat_lt, UInt8.toNat_ofNat']
      exact Nat.pos_of_ne_zero hn
    rw [if_pos ⟨h80, hpos⟩] at heq
    refine iff_of_true (unpaddsZka_of_error heq) ?_
    rintro ⟨-, ⟨-, h⟩ | ⟨h, -⟩⟩
    · exact hn h
    · exact h80 h

theorem drop_zeros (front : List UInt8) {k : ℕ} (hk : k ≤ n) :
    (front ++ 0x80 :: List.replicate n 0).drop
      ((front ++ 0x80 :: List.replicate n 0).length - k) = List.replicate k 0 := by
  have hcut : (front ++ 0x80 :: List.replicate n 0).length - k =
      (front ++ [0x80]).length + (n - k) := by
    simp only [List.length_append, List.length_cons, List.length_replicate, List.length_nil]
    omega
  have hsplit : front ++ 0x80 :: List.replicate n 0 = (front ++ [0x80]) ++ List.replicate n 0 := by
    simp
  rw [hcut, hsplit, List.drop_length_add_append, List.drop_replicate]
  congr 1
  omega

/-- Of 0x80 and the zeros as many bytes are removed as the counter says. -/
theorem unpaddsZka_padding (hy : ¬(front ++ 0x80 :: List.replicate n 0).length < y) :
    UnpaddsZka (front ++ 0x80 :: List.replicate n 0) y ↔
      ¬WrapsZka (front ++ 0x80 :: List.replicate n 0) y := by
  have h80 : (0x80 : UInt8) ≠ 0 := by decide
  have hends : ¬EndsInZeros (front ++ 0x80 :: List.replicate n 0) := fun h =>
    ((endsInZeros_iff h80).mp h).2 rfl
  have hcount : (UInt8.ofNat n + 1).toNat = (n + 1) % 256 := by
    rw [UInt8.toNat_add, UInt8.toNat_ofNat', UInt8.toNat_one]
    omega
  have heq := @unpaddZka_eq front 0x80 n y h80
  rw [if_neg hy, if_neg (fun h => h.1 rfl), if_pos rfl, hcount, crop_last] at heq
  rw [wrapsZka_iff h80]
  by_cases hk : y < (n + 1) % 256
  · rw [if_pos hk] at heq
    refine iff_of_true (unpaddsZka_of_error heq) ?_
    rintro ⟨-, ⟨h, -⟩ | ⟨-, -, h⟩⟩
    · exact h rfl
    · omega
  · rw [if_neg hk, Option.map_some] at heq
    have hlength : (front ++ 0x80 :: List.replicate n 0).length = front.length + (n + 1) := by
      rw [List.length_append, List.length_cons, List.length_replicate]
    have hmeets : ∀ s, (front ++ 0x80 :: List.replicate n 0).drop
        ((front ++ 0x80 :: List.replicate n 0).length - (n + 1) % 256) = s →
        (s = [] ∨ ∃ m, s = 0x80 :: List.replicate m 0) →
        UnpaddsZka (front ++ 0x80 :: List.replicate n 0) y := by
      rintro s rfl hform
      refine ⟨0, _, heq, fun _ => ⟨_, (List.take_append_drop _ _).symm, ?_, hform⟩,
        fun h => absurd h hends, fun h0 => absurd rfl h0⟩
      rw [List.length_drop]
      omega
    by_cases hzero : (n + 1) % 256 = 0
    · refine iff_of_true (hmeets [] ?_ (Or.inl rfl)) fun h => ?_
      · rw [hzero, Nat.sub_zero, List.drop_length]
      · rcases h.2 with ⟨h, -⟩ | ⟨-, h, -⟩
        · exact h rfl
        · exact h hzero
    · by_cases h256 : 256 ≤ n
      · refine iff_of_false ?_ fun h => h ⟨h256, Or.inr ⟨rfl, hzero, by omega⟩⟩
        rintro ⟨rv, b', h, hremoved, -, -⟩
        obtain ⟨rfl, rfl⟩ := Prod.mk.inj (Option.some.inj (heq.symm.trans h))
        obtain ⟨s, hs, -, hform⟩ := hremoved rfl
        have hsame := List.append_cancel_left ((List.take_append_drop _ _).trans hs)
        have hdrop := hsame.symm.trans (drop_zeros front (show (n + 1) % 256 ≤ n by omega))
        rcases hform with rfl | ⟨m, rfl⟩
        · have hlen := congrArg List.length hdrop
          rw [List.length_replicate] at hlen
          exact hzero hlen.symm
        · have hmem : (0x80 : UInt8) ∈ List.replicate ((n + 1) % 256) (0 : UInt8) :=
            hdrop ▸ List.mem_cons_self
          exact h80 (List.eq_of_mem_replicate hmem)
      · have hsmall : (n + 1) % 256 = n + 1 := by omega
        refine iff_of_true (hmeets (0x80 :: List.replicate n 0) ?_ (Or.inr ⟨n, rfl⟩)) fun h => ?_
        · rw [hsmall, hlength, Nat.add_sub_cancel, List.drop_left]
        · exact h256 h.1

theorem unpaddsZka_iff (hlen : y ≤ b.length) :
    UnpaddsZka b y ↔ (¬∃ n, b = List.replicate n 0) ∧ ¬WrapsZka b y := by
  rcases exists_zeros b with ⟨n, rfl⟩ | ⟨front, c, n, rfl, hc⟩
  · refine iff_of_false ?_ fun h => h.1 ⟨n, rfl⟩
    rintro ⟨rv, b', h, -⟩
    rw [List.length_replicate] at hlen
    rw [unpaddZka_zeros (by omega)] at h
    cases h
  · have hzeros : ¬∃ m, front ++ c :: List.replicate n 0 = List.replicate m 0 := by
      rintro ⟨m, h⟩
      have hmem : c ∈ List.replicate m (0 : UInt8) :=
        h ▸ List.mem_append_right _ List.mem_cons_self
      exact hc (List.eq_of_mem_replicate hmem)
    rw [and_iff_right hzeros]
    by_cases h80 : c = 0x80
    · subst h80
      exact unpaddsZka_padding (by omega)
    · exact unpaddsZka_other hc h80 (by omega)

end

/-! ### ISO 9796-2 -/

/-- The data between a header of zeros, eight bytes and a trailer of one byte is left. -/
def UnpaddsIso (b : List UInt8) : Prop :=
  ∃ rv b', unpaddWithIso9796_2 b = some (rv, b') ∧
    (rv = 0 → ∃ (n : ℕ) (random trailer : List UInt8), random.length = 8 ∧ trailer.length = 1 ∧
      b = 0x60 :: (List.replicate n 0 ++ 0x01 :: (random ++ b' ++ trailer)))

/-- Nothing but zeros behind the first byte. -/
def NoMark (b : List UInt8) : Prop := ∃ n, 10 ≤ n ∧ b = 0x60 :: List.replicate n 0

/-- The block ends less than nine bytes behind the zeros. -/
def CutOff (b : List UInt8) : Prop :=
  ∃ n rest, b = 0x60 :: (List.replicate n 0 ++ 0x01 :: rest) ∧ 11 ≤ b.length ∧ rest.length < 9

section
variable {b rest : List UInt8} {c : UInt8} {n : ℕ}

theorem mark_unique {n' : ℕ} {c' : UInt8} {rest' : List UInt8} (hc : c ≠ 0) (hc' : c' ≠ 0)
    (h : List.replicate n 0 ++ c :: rest = List.replicate n' 0 ++ c' :: rest') :
    n = n' ∧ c = c' ∧ rest = rest' := by
  have hrev := congrArg List.reverse h
  simp only [List.reverse_append, List.reverse_cons, List.reverse_replicate, List.append_assoc,
    List.singleton_append] at hrev
  obtain ⟨hrest, hcc, hn⟩ := zeros_unique hc hc' hrev
  exact ⟨hn, hcc, List.reverse_inj.mp hrest⟩

theorem unpaddIso_mark (hc : c ≠ 0) :
    unpaddWithIso9796_2 (0x60 :: (List.replicate n 0 ++ c :: rest)) =
      if n + rest.length < 9 then
        some (errorInvalid, 0x60 :: (List.replicate n 0 ++ c :: rest))
      else if c ≠ 0x01 then some (errorBadData, 0x60 :: (List.replicate n 0 ++ c :: rest))
      else (crop (0x60 :: (List.replicate n 0 ++ c :: rest)) (10 + n)
        (wsub (wsub (n + rest.length + 2) 11) n)).map fun b => (0, b) := by
  have hscan := Scan.append_cons (· == (0 : UInt8)) (List.replicate n 0) rest c
    (fun x hx => by rw [List.eq_of_mem_replicate hx]; rfl) (by simpa using hc)
  have hget : (0x60 :: (List.replicate n 0 ++ c :: rest))[n + 1]? = some c := by
    rw [List.getElem?_cons_succ,
      List.getElem?_append_right (Nat.le_of_eq List.length_replicate), List.length_replicate,
      Nat.sub_self, List.getElem?_cons_zero]
  have hlen : (0x60 :: (List.replicate n 0 ++ c :: rest)).length = n + rest.length + 2 := by
    rw [List.length_cons, List.length_append, List.length_replicate, List.length_cons]
    omega
  rw [unpaddWithIso9796_2, hlen, List.head?_cons, List.tail_cons]
  dsimp only
  rw [hscan.1, List.length_replicate, hget, Option.bind_some]
  by_cases h9 : n + rest.length < 9
  · rw [if_pos (by omega), if_pos h9]
  · rw [if_neg (by omega), if_neg h9, if_neg (not_not_intro rfl)]

theorem unpaddsIso_of_error {rv : ℤ} (h : unpaddWithIso9796_2 b = some (rv, b)) (hrv : rv ≠ 0) :
    UnpaddsIso b := ⟨rv, b, h, fun h0 => absurd h0 hrv⟩

theorem unpaddsIso_mark (hlt : (0x60 :: (List.replicate n 0 ++ 0x01 :: rest)).length < 2 ^ 32)
    (h11 : 9 ≤ n + rest.length) :
    UnpaddsIso (0x60 :: (List.replicate n 0 ++ 0x01 :: rest)) ↔ 9 ≤ rest.length := by
  have hone : (0x01 : UInt8) ≠ 0 := by decide
  have hlength : (0x60 :: (List.replicate n 0 ++ 0x01 :: rest)).length = n + rest.length + 2 := by
    rw [List.length_cons, List.length_append, List.length_replicate, List.length_cons]
    omega
  have heq := @unpaddIso_mark rest 0x01 n hone
  rw [if_neg (by omega), if_neg (not_not_intro rfl)] at heq
  constructor
  · rintro ⟨rv, b', h, hform⟩
    rw [heq, Option.map_eq_some_iff] at h
    obtain ⟨d, -, hd⟩ := h
    obtain ⟨rfl, rfl⟩ := Prod.mk.inj hd
    obtain ⟨m, random, trailer, hrandom, htrailer, hb⟩ := hform rfl
    obtain ⟨-, -, rfl⟩ := mark_unique hone hone (List.cons.inj hb).2
    rw [List.length_append, List.length_append, hrandom, htrailer]
    omega
  · intro h9
    have hsplit : rest = rest.take 8 ++ ((rest.drop 8).take (rest.length - 9) ++
        (rest.drop 8).drop (rest.length - 9)) := by
      rw [List.take_append_drop, List.take_append_drop]
    have htake : (rest.take 8).length = 8 := List.length_take_of_le (by omega)
    have hdata : ((rest.drop 8).take (rest.length - 9)).length = rest.length - 9 :=
      List.length_take_of_le (by rw [List.length_drop]; omega)
    have htrailer : ((rest.drop 8).drop (rest.length - 9)).length = 1 := by
      rw [List.length_drop, List.length_drop]
      omega
    have hsize : wsub (wsub (n + rest.length + 2) 11) n = rest.length - 9 := by
      have h11 : wsub (n + rest.length + 2) 11 = n + rest.length - 9 := by
        rw [wsub_of_le (by omega) (by omega)]
        omega
      rw [h11, wsub_of_le (by omega) (by omega)]
      omega
    have hcrop : crop (0x60 :: (List.replicate n 0 ++ 0x01 :: rest)) (10 + n)
        (rest.length - 9) = some ((rest.drop 8).take (rest.length - 9)) := by
      have happend := @crop_append ((rest.drop 8).take (rest.length - 9))
        (0x60 :: (List.replicate n 0 ++ 0x01 :: rest.take 8))
        ((rest.drop 8).drop (rest.length - 9))
      have hfront : (0x60 :: (List.replicate n 0 ++ 0x01 :: rest.take 8)).length = 10 + n := by
        rw [List.length_cons, List.length_append, List.length_replicate, List.length_cons, htake]
        omega
      rw [hfront, hdata, List.cons_append, List.append_assoc, List.cons_append, ← hsplit] at happend
      exact happend
    rw [hsize, hcrop, Option.map_some] at heq
    refine ⟨0, _, heq, fun _ => ⟨n, rest.take 8, (rest.drop 8).drop (rest.length - 9), htake,
      htrailer, ?_⟩⟩
    rw [List.append_assoc, ← hsplit]

theorem unpaddsIso_iff (hlt : b.length < 2 ^ 32) : UnpaddsIso b ↔ ¬NoMark b ∧ ¬CutOff b := by
  have hbad : errorBadData ≠ 0 := by decide
  have hone : (0x01 : UInt8) ≠ 0 := by decide
  by_cases h11 : b.length < 11
  · have herror : unpaddWithIso9796_2 b = some (errorInvalid, b) := by
      rw [unpaddWithIso9796_2, if_pos h11]
    refine iff_of_true (unpaddsIso_of_error herror (by decide)) ⟨?_, ?_⟩
    · rintro ⟨n, hn, rfl⟩
      rw [List.length_cons, List.length_replicate] at h11
      omega
    · rintro ⟨_, _, _, h, _⟩
      omega
  · by_cases hhead : b.head? = some 0x60
    · obtain ⟨t, rfl⟩ := List.head?_eq_some_iff.mp hhead
      rcases Scan.exists_first (· == 0) t with hall | ⟨xs, c, rest, rfl, hxs, hc⟩
      · have ht : t = List.replicate t.length 0 :=
          List.eq_replicate_iff.mpr ⟨rfl, fun x hx => beq_iff_eq.mp (hall x hx)⟩
        rw [List.length_cons] at h11
        refine iff_of_false ?_ fun h => h.1 ⟨t.length, by omega, congrArg _ ht⟩
        rintro ⟨rv, b', h, -⟩
        have hscan := Scan.all (· == (0 : UInt8)) t hall
        rw [unpaddWithIso9796_2, List.length_cons, if_neg h11, List.head?_cons,
          if_neg (not_not_intro rfl)] at h
        dsimp only at h
        rw [List.tail_cons, hscan.1, List.getElem?_eq_none (by simp)] at h
        cases h
      · have hzeros : xs = List.replicate xs.length 0 :=
          List.eq_replicate_iff.mpr ⟨rfl, fun x hx => beq_iff_eq.mp (hxs x hx)⟩
        generalize xs.length = n at hzeros
        subst hzeros
        have hc0 : c ≠ 0 := by simpa using hc
        have hmark : ¬NoMark (0x60 :: (List.replicate n 0 ++ c :: rest)) := by
          rintro ⟨m, -, h⟩
          have hmem : c ∈ List.replicate m (0 : UInt8) :=
            (List.cons.inj h).2 ▸ List.mem_append_right _ List.mem_cons_self
          exact hc0 (List.eq_of_mem_replicate hmem)
        have hlength : (0x60 :: (List.replicate n 0 ++ c :: rest)).length =
            n + rest.length + 2 := by
          rw [List.length_cons, List.length_append, List.length_replicate, List.length_cons]
          omega
        rw [and_iff_right hmark]
        by_cases h1 : c = 0x01
        · subst h1
          rw [unpaddsIso_mark hlt (by omega)]
          constructor
          · rintro h9 ⟨m, rest', h, -, hcut⟩
            obtain ⟨-, -, rfl⟩ := mark_unique hone hone (List.cons.inj h).2
            omega
          · intro h
            by_contra h9
            exact h ⟨n, rest, rfl, by omega, by omega⟩
        · have herror := @unpaddIso_mark rest c n hc0
          rw [if_neg (by omega), if_pos h1] at herror
          refine iff_of_true (unpaddsIso_of_error herror hbad) ?_
          rintro ⟨m, rest', h, -⟩
          exact h1 (mark_unique hc0 hone (List.cons.inj h).2).2.1
    · have herror : unpaddWithIso9796_2 b = some (errorBadData, b) := by
        rw [unpaddWithIso9796_2, if_neg h11, if_pos hhead]
      refine iff_of_true (unpaddsIso_of_error herror hbad) ⟨?_, ?_⟩
      · rintro ⟨n, -, rfl⟩
        exact hhead rfl
      · rintro ⟨n, rest, rfl, -⟩
        exact hhead rfl

end

/-- Both scans stay in the buffer, and only paddings are removed. -/
def UnpaddsInside (b : List UInt8) (y : ℕ) : Prop := UnpaddsZka b y ∧ UnpaddsIso b

/-- The scans stay in the buffer and only paddings are removed, unless there is nothing but zeros,
the number of zeros does not fit its type, or a block is cut off. -/
theorem unpaddsInside_iff (b : List UInt8) (y : ℕ) (hlen : y ≤ b.length)
    (hlt : b.length < 2 ^ 32) : UnpaddsInside b y ↔
      ((¬∃ n, b = List.replicate n 0) ∧ ¬WrapsZka b y) ∧ ¬NoMark b ∧ ¬CutOff b := by
  rw [UnpaddsInside, unpaddsZka_iff hlen, unpaddsIso_iff hlt]

/-- One byte and a padding of two. -/
theorem unpaddsInside_three : UnpaddsInside [65, 0x80, 0] 3 := by
  refine (unpaddsInside_iff _ 3 (by decide) (by decide)).mpr ⟨⟨?_, ?_⟩, ?_, ?_⟩
  · rintro ⟨n, h⟩
    have hmem : (65 : UInt8) ∈ List.replicate n (0 : UInt8) := h ▸ List.mem_cons_self
    exact absurd (List.eq_of_mem_replicate hmem) (by decide)
  · rintro ⟨front, c, n, h, hn, -⟩
    have hlen := congrArg List.length h
    simp at hlen
    omega
  · rintro ⟨n, -, h⟩
    cases h
  · rintro ⟨n, rest, h, -⟩
    cases h

/-- Nothing but zeros. -/
theorem not_unpaddsInside_zeros : ¬UnpaddsInside (List.replicate 8 0) 8 := fun h =>
  ((unpaddsInside_iff _ 8 (by decide) (by decide)).mp h).1.1 ⟨8, rfl⟩
end Gwenhywfar.Padd
