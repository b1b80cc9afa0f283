import Gwenhywfar.Base.BufferInv

/-! # Runs of calls on a `GWEN_BUFFER`

* `Allowed`: no `uint32_t` sum overflows, the hard limit is not hit, the bytes to replace are in
  the buffer, and nothing is inserted at a position behind the data.
* `Safe`: no bytes are reserved in front of data that leave the NUL behind, no crop accepts a
  position behind the data, and the counts that are converted to `int` fit.
* A run from `GWEN_Buffer_new` whose calls are allowed and safe keeps the representation
  invariant (`repInv_run`). -/

namespace Gwenhywfar.Buffer

/-- A call of one of the functions that change a buffer. -/
inductive Op where
  | appendBytes (bytes : List UInt8)
  | appendByte (c : UInt8)
  | fillWithBytes (c : UInt8) (size : ℕ)
  | insertBytes (bytes : List UInt8)
  | insertByte (c : UInt8)
  | fillLeftWithBytes (c : UInt8) (size : ℕ)
  | replaceBytes (rsize : ℕ) (bytes : List UInt8)
  | removeRoom (size : ℕ)
  | reserveBytes (res : ℕ)
  | crop (pos l : ℕ)
  | setPos (i : ℕ)
  | incrementPos (i : ℕ)
  | decrementPos (i : ℕ)
  | readBytes (size : ℕ)
  | rewind
  | reset
deriving DecidableEq, Repr

def call (bf : Buffer) : Op → Option Buffer
  | .appendBytes bytes => (bf.appendBytes bytes).map Prod.snd
  | .appendByte c => (bf.appendByte c).map Prod.snd
  | .fillWithBytes c size => (bf.fillWithBytes c size).map Prod.snd
  | .insertBytes bytes => (bf.insertBytes bytes).map Prod.snd
  | .insertByte c => (bf.insertByte c).map Prod.snd
  | .fillLeftWithBytes c size => (bf.fillLeftWithBytes c size).map Prod.snd
  | .replaceBytes rsize bytes => (bf.replaceBytes rsize bytes).map Prod.snd
  | .removeRoom size => (bf.removeRoom size).map Prod.snd
  | .reserveBytes res => (bf.reserveBytes res).map Prod.snd
  | .crop pos l => (bf.crop pos l).map Prod.snd
  | .setPos i => some (bf.setPos i).2
  | .incrementPos i => some (bf.incrementPos i).2
  | .decrementPos i => some (bf.decrementPos i).2
  | .readBytes size => (bf.readBytes size).map Prod.snd
  | .rewind => some bf.rewind
  | .reset => bf.reset

/-- The sizes are small enough, and the data at the position is there. -/
def Allowed (bf : Buffer) : Op → Prop
  | .appendBytes bytes => NoHit bf (bytes.length + 1)
  | .appendByte _ => bf.bytesUsed + 2 ≤ bf.bufferSize ∨ NoHit bf 2
  | .fillWithBytes _ size => NoHit bf (size + 1)
  | .insertBytes bytes => InsertAllowed bf bytes.length
  | .insertByte _ => InsertAllowed bf 1
  | .fillLeftWithBytes _ size => InsertAllowed bf size
  | .replaceBytes rsize bytes => ReplaceAllowed bf rsize bytes.length
  | .removeRoom size => size + bf.pos < 2 ^ 32
  | .reserveBytes res => res = 0 ∨ NoHit bf res
  | .incrementPos i => bf.pos + i ≤ bf.bytesUsed
  | _ => True

/-- The call does not run into one of the defects. -/
def Safe (bf : Buffer) : Op → Prop
  | .insertBytes bytes => InsertSafe bf bytes.length
  | .fillLeftWithBytes _ size => InsertSafe bf size
  | .replaceBytes rsize bytes => ReplaceSafe bf rsize bytes.length
  | .removeRoom size => RemoveSafe bf size
  | .reserveBytes res => ReserveSafe bf res
  | .crop pos l => CropSafe bf pos l
  | .readBytes size => ReadSafe bf size
  | _ => True

instance (bf : Buffer) (o : Op) : Decidable (Allowed bf o) := by
  cases o <;> dsimp only [Allowed] <;> infer_instance

instance (bf : Buffer) (o : Op) : Decidable (Safe bf o) := by
  cases o <;> dsimp only [Safe] <;> infer_instance

/-- An allowed and safe call succeeds and keeps the invariant. -/
theorem call_spec {bf : Buffer} {o : Op} (h : RepInv bf) (ha : Allowed bf o) (hs : Safe bf o) :
    ∃ bf', bf.call o = some bf' ∧ RepInv bf' := by
  have hsnd : ∀ {r : Option (ℤ × Buffer)}, (∃ x, r = some x ∧ RepInv x.2) →
      ∃ bf', r.map Prod.snd = some bf' ∧ RepInv bf' := by
    rintro r ⟨x, rfl, hx⟩
    exact ⟨x.2, rfl, hx⟩
  have hok : ∀ {r : Option (ℤ × Buffer)}, (∃ b, r = some (0, b) ∧ RepInv b) →
      ∃ bf', r.map Prod.snd = some bf' ∧ RepInv bf' :=
    fun ⟨b, hb, hr⟩ => hsnd ⟨_, hb, hr⟩
  cases o with
  | appendBytes bytes => exact hok (appendBytes_spec h ha)
  | appendByte c => exact hok (appendByte_spec h c ha)
  | fillWithBytes c size => exact hok (fillWithBytes_spec h c ha)
  | insertBytes bytes => exact hok (insertBytes_spec h ha hs)
  | insertByte c => exact hok (insertByte_spec h c ha)
  | fillLeftWithBytes c size => exact hok (fillLeftWithBytes_spec h c ha hs)
  | replaceBytes rsize bytes => exact hok (replaceBytes_spec h ha hs)
  | removeRoom size => exact hsnd (removeRoom_spec h ha hs)
  | reserveBytes res => exact hok (reserveBytes_spec h ha hs)
  | crop pos l => exact hsnd (crop_spec h hs)
  | setPos i => exact ⟨_, rfl, setPos_spec h i⟩
  | incrementPos i => exact ⟨_, rfl, incrementPos_spec h i⟩
  | decrementPos i => exact ⟨_, rfl, decrementPos_spec h i⟩
  | readBytes size =>
      obtain ⟨r, hr, hi⟩ := readBytes_spec h hs
      exact ⟨r.2, by rw [call, hr, Option.map_some], hi⟩
  | rewind => exact ⟨_, rfl, rewind_spec h⟩
  | reset => exact reset_spec h

theorem new_spec {size : ℕ} (h0 : 0 < size) (h : size + 1 < 2 ^ 32) :
    ∃ bf, new size = some bf ∧ RepInv bf := by
  have hw : wadd size 1 = size + 1 := wadd_of_lt h
  unfold new
  rw [if_neg (by omega), hw]
  refine ⟨_, rfl, ⟨?_, ?_, ?_, h, Nat.two_pow_pos 32, rfl, rfl, rfl⟩, ?_, rfl⟩
  · exact Nat.zero_add _
  · simp only [List.length_cons, List.length_replicate, le_refl]
  · simp only [List.length_cons, List.length_replicate]
    omega
  · simp only []
    omega

def run (size : ℕ) (ops : List Op) : Option Buffer :=
  (new size).bind fun bf => Gwenhywfar.exec call bf ops

def RunAlong (P : Buffer → Op → Prop) (size : ℕ) (ops : List Op) : Prop :=
  ∀ bf, new size = some bf → Along call P bf ops

/-- The calls succeed, and the representation invariant holds at every moment. -/
def KeepsInv (size : ℕ) (ops : List Op) : Prop :=
  ∀ pre, pre <+: ops → ∃ bf, run size pre = some bf ∧ RepInv bf

/-- The representation invariant holds at every moment of a run of allowed and safe calls. -/
theorem keepsInv_of_safe {size : ℕ} {ops : List Op} (h0 : 0 < size) (h : size + 1 < 2 ^ 32)
    (ha : RunAlong (fun bf o => Allowed bf o ∧ Safe bf o) size ops) : KeepsInv size ops := by
  intro pre hpre
  obtain ⟨bf, hbf, hi⟩ := new_spec h0 h
  obtain ⟨bf', he, hi'⟩ :=
    Along.exec_initial (fun bf o hi hp => call_spec hi hp.1 hp.2) hi (ha bf hbf) pre hpre
  exact ⟨bf', by rw [run, hbf, Option.bind_some, he], hi'⟩

/-- Data is inserted before data, the front is cropped, and its bytes are reused. -/
theorem keepsInv_insert_crop : KeepsInv 4
    [.appendBytes [98, 99], .insertBytes [97, 97], .crop 1 3, .insertByte 96, .reset,
      .reserveBytes 2] :=
  keepsInv_of_safe (by decide) (by decide) fun bf hbf => by
    cases hbf
    decide +kernel

/-- Bytes that are reserved in front of data leave the NUL behind, and a crop at a position behind
the data accepts a length that reaches behind the block. -/
theorem keepsInv_fails : (RunAlong Allowed 4 [.appendByte 97, .reserveBytes 2] ∧
      ¬ KeepsInv 4 [.appendByte 97, .reserveBytes 2]) ∧
    RunAlong Allowed 4 [.crop 3 4] ∧ ¬ KeepsInv 4 [.crop 3 4] := by
  refine ⟨⟨fun bf hbf => ?_, fun h => ?_⟩, fun bf hbf => ?_, fun h => ?_⟩
  · cases hbf
    decide
  · obtain ⟨bf, hbf, hi⟩ := h _ (List.prefix_refl _)
    have hcell : (run 4 [.appendByte 97, .reserveBytes 2]).map
        (fun bf => bf.block[bf.ptr + bf.bytesUsed]?) = some (some none) := by decide
    rw [hbf, Option.map_some, hi.nul] at hcell
    exact absurd hcell (by decide)
  · cases hbf
    decide
  · obtain ⟨bf, hbf, -⟩ := h _ (List.prefix_refl _)
    have hnone : run 4 [.crop 3 4] = none := by decide
    rw [hbf] at hnone
    exact absurd hnone (by simp)
end Gwenhywfar.Buffer
