import Gwenhywfar.Gui.PasswdStoreEntries

/-! # The file of a password store

* `StoreEnv`: the file, and what the functions for files, passwords, ciphers and digests answer.
* `StoreEnv.prepare`, `StoreEnv.setPassword`: `GWEN_PasswordStore_SetPassword` up to the contents
  that are to be written, and the writing.
* `storeSafe_iff`: an error of `fread` is taken as the end of the file and an error of `fclose` as
  success, and the change may be made to a variable of another name. -/

namespace Gwenhywfar

open Db PasswdStore
open CString (ofBytes)

/-- What the calls of `fread` return one after the other, up to one that returns nothing. -/
def readLoop : List (List UInt8) → List UInt8
  | [] => []
  | piece :: pieces => if piece = [] then [] else piece ++ readLoop pieces

/-- A file and the answers of the functions that are called.  `GWEN_Directory_GetPath` creates a
missing file.  The calls of `fread` return the front of the contents of the file, and all of them
where none fails. -/
structure StoreEnv where
  file : Option (List UInt8)
  readable : Bool
  pieces : List (List UInt8)
  readFails : Bool
  pieces_front : readLoop pieces <+: file.getD []
  pieces_eq : readFails = false → readLoop pieces = file.getD []
  path : ℤ
  lock : Bool
  inputs : List CString
  aborted : ℤ
  aborted_neg : aborted < 0
  decrypt : CString → List UInt8 → Except ℤ (List UInt8)
  digest : List UInt8 → Except ℤ (List UInt8)
  digest_neg : ∀ {data rv}, digest data = .error rv → rv < 0
  pathAgain : ℤ
  newPassword : Except ℤ CString
  newPassword_neg : ∀ {rv}, newPassword = .error rv → rv < 0
  encrypt : CString → List UInt8 → Except ℤ (List UInt8)
  encrypt_neg : ∀ {pw data rv}, encrypt pw data = .error rv → rv < 0
  openWrite : Bool
  writeOk : Bool
  closeOk : Bool

/-- `GWEN_PASSWD_STORE`; a password without characters is none. -/
structure PasswdState where
  pw : CString
  dbPasswords : Option DbHeap
  isTree : ∀ h, dbPasswords = some h → IsTree h

namespace StoreEnv

/-- `SetPassword` takes these results of the reading as a store that does not exist yet. -/
def isNew (rv : ℤ) : Prop := rv = errorNotFound ∨ rv = errorNoData

instance (rv : ℤ) : Decidable (isNew rv) := inferInstanceAs (Decidable (_ ∨ _))

/-! ### Reading -/

/-- The hash behind a decrypted text is checked and removed.  A text without room for it leaves the
result of the decryption. -/
def checkText (env : StoreEnv) (t : List UInt8) : ℤ × List UInt8 :=
  if t.length < 20 then (0, [])
  else
    match env.digest (t.take (t.length - 20)) with
    | .error rv => (rv, [])
    | .ok h => if h ≠ t.drop (t.length - 20) then (errorBadData, []) else (0, t.take (t.length - 20))

def firstDecrypted (env : StoreEnv) (sbuf : List UInt8) :
    List CString → Option (List UInt8 × CString)
  | [] => none
  | pw :: rest =>
      match env.decrypt pw sbuf with
      | .error _ => firstDecrypted env sbuf rest
      | .ok t => some (t, pw)

/-- The passwords that are tried: the known one, and those that are entered. -/
def passwords (env : StoreEnv) (sto : PasswdState) : List CString :=
  if sto.pw.bytes = [] then env.inputs else sto.pw :: env.inputs

/-- `GWEN_PasswordStore_ReadDecryptFile`: the result, the text and the password. -/
def readDecryptFile (env : StoreEnv) (sto : PasswdState) : ℤ × List UInt8 × CString :=
  if !env.readable then (errorIo, [], sto.pw)
  else if readLoop env.pieces = [] then (errorNoData, [], sto.pw)
  else
    match env.firstDecrypted (readLoop env.pieces) (env.passwords sto) with
    | none => (env.aborted, [], ofBytes [])
    | some (t, pw) => ((env.checkText t).1, (env.checkText t).2, pw)

/-- `GWEN_PasswordStore_ReadFile`: the result, the password and the entries. -/
def readFile (env : StoreEnv) (sto : PasswdState) : Option (ℤ × CString × Option DbHeap) :=
  let r := env.readDecryptFile sto
  if r.1 < 0 then some (r.1, r.2.2, sto.dbPasswords)
  else
    (readFromString newPasswords 0 r.2.1 flagsDefault).map fun h =>
      (if h.1 < 0 then h.1 else 0, r.2.2, some h.2)

/-! ### Writing -/

def askPassword (env : StoreEnv) (pw : CString) : Except ℤ CString :=
  if pw.bytes = [] then env.newPassword else .ok pw

/-- `GWEN_PasswordStore_WriteFile` and `GWEN_PasswordStore_EncryptWriteFile`, up to `writeFile`: the
contents that are to be written. -/
def sealEntries (env : StoreEnv) (pw : CString) (t : DbNodes) : Except ℤ (List UInt8) :=
  let w := writeToBuffer t [] flagsDefault
  if w.1 < 0 then .error w.1
  else if env.pathAgain < 0 then .error env.pathAgain
  else
    (env.askPassword pw).bind fun pw =>
      (env.digest w.2).bind fun hash => env.encrypt pw (w.2 ++ hash)

/-- `GWEN_PasswordStore_SetPassword` up to `writeFile`: the entries and the contents that are to be
written. -/
def prepare (env : StoreEnv) (sto : PasswdState) (token : CString) (secret : Option CString) :
    Option (Except ℤ (DbNodes × List UInt8)) :=
  if env.path < 0 then some (.error env.path)
  else if !env.lock then some (.error errorIo)
  else
    (env.readFile sto).bind fun r =>
      if r.1 < 0 ∧ ¬isNew r.1 then some (.error r.1)
      else
        (setInDb (r.2.2.getD newPasswords) token secret).map fun h =>
          (env.sealEntries r.2.1 (entriesOf h)).map fun b => (entriesOf h, b)

/-- The result, whether the file was opened for writing, and the entries and contents, if they were
written and the file closed. -/
structure SetResult where
  rv : ℤ
  touched : Bool
  written : Option (DbNodes × List UInt8)

/-- `writeFile`; for an error of `fclose` it returns the result of the writing. -/
def writeFile (env : StoreEnv) (p : DbNodes × List UInt8) : SetResult :=
  if !env.openWrite then ⟨errorIo, false, none⟩
  else if !env.writeOk then ⟨errorIo, true, none⟩
  else if !env.closeOk then ⟨0, true, none⟩
  else ⟨0, true, some p⟩

/-- `GWEN_PasswordStore_SetPassword`. -/
def setPassword (env : StoreEnv) (sto : PasswdState) (token : CString)
    (secret : Option CString) : Option SetResult :=
  (env.prepare sto token secret).map fun p =>
    match p with
    | .error rv => ⟨rv, false, none⟩
    | .ok p => env.writeFile p

/-! ### What is asked of it -/

def HasContents (env : StoreEnv) : Prop := env.file.getD [] ≠ []

def Verified (env : StoreEnv) (sto : PasswdState) (text : List UInt8) (pw : CString) : Prop :=
  env.readable = true ∧ env.readFails = false ∧
    ∃ t, env.firstDecrypted (readLoop env.pieces) (env.passwords sto) = some (t, pw) ∧
      20 ≤ t.length ∧ text = t.take (t.length - 20) ∧
      env.digest text = .ok (t.drop (t.length - 20))

def OldEntries (env : StoreEnv) (sto : PasswdState) (old : DbNodes) (pw : CString) : Prop :=
  (¬env.HasContents ∧ old = .nil ∧ pw = sto.pw) ∨
    env.HasContents ∧ ∃ text h, env.Verified sto text pw ∧
      readFromString newPasswords 0 text flagsDefault = some h ∧ 0 ≤ h.1 ∧ old = entriesOf h.2

/-- The contents are the text of the entries with its hash, encrypted with the password or, if there
is none, with a new one. -/
def Sealed (env : StoreEnv) (pw : CString) (t : DbNodes) (b : List UInt8) : Prop :=
  0 ≤ (writeToBuffer t [] flagsDefault).1 ∧ ∃ pw' hash, env.askPassword pw = .ok pw' ∧
    env.digest (writeToBuffer t [] flagsDefault).2 = .ok hash ∧
      env.encrypt pw' ((writeToBuffer t [] flagsDefault).2 ++ hash) = .ok b

/-- A file with contents that are not verified is not written, and after a success the file was
written and closed with the old entries and the change. -/
def StoreSafe (env : StoreEnv) (sto : PasswdState) (token : CString) (secret : Option CString) :
    Prop :=
  ∀ r, env.setPassword sto token secret = some r →
    (env.HasContents → (¬∃ text pw, env.Verified sto text pw) → r.rv < 0 ∧ r.touched = false) ∧
    (r.rv = 0 → ∃ old pw b, env.OldEntries sto old pw ∧
      r.written = some (changed token secret old, b) ∧ env.Sealed pw (changed token secret old) b)

/-- No call of `fread` fails, and no error on the way has the code of a store that does not
exist. -/
def ReadFits (env : StoreEnv) (sto : PasswdState) : Prop :=
  env.HasContents → env.readFails = false ∧
    (env.firstDecrypted (readLoop env.pieces) (env.passwords sto) = none → ¬isNew env.aborted) ∧
    ∀ t pw, env.firstDecrypted (readLoop env.pieces) (env.passwords sto) = some (t, pw) →
      20 ≤ t.length → ∀ rv, env.digest (t.take (t.length - 20)) = .error rv → ¬isNew rv

/-- Where there are no entries in the file the store has none left from before, but the one that is
changed.  The text of the file is parsed without an error, and in it the token finds its own
variable. -/
def EntriesFit (env : StoreEnv) (sto : PasswdState) (token : CString) (secret : Option CString) :
    Prop :=
  (¬env.HasContents →
    OnlyToken token secret (entriesOf (sto.dbPasswords.getD newPasswords))) ∧
    (env.HasContents → ∀ text pw h, env.Verified sto text pw →
      readFromString newPasswords 0 text flagsDefault = some h →
        0 ≤ h.1 ∧ TokenFits token secret (entriesOf h.2))

/-- Wherever contents are ready to be written and the file can be opened, the old ones were read
without a fault, and if everything is written, closing succeeds and the entries fit. -/
def StoreFits (env : StoreEnv) (sto : PasswdState) (token : CString) (secret : Option CString) :
    Prop :=
  (∃ p, env.prepare sto token secret = some (.ok p)) → env.openWrite = true →
    env.ReadFits sto ∧
      (env.writeOk = true → env.closeOk = true ∧ env.EntriesFit sto token secret)

section
variable {env : StoreEnv} {sto : PasswdState} {token : CString} {secret : Option CString}

theorem not_isNew_errorIo : ¬isNew errorIo := by decide

theorem not_isNew_errorBadData : ¬isNew errorBadData := by decide

/-- Without contents the store is a new one. -/
theorem readFile_of_no_contents (h : ¬env.HasContents) :
    ∃ rv < 0, env.readFile sto = some (rv, sto.pw, sto.dbPasswords) := by
  have hloop : readLoop env.pieces = [] := by
    have hfront := env.pieces_front
    rw [not_not.mp h] at hfront
    exact List.prefix_nil.mp hfront
  have hio : errorIo < 0 := by decide
  have hno : errorNoData < 0 := by decide
  rw [readFile, readDecryptFile, hloop]
  cases env.readable with
  | false => exact ⟨errorIo, hio, by simp⟩
  | true => exact ⟨errorNoData, hno, by simp⟩

theorem readFromString_nil : (readFromString newPasswords 0 [] flagsDefault).map Prod.fst =
    some errorEof := by decide

/-- With contents that are read without a fault, only verified ones are passed on. -/
theorem readFile_of_contents (hc : env.HasContents) (h : env.ReadFits sto) :
    (∃ text pw, env.Verified sto text pw ∧ env.readFile sto =
      (readFromString newPasswords 0 text flagsDefault).map fun h =>
        (if h.1 < 0 then h.1 else 0, pw, some h.2)) ∨
      ∀ r, env.readFile sto = some r → r.1 < 0 ∧ ¬isNew r.1 := by
  obtain ⟨hfails, hnone, hsome⟩ := h hc
  have hloop : readLoop env.pieces ≠ [] := by
    rw [env.pieces_eq hfails]
    exact hc
  have hstop {rv : ℤ} (hrv : rv < 0) (hnew : ¬isNew rv) (hrun : (env.readDecryptFile sto).1 = rv) :
      ∀ r, env.readFile sto = some r → r.1 < 0 ∧ ¬isNew r.1 := by
    intro r hr
    rw [readFile, hrun, if_pos hrv] at hr
    exact Option.some.inj hr ▸ ⟨hrv, hnew⟩
  by_cases hread : (!env.readable) = true
  · refine .inr (hstop (by decide) not_isNew_errorIo ?_)
    rw [readDecryptFile, if_pos hread]
  cases hfirst : env.firstDecrypted (readLoop env.pieces) (env.passwords sto) with
  | none =>
      refine .inr (hstop env.aborted_neg (hnone hfirst) ?_)
      rw [readDecryptFile, if_neg hread, if_neg hloop, hfirst]
  | some p =>
      obtain ⟨t, pw⟩ := p
      have hrun : env.readDecryptFile sto = ((env.checkText t).1, (env.checkText t).2, pw) := by
        rw [readDecryptFile, if_neg hread, if_neg hloop, hfirst]
      by_cases hlen : t.length < 20
      · -- the empty text is no text that can be read
        rw [checkText, if_pos hlen] at hrun
        refine .inr fun r hr => ?_
        rw [readFile, hrun] at hr
        dsimp only at hr
        rw [if_neg (lt_irrefl _)] at hr
        obtain ⟨h, hparse, rfl⟩ := Option.map_eq_some_iff.mp hr
        have heof := readFromString_nil
        rw [hparse] at heof
        have hrv : errorEof < 0 ∧ ¬isNew errorEof := by decide
        dsimp only
        rw [Option.some.inj heof, if_pos hrv.1]
        exact hrv
      rw [checkText, if_neg hlen] at hrun
      cases hd : env.digest (t.take (t.length - 20)) with
      | error rv =>
          rw [hd] at hrun
          exact .inr (hstop (env.digest_neg hd) (hsome t pw hfirst (not_lt.mp hlen) rv hd) (by rw [hrun]))
      | ok hash =>
          rw [hd] at hrun
          dsimp only at hrun
          by_cases heq : hash = t.drop (t.length - 20)
          · rw [if_neg (not_not_intro heq)] at hrun
            refine .inl ⟨t.take (t.length - 20), pw, ⟨by simpa using hread, hfails, t, hfirst,
              not_lt.mp hlen, rfl, by rw [hd, heq]⟩, ?_⟩
            rw [readFile, hrun]
            rfl
          · rw [if_pos heq] at hrun
            exact .inr (hstop (by decide) not_isNew_errorBadData (by rw [hrun]))

theorem readFits_of_verified {text : List UInt8} {pw : CString} (h : env.Verified sto text pw) :
    env.ReadFits sto := by
  obtain ⟨-, hfails, t, hfirst, hlen, rfl, hdigest⟩ := h
  intro _
  refine ⟨hfails, fun hnone => by simp [hnone] at hfirst, fun t' pw' ht' _ rv herror => ?_⟩
  obtain ⟨rfl, rfl⟩ := Prod.mk.inj (Option.some.inj (hfirst.symm.trans ht'))
  simp [hdigest] at herror

theorem verified_unique {text text' : List UInt8} {pw pw' : CString}
    (h : env.Verified sto text pw) (h' : env.Verified sto text' pw') : text' = text ∧ pw' = pw := by
  obtain ⟨-, -, t, hfirst, -, rfl, -⟩ := h
  obtain ⟨-, -, t', hfirst', -, rfl, -⟩ := h'
  obtain ⟨rfl, rfl⟩ := Prod.mk.inj (Option.some.inj (hfirst.symm.trans hfirst'))
  exact ⟨rfl, rfl⟩

/-- Entries that are ready to be written are sealed, and otherwise there is an error. -/
theorem sealEntries_spec (pw : CString) (t : DbNodes) :
    (∃ rv < 0, env.sealEntries pw t = .error rv) ∨
      ∃ b, env.sealEntries pw t = .ok b ∧ env.Sealed pw t b := by
  rw [sealEntries]
  by_cases hw : (writeToBuffer t [] flagsDefault).1 < 0
  · exact .inl ⟨_, hw, if_pos hw⟩
  by_cases hpath : env.pathAgain < 0
  · exact .inl ⟨_, hpath, by rw [if_neg hw, if_pos hpath]⟩
  rw [if_neg hw, if_neg hpath]
  cases hpw : env.askPassword pw with
  | error rv =>
      refine .inl ⟨rv, ?_, rfl⟩
      rw [askPassword] at hpw
      split at hpw
      · exact env.newPassword_neg hpw
      · cases hpw
  | ok pw' =>
      rw [Except.bind]
      cases hd : env.digest (writeToBuffer t [] flagsDefault).2 with
      | error rv => exact .inl ⟨rv, env.digest_neg hd, rfl⟩
      | ok hash =>
          rw [Except.bind]
          cases hb : env.encrypt pw' ((writeToBuffer t [] flagsDefault).2 ++ hash) with
          | error rv => exact .inl ⟨rv, env.encrypt_neg hb, rfl⟩
          | ok b => exact .inr ⟨b, rfl, not_lt.mp hw, pw', hash, hpw, hd, hb⟩

theorem prepare_cases {r : Except ℤ (DbNodes × List UInt8)}
    (h : env.prepare sto token secret = some r) :
    (∃ rv < 0, r = .error rv) ∨ ∃ rv pw h h' b, env.readFile sto = some (rv, pw, h) ∧
      (0 ≤ rv ∨ isNew rv) ∧ setInDb (h.getD newPasswords) token secret = some h' ∧
      r = .ok (entriesOf h', b) ∧ env.Sealed pw (entriesOf h') b := by
  rw [prepare] at h
  by_cases hpath : env.path < 0
  · rw [if_pos hpath] at h
    exact .inl ⟨env.path, hpath, (Option.some.inj h).symm⟩
  by_cases hlock : (!env.lock) = true
  · rw [if_neg hpath, if_pos hlock] at h
    exact .inl ⟨errorIo, by decide, (Option.some.inj h).symm⟩
  rw [if_neg hpath, if_neg hlock] at h
  obtain ⟨⟨rv, pw, entries⟩, hread, h⟩ := Option.bind_eq_some_iff.mp h
  dsimp only at h
  by_cases hstop : rv < 0 ∧ ¬isNew rv
  · rw [if_pos hstop] at h
    exact .inl ⟨rv, hstop.1, (Option.some.inj h).symm⟩
  rw [if_neg hstop] at h
  obtain ⟨h', hset, rfl⟩ := Option.map_eq_some_iff.mp h
  rcases sealEntries_spec pw (entriesOf h') with ⟨rv', hneg, hseal⟩ | ⟨b, hseal, hsealed⟩
  · exact .inl ⟨rv', hneg, by rw [hseal]; rfl⟩
  · refine .inr ⟨rv, pw, entries, h', b, hread, ?_, hset, by rw [hseal]; rfl, hsealed⟩
    rcases lt_or_ge rv 0 with hneg | hpos
    · exact .inr (not_not.mp fun hnew => hstop ⟨hneg, hnew⟩)
    · exact .inl hpos

/-- Where contents are prepared, the old ones are verified exactly when they were read without a
fault. -/
theorem verified_iff_of_prepare {p : DbNodes × List UInt8}
    (h : env.prepare sto token secret = some (.ok p)) :
    (env.HasContents → ∃ text pw, env.Verified sto text pw) ↔ env.ReadFits sto := by
  constructor
  · intro hverified hc
    obtain ⟨text, pw, htext⟩ := hverified hc
    exact readFits_of_verified htext hc
  · intro hfits hc
    rcases readFile_of_contents hc hfits with ⟨text, pw, hverified, -⟩ | hstop
    · exact ⟨text, pw, hverified⟩
    · rcases prepare_cases h with ⟨rv, -, heq⟩ | ⟨rv, pw, h, h', b, hread, hgo, -⟩
      · cases heq
      · obtain ⟨hneg, hnew⟩ := hstop _ hread
        rcases hgo with hpos | hnew'
        · exact absurd hneg (not_lt.mpr hpos)
        · exact absurd hnew' hnew

theorem changed_iff_of_prepare {t : DbNodes} {b : List UInt8}
    (hp : env.prepare sto token secret = some (.ok (t, b))) (hfits : env.ReadFits sto) :
    (∃ old pw b', env.OldEntries sto old pw ∧ some (t, b) = some (changed token secret old, b') ∧
      env.Sealed pw (changed token secret old) b') ↔ env.EntriesFit sto token secret := by
  rcases prepare_cases hp with ⟨rv, -, heq⟩ | ⟨rv, pw, h, h', b', hread, hgo, hset, heq, hsealed⟩
  · cases heq
  obtain ⟨rfl, rfl⟩ := Prod.mk.inj (Except.ok.inj heq)
  rw [EntriesFit]
  by_cases hc : env.HasContents
  · rw [and_iff_right fun hno => absurd hc hno]
    rcases readFile_of_contents hc hfits with ⟨text, pw', hverified, hrun⟩ | hstop
    · rw [hread] at hrun
      obtain ⟨r, hparse, hr⟩ := Option.map_eq_some_iff.mp hrun.symm
      obtain ⟨-, rfl, rfl⟩ : _ ∧ _ ∧ _ := ⟨(Prod.mk.inj hr).1, (Prod.mk.inj (Prod.mk.inj hr).2).1,
        (Prod.mk.inj (Prod.mk.inj hr).2).2⟩
      have hafter := (setInDb_spec (isTree_readFromString hparse) hset).2
      rw [hafter] at hsealed ⊢
      constructor
      · rintro ⟨old, pw, b', hold, heq, -⟩ - text' pw'' r' hverified' hparse'
        obtain ⟨rfl, rfl⟩ := verified_unique hverified hverified'
        obtain rfl := Option.some.inj (hparse.symm.trans hparse')
        rcases hold with ⟨hno, -⟩ | ⟨-, text1, r1, hverified1, hparse1, hpos, rfl⟩
        · exact absurd hc hno
        obtain ⟨rfl, rfl⟩ := verified_unique hverified hverified1
        obtain rfl := Option.some.inj (hparse.symm.trans hparse1)
        exact ⟨hpos, (after_eq_changed_iff _).mp (Prod.mk.inj (Option.some.inj heq)).1⟩
      · intro hfit
        obtain ⟨hpos, htoken⟩ := hfit hc text pw' r hverified hparse
        have heq := (after_eq_changed_iff _).mpr htoken
        exact ⟨entriesOf r.2, pw', b, .inr ⟨hc, text, r, hverified, hparse, hpos, rfl⟩,
          by rw [heq], heq ▸ hsealed⟩
    · obtain ⟨hneg, hnew⟩ := hstop _ hread
      rcases hgo with hpos | hnew'
      · exact absurd hneg (not_lt.mpr hpos)
      · exact absurd hnew' hnew
  · rw [and_iff_left fun hyes => absurd hyes hc]
    obtain ⟨rv', -, hrun⟩ := @readFile_of_no_contents env sto hc
    rw [hread] at hrun
    obtain ⟨-, hrun⟩ := Prod.mk.inj (Option.some.inj hrun)
    obtain ⟨rfl, rfl⟩ := Prod.mk.inj hrun
    have htree : IsTree (sto.dbPasswords.getD newPasswords) := by
      cases hdb : sto.dbPasswords with
      | none => exact isTree_newPasswords
      | some h => exact sto.isTree h hdb
    have hafter := (setInDb_spec htree hset).2
    rw [hafter] at hsealed ⊢
    rw [forall_prop_of_true hc, ← after_eq_changed_nil_iff]
    constructor
    · rintro ⟨old, pw, b', hold, heq, -⟩
      rcases hold with ⟨-, rfl, -⟩ | ⟨hyes, -⟩
      · exact (Prod.mk.inj (Option.some.inj heq)).1
      · exact absurd hyes hc
    · intro heq
      exact ⟨.nil, sto.pw, b, .inl ⟨hc, rfl, rfl⟩, by rw [heq], heq ▸ hsealed⟩

theorem writeFile_safe_iff {p : DbNodes × List UInt8}
    (hp : env.prepare sto token secret = some (.ok p)) :
    ((env.HasContents → (¬∃ text pw, env.Verified sto text pw) →
        (env.writeFile p).rv < 0 ∧ (env.writeFile p).touched = false) ∧
      ((env.writeFile p).rv = 0 → ∃ old pw b, env.OldEntries sto old pw ∧
        (env.writeFile p).written = some (changed token secret old, b) ∧
        env.Sealed pw (changed token secret old) b)) ↔ (env.openWrite = true → env.ReadFits sto ∧
        (env.writeOk = true → env.closeOk = true ∧ env.EntriesFit sto token secret)) := by
  have hverified := verified_iff_of_prepare hp
  have hchanged := changed_iff_of_prepare hp
  have hne : errorIo ≠ 0 := by decide
  rw [writeFile]
  cases ho : env.openWrite with
  | false => simp [hne]
  | true =>
      cases hw : env.writeOk with
      | false =>
          rw [← hverified]
          simp [hne]
      | true =>
          cases hclose : env.closeOk with
          | false => simp
          | true =>
              simp only [Bool.not_true, Bool.false_eq_true, if_false, true_implies, true_and]
              constructor
              · rintro ⟨hread, hwritten⟩
                have hv : env.HasContents → ∃ text pw, env.Verified sto text pw := by
                  intro hc
                  by_contra hnot
                  exact absurd (hread hc hnot).1 (lt_irrefl _)
                exact ⟨hverified.mp hv, (hchanged (hverified.mp hv)).mp hwritten⟩
              · rintro ⟨hfits, hentries⟩
                exact ⟨fun hc hnot => absurd (hverified.mpr hfits hc) hnot,
                  (hchanged hfits).mpr hentries⟩

end

def closeFails : StoreEnv where
  file := none
  readable := true
  pieces := []
  readFails := false
  pieces_front := List.prefix_rfl
  pieces_eq := fun _ => rfl
  path := 0
  lock := true
  inputs := []
  aborted := errorGeneric
  aborted_neg := by decide
  decrypt := fun _ _ => .error errorBadData
  digest := fun _ => .ok (List.replicate 20 0)
  digest_neg := nofun
  pathAgain := 0
  newPassword := .ok (ofBytes [97])
  newPassword_neg := nofun
  encrypt := fun _ data => .ok data
  encrypt_neg := nofun
  openWrite := true
  writeOk := true
  closeOk := false

end StoreEnv
end Gwenhywfar
