import Gwenhywfar.Parser.DbRead
import Gwenhywfar.Parser.DbWrite

/-! # The password store

* The file is locked, written and read without errors, and the password of the store is known.
* `setPassword`, `getPassword`, `getTokenList`: the functions of `passwdstore.c`.  They have no
  result where an assertion fails. -/

namespace Gwenhywfar

/-- A file, with the text that it is decrypted to. -/
inductive StoreFile where
  | missing
  | empty
  | text (t : List UInt8)

/-- The file behind `GWEN_Directory_GetPath`, which creates a missing one. -/
def StoreFile.created : StoreFile → StoreFile
  | .missing => .empty
  | .empty => .empty
  | .text t => .text t

/-- `GWEN_PASSWD_STORE`. -/
structure PasswdStore where
  file : StoreFile
  dbPasswords : Option DbHeap

namespace PasswdStore

open Db Text

/-- `GWEN_PasswordStore_new`, where there is no file yet. -/
def new : PasswdStore := ⟨.missing, none⟩

def newPasswords : DbHeap :=
  emptyGroup (CString.ofBytes (ascii ['p', 'a', 's', 's', 'w', 'o', 'r', 'd', 's']))

/-- `GWEN_Directory_GetPath` for the file of the store. -/
def getPath (sto : PasswdStore) : PasswdStore := { sto with file := sto.file.created }

/-- `GWEN_PasswordStore_ReadFile`. -/
def readFile (sto : PasswdStore) : Option (ℤ × PasswdStore) :=
  match sto.file with
  | .missing => some (errorNotFound, sto)
  | .empty => some (errorNoData, sto)
  | .text text =>
      (readFromString newPasswords 0 text flagsDefault).map fun (rv, h) =>
        (if rv < 0 then rv else 0, { sto with dbPasswords := some h })

/-- `GWEN_PasswordStore_WriteFile`. -/
def writeFile (sto : PasswdStore) : ℤ × PasswdStore :=
  match sto.dbPasswords with
  | none => (errorInternal, sto)
  | some h =>
      let (rv, text) := writeToBuffer (nodesOf h (h.size + 1) (h.node 0).children) [] flagsDefault
      if rv < 0 then (rv, sto) else (0, { sto with file := .text text })

/-- `GWEN_PasswordStore_SafeFreeDb`. -/
def safeFreeDb (sto : PasswdStore) : PasswdStore := { sto with dbPasswords := none }

def pathOf (token : CString) : CString := CString.ofBytes (Text.escapeToBufferTolerant token.bytes)

/-- `GWEN_PasswordStore__SetPassword`. -/
def setInDb (h : DbHeap) (token : CString) (secret : Option CString) : Option DbHeap :=
  match secret with
  | none => (deleteVar h 0 (pathOf token)).map Prod.snd
  | some secret => some (setCharValue h 0 flagsOverwriteVars (pathOf token) secret).2

/-- `GWEN_PasswordStore_SetPassword`. -/
def setPassword (sto : PasswdStore) (token : CString) (secret : Option CString) :
    Option (ℤ × PasswdStore) :=
  sto.getPath.readFile.bind fun (rv, sto) =>
    if rv < 0 ∧ rv ≠ errorNotFound ∧ rv ≠ errorNoData then some (rv, sto)
    else
      (setInDb (sto.dbPasswords.getD newPasswords) token secret).map fun h =>
        let (rv, sto) := writeFile { sto with dbPasswords := some h }
        if rv < 0 then (rv, sto) else (0, sto.safeFreeDb)

/-- `GWEN_PasswordStore__GetPassword`. -/
def getFromDb (h : DbHeap) (token : CString) (minLen maxLen : Int32) : Option CString :=
  (getCharValue h 0 (pathOf token)).filter fun s =>
    minLen ≤ Int32.ofNat s.bytes.length ∧ Int32.ofNat s.bytes.length < maxLen

/-- `GWEN_PasswordStore_GetPassword`: the result and, if it is 0, the contents of the buffer. -/
def getPassword (sto : PasswdStore) (token : CString) (minLen maxLen : Int32) :
    Option ((ℤ × Option CString) × PasswdStore) :=
  sto.getPath.readFile.map fun (rv, sto) =>
    if rv < 0 then ((rv, none), sto)
    else
      match getFromDb (sto.dbPasswords.getD newPasswords) token minLen maxLen with
      | none => ((errorNotFound, none), sto)
      | some secret => ((0, some secret), sto.safeFreeDb)

/-- `GWEN_PasswordStore_GetTokenList`: the result and the tokens that are added to the list. -/
def getTokenList (sto : PasswdStore) : Option ((ℤ × List CString) × PasswdStore) :=
  sto.getPath.readFile.map fun (rv, sto) =>
    if rv < 0 then ((rv, []), sto)
    else
      let names := (varsOf (sto.dbPasswords.getD newPasswords) 0).map Prod.fst
      ((if names.all (·.bytes ≠ []) then 0 else errorGeneric,
        (names.filter (·.bytes ≠ [])).map fun s =>
          CString.ofBytes (unescapeWith (code '%') s.bytes)), sto.safeFreeDb)

end PasswdStore
end Gwenhywfar
