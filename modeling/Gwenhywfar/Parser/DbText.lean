import Gwenhywfar.Parser.DbWriteFail

/-! # The text of a tree

* `text`: what is written for a tree into a buffer, without the marks of `sites`.
* `writeToBuffer_eq`: a buffer takes all of it. -/

namespace Gwenhywfar.Db

open Text

theorem mark_fst (soft : Bool) (bs : List UInt8) (ws : List (UInt8 × Bool)) :
    (mark soft bs ws).map Prod.fst = bs ++ ws.map Prod.fst := by
  unfold mark
  rw [List.map_append, List.map_map]
  congr 1
  exact List.map_id bs

theorem writeToBuffer_eq (children : DbNodes) (dbflags : UInt32) :
    writeToBuffer children [] dbflags = (0, (treeSites children dbflags).map Prod.fst) := by
  have hw : FastWriter.Writes 512 (fun _ => .done) (bufferFlags dbflags)
      (writeGroupToIoLayer dbflags children 0 false) (treeSites children dbflags) :=
    writes_sites (by decide) children 0 false
  obtain ⟨fb, hrun, hc⟩ := hw.ok FastWriter.clean_new fun i _ h => h.2.2 rfl
  obtain ⟨-, hflush⟩ | ⟨e, io, hfailed, -⟩ := FastWriter.flush_cases fb
  · rw [writeToBuffer, writeToIo_eq, hrun, if_neg (lt_irrefl 0), hflush]
    exact congrArg (Prod.mk 0) hc.text_eq
  · rw [hc.results] at hfailed
    exact absurd rfl hfailed

section
variable (f dbflags : UInt32)

def text (nodes : DbNodes) (insert : ℕ) (lastWasVar : Bool) : List UInt8 :=
  (sites f dbflags nodes insert lastWasVar).map Prod.fst

/-- An empty line that is only there when `wanted`. -/
def lineIf (wanted : Bool) : List UInt8 := if wanted then FastWriter.newline f else []

/-- The line of a variable. -/
def valuesText (insert : ℕ) (name : List UInt8) (namewritten : Bool) (values : List DbValue) :
    List UInt8 :=
  (valueSites f dbflags insert name [] namewritten values).map Prod.fst

def groupBegin (insert : ℕ) (name : List UInt8) : List UInt8 :=
  indendText dbflags insert ++ (escapeToBufferTolerant name ++
    (ascii [' ', '{'] ++ FastWriter.newline f))

def groupEnd (insert : ℕ) (name : List UInt8) : List UInt8 :=
  indendText dbflags insert ++ (groupEndSites f dbflags name []).map Prod.fst

variable {f dbflags}

theorem valueSites_fst (insert : ℕ) (name : List UInt8) (ws : List (UInt8 × Bool))
    (values : List DbValue) : ∀ namewritten : Bool,
    (valueSites f dbflags insert name ws namewritten values).map Prod.fst =
      valuesText f dbflags insert name namewritten values ++ ws.map Prod.fst := by
  unfold valuesText
  induction values with
  | nil =>
      intro namewritten
      simp only [valueSites, mark_fst, List.map_nil, List.append_nil]
  | cons v values ih =>
      intro namewritten
      unfold valueSites
      cases valueText dbflags v with
      | none => exact ih namewritten
      | some text =>
          cases namewritten <;>
            simp [varNameSites, mark_fst, ih true, List.append_assoc]

theorem groupEndSites_fst (name : List UInt8) (ws : List (UInt8 × Bool)) :
    (groupEndSites f dbflags name ws).map Prod.fst =
      (groupEndSites f dbflags name []).map Prod.fst ++ ws.map Prod.fst := by
  unfold groupEndSites
  cases has dbflags flagsDetailedGroups <;> simp [mark_fst]

variable {nodeFlags : UInt32}

theorem text_group (name : CString) (children next : DbNodes) (insert : ℕ)
    (lastWasVar : Bool) (hvolatile : has nodeFlags nodeFlagsVolatile = false)
    (hsub : has dbflags flagsWriteSubgroups = true) :
    text f dbflags (.group nodeFlags name children next) insert lastWasVar =
      lineIf f (has dbflags flagsAddGroupNewlines && lastWasVar) ++
      (groupBegin f dbflags insert name.bytes ++ (text f dbflags children (insert + 2) false ++
      (groupEnd f dbflags insert name.bytes ++
      (lineIf f (has dbflags flagsAddGroupNewlines && next != .nil) ++
        text f dbflags next insert false)))) := by
  unfold text
  rw [sites, hvolatile, hsub, if_neg Bool.false_ne_true, if_pos rfl]
  simp only [mark_fst, List.map_append]
  rw [groupEndSites_fst]
  simp [mark_fst, lineIf, groupBegin, groupEnd, List.append_assoc]

theorem text_group_subgroups (name : CString) (children next : DbNodes)
    (insert : ℕ) (lastWasVar : Bool) (hvolatile : has nodeFlags nodeFlagsVolatile = false)
    (hsub : has dbflags flagsWriteSubgroups = false) :
    text f dbflags (.group nodeFlags name children next) insert lastWasVar =
      text f dbflags next insert false := by
  unfold text
  rw [sites, hvolatile, hsub, if_neg Bool.false_ne_true, if_neg Bool.false_ne_true]

theorem text_var (name : CString) (values : List DbValue) (next : DbNodes)
    (insert : ℕ) (lastWasVar : Bool) (hvolatile : has nodeFlags nodeFlagsVolatile = false) :
    text f dbflags (.var nodeFlags name values next) insert lastWasVar =
      valuesText f dbflags insert name.bytes false values ++ text f dbflags next insert true := by
  unfold text
  rw [sites, hvolatile, if_neg Bool.false_ne_true, valueSites_fst]

theorem text_group_volatile (name : CString) (children next : DbNodes)
    (insert : ℕ) (lastWasVar : Bool) (hvolatile : has nodeFlags nodeFlagsVolatile = true) :
    text f dbflags (.group nodeFlags name children next) insert lastWasVar =
      text f dbflags next insert lastWasVar := by
  unfold text
  rw [sites, if_pos hvolatile]

theorem text_var_volatile (name : CString) (values : List DbValue)
    (next : DbNodes) (insert : ℕ) (lastWasVar : Bool)
    (hvolatile : has nodeFlags nodeFlagsVolatile = true) :
    text f dbflags (.var nodeFlags name values next) insert lastWasVar =
      text f dbflags next insert lastWasVar := by
  unfold text
  rw [sites, if_pos hvolatile]

theorem writeToBuffer_text (children : DbNodes) (dbflags : UInt32) :
    writeToBuffer children [] dbflags = (0, text (bufferFlags dbflags) dbflags children 0 false) :=
  writeToBuffer_eq children dbflags

end
end Gwenhywfar.Db
