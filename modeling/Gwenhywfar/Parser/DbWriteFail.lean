import Gwenhywfar.Parser.DbWrite

/-! # Failures while a `GWEN_DB` is written

* `sites`: the bytes that are written for a tree, each with a mark where the writer returns 1 and
  not an error when it cannot be written, which is inside the line of a variable.
* `writes_sites`: the writer behaves like this, by induction on the tree.
* `surfaced_iff`: every failure of the io is reported exactly when no byte behind a full buffer is
  marked. -/

namespace Gwenhywfar

set_option maxRecDepth 4000

namespace Db

open FastWriter Text

/-! ### Conditional macros -/

section
variable {n : ℕ} {res : ℕ → WriteResult} {f : UInt32} {p rest : FastWriter → ℤ × FastWriter}
  {bs : List UInt8} {ws : List (UInt8 × Bool)} {ret : ℤ → ℤ} {soft : Bool}

/-- Bytes with the same mark, and what is written behind them. -/
def mark (soft : Bool) (bs : List UInt8) (ws : List (UInt8 × Bool)) : List (UInt8 × Bool) :=
  bs.map (·, soft) ++ ws

/-- What the macros return after an error fits the mark. -/
def Returns (soft : Bool) (ret : ℤ → ℤ) : Prop := ∀ e < 0, if soft then 0 ≤ ret e else ret e < 0

theorem returns_one : Returns true one := fun _ _ => Int.one_nonneg

theorem returns_id : Returns false id := fun _ he => he

theorem returns_errorGeneric : Returns false fun _ => errorGeneric :=
  fun _ _ => (by decide : errorGeneric < 0)

theorem writes_emitIf (wanted : Bool) (hp : Emits n res f p bs) (hr : Writes n res f rest ws)
    (hret : Returns soft ret) :
    Writes n res f (fun fb => if wanted then check (p fb) ret rest else rest fb)
      (mark soft (if wanted then bs else []) ws) := by
  cases wanted with
  | false => exact hr
  | true => exact FastWriter.Writes.emit hp hr hret

theorem writes_blanks (hn : 0 < n) (hr : Writes n res f rest ws) (hret : Returns soft ret) :
    ∀ k : ℕ, Writes n res f (writeBlanks ret rest k) (mark soft (List.replicate k (code ' ')) ws)
  | 0 => hr
  | k + 1 => FastWriter.Writes.emit (emits_byte hn (code ' ')) (writes_blanks hn hr hret k) hret

/-- The blanks before a line. -/
def indendText (dbflags : UInt32) (insert : ℕ) : List UInt8 :=
  if has dbflags flagsIndend then List.replicate insert (code ' ') else []

theorem writes_indend (hn : 0 < n) (dbflags : UInt32) (insert : ℕ) (hr : Writes n res f rest ws)
    (hret : Returns soft ret) : Writes n res f (writeIndend dbflags insert ret rest)
      (mark soft (indendText dbflags insert) ws) := by
  rw [indendText]
  by_cases h : has dbflags flagsIndend = true
  · have heq : writeIndend dbflags insert ret rest = writeBlanks ret rest insert := by
      funext fb
      rw [writeIndend, if_pos h]
    rw [heq, if_pos h]
    exact writes_blanks hn hr hret insert
  · have heq : writeIndend dbflags insert ret rest = rest := by
      funext fb
      rw [writeIndend, if_neg h]
    rw [heq, if_neg h]
    exact hr

end

/-! ### The bytes of a tree -/

section
variable (f dbflags : UInt32)

def quoteText (wanted : Bool) : List UInt8 := if wanted then [quotationMark] else []

/-- The bytes of a variable's line up to the equation mark. -/
def varNameSites (insert : ℕ) (typname name : List UInt8) (ws : List (UInt8 × Bool)) :
    List (UInt8 × Bool) :=
  mark true (indendText dbflags insert) <|
  mark true (if !has dbflags flagsOmitTypes then typname else []) <|
  mark true (quoteText (has dbflags flagsQuoteVarnames)) <|
  mark true name <|
  mark true (quoteText (has dbflags flagsQuoteVarnames)) <|
  mark true (if has dbflags flagsUseColon then ascii [':', ' '] else ascii ['=']) ws

def valueSites (insert : ℕ) (name : List UInt8) (ws : List (UInt8 × Bool)) :
    (namewritten : Bool) → List DbValue → List (UInt8 × Bool)
  | namewritten, [] => mark false (if namewritten then [] ++ newline f else []) ws
  | namewritten, v :: values =>
      match valueText dbflags v with
      | none => valueSites insert name ws namewritten values
      | some (typname, pvalue) =>
          let value :=
            mark true (if namewritten then ascii [',', ' '] else []) <|
            mark true (quoteText (has dbflags flagsQuoteValues)) <|
            mark true pvalue <|
            mark true (quoteText (has dbflags flagsQuoteValues)) <|
            valueSites insert name ws true values
          if namewritten then value else varNameSites dbflags insert typname name value

def groupEndSites (name : List UInt8) (ws : List (UInt8 × Bool)) : List (UInt8 × Bool) :=
  if has dbflags flagsDetailedGroups then
    mark false (ascii ['}', ' ', '#']) <| mark false (name ++ newline f) ws
  else mark false (ascii ['}'] ++ newline f) ws

def sites : DbNodes → (insert : ℕ) → (lastWasVar : Bool) → List (UInt8 × Bool)
  | .nil, _, _ => []
  | .group nodeFlags name children next, insert, lastWasVar =>
      if has nodeFlags nodeFlagsVolatile then sites next insert lastWasVar
      else if has dbflags flagsWriteSubgroups then
        mark false
          (if has dbflags flagsAddGroupNewlines && lastWasVar then [] ++ newline f else []) <|
        mark false (indendText dbflags insert) <|
        mark false (escapeToBufferTolerant name.bytes) <|
        mark false (ascii [' ', '{'] ++ newline f) <|
        sites children (insert + 2) false ++
          (mark false (indendText dbflags insert) <|
          groupEndSites f dbflags name.bytes <|
          mark false
            (if has dbflags flagsAddGroupNewlines && next != .nil then [] ++ newline f else []) <|
          sites next insert false)
      else sites next insert false
  | .var nodeFlags name values next, insert, lastWasVar =>
      if has nodeFlags nodeFlagsVolatile then sites next insert lastWasVar
      else valueSites f dbflags insert name.bytes (sites next insert true) false values

end

/-! ### The writer -/

section
variable {n : ℕ} {res : ℕ → WriteResult} {f dbflags : UInt32}
  {rest : FastWriter → ℤ × FastWriter} {ws : List (UInt8 × Bool)}

theorem writes_varName (hn : 0 < n) (insert : ℕ) (typname name : List UInt8)
    (hr : Writes n res f rest ws) : Writes n res f (writeVarName dbflags insert typname name rest)
      (varNameSites dbflags insert typname name ws) := by
  refine writes_indend hn dbflags insert ?_ returns_one
  refine writes_emitIf _ (emits_forced hn typname) ?_ returns_one
  refine writes_emitIf _ (emits_byte hn quotationMark) ?_ returns_one
  refine Writes.emit (emits_forced hn name) ?_ returns_one
  refine writes_emitIf _ (emits_byte hn quotationMark) ?_ returns_one
  exact Writes.emit (emits_forced hn _) hr returns_one

theorem writes_values (hn : 0 < n) (insert : ℕ) (name : List UInt8) (hr : Writes n res f rest ws) :
    ∀ (values : List DbValue) (namewritten : Bool),
      Writes n res f (writeValues dbflags insert name rest namewritten values)
        (valueSites f dbflags insert name ws namewritten values)
  | [], namewritten => by
      rw [valueSites]
      exact writes_emitIf namewritten (emits_line hn []) hr returns_errorGeneric
  | v :: values, namewritten => by
      have ih := writes_values hn insert name hr values
      cases hv : valueText dbflags v with
      | none =>
          rw [writeValues, valueSites, hv]
          exact ih namewritten
      | some text =>
          obtain ⟨typname, pvalue⟩ := text
          have hvalue : Writes n res f
              (writeForcedIf namewritten (ascii [',', ' ']) one <|
                writeByteIf (has dbflags flagsQuoteValues) quotationMark one fun fb =>
                check (fb.writeForced pvalue) one <|
                writeByteIf (has dbflags flagsQuoteValues) quotationMark one <|
                writeValues dbflags insert name rest true values)
              (mark true (if namewritten then ascii [',', ' '] else []) <|
                mark true (quoteText (has dbflags flagsQuoteValues)) <|
                mark true pvalue <|
                mark true (quoteText (has dbflags flagsQuoteValues)) <|
                valueSites f dbflags insert name ws true values) := by
            refine writes_emitIf _ (emits_forced hn _) ?_ returns_one
            refine writes_emitIf _ (emits_byte hn quotationMark) ?_ returns_one
            refine Writes.emit (emits_forced hn pvalue) ?_ returns_one
            exact writes_emitIf _ (emits_byte hn quotationMark) (ih true) returns_one
          rw [writeValues, valueSites, hv]
          cases namewritten with
          | true => exact hvalue
          | false => exact writes_varName hn insert typname name hvalue

theorem writes_groupEnd (hn : 0 < n) (name : List UInt8) (hr : Writes n res f rest ws) :
    Writes n res f (writeGroupEnd dbflags name rest) (groupEndSites f dbflags name ws) := by
  by_cases h : has dbflags flagsDetailedGroups = true
  · have heq : writeGroupEnd dbflags name rest = fun fb =>
        check (fb.writeForced (ascii ['}', ' ', '#'])) id fun fb =>
          check (fb.writeLine name) id rest := by
      funext fb
      rw [writeGroupEnd, if_pos h]
    rw [heq, groupEndSites, if_pos h]
    exact Writes.emit (emits_forced hn _) (Writes.emit (emits_line hn name) hr returns_id) returns_id
  · have heq : writeGroupEnd dbflags name rest = fun fb =>
        check (fb.writeLine (ascii ['}'])) id rest := by
      funext fb
      rw [writeGroupEnd, if_neg h]
    rw [heq, groupEndSites, if_neg h]
    exact Writes.emit (emits_line hn _) hr returns_id

/-- The writer of a tree writes its bytes, and a failure is reported where it is not marked. -/
theorem writes_sites (hn : 0 < n) : ∀ (nodes : DbNodes) (insert : ℕ) (lastWasVar : Bool),
    Writes n res f (writeGroupToIoLayer dbflags nodes insert lastWasVar)
      (sites f dbflags nodes insert lastWasVar)
  | .nil, insert, lastWasVar => by
      have heq : writeGroupToIoLayer dbflags .nil insert lastWasVar = fun fb => (0, fb) := by
        funext fb
        rw [writeGroupToIoLayer]
      rw [heq, sites]
      exact writes_nil
  | .group nodeFlags name children next, insert, lastWasVar => by
      by_cases hvolatile : has nodeFlags nodeFlagsVolatile = true
      · have heq : writeGroupToIoLayer dbflags (.group nodeFlags name children next) insert
            lastWasVar = writeGroupToIoLayer dbflags next insert lastWasVar := by
          funext fb
          rw [writeGroupToIoLayer, if_pos hvolatile]
        rw [heq, sites, if_pos hvolatile]
        exact writes_sites hn next insert lastWasVar
      by_cases hsub : has dbflags flagsWriteSubgroups = true
      · have heq : writeGroupToIoLayer dbflags (.group nodeFlags name children next) insert
            lastWasVar =
            (writeLineIf (has dbflags flagsAddGroupNewlines && lastWasVar) id <|
            writeIndend dbflags insert id fun fb =>
            check (fb.writeForced (escapeToBufferTolerant name.bytes)) id fun fb =>
            check (fb.writeLine (ascii [' ', '{'])) id fun fb =>
            check (writeGroupToIoLayer dbflags children (insert + 2) false fb) id <|
            writeIndend dbflags insert id <|
            writeGroupEnd dbflags name.bytes <|
            writeLineIf (has dbflags flagsAddGroupNewlines && next != .nil) id <|
            writeGroupToIoLayer dbflags next insert false) := by
          funext fb
          rw [writeGroupToIoLayer, if_neg hvolatile, if_pos hsub]
        rw [heq, sites, if_neg hvolatile, if_pos hsub]
        refine writes_emitIf _ (emits_line hn []) ?_ returns_id
        refine writes_indend hn dbflags insert ?_ returns_id
        refine Writes.emit (emits_forced hn _) ?_ returns_id
        refine Writes.emit (emits_line hn _) ?_ returns_id
        refine Writes.call (writes_sites hn children (insert + 2) false) ?_
        refine writes_indend hn dbflags insert ?_ returns_id
        refine writes_groupEnd hn name.bytes ?_
        exact writes_emitIf _ (emits_line hn []) (writes_sites hn next insert false) returns_id
      · have heq : writeGroupToIoLayer dbflags (.group nodeFlags name children next) insert
            lastWasVar = writeGroupToIoLayer dbflags next insert false := by
          funext fb
          rw [writeGroupToIoLayer, if_neg hvolatile, if_neg hsub]
        rw [heq, sites, if_neg hvolatile, if_neg hsub]
        exact writes_sites hn next insert false
  | .var nodeFlags name values next, insert, lastWasVar => by
      by_cases hvolatile : has nodeFlags nodeFlagsVolatile = true
      · have heq : writeGroupToIoLayer dbflags (.var nodeFlags name values next) insert
            lastWasVar = writeGroupToIoLayer dbflags next insert lastWasVar := by
          funext fb
          rw [writeGroupToIoLayer, if_pos hvolatile]
        rw [heq, sites, if_pos hvolatile]
        exact writes_sites hn next insert lastWasVar
      · have heq : writeGroupToIoLayer dbflags (.var nodeFlags name values next) insert
            lastWasVar = writeValues dbflags insert name.bytes
              (writeGroupToIoLayer dbflags next insert true) false values := by
          funext fb
          rw [writeGroupToIoLayer, if_neg hvolatile]
        rw [heq, sites, if_neg hvolatile]
        exact writes_values hn insert name.bytes (writes_sites hn next insert true) values false

end

/-! ### The io -/

section
variable {children : DbNodes} {dbflags : UInt32} {res : ℕ → WriteResult}

def bufferFlags (dbflags : UInt32) : UInt32 :=
  if has dbflags Db.flagsDosMode then 0 ||| FastWriter.flagsDosMode else 0

/-- The bytes that `GWEN_DB_WriteToIo` writes. -/
def treeSites (children : DbNodes) (dbflags : UInt32) : List (UInt8 × Bool) :=
  sites (bufferFlags dbflags) dbflags children 0 false

/-- Every failure of the io is reported, and success means that all bytes were handed to it. -/
def Surfaced (children : DbNodes) (dbflags : UInt32) : Prop :=
  ∀ res : ℕ → WriteResult,
    ((∃ k < (writeToIo children ⟨res, 0, []⟩ dbflags).2.calls, res k ≠ .done) →
      (writeToIo children ⟨res, 0, []⟩ dbflags).1 < 0) ∧
    ((writeToIo children ⟨res, 0, []⟩ dbflags).1 = 0 →
      (writeToIo children ⟨res, 0, []⟩ dbflags).2.sink = (treeSites children dbflags).map Prod.fst)

theorem writeToIo_eq (children : DbNodes) (io : WriteIo) (dbflags : UInt32) :
    writeToIo children io dbflags =
      if (writeGroupToIoLayer dbflags children 0 false ⟨512, [], bufferFlags dbflags, io⟩).1 < 0 then
        ((writeGroupToIoLayer dbflags children 0 false ⟨512, [], bufferFlags dbflags, io⟩).1,
          (writeGroupToIoLayer dbflags children 0 false ⟨512, [], bufferFlags dbflags, io⟩).2.io)
      else
        ((writeGroupToIoLayer dbflags children 0 false
            ⟨512, [], bufferFlags dbflags, io⟩).2.flush.1,
          (writeGroupToIoLayer dbflags children 0 false
            ⟨512, [], bufferFlags dbflags, io⟩).2.flush.2.io) := by
  have hnew : (if has dbflags Db.flagsDosMode then
      (FastWriter.new 512 io).addFlags FastWriter.flagsDosMode else FastWriter.new 512 io) =
      ⟨512, [], bufferFlags dbflags, io⟩ := by
    rw [bufferFlags]
    split <;> rfl
  simp only [writeToIo, hnew]

/-- When the io takes every full buffer, the last flush decides. -/
theorem writeToIo_of_taken (h : ∀ i < (treeSites children dbflags).length, ¬ FailsAt 512 res i) :
    ((writeToIo children ⟨res, 0, []⟩ dbflags).2.sink = (treeSites children dbflags).map Prod.fst ∧
      ∀ k < (writeToIo children ⟨res, 0, []⟩ dbflags).2.calls, res k = .done) ∨
    (writeToIo children ⟨res, 0, []⟩ dbflags).1 < 0 := by
  have hw : Writes 512 res (bufferFlags dbflags) (writeGroupToIoLayer dbflags children 0 false)
      (treeSites children dbflags) := writes_sites (by decide) children 0 false
  obtain ⟨fb, hrun, hc⟩ := hw.ok clean_new (by simpa using h)
  rw [writeToIo_eq, hrun, if_neg (lt_irrefl 0)]
  obtain ⟨hdone, hflush⟩ | ⟨e, io, -, he, -, -, hflush⟩ := flush_cases fb
  · left
    rw [hflush]
    refine ⟨hc.text_eq, fun k hk => ?_⟩
    rcases Nat.lt_succ_iff_lt_or_eq.mp hk with hlt | rfl
    · exact hc.done k hlt
    · exact hc.results ▸ hdone
  · right
    rw [hflush]
    exact he

theorem writeToIo_of_reported {i : ℕ} {c : UInt8}
    (hi : (treeSites children dbflags)[i]? = some (c, false)) (hfail : FailsAt 512 res i)
    (hbefore : ∀ j < i, ¬ FailsAt 512 res j) : (writeToIo children ⟨res, 0, []⟩ dbflags).1 < 0 := by
  have hw : Writes 512 res (bufferFlags dbflags) (writeGroupToIoLayer dbflags children 0 false)
      (treeSites children dbflags) := writes_sites (by decide) children 0 false
  have hneg := hw.reported clean_new hi (by simpa using hfail) (by simpa using hbefore)
  rw [writeToIo_eq, if_pos hneg]
  exact hneg

/-- When only the flush before a marked byte fails, success is reported. -/
theorem writeToIo_of_swallowed {k : ℕ} {c : UInt8}
    (hi : (treeSites children dbflags)[512 * (k + 1)]? = some (c, true)) :
    ∃ res : ℕ → WriteResult, (writeToIo children ⟨res, 0, []⟩ dbflags).1 = 0 ∧
      ∃ j < (writeToIo children ⟨res, 0, []⟩ dbflags).2.calls, res j ≠ .done := by
  generalize hres : (fun j => if j = k then WriteResult.failed 0 0 else .done) = res
  have hne : res k ≠ .done := by
    rw [← hres]
    simp
  have hdone : ∀ j, j ≠ k → res j = .done := by
    intro j hj
    rw [← hres]
    exact if_neg hj
  have hw : Writes 512 res (bufferFlags dbflags) (writeGroupToIoLayer dbflags children 0 false)
      (treeSites children dbflags) := writes_sites (by decide) children 0 false
  have hfail : FailsAt 512 res (512 * (k + 1)) := by
    refine ⟨by omega, Nat.dvd_mul_right 512 (k + 1), ?_⟩
    rwa [Nat.mul_div_cancel_left _ (by decide), Nat.add_sub_cancel]
  have hbefore : ∀ j < 512 * (k + 1), ¬ FailsAt 512 res j := by
    rintro j hj ⟨hpos, ⟨m, rfl⟩, hj'⟩
    rw [Nat.mul_div_cancel_left _ (by decide)] at hj'
    exact hj' (hdone _ (by omega))
  obtain ⟨e, fb, hrun, he, hl⟩ := hw.swallowed clean_new hi (by simpa using hfail)
    (by simpa using hbefore) fun j hj => by
      rw [List.length_nil, Nat.zero_add, Nat.mul_div_cancel_left _ (by decide)] at hj
      exact hdone j (by omega)
  have hcalls : k < fb.io.calls := by
    by_contra hle
    exact hne (hl.done k (not_lt.mp hle))
  refine ⟨res, ?_⟩
  rw [writeToIo_eq, hrun, if_neg (not_lt.mpr he)]
  obtain ⟨-, hflush⟩ | ⟨e, io, hno, -⟩ := flush_cases fb
  · rw [hflush]
    exact ⟨rfl, k, Nat.lt_succ_of_lt hcalls, hne⟩
  · exact absurd (hl.results ▸ hl.done _ le_rfl) hno

/-- No failure of the io is swallowed exactly when no byte in front of which a full buffer is
flushed is inside the line of a variable. -/
theorem surfaced_iff (children : DbNodes) (dbflags : UInt32) : Surfaced children dbflags ↔
    ∀ k c, (treeSites children dbflags)[512 * (k + 1)]? ≠ some (c, true) := by
  constructor
  · intro h k c hi
    obtain ⟨res, hrv, hfailed⟩ := writeToIo_of_swallowed hi
    have hneg := (h res).1 hfailed
    omega
  · intro h res
    by_cases hfails : ∃ i < (treeSites children dbflags).length, FailsAt 512 res i
    · classical
      have hfirst := Nat.find_spec hfails
      have hbefore := fun j hj => Nat.find_min hfails (m := j) hj
      generalize Nat.find hfails = i at hfirst hbefore
      obtain ⟨hlt, hfail⟩ := hfirst
      have hneg : (writeToIo children ⟨res, 0, []⟩ dbflags).1 < 0 := by
        obtain ⟨⟨c, soft⟩, hi⟩ : ∃ x, (treeSites children dbflags)[i]? = some x :=
          ⟨_, List.getElem?_eq_getElem hlt⟩
        cases soft with
        | false =>
            exact writeToIo_of_reported hi hfail fun j hj hj' => hbefore j hj ⟨by omega, hj'⟩
        | true =>
            obtain ⟨hpos, ⟨m, rfl⟩, -⟩ := hfail
            obtain ⟨k, rfl⟩ : ∃ k, m = k + 1 := ⟨m - 1, by omega⟩
            exact absurd hi (h k c)
      exact ⟨fun _ => hneg, fun h0 => by omega⟩
    · rcases writeToIo_of_taken fun i hi hi' => hfails ⟨i, hi, hi'⟩ with ⟨hsink, hdone⟩ | hneg
      · exact ⟨fun hfailed => by
          obtain ⟨k, hk, hne⟩ := hfailed
          exact absurd (hdone k hk) hne, fun _ => hsink⟩
      · exact ⟨fun _ => hneg, fun h0 => by omega⟩

/-- A variable with a value of 600 letters. -/
def longVar : DbNodes :=
  .var 0 (CString.ofBytes [code 'a']) [.char (CString.ofBytes (List.replicate 600 (code 'x')))] .nil

def firstFails (k : ℕ) : WriteResult := if k = 0 then .failed 0 0 else .done

/-- The failure inside the value is answered with 1, and the flush at the end succeeds: success is
reported for the first 512 bytes. -/
theorem not_surfaced_longVar : (writeToIo longVar ⟨firstFails, 0, []⟩ flagsDefault).1 = 0 ∧
      (writeToIo longVar ⟨firstFails, 0, []⟩ flagsDefault).2.calls = 2 ∧
      (writeToIo longVar ⟨firstFails, 0, []⟩ flagsDefault).2.sink.length = 512 ∧
      ¬ Surfaced longVar flagsDefault := by
  have hrun : (writeToIo longVar ⟨firstFails, 0, []⟩ flagsDefault).1 = 0 ∧
      (writeToIo longVar ⟨firstFails, 0, []⟩ flagsDefault).2.calls = 2 ∧
      (writeToIo longVar ⟨firstFails, 0, []⟩ flagsDefault).2.sink.length = 512 := by decide
  refine ⟨hrun.1, hrun.2.1, hrun.2.2, fun h => ?_⟩
  have hneg := (h firstFails).1 ⟨0, by omega, by decide⟩
  omega

end

end Db
end Gwenhywfar
