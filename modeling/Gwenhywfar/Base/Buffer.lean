import Gwenhywfar.Lib.Run
import Gwenhywfar.Lib.Block
import Gwenhywfar.Base.Error
import Mathlib.Algebra.Order.Ring.Int

/-! # `GWEN_BUFFER`

A buffer owns a block of bytes at `realPtr`; `ptr` is the offset of its data in the block, so
that the `ptr` bytes before it are reserved.  A byte that has never been written is `none`.

* The fields are `uint32_t` and hold numbers below `2 ^ 32`; `wadd` and `wsub` wrap around, and
  `toInt` is the conversion of a count to `int`.
* A function has no outcome when it writes outside the block, when an assertion fails, or when
  it aborts because of the mode ABORT_ON_MEMFULL.  The allocator serves every request.
* `GWEN_Buffer_new` allocates one byte more than `size`; a block that grows has one byte more
  than `realBufferSize`. -/

namespace Gwenhywfar

/-- `GWEN_BUFFER`; the block begins at `realPtr`, and `ptr` is counted from there. -/
structure Buffer where
  block : List (Option UInt8)
  ptr : ℕ
  pos : ℕ
  bufferSize : ℕ
  realBufferSize : ℕ
  bytesUsed : ℕ
  mode : UInt32
  hardLimit : ℕ
  step : ℕ
  bookmarks : List ℕ
deriving DecidableEq, Repr

namespace Buffer

/-- `GWEN_BUFFER_MODE_DYNAMIC`. -/
def modeDynamic : UInt32 := 0x0001

/-- `GWEN_BUFFER_MODE_ABORT_ON_MEMFULL`. -/
def modeAbortOnMemFull : UInt32 := 0x0002

/-- `GWEN_BUFFER_MODE_READONLY`. -/
def modeReadOnly : UInt32 := 0x0020

/-- `GWEN_BUFFER_MODE_DEFAULT`. -/
def modeDefault : UInt32 := modeDynamic ||| modeAbortOnMemFull

/-- `GWEN_BUFFER_DEFAULT_HARDLIMIT`, unless the build is configured otherwise. -/
def defaultHardLimit : ℕ := 16 * 1024 * 1024

/-- `GWEN_BUFFER_DYNAMIC_STEP`. -/
def dynamicStep : ℕ := 1024

/-- `GWEN_BUFFER_MAX_BOOKMARKS`. -/
def maxBookmarks : ℕ := 64

def hasMode (bf : Buffer) (m : UInt32) : Bool := bf.mode &&& m != 0

/-- Addition of `uint32_t`. -/
def wadd (a b : ℕ) : ℕ := (a + b) % 2 ^ 32

/-- Subtraction of `uint32_t`. -/
def wsub (a b : ℕ) : ℕ := (2 ^ 32 + a - b) % 2 ^ 32

/-- The conversion of `uint32_t` to `int`. -/
def toInt (n : ℕ) : ℤ := if n < 2 ^ 31 then n else n - 2 ^ 32

/-- An error that the mode may turn into an abort. -/
def failure (bf : Buffer) (err : ℤ) : Option (ℤ × Buffer) :=
  if bf.hasMode modeAbortOnMemFull then none else some (err, bf)

/-- `GWEN_Buffer_new(NULL, size, 0, 0)`; `GWEN_Memory_malloc(0)` aborts. -/
def new (size : ℕ) : Option Buffer :=
  if size = 0 then none
  else some {
    block := some 0 :: List.replicate size none
    ptr := 0, pos := 0, bytesUsed := 0
    bufferSize := wadd size 1, realBufferSize := wadd size 1
    mode := modeDefault, hardLimit := defaultHardLimit, step := dynamicStep
    bookmarks := List.replicate maxBookmarks 0 }

/-- `memmove` to `ptr + i`. -/
def put (bf : Buffer) (i : ℕ) (bytes : List (Option UInt8)) : Option Buffer :=
  (Block.store bf.block (bf.ptr + i) bytes).map fun block => { bf with block := block }

/-- `ptr[bytesUsed]=0`. -/
def putNul (bf : Buffer) : Option Buffer := bf.put bf.bytesUsed [some 0]

/-- `memmove(ptr+dst, ptr+src, n)`. -/
def moveBytes (bf : Buffer) (dst src n : ℕ) : Option Buffer :=
  (Block.load bf.block (bf.ptr + src) n).bind fun bytes => bf.put dst bytes

/-- `GWEN_Buffer_AllocRoom`. -/
def allocRoom (bf : Buffer) (size : ℕ) : Option (ℤ × Buffer) :=
  if bf.hasMode modeReadOnly then bf.failure errorPermissions
  else
    let need := wadd bf.bytesUsed (wadd size 1)
    if bf.bufferSize < need then
      if bf.hasMode modeDynamic then
        let noffs := wadd (wsub need bf.bufferSize) (wsub bf.step 1) &&&
          (2 ^ 32 - 1 - wsub bf.step 1)
        let nsize := wadd noffs bf.realBufferSize
        if bf.hardLimit < nsize then bf.failure errorBufferOverflow
        -- assert(nsize) in GWEN_Memory_realloc
        else if nsize = 0 then none
        else some (0, { bf with
          block := Block.resize bf.block (wadd nsize 1) none
          realBufferSize := nsize, bufferSize := wadd bf.bufferSize noffs })
      else bf.failure errorBufferOverflow
    else some (0, bf)

/-- `GWEN_Buffer_AdjustBookmarks`. -/
def adjustBookmarks (bf : Buffer) (pos : ℕ) (offset : ℤ) : Buffer :=
  { bf with bookmarks := bf.bookmarks.map fun b =>
      if pos ≤ b then ((b + offset) % 2 ^ 32).toNat else b }

/-- `GWEN_Buffer_ReserveBytes`. -/
def reserveBytes (bf : Buffer) (res : ℕ) : Option (ℤ × Buffer) := do
  if res = 0 then some (0, bf)
  else if bf.bytesUsed ≠ 0 then
    let (rv, bf) ← bf.allocRoom res
    if rv ≠ 0 then some (-1, bf)
    else
      let bf ← bf.moveBytes res 0 bf.bytesUsed
      some (0, { bf with ptr := bf.ptr + res, bufferSize := wsub bf.bufferSize res })
  else
    let (rv, bf) ← bf.allocRoom res
    if rv ≠ 0 then some (-1, bf)
    else
      let bf := { bf with ptr := bf.ptr + res, bufferSize := wsub bf.bufferSize res }
      if bf.bufferSize ≠ 0 then (bf.put 0 [some 0]).map fun bf => (0, bf)
      else some (0, bf)

/-- `GWEN_Buffer_SetPos`. -/
def setPos (bf : Buffer) (i : ℕ) : ℤ × Buffer :=
  if bf.bufferSize ≤ i then (errorBufferOverflow, bf) else (0, { bf with pos := i })

/-- `GWEN_Buffer_IncrementPos`. -/
def incrementPos (bf : Buffer) (i : ℕ) : ℤ × Buffer := (0, { bf with pos := wadd bf.pos i })

/-- `GWEN_Buffer_DecrementPos`. -/
def decrementPos (bf : Buffer) (i : ℕ) : ℤ × Buffer :=
  if bf.pos < i then (errorBufferOverflow, bf) else (0, { bf with pos := bf.pos - i })

/-- `GWEN_Buffer_Rewind`. -/
def rewind (bf : Buffer) : Buffer := { bf with pos := 0 }

/-- `GWEN_Buffer_Reset`. -/
def reset (bf : Buffer) : Option Buffer := { bf with pos := 0, bytesUsed := 0 }.put 0 [some 0]

/-- The end of the functions that append: `size` bytes have been written behind the data. -/
def appended (bf : Buffer) (size : ℕ) : Option Buffer :=
  putNul { bf with
    pos := if bf.pos = bf.bytesUsed then wadd bf.pos size else bf.pos
    bytesUsed := wadd bf.bytesUsed size }

/-- `GWEN_Buffer_AppendBytes`. -/
def appendBytes (bf : Buffer) (bytes : List UInt8) : Option (ℤ × Buffer) := do
  if bf.hasMode modeReadOnly then bf.failure errorPermissions
  else
    let (rv, bf) ← bf.allocRoom (wadd bytes.length 1)
    if rv < 0 then some (rv, bf)
    else
      let bf ← bf.put bf.bytesUsed (bytes.map some)
      let bf ← bf.appended bytes.length
      some (0, bf)

/-- The room made by `GWEN_Buffer_AppendByte`, only if there is need to. -/
def appendByteRoom (bf : Buffer) : Option (ℤ × Buffer) :=
  if bf.bufferSize < wadd (wadd bf.bytesUsed 1) 1 then bf.allocRoom 2 else some (0, bf)

/-- `GWEN_Buffer_AppendByte`. -/
def appendByte (bf : Buffer) (c : UInt8) : Option (ℤ × Buffer) := do
  if bf.hasMode modeReadOnly then bf.failure errorPermissions
  else
    let (rv, bf) ← bf.appendByteRoom
    if rv < 0 then some (rv, bf)
    else
      let bf ← bf.put bf.bytesUsed [some c]
      let bf ← bf.appended 1
      some (0, bf)

/-- `GWEN_Buffer_FillWithBytes`. -/
def fillWithBytes (bf : Buffer) (c : UInt8) (size : ℕ) : Option (ℤ × Buffer) := do
  if bf.hasMode modeReadOnly then bf.failure errorPermissions
  else
    let (rv, bf) ← bf.allocRoom (wadd size 1)
    if rv < 0 then some (rv, bf)
    else
      let bf ← bf.put bf.bytesUsed (List.replicate size (some c))
      let bf ← bf.appended size
      some (0, bf)

/-- `GWEN_Buffer_ReadBytes` for up to `size` bytes: the bytes read. -/
def readBytes (bf : Buffer) (size : ℕ) : Option (List (Option UInt8) × Buffer) :=
  if size = 0 ∨ bf.bytesUsed ≤ bf.pos then some ([], bf)
  else
    -- the first round of the loop copies all there is; a negative count is a huge `size_t`
    let srcLeft := toInt (bf.bytesUsed - bf.pos)
    let j := if srcLeft < toInt size then srcLeft else toInt size
    if j < 0 then none
    else (Block.load bf.block (bf.ptr + bf.pos) j.toNat).map fun bytes =>
      (bytes, { bf with pos := wadd bf.pos j.toNat })

/-- The reserved bytes are at least `(int) size`. -/
def hasReserved (bf : Buffer) (size : ℕ) : Bool := toInt size ≤ bf.ptr

/-- `GWEN_Buffer_InsertRoom`. -/
def insertRoom (bf : Buffer) (size : ℕ) : Option (ℤ × Buffer) := do
  if bf.hasMode modeReadOnly then bf.failure errorPermissions
  else if bf.pos = 0 ∧ bf.bytesUsed = 0 then
    let (rv, bf) ← bf.allocRoom size
    if rv ≠ 0 then some (rv, bf)
    else
      let bf ← putNul { bf with bytesUsed := wadd bf.bytesUsed size }
      some (0, bf)
  else if bf.pos = 0 ∧ bf.hasReserved size = true then
    -- simply occupy the reserved space, which has to lie in the block
    if bf.ptr < size then none
    else
      let bf := { bf with
        ptr := bf.ptr - size, bytesUsed := wadd bf.bytesUsed size
        bufferSize := wadd bf.bufferSize size }
      some (0, bf.adjustBookmarks bf.pos size)
  else
    let (rv, bf) ← bf.allocRoom size
    if rv < 0 then some (rv, bf)
    -- assert(bf->pos<=bf->bytesUsed)
    else if bf.bytesUsed < bf.pos then none
    else
      let i := toInt (bf.bytesUsed - bf.pos)
      let bf ← bf.moveBytes (bf.pos + size) bf.pos i.toNat
      let bf ← putNul { bf with bytesUsed := wadd bf.bytesUsed size }
      some (0, bf.adjustBookmarks bf.pos size)

/-- `GWEN_Buffer_RemoveRoom`. -/
def removeRoom (bf : Buffer) (size : ℕ) : Option (ℤ × Buffer) := do
  if bf.hasMode modeReadOnly then bf.failure errorPermissions
  else if bf.bytesUsed < wadd size bf.pos then some (errorInvalid, bf)
  else if bf.pos = 0 then
    let bf ← putNul { bf with
      ptr := bf.ptr + size, bytesUsed := wsub bf.bytesUsed size
      bufferSize := wsub bf.bufferSize size }
    some (0, bf.adjustBookmarks bf.pos (-toInt size))
  else
    let i := toInt (wsub (wsub bf.bytesUsed bf.pos) size)
    -- a negative count is a huge `size_t`
    if i < 0 then none
    else
      let bf ← bf.moveBytes bf.pos (bf.pos + size) i.toNat
      let bf ← putNul { bf with bytesUsed := wsub bf.bytesUsed size }
      some (0, bf.adjustBookmarks bf.pos (-toInt size))

/-- `GWEN_Buffer_InsertBytes`. -/
def insertBytes (bf : Buffer) (bytes : List UInt8) : Option (ℤ × Buffer) := do
  if bf.hasMode modeReadOnly then bf.failure errorPermissions
  else
    let (rv, bf) ← bf.insertRoom bytes.length
    if rv < 0 then some (rv, bf)
    else
      let bf ← bf.put bf.pos (bytes.map some)
      some (0, bf)

/-- `GWEN_Buffer_InsertByte`. -/
def insertByte (bf : Buffer) (c : UInt8) : Option (ℤ × Buffer) := do
  if bf.hasMode modeReadOnly then bf.failure errorPermissions
  else
    let (rv, bf) ← bf.insertRoom 1
    if rv < 0 then some (rv, bf)
    else
      let bf ← bf.put bf.pos [some c]
      some (0, bf)

/-- `GWEN_Buffer_FillLeftWithBytes`. -/
def fillLeftWithBytes (bf : Buffer) (c : UInt8) (size : ℕ) : Option (ℤ × Buffer) := do
  if bf.hasMode modeReadOnly then bf.failure errorPermissions
  else
    let (rv, bf) ← bf.insertRoom size
    if rv < 0 then some (-1, bf)
    else
      let bf ← bf.put bf.pos (List.replicate size (some c))
      some (0, bf)

/-- The room `GWEN_Buffer_ReplaceBytes` inserts or removes for a difference of the sizes. -/
def replaceRoom (bf : Buffer) (d : ℤ) : Option (ℤ × Buffer) :=
  if d < 0 then bf.removeRoom (-d).toNat
  else if 0 < d then bf.insertRoom d.toNat
  else some (0, bf)

/-- `GWEN_Buffer_ReplaceBytes`. -/
def replaceBytes (bf : Buffer) (rsize : ℕ) (bytes : List UInt8) : Option (ℤ × Buffer) := do
  if bf.hasMode modeReadOnly then bf.failure errorPermissions
  else
    let (rv, bf) ← bf.replaceRoom (toInt (wsub bytes.length rsize))
    if rv ≠ 0 then some (rv, bf)
    else
      let bf ← bf.put bf.pos (bytes.map some)
      some (0, bf)

/-- `GWEN_Buffer_Crop`. -/
def crop (bf : Buffer) (pos l : ℕ) : Option (ℤ × Buffer) := do
  if bf.hasMode modeReadOnly then bf.failure errorPermissions
  else if bf.bufferSize ≤ pos then some (-1, bf)
  else if wsub bf.bytesUsed pos < l then some (-1, bf)
  else
    let offset := if pos < bf.pos then pos else bf.pos
    let bf := { bf with
      ptr := bf.ptr + pos, bufferSize := bf.bufferSize - pos
      -- adjust position after possible truncation
      pos := if l < bf.pos - offset then l else bf.pos - offset
      bytesUsed := l }
    let bf ← bf.putNul
    some (0, bf.adjustBookmarks offset (-offset))

end Buffer
end Gwenhywfar
