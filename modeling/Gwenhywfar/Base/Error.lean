import Mathlib.Data.Int.Notation

/-! # Error codes

The codes of `error.h` that the modelled functions return. -/

namespace Gwenhywfar

/-- `GWEN_ERROR_GENERIC`. -/
abbrev errorGeneric : ℤ := -1

/-- `GWEN_ERROR_NOT_AVAILABLE`. -/
abbrev errorNotAvailable : ℤ := -3

/-- `GWEN_ERROR_INVALID`. -/
abbrev errorInvalid : ℤ := -6

/-- `GWEN_ERROR_TIMEOUT`. -/
abbrev errorTimeout : ℤ := -34

/-- `GWEN_ERROR_IN_PROGRESS`. -/
abbrev errorInProgress : ℤ := -35

/-- `GWEN_ERROR_MEMORY_FULL`. -/
abbrev errorMemoryFull : ℤ := -40

/-- `GWEN_ERROR_BUFFER_OVERFLOW`. -/
abbrev errorBufferOverflow : ℤ := -42

/-- `GWEN_ERROR_NOT_FOUND`. -/
abbrev errorNotFound : ℤ := -51

/-- `GWEN_ERROR_NO_DATA`. -/
abbrev errorNoData : ℤ := -55

/-- `GWEN_ERROR_EOF`. -/
abbrev errorEof : ℤ := -57

/-- `GWEN_ERROR_NOT_CONNECTED`. -/
abbrev errorNotConnected : ℤ := -100

/-- `GWEN_ERROR_BAD_DATA`. -/
abbrev errorBadData : ℤ := -101

/-- `GWEN_ERROR_IO`. -/
abbrev errorIo : ℤ := -103

/-- `GWEN_ERROR_INTERNAL`. -/
abbrev errorInternal : ℤ := -104

/-- `GWEN_ERROR_PERMISSIONS`. -/
abbrev errorPermissions : ℤ := -105

end Gwenhywfar
