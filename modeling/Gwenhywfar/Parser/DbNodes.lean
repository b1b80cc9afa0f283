import Gwenhywfar.Parser.Text

/-! # The nodes of a `GWEN_DB`

`DbNodes` are the children of a group from one on, as `GWEN_DB_Node_List_First` and
`GWEN_DB_Node_List_Next` find them: a group has groups and variables for children, a variable has
values. -/

namespace Gwenhywfar

/-- A value node. -/
inductive DbValue where
  | char (dataChar : CString)
  | int (dataInt : Int32)
  | bin (dataBin : List UInt8)
  | ptr (dataPtr : ℕ)
deriving DecidableEq

/-- The children of a group from one on. -/
inductive DbNodes where
  | nil
  | group (nodeFlags : UInt32) (dataName : CString) (children next : DbNodes)
  | var (nodeFlags : UInt32) (dataName : CString) (values : List DbValue) (next : DbNodes)
deriving DecidableEq

namespace Db

/-- The flags have a bit of `mask`. -/
def has (flags mask : UInt32) : Bool := flags &&& mask != 0

/-! ### Flags -/

/-- `GWEN_DB_FLAGS_ALLOW_EMPTY_STREAM`. -/
def flagsAllowEmptyStream : UInt32 := 0x00008000

/-- `GWEN_DB_FLAGS_OVERWRITE_VARS`. -/
def flagsOverwriteVars : UInt32 := 0x00010000

/-- `GWEN_DB_FLAGS_OVERWRITE_GROUPS`. -/
def flagsOverwriteGroups : UInt32 := 0x00020000

/-- `GWEN_DB_FLAGS_QUOTE_VARNAMES`. -/
def flagsQuoteVarnames : UInt32 := 0x00040000

/-- `GWEN_DB_FLAGS_QUOTE_VALUES`. -/
def flagsQuoteValues : UInt32 := 0x00080000

/-- `GWEN_DB_FLAGS_WRITE_SUBGROUPS`. -/
def flagsWriteSubgroups : UInt32 := 0x00100000

/-- `GWEN_DB_FLAGS_DETAILED_GROUPS`. -/
def flagsDetailedGroups : UInt32 := 0x00200000

/-- `GWEN_DB_FLAGS_INDEND`. -/
def flagsIndend : UInt32 := 0x00400000

/-- `GWEN_DB_FLAGS_ADD_GROUP_NEWLINES`. -/
def flagsAddGroupNewlines : UInt32 := 0x00800000

/-- `GWEN_DB_FLAGS_USE_COLON`. -/
def flagsUseColon : UInt32 := 0x01000000

/-- `GWEN_DB_FLAGS_UNTIL_EMPTY_LINE`. -/
def flagsUntilEmptyLine : UInt32 := 0x02000000

/-- `GWEN_DB_FLAGS_OMIT_TYPES`. -/
def flagsOmitTypes : UInt32 := 0x04000000

/-- `GWEN_DB_FLAGS_ESCAPE_CHARVALUES`, which is also `GWEN_DB_FLAGS_UNESCAPE_CHARVALUES`. -/
def flagsEscapeCharvalues : UInt32 := 0x10000000

/-- `GWEN_DB_FLAGS_INSERT`. -/
def flagsInsert : UInt32 := 0x40000000

/-- `GWEN_DB_FLAGS_DOSMODE`. -/
def flagsDosMode : UInt32 := 0x80000000

/-- `GWEN_DB_FLAGS_DEFAULT`. -/
def flagsDefault : UInt32 :=
  flagsQuoteValues ||| flagsWriteSubgroups ||| flagsDetailedGroups ||| flagsIndend |||
    flagsAddGroupNewlines ||| flagsEscapeCharvalues

/-- `GWEN_DB_NODE_FLAGS_DIRTY`. -/
def nodeFlagsDirty : UInt32 := 0x00000001

/-- `GWEN_DB_NODE_FLAGS_VOLATILE`. -/
def nodeFlagsVolatile : UInt32 := 0x00000002

end Db
end Gwenhywfar
