import Gwenhywfar.Base.SimplePtrListBalance
import Gwenhywfar.Base.IdListCopies
import Gwenhywfar.Msgio.Reconnect
import Gwenhywfar.Base.Tree2Below
import Gwenhywfar.Base.Tree
import Gwenhywfar.Parser.DbRoundTrip
import Gwenhywfar.Parser.JsonText
import Gwenhywfar.Dbio.CsvRoundTrip
import Gwenhywfar.Parser.XmlBalance
import Gwenhywfar.Gui.PasswdStoreMap
import Gwenhywfar.Parser.DbDup
import Gwenhywfar.Parser.DbDirty
import Gwenhywfar.Parser.XmlToDbReads
import Gwenhywfar.Cryptmsg.CryptMgrLimits
import Gwenhywfar.Base.BufferBookmarks
import Gwenhywfar.Parser.Percent
import Gwenhywfar.Parser.Pattern
import Gwenhywfar.Parser.WordBlanks
import Gwenhywfar.Parser.ReplaceVars
import Gwenhywfar.Os.GwenDatePeriods
import Gwenhywfar.Os.GwenDateText
import Gwenhywfar.Os.GwenDateTemplate
import Gwenhywfar.Os.Timestamp
import Gwenhywfar.Os.GwenTime
import Gwenhywfar.Base.FastBufferLines
import Gwenhywfar.Parser.Utf8
import Gwenhywfar.Parser.Bcd
import Gwenhywfar.Parser.PathBetween
import Gwenhywfar.Base.Tree2Sort
import Gwenhywfar.Parser.Base64Damage
import Gwenhywfar.Crypt3.Pss
import Gwenhywfar.Base.MemCacheLimits
import Gwenhywfar.Parser.TlvDb
import Gwenhywfar.Parser.JsonFind
import Gwenhywfar.Parser.UrlCommand
import Gwenhywfar.Parser.XmlTagBlanks
import Gwenhywfar.Sio.LineWrite
import Gwenhywfar.Msgio.MsgWrite
import Gwenhywfar.Msgio.Request
import Gwenhywfar.Sio.HttpBounds
import Gwenhywfar.Sio.HttpRecvBody
import Gwenhywfar.Parser.TrustedData
import Gwenhywfar.Crypt3.SmallTresorDamage
import Gwenhywfar.Parser.MsgValue
import Gwenhywfar.Parser.XmlStore
import Gwenhywfar.Sar.MemberBytes
import Gwenhywfar.Gui.PasswdStoreFile
import Gwenhywfar.Parser.XmlNames
import Gwenhywfar.Base.MultiCacheLru
import Gwenhywfar.Cryptmsg.Rejection
import Gwenhywfar.Base.StringList2
import Gwenhywfar.Parser.XmlXPath
import Gwenhywfar.Base.PathManager
import Gwenhywfar.Os.UniqueIds
import Gwenhywfar.Parser.XmlNormalize
import Gwenhywfar.Tools.BuildRun
