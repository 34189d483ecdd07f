import SomeDB.Index.Removal
import SomeDB.Index.Ascending
import SomeDB.Index.LeafJoin
import SomeDB.Disk.TupleRuns
import SomeDB.Disk.Defragment
import SomeDB.Disk.TupleCodec
import SomeDB.Disk.SlotNumbers
import SomeDB.Disk.FreeSpace
import SomeDB.Index.KeyOrder
import SomeDB.Index.DecodeEnds
import SomeDB.Index.PageIds
import SomeDB.Disk.BpmClients
import SomeDB.Disk.Holders
import SomeDB.Disk.Sweep
import SomeDB.Disk.Latches
import SomeDB.Disk.TableFile
import SomeDB.Index.SlotDirectory
import SomeDB.Index.PageFit
import SomeDB.Index.Pins
import SomeDB.Index.FlushNode
import SomeDB.Index.Route
import SomeDB.Index.SplitPages
import SomeDB.Index.MergePages
import SomeDB.Index.TwoLevels
import SomeDB.Disk.BpmReads
import SomeDB.Disk.BpmPins
import SomeDB.Sql.AccessMethod
import SomeDB.Sql.Schema
import SomeDB.Sql.RoundTrip
import SomeDB.Sql.Grammar
import SomeDB.Sql.Precedence
import SomeDB.Sql.ParserEnds
import SomeDB.Sql.LexerReads
import SomeDB.Sql.IntegerExpr
import SomeDB.Sql.Varchar
import SomeDB.Utils.ListRemove
import SomeDB.Utils.HashDestroy
import SomeDB.Index.DurableMap
import SomeDB.Utils.ListDestroy
import SomeDB.Sql.Printing
import SomeDB.Sql.LogicalPlan
import SomeDB.Sql.Comparisons

