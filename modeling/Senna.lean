import Senna.Index.Exact
import Senna.Index.RecordsStream
import Senna.Store.JaUsage
import Senna.Inv.Cursor
import Senna.Str.Locality
import Senna.Query.Agree
import Senna.Set.Algebra
import Senna.Set.HashAlloc
import Senna.Index.Update
import Senna.Snip.Chars
import Senna.Snip.Normalized
import Senna.Snip.Slices
import Senna.Snip.Recorded
import Senna.Snip.AllMatches
import Senna.Snip.TaggedLen
import Senna.Io.SegPins
import Senna.Sym.Lock
import Senna.Inv.Placement
import Senna.Inv.PutOrder
import Senna.Index.NearExact
import Senna.Query.Rescan
import Senna.Index.Ranking
import Senna.Index.SubrecsRuns
import Senna.Index.CursorHeap
import Senna.Query.Weights
import Senna.Query.PoolBound
import Senna.Str.Number
import Senna.Io.SegCall
import Senna.Com.Recv
import Senna.Scm.Args
import Senna.Scm.JsonRead
import Senna.Snip.Offsets
import Senna.Store.Array
import Senna.Io.ByteStream
import Senna.Db.Compar
import Senna.Inv.Chunks
import Senna.Db.Rel1
import Senna.Db.SlotValue
import Senna.Scm.JsonDocument
import Senna.Sym.TableScan
import Senna.Scm.Collect
import Senna.Scm.Literals
