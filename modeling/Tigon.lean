import Tigon.Aria.ReserveCalls
import Tigon.Aria.Serializability
import Tigon.Calvin.Executor.Scheduling
import Tigon.Calvin.Executor.Termination
import Tigon.Common.BufferedReader.RoundTrip
import Tigon.Common.CXLEBR.GracePeriod
import Tigon.Common.GroupCommitLogger.Durability
import Tigon.Common.MPSCRingBuffer.Fifo
import Tigon.Common.WALLogger.Bytes
import Tigon.Core.Partitioner
import Tigon.Protocol.Redo.Atomicity
import Tigon.Sundial.Abort
import Tigon.Sundial.Lease
import Tigon.SundialPasha.RowSystem.Transparency
import Tigon.TwoPL.System.Serializability
import Tigon.TwoPLPasha.CachedSystem.Reads
import Tigon.TwoPLPasha.GroupCommit.Recoverability
import Tigon.TwoPLPasha.LocalScan.Exactness
import Tigon.TwoPLPasha.LocalScan.NoPhantoms
import Tigon.TwoPLPasha.LogSystem.Order
import Tigon.TwoPLPasha.MigrationSystem.Consistency
import Tigon.TwoPLPasha.MigrationSystem.Counts
import Tigon.TwoPLPasha.MigrationSystem.Memory
import Tigon.TwoPLPasha.Payload
import Tigon.TwoPLPasha.RedoLog.Completeness
import Tigon.TwoPLPasha.RedoStream
import Tigon.TwoPLPasha.RemoteInsert.AllOrNothing
import Tigon.TwoPLPasha.RemoteScan.Exactness
import Tigon.TwoPLPasha.RowSystem.Validity
import Tigon.TwoPLPasha.RowSystem.Versions
import Tigon.TwoPLPasha.SccBlock.Coverage
import Tigon.TwoPLPasha.TransactionSystem.Balance
import Tigon.TwoPLPasha.RowView.RoundTrip
import Tigon.Common.Message.Header
import Tigon.Benchmark.TpccKeys
import Tigon.Common.CCHashTable
