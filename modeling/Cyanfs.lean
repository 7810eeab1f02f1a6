import Cyanfs.Lib.Chained
import Cyanfs.Core.System
import Cyanfs.Core.Words
import Cyanfs.Core.Calls
import Cyanfs.Core.Threads
import Cyanfs.Core.Replay
import Cyanfs.Extents.System
import Cyanfs.Journal.Chain
import Cyanfs.Journal.Format
import Cyanfs.Journal.Loading
import Cyanfs.Journal.Writing
import Cyanfs.Journal.Reserve
import Cyanfs.Journal.Codec
import Cyanfs.Journal.Packing
import Cyanfs.Journal.Agreement
import Cyanfs.Metadata.Replay
import Cyanfs.Metadata.Live
import Cyanfs.Metadata.Compaction
import Cyanfs.Metadata.Charge
import Cyanfs.Metadata.System
import Cyanfs.Metadata.Forest
import Cyanfs.Run.Account
import Cyanfs.Run.First
import Cyanfs.Run.Forked
import Cyanfs.Run.Chores
import Cyanfs.Run.Quiescent
import Cyanfs.Data.Released
import Cyanfs.Data.CopyOnWrite
import Cyanfs.Data.Epochs
import Cyanfs.Data.Handles
import Cyanfs.Data.Seek
import Cyanfs.Data.Resize
import Cyanfs.Data.Pending
import Cyanfs.Data.Ranges
import Cyanfs.Run.Discards
import Cyanfs.Run.Barrier
import Cyanfs.Run.PowerLoss
import Cyanfs.Platform.Mount
import Cyanfs.Platform.Bio
import Cyanfs.Platform.Executor
import Cyanfs.Platform.DirectIo
import Cyanfs.Platform.Listing
import Cyanfs.Platform.Registry
import Cyanfs.Platform.Devices
import Cyanfs.Run.Recovery
import Cyanfs.Platform.Worker
