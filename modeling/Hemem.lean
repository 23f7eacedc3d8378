import Hemem.Lib.Run
import Hemem.Lib.Custody
import Hemem.Lib.Books
import Hemem.Lib.Relabel
import Hemem.Lib.Paging
import Hemem.Lib.Granular
import Hemem.Lib.Moving
import Hemem.Lib.Selection
import Hemem.Lib.Linked
import Hemem.Lib.Buckets
import Hemem.Lib.Sections
import Hemem.Lib.Barrier
import Hemem.Lib.BigStep
import Hemem.Lib.Fair
import Hemem.Lib.Transfer
import Hemem.Lib.Telescope
import Hemem.Fifo
import Hemem.Links
import Hemem.Uthash
import Hemem.HashTable
import Hemem.HashMap
import Hemem.Machine
import Hemem.Migrate
import Hemem.Pebs
import Hemem.Mapping
import Hemem.System
import Hemem.Spec
import Hemem.Batch
import Hemem.Invariant
import Hemem.Granularity
import Hemem.Faults
import Hemem.Table
import Hemem.Slots
import Hemem.Counters
import Hemem.Tracking
import Hemem.Requests
import Hemem.Mapped
import Hemem.Lazy
import Hemem.Scan
import Hemem.Destination
import Hemem.AddressSpace
import Hemem.AppMemory
import Hemem.Munmap
import Hemem.Populate
import Hemem.RoundTrip
import Hemem.FaultLoop
import Hemem.PageSizes
import Hemem.DmaBuild
import Hemem.Draining
import Hemem.Conc.Thread
import Hemem.Conc.Migrator
import Hemem.Conc.Interleave
import Hemem.Conc.Steps
import Hemem.Conc.Custody
import Hemem.Conc.Flags
import Hemem.Conc.Queues
import Hemem.Conc.Returns
import Hemem.Conc.Allocation
import Hemem.Conc.Registers
import Hemem.Conc.Unmapped
import Hemem.Conc.Placing
import Hemem.Conc.Published
import Hemem.Conc.Writers
import Hemem.Conc.NoLostWrite
import Hemem.Conc.Linked
import Hemem.Conc.Hashed
import Hemem.Conc.Conserved
import Hemem.Conc.Requesters
import Hemem.Conc.Counting
import Hemem.Conc.Copying
import Hemem.Conc.CopyProtocol
import Hemem.Conc.Chunks
import Hemem.Conc.Copied
import Hemem.Conc.CpuRecord
import Hemem.FifoSteps
import Hemem.Conc.Locked
import Hemem.Conc.Settling
import Hemem.Conc.Alone
import Hemem.Conc.Iteration
import Hemem.Conc.Sequential
import Hemem.Sweep
import Hemem.MigTest
import Hemem.MigTestRuns
import Hemem.MigTestRoom
