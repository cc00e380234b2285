import GefsFuse.Proofs.Super
import GefsFuse.Proofs.Transparency
import GefsFuse.Proofs.Check
import GefsFuse.Proofs.ServerHash
import GefsFuse.Proofs.UpsertPivot
import GefsFuse.Proofs.ServerLookup
import GefsFuse.Proofs.ServerArena
import GefsFuse.Proofs.SnapCounts
import GefsFuse.Proofs.Holds
import GefsFuse.Proofs.ServerEpoch
import GefsFuse.Proofs.ServerSyncq
import GefsFuse.Proofs.ServerCached
import GefsFuse.Proofs.ServerContent
import GefsFuse.Proofs.ServerGrow
import GefsFuse.Proofs.LoadArena
import GefsFuse.Proofs.Names
import GefsFuse.Proofs.Paths
import GefsFuse.Proofs.Failed
import GefsFuse.Proofs.Alloc
import GefsFuse.Proofs.Backup
import GefsFuse.Proofs.CacheMem
import GefsFuse.Proofs.Refs
import GefsFuse.Proofs.Batch
import GefsFuse.Proofs.ServerIntact
import GefsFuse.Proofs.ServerBlk
import GefsFuse.Proofs.ServerBalance
import GefsFuse.Proofs.ServerWstat
import GefsFuse.Proofs.ServerSlow
import GefsFuse.Proofs.ServerSiblings
import GefsFuse.Proofs.ServerFill
import GefsFuse.Proofs.ServerWalk
import GefsFuse.Proofs.ServerLog
import GefsFuse.Proofs.ServerSweep
import GefsFuse.Proofs.ServerTree
import GefsFuse.Proofs.ServerUsers
import GefsFuse.Proofs.ServerCache
import GefsFuse.Proofs.ServerCheck
import GefsFuse.Proofs.ServerReaddir
import GefsFuse.Proofs.ServerUpsert
import GefsFuse.Proofs.ServerCow
import GefsFuse.Proofs.ServerSpace
import GefsFuse.Proofs.ServerNamespace
