import Flint.Extent.Verified
import Flint.Extent.Generations
import Flint.Extent.Namesake
import Flint.Extent.BlockMap
import Flint.Extent.CommitRights
import Flint.Locking.Exclusion
import Flint.Locking.Posix
import Flint.Locking.Restored
import Flint.Locking.Unlock
import Flint.Extent.RowBudget
import Flint.Seat.Law
import Flint.Slots.Replay
import Flint.Clients.Collision
import Flint.StateIds.Inodes
import Flint.StateIds.Closing
import Flint.Compound.Reply
import Flint.Teardown.Orphans
import Flint.StateIds.Lives
import Flint.StateIds.Indices
import Flint.Delegation.Fence
import Flint.Descriptors.Cache
import Flint.Syncer.EditOnce
import Flint.Syncer.ReaperSafe
import Flint.Syncer.Holders
import Flint.Syncer.Ingress
import Flint.Syncer.Collect
import Flint.Syncer.Clashes
import Flint.Syncer.Watch
import Flint.Forge.Landing
import Flint.Forge.Epochs
import Flint.Forge.Undo
import Flint.Forge.Reclaim
import Flint.Forge.Log
import Flint.Tier.Acked
import Flint.Tier.Sweep
import Flint.Tier.Barrier
import Flint.Replica.BaseEpoch
import Flint.Replica.Cuts
import Flint.Replica.Lineage
import Flint.Fleet.Admission
import Flint.Gss.Window
