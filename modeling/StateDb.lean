import StateDb.Backends.OrderedMap
import StateDb.Backends.Backend
import StateDb.Detail.StateDelta
import StateDb.Detail.Operations
import StateDb.Detail.MerkleRoot
import StateDb.Detail.Commit
import StateDb.Detail.DeltaEntries
import StateDb.Detail.Run
import StateDb.Laws.Commit
import StateDb.Laws.Snapshot
import StateDb.Laws.Tree
import StateDb.Laws.Merkle
import StateDb.Laws.Clear
import StateDb.Laws.Durable
import StateDb.Laws.Growth
import StateDb.Laws.Frames
import StateDb.Detail.Queries
import StateDb.Laws.Safety
