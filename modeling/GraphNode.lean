import GraphNode.Store.Metadata.Schema
import GraphNode.Store.Metadata.Lifecycle
import GraphNode.Store.Metadata.Invariant
import GraphNode.Store.Metadata.ChangeLog
import GraphNode.Store.Metadata.CreateVersion
import GraphNode.Store.Metadata.Synced
import GraphNode.Store.Metadata.DeploymentState
import GraphNode.Store.Metadata.BlockPtr
import GraphNode.Store.EntityCount
import GraphNode.Store.System
import GraphNode.Store.Lookup
import GraphNode.Store.Remove
import GraphNode.Store.ConnectionPool
import GraphNode.Store.PoolThreads
import GraphNode.Runtime.AscAbi.Class
import GraphNode.Runtime.AscAbi.Utf16
import GraphNode.Runtime.AscAbi.ToFrom
import GraphNode.Runtime.AscAbi.ListHeap
import GraphNode.Runtime.AscAbi.RoundTrip
import GraphNode.Runtime.AscAbi.Decoders
