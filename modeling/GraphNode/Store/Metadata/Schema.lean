import Mathlib.Data.List.Nodup
/-!
# The `subgraphs` metadata tables

Rows of the Diesel tables `subgraph`, `subgraph_version`, `subgraph_deployment` and
`subgraph_deployment_assignment` of `store/postgres/src/metadata.rs`, with the columns the
modelled functions read or write, and the values those functions return: `EntityChange`,
`StoreError`, `EthereumBlockPointer`.

A table is a list of rows in scan order; `first()` of a query is the head of the rows it
selects. Every table carries the entity id `id`; for `subgraph_deployment` its uniqueness
(the exclusion constraint on `id` over the unversioned block range) is a field of the
state, since no modelled function inserts or deletes a deployment row.
-/

namespace GraphNode.Store

/-- A row of `subgraphs.subgraph`. -/
structure Subgraph where
  id : String
  name : String
  currentVersion : Option String
  pendingVersion : Option String
  createdAt : Nat
  deriving DecidableEq, Repr

/-- A row of `subgraphs.subgraph_version`. -/
structure SubgraphVersion where
  id : String
  subgraph : String
  deployment : String
  createdAt : Nat
  deriving DecidableEq, Repr

/-- A 32-byte block hash, as `ptr.hash.as_bytes()` stores it. -/
structure H256 where
  bytes : List UInt8
  length_eq : bytes.length = 32
  deriving DecidableEq, Repr

/-- `EthereumBlockPointer`: a block hash and a `u64` block number. -/
structure EthereumBlockPointer where
  hash : H256
  number : UInt64
  deriving DecidableEq, Repr

/-- A row of `subgraphs.subgraph_deployment`. The block number and the entity count are
`numeric` columns holding integers; the reorg counters are Postgres `integer`s. -/
structure SubgraphDeployment where
  id : String
  synced : Bool
  latestEthereumBlockHash : Option H256
  latestEthereumBlockNumber : Option Int
  entityCount : Option Int
  reorgCount : Int
  currentReorgDepth : Int
  maxReorgDepth : Int
  deriving DecidableEq, Repr

/-- A row of `subgraphs.subgraph_deployment_assignment`. -/
structure SubgraphDeploymentAssignment where
  id : String
  nodeId : String
  cost : Nat
  deriving DecidableEq, Repr

/-- The metadata tables the lifecycle functions read and write. -/
structure Metadata where
  subgraph : List Subgraph
  subgraphVersion : List SubgraphVersion
  subgraphDeployment : List SubgraphDeployment
  subgraphDeploymentAssignment : List SubgraphDeploymentAssignment
  /-- `id` is the key of `subgraph_deployment`. -/
  deployment_key : (subgraphDeployment.map (·.id)).Nodup

/-- Two states with the same tables are equal; the key of `subgraph_deployment` is a proof. -/
theorem Metadata.ext_of {m m' : Metadata} (h₁ : m.subgraph = m'.subgraph)
    (h₂ : m.subgraphVersion = m'.subgraphVersion)
    (h₃ : m.subgraphDeployment = m'.subgraphDeployment)
    (h₄ : m.subgraphDeploymentAssignment = m'.subgraphDeploymentAssignment) : m = m' := by
  cases m; cases m'; cases h₁; cases h₂; cases h₃; cases h₄; rfl

/-- `SubgraphVersionSwitchingMode`. -/
inductive SubgraphVersionSwitchingMode
  | instant
  | synced
  deriving DecidableEq, Repr

/-- `EntityChangeOperation`. -/
inductive EntityChangeOperation
  | set
  | removed
  deriving DecidableEq, Repr

/-- `EntityChange`: which entity of which subgraph changed, and how. -/
structure EntityChange where
  subgraphId : String
  entityType : String
  entityId : String
  operation : EntityChangeOperation
  deriving DecidableEq, Repr

/-- The `StoreError` variants the modelled functions return; `unknown` stands for a
database error converted by `?`. -/
inductive StoreError
  | unknown (msg : String)
  | constraintViolation (msg : String)
  | queryExecutionError (msg : String)
  deriving DecidableEq, Repr

/-- Modelled from the spec: `SUBGRAPHS_ID`, the id of the meta subgraph that owns the
metadata entities. -/
def subgraphsId : String := "subgraphs"

/-- Modelled from the spec: `SubgraphDeploymentAssignmentEntity::TYPENAME`. -/
def assignmentTypename : String := "SubgraphDeploymentAssignment"

/-- Modelled from the spec: `From<MetadataOperation> for Option<EntityChange>` on
`MetadataOperation::Remove { entity, id }`, a `Removed` change of that metadata entity. -/
def removeOperationChange (entity id : String) : Option EntityChange :=
  some ⟨subgraphsId, entity, id, .removed⟩

/-- `EntityChange::from_key(MetadataOperation::entity_key(TYPENAME, id), Set)` of
`create_subgraph_version`. -/
def assignmentSetChange (id : String) : EntityChange :=
  ⟨subgraphsId, assignmentTypename, id, .set⟩

/-- The deployment ids that have an assignment row. -/
def Metadata.assigned (m : Metadata) : List String :=
  m.subgraphDeploymentAssignment.map (·.id)

end GraphNode.Store
