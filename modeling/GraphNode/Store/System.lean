import GraphNode.Store.Metadata.BlockPtr
import GraphNode.Store.EntityCount
import GraphNode.Store.Metadata.ChangeLog
/-!
# The metadata store as one system

The lifecycle transactions of `metadata.rs` are not the only writers of the metadata tables:
while subgraphs are deployed, promoted and removed, block ingestion calls `forward_block_ptr`,
`revert_block_ptr` and `update_entity_count` on each deployment's row, each call in its own
transaction. A `StoreOp` is any of these writes, and a run of the store is any list of them,
in any interleaving.

Every write changes `subgraph_deployment` row by row (`run_subgraphDeployment`): the lifecycle
transactions touch only the `synced` flag, the block writes only the row of their deployment,
and there only the block pointer, the entity count and the reorg counters (`blockColumns`).

Main results, each over every run of writes:
* `lifecycle_noninterference`: block writes interleaved with the lifecycle transactions change
  nothing the lifecycle transactions read or return;
* `blockColumns_isolated`: a deployment's block columns depend only on the writes to it;
* `storeReachable_simulates`: every state the whole store reaches agrees with a state the
  lifecycle transactions reach alone, so the metadata invariant `Inv` holds in it;
* `counters_in_range`: the reorg counters stay in `0 ≤ current ≤ max ≤ count ≤ i32::MAX`;
* `replay_storeChanges`: a subscriber replaying the returned changes tracks the assignments.
-/

namespace GraphNode.Store

/-- A write to the metadata tables: a lifecycle transaction, a block pointer call on deployment
`id`, or the `update_entity_count(count)` of a block of deployment `id`, whose count query
evaluates to `countQuery`. -/
inductive StoreOp
  | lifecycle (op : Operation)
  | blockPtr (id : String) (op : BlockPtrOp)
  | entityCount (id : String) (count countQuery : Int)
  deriving DecidableEq, Repr

namespace StoreOp

/-- The tables after the write; a failed call leaves them as they were. -/
def run : StoreOp → Metadata → Metadata
  | .lifecycle op, m => (op.run m).1
  | .blockPtr id op, m => runBlockPtrOp id m op
  | .entityCount id count countQuery, m => updateEntityCount id count countQuery m

def isLifecycle : StoreOp → Bool
  | .lifecycle _ => true
  | _ => false

/-- The write is a block write on deployment `id`. -/
def writes (id : String) : StoreOp → Bool
  | .lifecycle _ => false
  | .blockPtr id' _ | .entityCount id' _ _ => id' == id

/-- The ids a lifecycle transaction generates are fresh. -/
def Fresh : StoreOp → Metadata → Prop
  | .lifecycle op, m => op.Fresh m
  | _, _ => True

end StoreOp

/-- A run of the store: the writes one after the other. -/
def runStore (ops : List StoreOp) (m : Metadata) : Metadata :=
  ops.foldl (fun m op => op.run m) m

/-- The row a block pointer call leaves for its deployment: the updated row, or the old one
where the update fails, since the statement then fails and writes no row. -/
def BlockPtrOp.writeRow (op : BlockPtrOp) (d : SubgraphDeployment) : SubgraphDeployment :=
  match op.apply d with
  | .ok d' => d'
  | .error _ => d

/-- What a write does to each row of `subgraph_deployment`. -/
def StoreOp.deploymentRow : StoreOp → SubgraphDeployment → SubgraphDeployment
  | .lifecycle (.deploymentSynced id), d => markSynced id d
  | .lifecycle _, d => d
  | .blockPtr id op, d => if d.id = id then op.writeRow d else d
  | .entityCount id count countQuery, d => if d.id = id then blockRow count countQuery d else d

/-- The columns of a deployment row that block ingestion writes: the latest block pointer, the
entity count and the reorg counters. -/
def SubgraphDeployment.blockColumns (d : SubgraphDeployment) :
    Option H256 × Option Int × Option Int × Int × Int × Int :=
  (d.latestEthereumBlockHash, d.latestEthereumBlockNumber, d.entityCount, d.reorgCount,
    d.currentReorgDepth, d.maxReorgDepth)

/-! ## Rows -/

section Rows

variable {d : SubgraphDeployment} {ptr : EthereumBlockPointer}

theorem synced_of_revertRow {d' : SubgraphDeployment} (h : revertRow ptr d = .ok d') :
    d'.synced = d.synced := by
  unfold revertRow int4 at h
  repeat' split at h
  all_goals cases h
  rfl

@[simp] theorem BlockPtrOp.id_writeRow (op : BlockPtrOp) : (op.writeRow d).id = d.id := by
  unfold BlockPtrOp.writeRow
  split
  · rename_i h; cases op with
    | forward => cases h; rfl
    | revert => exact id_of_revertRow h
  · rfl

@[simp] theorem BlockPtrOp.synced_writeRow (op : BlockPtrOp) :
    (op.writeRow d).synced = d.synced := by
  unfold BlockPtrOp.writeRow
  split
  · rename_i h; cases op with
    | forward => cases h; rfl
    | revert => exact synced_of_revertRow h
  · rfl

@[simp] theorem StoreOp.id_deploymentRow (op : StoreOp) : (op.deploymentRow d).id = d.id := by
  rcases op with (_ | _ | _) | _ | _ <;> simp only [StoreOp.deploymentRow] <;>
    first | rfl | exact id_markSynced _ _ | split <;> simp [blockRow]

end Rows

/-! ## What each write does to the tables -/

section Writes

variable {m : Metadata} {id : String}

/-- `revert_block_ptr` row by row: the other rows pass through, and the deployment's own row
decides whether the statement succeeds. -/
theorem mapM_revertUpdate (ptr : EthereumBlockPointer) :
    (∃ e, m.subgraphDeployment.mapM (revertUpdate id ptr) = .error e ∧
        m.subgraphDeployment.map (StoreOp.blockPtr id (.revert ptr)).deploymentRow =
          m.subgraphDeployment) ∨
      m.subgraphDeployment.mapM (revertUpdate id ptr) =
        .ok (m.subgraphDeployment.map (StoreOp.blockPtr id (.revert ptr)).deploymentRow) := by
  have hother : ∀ r : SubgraphDeployment, r.id ≠ id →
      revertUpdate id ptr r = .ok ((StoreOp.blockPtr id (.revert ptr)).deploymentRow r) ∧
        (StoreOp.blockPtr id (.revert ptr)).deploymentRow r = r :=
    fun r hne => ⟨by rw [revertUpdate, if_neg hne]; exact congrArg _ (if_neg hne).symm, if_neg hne⟩
  cases hd : m.subgraphDeployment.find? (·.id == id) with
  | none =>
    have hne : ∀ r ∈ m.subgraphDeployment, r.id ≠ id := fun r hr hrid =>
      List.find?_eq_none.mp hd r hr (by simpa using hrid)
    exact .inr (mapM_ok_iff.mpr (List.forall₂_map_right_iff.mpr
      (List.forall₂_same.mpr fun r hr => (hother r (hne r hr)).1)))
  | some d =>
    have hdid : d.id = id := by simpa using List.find?_some hd
    cases hrev : revertRow ptr d with
    | error e =>
      refine .inl ⟨e, mapM_eq_error (List.mem_of_find?_eq_some hd)
        (by rw [revertUpdate, if_pos hdid, hrev]) fun r hr hne => ⟨r, if_neg fun hrid =>
          hne (eq_of_find? hd hr hrid)⟩, (List.map_congr_left fun r hr => ?_).trans (List.map_id _)⟩
      by_cases hrid : r.id = id
      · rw [eq_of_find? hd hr hrid]
        simp only [StoreOp.deploymentRow, if_pos hdid, BlockPtrOp.writeRow, BlockPtrOp.apply, hrev]
        rfl
      · exact (hother r hrid).2
    | ok d' =>
      refine .inr (mapM_ok_iff.mpr (List.forall₂_map_right_iff.mpr
        (List.forall₂_same.mpr fun r hr => ?_)))
      by_cases hrid : r.id = id
      · rw [eq_of_find? hd hr hrid]
        simp only [revertUpdate, StoreOp.deploymentRow, if_pos hdid, BlockPtrOp.writeRow,
          BlockPtrOp.apply, hrev]
      · exact (hother r hrid).1

theorem runBlockPtrOp_revert_eq (ptr : EthereumBlockPointer) :
    runBlockPtrOp id m (.revert ptr) =
      m.updateDeployments (StoreOp.blockPtr id (.revert ptr)).deploymentRow
        fun _ => StoreOp.id_deploymentRow _ := by
  rcases @mapM_revertUpdate m id ptr with ⟨e, he, hmap⟩ | hok
  · rw [runBlockPtrOp, BlockPtrOp.run, revertBlockPtr, Metadata.updateDeploymentsM_of_error he]
    exact Metadata.ext_of rfl rfl hmap.symm rfl
  · have hm : m.updateDeploymentsM (revertUpdate id ptr) (fun _ _ => id_of_revertUpdate) =
        .ok (m.updateDeployments (StoreOp.blockPtr id (.revert ptr)).deploymentRow
          fun _ => StoreOp.id_deploymentRow _) := by
      unfold Metadata.updateDeploymentsM
      split
      · rename_i h; rw [hok] at h; cases h
      · rename_i h; rw [hok] at h; cases h; rfl
    rw [runBlockPtrOp, BlockPtrOp.run, revertBlockPtr, hm]
    rfl

/-- A block write updates every deployment row by `deploymentRow` and nothing else. -/
theorem StoreOp.run_of_not_isLifecycle {op : StoreOp} (h : op.isLifecycle = false)
    (m : Metadata) : op.run m = m.updateDeployments op.deploymentRow fun _ => op.id_deploymentRow :=
  match op, h with
  | .blockPtr _ (.forward _), _ => rfl
  | .blockPtr _ (.revert ptr), _ => runBlockPtrOp_revert_eq ptr
  | .entityCount id count countQuery, _ => by
    show updateEntityCount id count countQuery m = _
    unfold updateEntityCount
    split
    · rename_i h0
      refine Metadata.ext_of rfl rfl ((List.map_congr_left fun r _ => ?_).trans (List.map_id _)).symm rfl
      simp [StoreOp.deploymentRow, blockRow, blockEntityCount, h0]
    · rename_i h0
      congr
      funext r
      simp [StoreOp.deploymentRow, blockRow, blockEntityCount, h0]

/-- Every write changes `subgraph_deployment` row by row. -/
theorem StoreOp.run_subgraphDeployment (op : StoreOp) (m : Metadata) :
    (op.run m).subgraphDeployment = m.subgraphDeployment.map op.deploymentRow := by
  cases op with
  | lifecycle op =>
    cases op with
    | createSubgraphVersion name id nodeId mode t sid vid =>
      show (stageVersion name id nodeId mode t sid vid m).subgraphDeployment = _
      rw [stageVersion_subgraphDeployment]
      exact (List.map_id' _).symm
    | deploymentSynced => rfl
    | removeSubgraph name =>
      show (removeSubgraph name m).1.subgraphDeployment = _
      unfold removeSubgraph
      split <;> exact (List.map_id' _).symm
  | blockPtr id op => rw [@run_of_not_isLifecycle (.blockPtr id op) rfl]; rfl
  | entityCount id count countQuery =>
    rw [@run_of_not_isLifecycle (.entityCount id count countQuery) rfl]; rfl

end Writes

/-! ## Block writes are invisible to the lifecycle transactions -/

/-- The id and `synced` flag of a deployment row: all the lifecycle transactions read of it. -/
def SubgraphDeployment.lifecycleKey (d : SubgraphDeployment) : String × Bool := (d.id, d.synced)

/-- `m₁` and `m₂` agree on everything the lifecycle transactions read and write: the subgraph,
version and assignment tables, and the id and `synced` flag of each deployment row. -/
structure SameLifecycle (m₁ m₂ : Metadata) : Prop where
  subgraph : m₁.subgraph = m₂.subgraph
  subgraphVersion : m₁.subgraphVersion = m₂.subgraphVersion
  deployments : m₁.subgraphDeployment.map (·.lifecycleKey) =
    m₂.subgraphDeployment.map (·.lifecycleKey)
  assignment : m₁.subgraphDeploymentAssignment = m₂.subgraphDeploymentAssignment

/-- The change lists the lifecycle transactions of a run return, in order. -/
def lifecycleChanges : List StoreOp → Metadata → List (List EntityChange)
  | [], _ => []
  | op :: ops, m =>
    match op with
    | .lifecycle l => (l.run m).2 :: lifecycleChanges ops (op.run m)
    | _ => lifecycleChanges ops (op.run m)

@[simp] theorem runStore_nil (m : Metadata) : runStore [] m = m := rfl

@[simp] theorem runStore_cons (op : StoreOp) (ops : List StoreOp) (m : Metadata) :
    runStore (op :: ops) m = runStore ops (op.run m) := rfl

theorem lifecycleChanges_cons_of_not_isLifecycle {op : StoreOp} (h : op.isLifecycle = false)
    (ops : List StoreOp) (m : Metadata) :
    lifecycleChanges (op :: ops) m = lifecycleChanges ops (op.run m) := by
  cases op with
  | lifecycle => cases h
  | blockPtr | entityCount => rfl

section Congruence

variable {m m₁ m₂ m₃ : Metadata}

theorem SameLifecycle.refl (m : Metadata) : SameLifecycle m m := ⟨rfl, rfl, rfl, rfl⟩

theorem SameLifecycle.trans (h₁ : SameLifecycle m₁ m₂) (h₂ : SameLifecycle m₂ m₃) :
    SameLifecycle m₁ m₃ :=
  ⟨h₁.1.trans h₂.1, h₁.2.trans h₂.2, h₁.3.trans h₂.3, h₁.4.trans h₂.4⟩

/-- A block write keeps the id and `synced` flag of every row. -/
theorem StoreOp.lifecycleKey_deploymentRow {op : StoreOp} (h : op.isLifecycle = false)
    (d : SubgraphDeployment) : (op.deploymentRow d).lifecycleKey = d.lifecycleKey := by
  rcases op with _ | ⟨id, op⟩ | ⟨id, count, countQuery⟩
  · cases h
  all_goals
    simp only [StoreOp.deploymentRow, SubgraphDeployment.lifecycleKey]
    split <;> simp [blockRow]

/-- A block write changes nothing the lifecycle transactions read. -/
theorem StoreOp.sameLifecycle_run {op : StoreOp} (h : op.isLifecycle = false) (m : Metadata) :
    SameLifecycle (op.run m) m := by
  rw [run_of_not_isLifecycle h]
  refine ⟨rfl, rfl, ?_, rfl⟩
  rw [updateDeployments_subgraphDeployment, List.map_map]
  exact List.map_congr_left fun d _ => lifecycleKey_deploymentRow h d

theorem currentExistsAndSynced_congr (h : SameLifecycle m₁ m₂) (c : Option String) :
    currentExistsAndSynced m₁ c = currentExistsAndSynced m₂ c := by
  cases c with
  | none => rfl
  | some c =>
    have hkeys : ∀ m : Metadata, (m.subgraphDeployment.flatMap fun d =>
        (m.subgraphVersion.filter fun v => v.deployment == d.id && v.id == c).map
          fun _ => d.synced) = (m.subgraphDeployment.map (·.lifecycleKey)).flatMap fun p =>
        (m.subgraphVersion.filter fun v => v.deployment == p.1 && v.id == c).map fun _ => p.2 :=
      fun m => by rw [List.flatMap_map]; rfl
    simp only [currentExistsAndSynced]
    rw [hkeys, hkeys, h.deployments, h.subgraphVersion]

theorem SameLifecycle.subgraphInfo (h : SameLifecycle m₁ m₂) (name : String) (t : Nat)
    (sid : String) :
    SameLifecycle (subgraphInfo name t sid m₁).1 (subgraphInfo name t sid m₂).1 ∧
      (subgraphInfo name t sid m₁).2 = (subgraphInfo name t sid m₂).2 := by
  have hf : findSubgraph m₁ name = findSubgraph m₂ name := by
    rw [findSubgraph, findSubgraph, h.subgraph]
  cases hs : findSubgraph m₂ name with
  | some s => rw [subgraphInfo_of_some hs, subgraphInfo_of_some (hf.trans hs)]; exact ⟨h, rfl⟩
  | none =>
    rw [subgraphInfo_of_none hs, subgraphInfo_of_none (hf.trans hs)]
    exact ⟨⟨congrArg (· ++ _) h.subgraph, h.2, h.3, h.4⟩, rfl⟩

theorem SameLifecycle.removeUnused (h : SameLifecycle m₁ m₂) :
    SameLifecycle (removeUnusedAssignments m₁).1 (removeUnusedAssignments m₂).1 ∧
      (removeUnusedAssignments m₁).2 = (removeUnusedAssignments m₂).2 := by
  have hu : m₁.deploymentInUse = m₂.deploymentInUse := by
    funext d; simp only [Metadata.deploymentInUse, h.subgraph, h.subgraphVersion]
  refine ⟨⟨h.1, h.2, h.3, ?_⟩, ?_⟩
  · rw [removeUnusedAssignments_assignment, removeUnusedAssignments_assignment, hu, h.assignment]
  · unfold removeUnusedAssignments
    rw [hu, h.assignment]

theorem SameLifecycle.stageVersion (h : SameLifecycle m₁ m₂) (name id nodeId : String)
    (mode : SubgraphVersionSwitchingMode) (t : Nat) (sid vid : String) :
    SameLifecycle (stageVersion name id nodeId mode t sid vid m₁)
      (stageVersion name id nodeId mode t sid vid m₂) := by
  obtain ⟨hi, hi₂⟩ := h.subgraphInfo name t sid
  refine ⟨?_, ?_, ?_, ?_⟩
  · simp only [stageVersion_subgraph, hi₂, currentExistsAndSynced_congr hi, hi.subgraph]
  · simp only [stageVersion_subgraphVersion, h.subgraphVersion, hi₂]
  · simp only [stageVersion_subgraphDeployment, h.deployments]
  · simp only [stageVersion_assignment, newAssignment, h.assignment]

theorem map_lifecycleKey_markSynced (id : String) (ds : List SubgraphDeployment) :
    (ds.map (markSynced id)).map (·.lifecycleKey) =
      (ds.map (·.lifecycleKey)).map fun p => if p.1 = id then (p.1, true) else p := by
  simp only [List.map_map]
  refine List.map_congr_left fun d _ => ?_
  simp only [Function.comp, markSynced, SubgraphDeployment.lifecycleKey]
  split <;> rfl

/-- A lifecycle transaction reads nothing but what `SameLifecycle` compares. -/
theorem SameLifecycle.run (h : SameLifecycle m₁ m₂) (op : Operation) :
    SameLifecycle (op.run m₁).1 (op.run m₂).1 ∧ (op.run m₁).2 = (op.run m₂).2 := by
  cases op with
  | createSubgraphVersion name id nodeId mode t sid vid =>
    obtain ⟨h', hc⟩ := (h.stageVersion name id nodeId mode t sid vid).removeUnused
    refine ⟨h', ?_⟩
    show (if newAssignment m₁ id then _ else _) = (if newAssignment m₂ id then _ else _)
    rw [hc, show newAssignment m₁ id = newAssignment m₂ id by simp only [newAssignment, h.4]]
  | deploymentSynced id =>
    have hp : SameLifecycle
        { m₁ with subgraph := promotePending (pendingSubgraphVersions m₁ id) m₁.subgraph }
        { m₂ with subgraph := promotePending (pendingSubgraphVersions m₂ id) m₂.subgraph } :=
      ⟨by simp only [pendingSubgraphVersions, h.subgraph, h.subgraphVersion], h.2, h.3, h.4⟩
    obtain ⟨h', hc⟩ := hp.removeUnused
    refine ⟨⟨h'.1, h'.2, ?_, h'.4⟩, hc⟩
    simp only [Operation.run, deploymentSynced_subgraphDeployment, map_lifecycleKey_markSynced,
      h.deployments]
  | removeSubgraph name =>
    have hf : findSubgraph m₁ name = findSubgraph m₂ name := by
      rw [findSubgraph, findSubgraph, h.subgraph]
    show SameLifecycle (removeSubgraph name m₁).1 (removeSubgraph name m₂).1 ∧
      (removeSubgraph name m₁).2 = (removeSubgraph name m₂).2
    unfold removeSubgraph
    rw [hf]
    split
    · refine SameLifecycle.removeUnused ⟨?_, ?_, h.3, h.4⟩ <;>
        simp only [deleteSubgraph, h.subgraph, h.subgraphVersion]
    · exact ⟨h, rfl⟩

end Congruence

/-- Block ingestion is invisible to the lifecycle transactions: over every interleaving of
writes, the tables the lifecycle transactions read and write, and the id and `synced` flag of
every deployment row, end as when the lifecycle transactions run alone, and those transactions
return the same changes. -/
theorem lifecycle_noninterference (ops : List StoreOp) (m : Metadata) :
    SameLifecycle (runStore ops m) (runStore (ops.filter (·.isLifecycle)) m) ∧
      lifecycleChanges ops m = lifecycleChanges (ops.filter (·.isLifecycle)) m := by
  suffices ∀ {m₁ m₂ : Metadata}, SameLifecycle m₁ m₂ →
      SameLifecycle (runStore ops m₁) (runStore (ops.filter (·.isLifecycle)) m₂) ∧
        lifecycleChanges ops m₁ = lifecycleChanges (ops.filter (·.isLifecycle)) m₂ from
    this (.refl m)
  induction ops with
  | nil => exact fun h => ⟨h, rfl⟩
  | cons op ops ih =>
    intro m₁ m₂ h
    cases hop : op.isLifecycle
    · rw [List.filter_cons_of_neg (by simp [hop]), runStore_cons,
        lifecycleChanges_cons_of_not_isLifecycle hop]
      exact ih ((StoreOp.sameLifecycle_run hop m₁).trans h)
    · rw [List.filter_cons_of_pos hop]
      rcases op with l | _ | _
      · obtain ⟨h', hc⟩ := h.run l
        obtain ⟨h'', hc''⟩ := ih h'
        exact ⟨h'', by simp only [lifecycleChanges, StoreOp.run, hc, hc'']⟩
      all_goals cases hop

/-! ## A deployment's block columns depend only on its own writes -/

section Isolation

variable {id : String}

/-- A run changes `subgraph_deployment` row by row, each row by the writes in turn. -/
theorem runStore_subgraphDeployment (ops : List StoreOp) (m : Metadata) :
    (runStore ops m).subgraphDeployment =
      m.subgraphDeployment.map fun d => ops.foldl (fun d op => op.deploymentRow d) d := by
  induction ops generalizing m with
  | nil => exact (List.map_id' _).symm
  | cons op ops ih => rw [runStore_cons, ih, StoreOp.run_subgraphDeployment, List.map_map]; rfl

theorem id_foldl_deploymentRow (ops : List StoreOp) (d : SubgraphDeployment) :
    (ops.foldl (fun d op => op.deploymentRow d) d).id = d.id := by
  induction ops generalizing d with
  | nil => rfl
  | cons op ops ih => rw [List.foldl_cons, ih, StoreOp.id_deploymentRow]

theorem find?_map_of_id {f : SubgraphDeployment → SubgraphDeployment} (hf : ∀ d, (f d).id = d.id)
    (ds : List SubgraphDeployment) :
    (ds.map f).find? (·.id == id) = (ds.find? (·.id == id)).map f := by
  have hp : ((·.id == id) ∘ f) = (·.id == id) := funext fun d => by simp [hf]
  rw [List.find?_map, hp]

/-- A block write ignores the `synced` flag of the row it updates. -/
theorem StoreOp.deploymentRow_synced {op : StoreOp} (h : op.isLifecycle = false)
    (d : SubgraphDeployment) (b : Bool) :
    op.deploymentRow { d with synced := b } = { op.deploymentRow d with synced := b } := by
  rcases op with _ | ⟨id, _ | ptr⟩ | ⟨id, count, countQuery⟩
  · cases h
  · simp only [StoreOp.deploymentRow]
    split <;> rfl
  · simp only [StoreOp.deploymentRow]
    split
    · simp only [BlockPtrOp.writeRow, BlockPtrOp.apply, revertRow]
      cases int4 (d.reorgCount + 1) <;> cases int4 (d.currentReorgDepth + 1) <;> rfl
    · rfl
  · simp only [StoreOp.deploymentRow]
    split <;> rfl

/-- A write other than a block write on deployment `id` leaves the block columns of `id`'s row
alone. -/
theorem StoreOp.blockColumns_deploymentRow {op : StoreOp} (h : op.writes id = false)
    {d : SubgraphDeployment} (hd : d.id = id) :
    (op.deploymentRow d).blockColumns = d.blockColumns := by
  rcases op with (_ | id' | _) | ⟨id', op⟩ | ⟨id', count, countQuery⟩
  · rfl
  · simp only [StoreOp.deploymentRow, markSynced]; split <;> rfl
  · rfl
  all_goals
    have hne : d.id ≠ id' := fun h' => by simp [StoreOp.writes, ← hd, h'] at h
    simp only [StoreOp.deploymentRow, if_neg hne]

/-- Two rows of deployment `id` with the same block columns keep the same block columns through
every write. -/
theorem StoreOp.blockColumns_deploymentRow_congr (op : StoreOp) {d₁ d₂ : SubgraphDeployment}
    (hid : d₁.id = d₂.id) (h : d₁.blockColumns = d₂.blockColumns) :
    (op.deploymentRow d₁).blockColumns = (op.deploymentRow d₂).blockColumns := by
  have hd₂ : d₂ = { d₁ with synced := d₂.synced } := by
    obtain ⟨⟩ := d₁; obtain ⟨⟩ := d₂
    simp only [SubgraphDeployment.blockColumns, Prod.mk.injEq] at h hid
    simp only [hid, h]
  cases hop : op.isLifecycle
  · rw [hd₂, StoreOp.deploymentRow_synced hop d₁ d₂.synced]
    rfl
  · rcases op with l | _ | _
    · rw [@StoreOp.blockColumns_deploymentRow d₁.id (.lifecycle l) rfl d₁ rfl,
        @StoreOp.blockColumns_deploymentRow d₂.id (.lifecycle l) rfl d₂ rfl, h]
    all_goals cases hop

theorem blockColumns_foldl_filter (ops : List StoreOp) {d₁ d₂ : SubgraphDeployment}
    (hid₁ : d₁.id = id) (hid₂ : d₂.id = id) (h : d₁.blockColumns = d₂.blockColumns) :
    (ops.foldl (fun d op => op.deploymentRow d) d₁).blockColumns =
      ((ops.filter (·.writes id)).foldl (fun d op => op.deploymentRow d) d₂).blockColumns := by
  induction ops generalizing d₁ d₂ with
  | nil => exact h
  | cons op ops ih =>
    cases hw : op.writes id
    · rw [List.filter_cons_of_neg (by simp [hw]), List.foldl_cons]
      exact ih (by rw [StoreOp.id_deploymentRow, hid₁]) hid₂
        ((StoreOp.blockColumns_deploymentRow hw hid₁).trans h)
    · rw [List.filter_cons_of_pos hw, List.foldl_cons, List.foldl_cons]
      exact ih (by rw [StoreOp.id_deploymentRow, hid₁]) (by rw [StoreOp.id_deploymentRow, hid₂])
        (op.blockColumns_deploymentRow_congr (hid₁.trans hid₂.symm) h)

end Isolation

/-- Each deployment's block pointer, entity count and reorg counters depend only on its own
block writes: over every interleaving of writes, the block columns of deployment `id`'s row end
as when only the block writes on `id` run, in their order; the lifecycle transactions and the
writes on other deployments never change them. -/
theorem blockColumns_isolated (ops : List StoreOp) (m : Metadata) (id : String) :
    ((runStore ops m).subgraphDeployment.find? (·.id == id)).map (·.blockColumns) =
      ((runStore (ops.filter (·.writes id)) m).subgraphDeployment.find? (·.id == id)).map
        (·.blockColumns) := by
  rw [runStore_subgraphDeployment, runStore_subgraphDeployment,
    find?_map_of_id (id_foldl_deploymentRow ops), find?_map_of_id (id_foldl_deploymentRow _),
    Option.map_map, Option.map_map]
  cases hd : m.subgraphDeployment.find? (·.id == id) with
  | none => rfl
  | some d =>
    have hid : d.id = id := by simpa using List.find?_some hd
    exact congrArg some (blockColumns_foldl_filter ops hid hid rfl)

/-! ## The whole store simulates the lifecycle transactions -/

/-- The states the whole store reaches from empty subgraph, version and assignment tables and
any deployment table, one write at a time, each lifecycle transaction with fresh ids. -/
inductive StoreReachable : Metadata → Prop
  | init (deployments : List SubgraphDeployment) (key : (deployments.map (·.id)).Nodup) :
      StoreReachable ⟨[], [], deployments, [], key⟩
  | step {m : Metadata} (op : StoreOp) : StoreReachable m → op.Fresh m → StoreReachable (op.run m)

section Simulation

variable {m₁ m₂ : Metadata}

theorem Metadata.syncedVersion_iff {m : Metadata} {c : String} :
    m.SyncedVersion c ↔ ∃ v ∈ m.subgraphVersion, v.id = c ∧
      (v.deployment, true) ∈ m.subgraphDeployment.map (·.lifecycleKey) := by
  simp only [Metadata.SyncedVersion, List.mem_map, SubgraphDeployment.lifecycleKey, Prod.mk.injEq]

theorem SameLifecycle.syncedVersion (h : SameLifecycle m₁ m₂) {c : String} :
    m₁.SyncedVersion c ↔ m₂.SyncedVersion c := by
  rw [Metadata.syncedVersion_iff, Metadata.syncedVersion_iff, h.subgraphVersion, h.deployments]

/-- The invariant reads nothing but what `SameLifecycle` compares. -/
theorem SameLifecycle.inv (h : SameLifecycle m₁ m₂) (hi : Inv m₂) : Inv m₁ := by
  have hsync := @SameLifecycle.syncedVersion _ _ h
  obtain ⟨s₁, v₁, ds₁, a₁, k₁⟩ := m₁
  obtain ⟨s₂, v₂, ds₂, a₂, k₂⟩ := m₂
  obtain ⟨rfl, rfl, -, rfl⟩ := h
  refine ⟨⟨hi.subgraph_key, hi.name_key, hi.version_key, hi.own_version, hi.version_subgraph,
    fun s hs x hx => ?_⟩, ⟨hi.assigned_key, hi.assigned_iff⟩⟩
  obtain ⟨c, hc, hne, hs⟩ := hi.pending_current s hs x hx
  exact ⟨c, hc, hne, hsync.mpr hs⟩

theorem SameLifecycle.fresh (h : SameLifecycle m₁ m₂) {op : Operation} (hf : op.Fresh m₁) :
    op.Fresh m₂ := by
  cases op with
  | createSubgraphVersion => simpa only [Operation.Fresh, h.subgraph, h.subgraphVersion] using hf
  | deploymentSynced | removeSubgraph => trivial

/-- The runs of the lifecycle transactions alone are runs of the store. -/
theorem Reachable.storeReachable {m : Metadata} (h : Reachable m) : StoreReachable m := by
  induction h with
  | init deployments key => exact .init deployments key
  | step op _ hf ih => exact .step (.lifecycle op) ih hf

end Simulation

/-- Every state the whole store reaches agrees with a state the lifecycle transactions reach
alone: a block write keeps the lifecycle tables, and a lifecycle transaction acts alike on two
states that agree on them. -/
theorem StoreReachable.sameLifecycle {m : Metadata} (h : StoreReachable m) :
    ∃ m', Reachable m' ∧ SameLifecycle m m' := by
  induction h with
  | init deployments key => exact ⟨_, .init deployments key, .refl _⟩
  | step op _ hf ih =>
    obtain ⟨m', hr, hs⟩ := ih
    cases hop : op.isLifecycle
    · exact ⟨m', hr, (StoreOp.sameLifecycle_run hop _).trans hs⟩
    · rcases op with l | _ | _
      · exact ⟨_, .step l hr (hs.fresh hf), (hs.run l).1⟩
      all_goals cases hop

theorem StoreReachable.inv {m : Metadata} (h : StoreReachable m) : Inv m :=
  let ⟨_, hr, hs⟩ := h.sameLifecycle
  hs.inv hr.inv

/-- The whole store refines the lifecycle transactions: every state any interleaving of
lifecycle transactions and block writes reaches agrees, on everything the lifecycle
transactions read and write, with a state the lifecycle transactions reach alone; so the
metadata invariant holds in it. -/
theorem storeReachable_simulates {m : Metadata} (h : StoreReachable m) :
    Inv m ∧ ∃ m', Reachable m' ∧ SameLifecycle m m' :=
  ⟨h.inv, h.sameLifecycle⟩

/-- `D1` deployed, then moved to its first block. -/
def ingestedD1 : Metadata := (StoreOp.blockPtr "D1" (.forward zeroPtr)).run deployedD1

theorem storeReachable_ingestedD1 : StoreReachable ingestedD1 :=
  .step _ reachable_deployedD1.storeReachable trivial

theorem storeReachable_simulates_ingestedD1 :
    StoreReachable ingestedD1 ∧ Inv ingestedD1 ∧
      ∃ m', Reachable m' ∧ SameLifecycle ingestedD1 m' :=
  ⟨storeReachable_ingestedD1, storeReachable_simulates storeReachable_ingestedD1⟩

/-! ## The reorg counters stay in range -/

/-- The reorg counters of a row are in range:
`0 ≤ current_reorg_depth ≤ max_reorg_depth ≤ reorg_count ≤ i32::MAX`. -/
structure SubgraphDeployment.CountersWf (d : SubgraphDeployment) : Prop where
  current_nonneg : 0 ≤ d.currentReorgDepth
  current_le_max : d.currentReorgDepth ≤ d.maxReorgDepth
  max_le_count : d.maxReorgDepth ≤ d.reorgCount
  count_le : d.reorgCount ≤ i32Max

section Counters

variable {d : SubgraphDeployment}

/-- `revert_block_ptr` keeps the counters in range: the update that would take `reorg_count`
past `i32::MAX` fails. -/
theorem SubgraphDeployment.CountersWf.revertRow (h : d.CountersWf) {ptr : EthereumBlockPointer}
    {d' : SubgraphDeployment} (hr : revertRow ptr d = .ok d') : d'.CountersWf := by
  unfold GraphNode.Store.revertRow int4 at hr
  split at hr
  · rename_i hc
    split at hr
    · cases hr
      have := h.1; have := h.2; have := h.3
      refine ⟨?_, le_max_left _ _, max_le ?_ ?_, hc.2⟩ <;> dsimp only <;> omega
    · cases hr
  · cases hr

theorem SubgraphDeployment.CountersWf.deploymentRow (h : d.CountersWf) (op : StoreOp) :
    (op.deploymentRow d).CountersWf := by
  rcases op with (_ | id | _) | ⟨id, _ | ptr⟩ | ⟨id, count, countQuery⟩
  · exact h
  · simp only [StoreOp.deploymentRow, markSynced]; split
    · exact ⟨h.1, h.2, h.3, h.4⟩
    · exact h
  · exact h
  · simp only [StoreOp.deploymentRow]; split
    · exact ⟨le_refl _, h.1.trans h.2, h.3, h.4⟩
    · exact h
  · simp only [StoreOp.deploymentRow, BlockPtrOp.writeRow]; split
    · split
      · rename_i hr; exact h.revertRow hr
      · exact h
    · exact h
  · simp only [StoreOp.deploymentRow]; split
    · exact ⟨h.1, h.2, h.3, h.4⟩
    · exact h

theorem countersWf_foldl {d : SubgraphDeployment} (h : d.CountersWf) (ops : List StoreOp) :
    (ops.foldl (fun d op => op.deploymentRow d) d).CountersWf := by
  induction ops generalizing d with
  | nil => exact h
  | cons op ops ih => exact ih (h.deploymentRow op)

end Counters

/-- From deployment rows whose reorg counters are in range, every run of writes keeps every row's
counters in range, since the update that would overflow `reorg_count` fails; so
`deployment_state_from_id` never fails on a counter: it fails only on the block number, and
reports the counters exactly. -/
theorem counters_in_range (ops : List StoreOp) {m : Metadata}
    (hwf : ∀ d ∈ m.subgraphDeployment, d.CountersWf) :
    ∀ d ∈ (runStore ops m).subgraphDeployment, d.CountersWf ∧
      deploymentStateFromId (runStore ops m) d.id =
        (fun n => ⟨d.id, .ofNat d.reorgCount.toNat, .ofNat d.maxReorgDepth.toNat, n⟩) <$>
          latestAsBlockNumber d.latestEthereumBlockNumber d.id ∧
      ((UInt32.ofNat d.reorgCount.toNat).toNat : Int) = d.reorgCount ∧
      ((UInt32.ofNat d.maxReorgDepth.toNat).toNat : Int) = d.maxReorgDepth := by
  intro d hd
  have hc : d.CountersWf := by
    rw [runStore_subgraphDeployment] at hd
    obtain ⟨d₀, hd₀, rfl⟩ := List.mem_map.mp hd
    exact countersWf_foldl (hwf d₀ hd₀) ops
  have hmax := hc.count_le
  have hmrd : 0 ≤ d.maxReorgDepth := hc.1.trans hc.2
  have hrc : 0 ≤ d.reorgCount := hmrd.trans hc.3
  have hsize : ∀ n : Int, 0 ≤ n → n ≤ d.reorgCount → ((UInt32.ofNat n.toNat).toNat : Int) = n :=
    fun n h0 hn => by
      rw [UInt32.toNat_ofNat_of_lt (by unfold i32Max at hmax; unfold UInt32.size; omega),
        Int.toNat_of_nonneg h0]
  refine ⟨hc, ?_, hsize _ hrc le_rfl, hsize _ hmrd hc.3⟩
  simp only [deploymentStateFromId, find?_of_mem hd, convertToU32, if_pos hrc, if_pos hmrd]
  cases latestAsBlockNumber d.latestEthereumBlockNumber d.id <;> rfl

theorem counters_in_range_initD1 :
    let ops := [StoreOp.blockPtr "D1" (.forward zeroPtr), .blockPtr "D1" (.revert zeroPtr),
      .entityCount "D1" 2 2]
    (∀ d ∈ initD1.subgraphDeployment, d.CountersWf) ∧
    ∀ d ∈ (runStore ops initD1).subgraphDeployment, d.CountersWf ∧
      deploymentStateFromId (runStore ops initD1) d.id =
        (fun n => ⟨d.id, .ofNat d.reorgCount.toNat, .ofNat d.maxReorgDepth.toNat, n⟩) <$>
          latestAsBlockNumber d.latestEthereumBlockNumber d.id ∧
      ((UInt32.ofNat d.reorgCount.toNat).toNat : Int) = d.reorgCount ∧
      ((UInt32.ofNat d.maxReorgDepth.toNat).toNat : Int) = d.maxReorgDepth :=
  have hwf : ∀ d ∈ initD1.subgraphDeployment, d.CountersWf := fun d hd => by
    rw [initD1, List.mem_singleton] at hd
    subst hd
    exact ⟨le_rfl, le_rfl, le_rfl, by decide⟩
  ⟨hwf, counters_in_range _ hwf⟩

/-! ## Replaying the change stream -/

/-- The changes a write returns: a lifecycle transaction's changes, the event of a block pointer
call that succeeded, and none for `update_entity_count`, which returns `()`. -/
def StoreOp.changes : StoreOp → Metadata → List EntityChange
  | .lifecycle op, m => (op.run m).2
  | .blockPtr id op, m =>
    match op.run id m with
    | .ok r => r.2
    | .error _ => []
  | .entityCount _ _ _, _ => []

/-- The change lists the writes of a run return, in order. -/
def storeChanges : List StoreOp → Metadata → List (List EntityChange)
  | [], _ => []
  | op :: ops, m => op.changes m :: storeChanges ops (op.run m)

/-- Modelled from the spec: a subscriber to the store's changes that keeps the deployments
assigned to nodes. It reads the `SubgraphDeploymentAssignment` changes of the `subgraphs`
subgraph, where a `Set` adds the deployment and a `Removed` drops it, and ignores every other
change. -/
def trackAssignment (held : List String) (c : EntityChange) : List String :=
  if c.subgraphId = subgraphsId ∧ c.entityType = assignmentTypename then
    match c.operation with
    | .set => c.entityId :: held.filter (· != c.entityId)
    | .removed => held.filter (· != c.entityId)
  else held

/-- The subscriber applying the change lists of a run in order, from the deployments `held`. -/
def replayChanges (held : List String) (log : List (List EntityChange)) : List String :=
  log.foldl (fun held changes => changes.foldl trackAssignment held) held

section Replay

variable {held : List String}

theorem nodup_foldl_trackAssignment (h : held.Nodup) (changes : List EntityChange) :
    (changes.foldl trackAssignment held).Nodup := by
  induction changes generalizing held with
  | nil => exact h
  | cons c cs ih =>
    refine ih ?_
    unfold trackAssignment
    split
    · split
      · exact List.nodup_cons.mpr ⟨by simp [List.mem_filter], h.filter _⟩
      · exact h.filter _
    · exact h

theorem mem_trackAssignment {c : EntityChange}
    (hc : c.subgraphId = subgraphsId ∧ c.entityType = assignmentTypename) {d : String} :
    d ∈ trackAssignment held c ↔
      (d = c.entityId ∧ c.operation = .set) ∨ (d ∈ held ∧ d ≠ c.entityId) := by
  rw [trackAssignment, if_pos hc]
  cases c.operation <;> simp [List.mem_filter]

/-- A list of changes with one change per deployment, applied in order: the change of a
deployment decides it, and a deployment without one keeps its place. -/
theorem mem_foldl_trackAssignment {changes : List EntityChange}
    (htyped : ∀ c ∈ changes, c.subgraphId = subgraphsId ∧ c.entityType = assignmentTypename)
    (hnodup : (changes.map (·.entityId)).Nodup) (held : List String) (d : String) :
    d ∈ changes.foldl trackAssignment held ↔
      (d ∈ held ∧ ¬∃ c ∈ changes, c.entityId = d ∧ c.operation = .removed) ∨
        ∃ c ∈ changes, c.entityId = d ∧ c.operation = .set := by
  induction changes generalizing held with
  | nil => simp
  | cons c cs ih =>
    rw [List.map_cons, List.nodup_cons] at hnodup
    rw [List.foldl_cons, ih (fun c' hc' => htyped c' (List.mem_cons_of_mem _ hc')) hnodup.2,
      mem_trackAssignment (htyped c (List.mem_cons_self _ _))]
    simp only [List.mem_cons, exists_eq_or_imp]
    by_cases hd : d = c.entityId
    · subst hd
      have hnone : ∀ op, ¬∃ c' ∈ cs, c'.entityId = c.entityId ∧ c'.operation = op :=
        fun _ ⟨c', hc', hid, _⟩ => hnodup.1 (hid ▸ List.mem_map_of_mem _ hc')
      simp only [hnone]
      cases c.operation <;> simp
    · simp [hd, Ne.symm hd]

/-- A subscriber holding the assigned deployments before a change list that logs the table's
change holds them after it. -/
theorem foldl_trackAssignment_perm {before after : List SubgraphDeploymentAssignment}
    {changes : List EntityChange} (h : AssignmentChanges before after changes)
    (hkey : (after.map (·.id)).Nodup) (hnodup : held.Nodup) (hheld : held.Perm (before.map (·.id))) :
    (changes.foldl trackAssignment held).Perm (after.map (·.id)) := by
  refine (List.perm_ext_iff_of_nodup (nodup_foldl_trackAssignment hnodup _) hkey).mpr fun d => ?_
  rw [mem_foldl_trackAssignment h.typed h.nodup, h.apply, hheld.mem_iff]

theorem foldl_trackAssignment_of_ne {changes : List EntityChange}
    (h : ∀ c ∈ changes, c.entityType ≠ assignmentTypename) :
    changes.foldl trackAssignment held = held := by
  induction changes generalizing held with
  | nil => rfl
  | cons c cs ih =>
    rw [List.foldl_cons, trackAssignment, if_neg fun hc => h c (List.mem_cons_self _ _) hc.2]
    exact ih fun c' hc' => h c' (List.mem_cons_of_mem _ hc')

/-- A block write returns no assignment change. -/
theorem StoreOp.changes_of_not_isLifecycle {op : StoreOp} (hop : op.isLifecycle = false)
    (m : Metadata) : ∀ c ∈ op.changes m, c.entityType ≠ assignmentTypename := by
  have hevent : ∀ id, ∀ c ∈ blockPtrStoreEvent id, c.entityType ≠ assignmentTypename := by
    intro id c hc
    rw [blockPtrStoreEvent, List.mem_singleton] at hc
    subst hc
    exact (by decide : deploymentTypename ≠ assignmentTypename)
  rcases op with _ | ⟨id, _ | ptr⟩ | _
  · cases hop
  · exact hevent id
  · simp only [StoreOp.changes, BlockPtrOp.run, revertBlockPtr]
    cases m.updateDeploymentsM (revertUpdate id ptr) fun _ _ => id_of_revertUpdate
    · nofun
    · exact hevent id
  · nofun

end Replay

/-- A subscriber that starts from the assigned deployments of any state with unique assignment
ids and applies, in order, every change list the store returns over any run of writes (a `Set`
of an assignment adds the deployment, a `Removed` drops it, other changes are ignored) holds
exactly the assigned deployments after the run, each once. -/
theorem replay_storeChanges (ops : List StoreOp) {m : Metadata} (hkey : m.assigned.Nodup) :
    (replayChanges m.assigned (storeChanges ops m)).Perm (runStore ops m).assigned := by
  suffices ∀ {m : Metadata} {held : List String}, m.assigned.Nodup → held.Nodup →
      held.Perm m.assigned →
      (replayChanges held (storeChanges ops m)).Perm (runStore ops m).assigned from
    this hkey hkey (.refl _)
  induction ops with
  | nil => exact fun _ _ h => h
  | cons op ops ih =>
    intro m held hkey hnodup hheld
    show (replayChanges ((op.changes m).foldl trackAssignment held)
      (storeChanges ops (op.run m))).Perm (runStore ops (op.run m)).assigned
    cases hop : op.isLifecycle
    · have hassigned : (op.run m).assigned = m.assigned := by
        rw [Metadata.assigned, Metadata.assigned, (StoreOp.sameLifecycle_run hop m).assignment]
      rw [foldl_trackAssignment_of_ne (StoreOp.changes_of_not_isLifecycle hop m)]
      exact ih (hassigned ▸ hkey) hnodup (hassigned ▸ hheld)
    · rcases op with l | _ | _
      · have hkey' := assigned_key_run hkey l
        exact ih hkey' (nodup_foldl_trackAssignment hnodup _)
          (foldl_trackAssignment_perm (assignmentChanges_run hkey l) hkey' hnodup hheld)
      all_goals cases hop

theorem replay_storeChanges_initD1 :
    let ops := [StoreOp.lifecycle (.createSubgraphVersion "g" "D1" "n" .instant 0 "s1" "v1"),
      .blockPtr "D1" (.forward zeroPtr), .lifecycle (.removeSubgraph "g")]
    initD1.assigned.Nodup ∧
      (replayChanges initD1.assigned (storeChanges ops initD1)).Perm
        (runStore ops initD1).assigned :=
  have hkey : initD1.assigned.Nodup := List.nodup_nil
  ⟨hkey, replay_storeChanges _ hkey⟩

end GraphNode.Store
