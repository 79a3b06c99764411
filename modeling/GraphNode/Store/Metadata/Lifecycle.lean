import GraphNode.Store.Metadata.Schema
/-!
# Deployment lifecycle operations

`remove_unused_assignments`, `deployment_synced`, `create_subgraph`,
`create_subgraph_version` and `remove_subgraph` of `metadata.rs`, each a function from the
tables before its transaction to the tables after it and the `EntityChange`s it returns.
The ids `generate_entity_id` returns and the time `SystemTime::now()` reads are arguments.

Each statement of the source is a named helper, so the lemmas below speak about one
statement at a time and the invariant proofs never unfold a whole transaction.
-/

namespace GraphNode.Store

/-- `v.id in (s.current_version, s.pending_version)`. -/
def Subgraph.points (s : Subgraph) (version : String) : Bool :=
  s.currentVersion == some version || s.pendingVersion == some version

/-- The `not exists` subquery of `remove_unused_assignments`: the current or pending version
of some subgraph is a version of deployment `id`. -/
def Metadata.deploymentInUse (m : Metadata) (id : String) : Bool :=
  m.subgraph.any fun s => m.subgraphVersion.any fun v => s.points v.id && v.deployment == id

/-- Subgraph `s` has version `x` as its current or its pending version. -/
def Subgraph.Points (s : Subgraph) (x : String) : Prop :=
  s.currentVersion = some x ∨ s.pendingVersion = some x

/-- Deployment `d` is the deployment of a version that a subgraph has as current or pending. -/
def Metadata.InUse (m : Metadata) (d : String) : Prop :=
  ∃ s ∈ m.subgraph, ∃ v ∈ m.subgraphVersion, s.Points v.id ∧ v.deployment = d

/-- `remove_unused_assignments`: delete the assignments of deployments no subgraph uses, and
return a `Removed` change for each deleted row. -/
def removeUnusedAssignments (m : Metadata) : Metadata × List EntityChange :=
  ({ m with
      subgraphDeploymentAssignment :=
        m.subgraphDeploymentAssignment.filter fun a => m.deploymentInUse a.id },
   ((m.subgraphDeploymentAssignment.filter fun a => !m.deploymentInUse a.id).map
      fun a => removeOperationChange assignmentTypename a.id).filterMap id)

/-- `update subgraph set ... where id = $id`. -/
def updateSubgraph (id : String) (f : Subgraph → Subgraph) (s : Subgraph) : Subgraph :=
  if s.id = id then f s else s

/-- The `set` of `deployment_synced`'s promotion. -/
def promote (version : String) (s : Subgraph) : Subgraph :=
  { s with currentVersion := some version, pendingVersion := none }

/-- The `(s.id, v.id)` rows `deployment_synced` selects `for update`: subgraphs whose pending
version is a version of deployment `id`. -/
def pendingSubgraphVersions (m : Metadata) (id : String) : List (String × String) :=
  m.subgraph.flatMap fun s =>
    (m.subgraphVersion.filter fun v => s.pendingVersion == some v.id && v.deployment == id).map
      fun v => (s.id, v.id)

/-- The promotion loop of `deployment_synced` over the `subgraph` rows, one `update` per
selected row. -/
def promotePending (pending : List (String × String)) (rows : List Subgraph) : List Subgraph :=
  pending.foldl (fun rows sv => rows.map (updateSubgraph sv.1 (promote sv.2))) rows

/-- `update subgraph_deployment set ... where ...` with a row update that keeps `id`. -/
def Metadata.updateDeployments (m : Metadata) (f : SubgraphDeployment → SubgraphDeployment)
    (hf : ∀ d, (f d).id = d.id) : Metadata :=
  { m with
    subgraphDeployment := m.subgraphDeployment.map f
    deployment_key := by simpa [List.map_map, Function.comp_def, hf] using m.deployment_key }

/-- `update subgraph_deployment set synced = true where id = $id`. -/
def markSynced (id : String) (d : SubgraphDeployment) : SubgraphDeployment :=
  if d.id = id then { d with synced := true } else d

theorem id_markSynced (id : String) (d : SubgraphDeployment) : (markSynced id d).id = d.id := by
  unfold markSynced; split <;> rfl

theorem markSynced_of_eq {id : String} {d : SubgraphDeployment} (h : d.id = id) :
    markSynced id d = { d with synced := true } :=
  if_pos h

theorem markSynced_of_ne {id : String} {d : SubgraphDeployment} (h : d.id ≠ id) :
    markSynced id d = d :=
  if_neg h

/-- `deployment_synced`: promote every subgraph pending on deployment `id`, remove the
assignments that are no longer needed, and mark the deployment synced. -/
def deploymentSynced (id : String) (m : Metadata) : Metadata × List EntityChange :=
  let removed := removeUnusedAssignments
    { m with subgraph := promotePending (pendingSubgraphVersions m id) m.subgraph }
  (removed.1.updateDeployments (markSynced id) (id_markSynced id), removed.2)

/-- `create_subgraph`: insert a subgraph row with no versions under the generated id `id`. -/
def createSubgraph (id name : String) (createdAt : Nat) (m : Metadata) : Metadata :=
  { m with subgraph := m.subgraph ++ [⟨id, name, none, none, createdAt⟩] }

/-- The first subgraph row named `name`. -/
def findSubgraph (m : Metadata) (name : String) : Option Subgraph :=
  m.subgraph.find? (·.name == name)

/-- The `(id, current_version)` of the subgraph named `name`, after creating it when there
is none. -/
def subgraphInfo (name : String) (createdAt : Nat) (newSubgraphId : String) (m : Metadata) :
    Metadata × String × Option String :=
  match findSubgraph m name with
  | some s => (m, s.id, s.currentVersion)
  | none => (createSubgraph newSubgraphId name createdAt m, newSubgraphId, none)

/-- `current_exists_and_synced`: the `synced` flag of the first row of the join of
`subgraph_deployment` and the current version, and `false` when there is no current version
or no such row. -/
def currentExistsAndSynced (m : Metadata) : Option String → Bool
  | some currentVersion =>
    ((m.subgraphDeployment.flatMap fun d =>
        (m.subgraphVersion.filter fun v => v.deployment == d.id && v.id == currentVersion).map
          fun _ => d.synced).head?).getD false
  | none => false

/-- The `set` of `create_subgraph_version`'s `match (mode, current_exists_and_synced)`. -/
def switchVersion (mode : SubgraphVersionSwitchingMode) (synced : Bool) (version : String)
    (s : Subgraph) : Subgraph :=
  match mode, synced with
  | .instant, _ | .synced, false =>
    { s with currentVersion := some version, pendingVersion := none }
  | .synced, true => { s with pendingVersion := some version }

/-- Whether `create_subgraph_version` inserts an assignment: there is none for `id`. -/
def newAssignment (m : Metadata) (id : String) : Bool :=
  (m.subgraphDeploymentAssignment.find? (·.id == id)).isNone

/-- The statements of `create_subgraph_version` before the clean-up: find or create the
subgraph, insert the version row, insert an assignment if there is none, and make the
version current or pending. -/
def stageVersion (name id nodeId : String) (mode : SubgraphVersionSwitchingMode)
    (createdAt : Nat) (newSubgraphId versionId : String) (m : Metadata) : Metadata :=
  let info := subgraphInfo name createdAt newSubgraphId m
  let synced := currentExistsAndSynced info.1 info.2.2
  let m := { info.1 with
    subgraphVersion := info.1.subgraphVersion ++
      [({ id := versionId, subgraph := info.2.1, deployment := id, createdAt } : SubgraphVersion)] }
  let m := if newAssignment m id then
      { m with
        subgraphDeploymentAssignment :=
          m.subgraphDeploymentAssignment ++
            [({ id, nodeId, cost := 1 } : SubgraphDeploymentAssignment)] }
    else m
  { m with
    subgraph := m.subgraph.map (updateSubgraph info.2.1 (switchVersion mode synced versionId)) }

/-- `create_subgraph_version` for subgraph `name`, deployment `id` and node `nodeId`. -/
def createSubgraphVersion (name id nodeId : String) (mode : SubgraphVersionSwitchingMode)
    (createdAt : Nat) (newSubgraphId versionId : String) (m : Metadata) :
    Metadata × List EntityChange :=
  let removed :=
    removeUnusedAssignments (stageVersion name id nodeId mode createdAt newSubgraphId versionId m)
  (removed.1, if newAssignment m id then removed.2 ++ [assignmentSetChange id] else removed.2)

/-- The two `delete` statements of `remove_subgraph`: the versions of subgraph `id`, then its
row. -/
def deleteSubgraph (id : String) (m : Metadata) : Metadata :=
  { m with
    subgraphVersion := m.subgraphVersion.filter (·.subgraph != id)
    subgraph := m.subgraph.filter (·.id != id) }

/-- `remove_subgraph`: delete the versions and the row of the subgraph named `name`, then the
assignments no longer needed; nothing when no subgraph has that name. -/
def removeSubgraph (name : String) (m : Metadata) : Metadata × List EntityChange :=
  match findSubgraph m name with
  | some s => removeUnusedAssignments (deleteSubgraph s.id m)
  | none => (m, [])


/-! ## What each statement changes -/

section Lemmas

variable {m : Metadata} {d : String}

@[simp] theorem Subgraph.points_eq_true {s : Subgraph} {x : String} :
    s.points x = true ↔ s.Points x := by
  simp [Subgraph.points, Subgraph.Points]

theorem Metadata.deploymentInUse_iff : m.deploymentInUse d = true ↔ m.InUse d := by
  simp [Metadata.deploymentInUse, Metadata.InUse]

@[simp] theorem removeUnusedAssignments_subgraph :
    (removeUnusedAssignments m).1.subgraph = m.subgraph := rfl

@[simp] theorem removeUnusedAssignments_subgraphVersion :
    (removeUnusedAssignments m).1.subgraphVersion = m.subgraphVersion := rfl

@[simp] theorem removeUnusedAssignments_subgraphDeployment :
    (removeUnusedAssignments m).1.subgraphDeployment = m.subgraphDeployment := rfl

theorem removeUnusedAssignments_assignment :
    (removeUnusedAssignments m).1.subgraphDeploymentAssignment =
      m.subgraphDeploymentAssignment.filter fun a => m.deploymentInUse a.id := rfl

theorem mem_assigned_removeUnusedAssignments :
    d ∈ (removeUnusedAssignments m).1.assigned ↔ d ∈ m.assigned ∧ m.InUse d := by
  simp only [Metadata.assigned, removeUnusedAssignments_assignment, List.mem_map, List.mem_filter,
    Metadata.deploymentInUse_iff]
  constructor
  · rintro ⟨a, ⟨ha, hu⟩, rfl⟩; exact ⟨⟨a, ha, rfl⟩, hu⟩
  · rintro ⟨⟨a, ha, rfl⟩, hu⟩; exact ⟨a, ⟨ha, hu⟩, rfl⟩

theorem assigned_removeUnusedAssignments_sublist :
    (removeUnusedAssignments m).1.assigned.Sublist m.assigned :=
  (List.filter_sublist _).map _

@[simp] theorem updateDeployments_subgraph {f} {hf} :
    (m.updateDeployments f hf).subgraph = m.subgraph := rfl

@[simp] theorem updateDeployments_subgraphVersion {f} {hf} :
    (m.updateDeployments f hf).subgraphVersion = m.subgraphVersion := rfl

@[simp] theorem updateDeployments_subgraphDeployment {f} {hf} :
    (m.updateDeployments f hf).subgraphDeployment = m.subgraphDeployment.map f := rfl

@[simp] theorem updateDeployments_assignment {f} {hf} :
    (m.updateDeployments f hf).subgraphDeploymentAssignment = m.subgraphDeploymentAssignment := rfl

@[simp] theorem deploymentSynced_subgraphVersion :
    (deploymentSynced d m).1.subgraphVersion = m.subgraphVersion := rfl

theorem deploymentSynced_subgraphDeployment :
    (deploymentSynced d m).1.subgraphDeployment = m.subgraphDeployment.map (markSynced d) := rfl

/-- `deployment_synced` keeps the assignments of the deployments in use after its promotion,
which are those in use after the whole call. -/
theorem deploymentSynced_assignment :
    (deploymentSynced d m).1.subgraphDeploymentAssignment =
      m.subgraphDeploymentAssignment.filter fun a =>
        (deploymentSynced d m).1.deploymentInUse a.id :=
  rfl

@[simp] theorem id_updateSubgraph {id : String} {f : Subgraph → Subgraph}
    (hf : ∀ s, (f s).id = s.id) (s : Subgraph) : (updateSubgraph id f s).id = s.id := by
  unfold updateSubgraph; split <;> simp [hf]

@[simp] theorem name_updateSubgraph {id : String} {f : Subgraph → Subgraph}
    (hf : ∀ s, (f s).name = s.name) (s : Subgraph) : (updateSubgraph id f s).name = s.name := by
  unfold updateSubgraph; split <;> simp [hf]

/-- An `update` of one subgraph row keeps every column its `set` keeps. -/
theorem map_map_updateSubgraph {β : Type} (g : Subgraph → β) {id : String} {f : Subgraph → Subgraph}
    (hg : ∀ s, g (f s) = g s) (rows : List Subgraph) :
    (rows.map (updateSubgraph id f)).map g = rows.map g := by
  rw [List.map_map]
  congr 1
  funext s
  simp only [Function.comp, updateSubgraph]
  split <;> simp [hg]

/-- Each row after the promotion loop is a row before it, or such a row promoted to a version
selected for its id. -/
theorem mem_promotePending {pending : List (String × String)} {rows : List Subgraph} {r : Subgraph}
    (h : r ∈ promotePending pending rows) :
    ∃ r₀ ∈ rows, r = r₀ ∨ ∃ x, (r₀.id, x) ∈ pending ∧ r = promote x r₀ := by
  induction pending generalizing rows with
  | nil => exact ⟨r, h, .inl rfl⟩
  | cons sv pending ih =>
    obtain ⟨r₁, hr₁, hr⟩ := ih h
    obtain ⟨r₀, hr₀, rfl⟩ := List.mem_map.mp hr₁
    refine ⟨r₀, hr₀, ?_⟩
    unfold updateSubgraph at hr
    split at hr
    · rename_i hid
      refine .inr ?_
      rcases hr with rfl | ⟨x, hx, rfl⟩
      · exact ⟨sv.2, List.mem_cons.mpr (.inl (by rw [hid])), rfl⟩
      · exact ⟨x, List.mem_cons_of_mem _ (by simpa [promote] using hx), by simp [promote]⟩
    · rcases hr with rfl | ⟨x, hx, rfl⟩
      · exact .inl rfl
      · exact .inr ⟨x, List.mem_cons_of_mem _ hx, rfl⟩

/-- The promotion loop keeps every column `promote` keeps. -/
theorem map_promotePending {β : Type} (g : Subgraph → β) (hg : ∀ x s, g (promote x s) = g s)
    (pending : List (String × String)) (rows : List Subgraph) :
    (promotePending pending rows).map g = rows.map g := by
  induction pending generalizing rows with
  | nil => rfl
  | cons sv pending ih =>
    rw [promotePending, List.foldl_cons, ← promotePending, ih, List.map_map]
    congr 1
    funext s
    simp only [Function.comp, updateSubgraph]
    split <;> simp [hg]

theorem mem_pendingSubgraphVersions {id sid x : String} :
    (sid, x) ∈ pendingSubgraphVersions m id ↔
      ∃ s ∈ m.subgraph, ∃ v ∈ m.subgraphVersion,
        s.pendingVersion = some v.id ∧ v.deployment = id ∧ s.id = sid ∧ v.id = x := by
  simp [pendingSubgraphVersions, and_assoc]

variable {name nodeId newSubgraphId versionId : String} {createdAt : Nat}
  {mode : SubgraphVersionSwitchingMode}

@[simp] theorem id_switchVersion {synced : Bool} {s : Subgraph} :
    (switchVersion mode synced versionId s).id = s.id := by
  cases mode <;> cases synced <;> rfl

@[simp] theorem name_switchVersion {synced : Bool} {s : Subgraph} :
    (switchVersion mode synced versionId s).name = s.name := by
  cases mode <;> cases synced <;> rfl

/-- After the switch a subgraph points at the new version or at what it pointed at before. -/
theorem points_switchVersion {synced : Bool} {s : Subgraph} {x : String}
    (h : (switchVersion mode synced versionId s).Points x) : x = versionId ∨ s.Points x := by
  unfold Subgraph.Points at *
  cases mode <;> cases synced <;> simp [switchVersion] at h <;> tauto

/-- After the switch the subgraph points at the new version. -/
theorem points_switchVersion_self {synced : Bool} {s : Subgraph} :
    (switchVersion mode synced versionId s).Points versionId := by
  cases mode <;> cases synced <;> simp [switchVersion, Subgraph.Points]

/-- The switch leaves a pending version only in `Synced` mode with a synced current version,
and then keeps the current version. -/
theorem pendingVersion_switchVersion {synced : Bool} {s : Subgraph} {x : String}
    (h : (switchVersion mode synced versionId s).pendingVersion = some x) :
    mode = .synced ∧ synced = true ∧ x = versionId ∧
      (switchVersion mode synced versionId s).currentVersion = s.currentVersion := by
  cases mode <;> cases synced <;> simp_all [switchVersion]

theorem subgraphInfo_of_some {s : Subgraph} (h : findSubgraph m name = some s) :
    subgraphInfo name createdAt newSubgraphId m = (m, s.id, s.currentVersion) := by
  simp [subgraphInfo, h]

theorem subgraphInfo_of_none (h : findSubgraph m name = none) :
    subgraphInfo name createdAt newSubgraphId m =
      (createSubgraph newSubgraphId name createdAt m, newSubgraphId, none) := by
  simp [subgraphInfo, h]

@[simp] theorem subgraphInfo_subgraphVersion :
    (subgraphInfo name createdAt newSubgraphId m).1.subgraphVersion = m.subgraphVersion := by
  unfold subgraphInfo; split <;> rfl

@[simp] theorem subgraphInfo_subgraphDeployment :
    (subgraphInfo name createdAt newSubgraphId m).1.subgraphDeployment = m.subgraphDeployment := by
  unfold subgraphInfo; split <;> rfl

@[simp] theorem subgraphInfo_assignment :
    (subgraphInfo name createdAt newSubgraphId m).1.subgraphDeploymentAssignment =
      m.subgraphDeploymentAssignment := by
  unfold subgraphInfo; split <;> rfl

theorem stageVersion_subgraph :
    (stageVersion name d nodeId mode createdAt newSubgraphId versionId m).subgraph =
      let info := subgraphInfo name createdAt newSubgraphId m
      info.1.subgraph.map
        (updateSubgraph info.2.1
          (switchVersion mode (currentExistsAndSynced info.1 info.2.2) versionId)) := by
  dsimp only [stageVersion]; split <;> rfl

@[simp] theorem stageVersion_subgraphVersion :
    (stageVersion name d nodeId mode createdAt newSubgraphId versionId m).subgraphVersion =
      m.subgraphVersion ++
        [{ id := versionId, subgraph := (subgraphInfo name createdAt newSubgraphId m).2.1,
           deployment := d, createdAt }] := by
  dsimp only [stageVersion]; split <;> simp

@[simp] theorem stageVersion_subgraphDeployment :
    (stageVersion name d nodeId mode createdAt newSubgraphId versionId m).subgraphDeployment =
      m.subgraphDeployment := by
  dsimp only [stageVersion]; split <;> simp

theorem stageVersion_assignment :
    (stageVersion name d nodeId mode createdAt newSubgraphId versionId
      m).subgraphDeploymentAssignment =
      if newAssignment m d then m.subgraphDeploymentAssignment ++ [{ id := d, nodeId, cost := 1 }]
      else m.subgraphDeploymentAssignment := by
  dsimp only [stageVersion]
  cases h : newAssignment m d <;> simp only [newAssignment] at h ⊢ <;> simp [h]

end Lemmas

/-- One transaction of the lifecycle functions, with the ids it generates and its time. -/
inductive Operation
  | createSubgraphVersion (name id nodeId : String) (mode : SubgraphVersionSwitchingMode)
      (createdAt : Nat) (newSubgraphId versionId : String)
  | deploymentSynced (id : String)
  | removeSubgraph (name : String)
  deriving DecidableEq, Repr

/-- The tables after an operation and the changes it returns. -/
def Operation.run : Operation → Metadata → Metadata × List EntityChange
  | .createSubgraphVersion name id nodeId mode createdAt sid vid =>
    GraphNode.Store.createSubgraphVersion name id nodeId mode createdAt sid vid
  | .deploymentSynced id => GraphNode.Store.deploymentSynced id
  | .removeSubgraph name => GraphNode.Store.removeSubgraph name

/-- The ids `generate_entity_id` returns are new: no subgraph row and no version row has them. -/
def Operation.Fresh : Operation → Metadata → Prop
  | .createSubgraphVersion _ _ _ _ _ sid vid, m =>
    sid ∉ m.subgraph.map (·.id) ∧ vid ∉ m.subgraphVersion.map (·.id)
  | .deploymentSynced _, _ => True
  | .removeSubgraph _, _ => True

instance Operation.decidableFresh : (op : Operation) → (m : Metadata) → Decidable (op.Fresh m)
  | .createSubgraphVersion _ _ _ _ _ _ _, _ => instDecidableAnd
  | .deploymentSynced _, _ => instDecidableTrue
  | .removeSubgraph _, _ => instDecidableTrue

end GraphNode.Store
