import GraphNode.Store.Metadata.Invariant
/-!
# The assignment change log

The `Vec<EntityChange>` each lifecycle function returns is what the subgraph provider reads
to start and stop deployments. From every reachable state, it is exactly the change the call
made to `subgraph_deployment_assignment`: a `Set` for each row inserted, a `Removed` for each
row deleted, nothing else and no deployment twice (`changes_describe_assignments`).

`remove_unused_assignments` is the only statement that deletes rows, and it logs each one;
`create_subgraph_version` adds the `Set` of the row it inserted, which the clean-up never
deletes because the new version is in use.
-/

namespace GraphNode.Store

/-- `changes` is the change log of the assignment table going from `before` to `after`. -/
structure AssignmentChanges (before after : List SubgraphDeploymentAssignment)
    (changes : List EntityChange) : Prop where
  typed : ∀ c ∈ changes, c.subgraphId = subgraphsId ∧ c.entityType = assignmentTypename
  nodup : (changes.map (·.entityId)).Nodup
  set_iff : ∀ d, (∃ c ∈ changes, c.entityId = d ∧ c.operation = .set) ↔
    ∃ a ∈ after, a.id = d ∧ a ∉ before
  removed_iff : ∀ d, (∃ c ∈ changes, c.entityId = d ∧ c.operation = .removed) ↔
    ∃ a ∈ before, a.id = d ∧ a ∉ after
  apply : ∀ d, d ∈ after.map (·.id) ↔
    (d ∈ before.map (·.id) ∧ ¬∃ c ∈ changes, c.entityId = d ∧ c.operation = .removed) ∨
      ∃ c ∈ changes, c.entityId = d ∧ c.operation = .set

/-- Over a table with a unique key, the change log applies to the assigned deployments as
soon as its `Set`s and `Removed`s are the rows inserted and deleted. -/
theorem AssignmentChanges.of_iff {before after : List SubgraphDeploymentAssignment}
    {changes : List EntityChange} (hkey : (before.map (·.id)).Nodup)
    (typed : ∀ c ∈ changes, c.subgraphId = subgraphsId ∧ c.entityType = assignmentTypename)
    (nodup : (changes.map (·.entityId)).Nodup)
    (set_iff : ∀ d, (∃ c ∈ changes, c.entityId = d ∧ c.operation = .set) ↔
      ∃ a ∈ after, a.id = d ∧ a ∉ before)
    (removed_iff : ∀ d, (∃ c ∈ changes, c.entityId = d ∧ c.operation = .removed) ↔
      ∃ a ∈ before, a.id = d ∧ a ∉ after) :
    AssignmentChanges before after changes := by
  refine ⟨typed, nodup, set_iff, removed_iff, fun d => ?_⟩
  rw [set_iff, removed_iff]
  constructor
  · intro hd
    obtain ⟨a, ha, rfl⟩ := List.mem_map.mp hd
    by_cases hb : a ∈ before
    · refine .inl ⟨List.mem_map_of_mem _ hb, ?_⟩
      rintro ⟨b, hb', hid, hnb⟩
      exact hnb (List.inj_on_of_nodup_map hkey hb' hb hid ▸ ha)
    · exact .inr ⟨a, ha, rfl, hb⟩
  · rintro (⟨hd, hno⟩ | ⟨a, ha, rfl, -⟩)
    · obtain ⟨b, hb, rfl⟩ := List.mem_map.mp hd
      by_cases ha : b ∈ after
      · exact List.mem_map_of_mem _ ha
      · exact absurd ⟨b, hb, rfl, ha⟩ hno
    · exact List.mem_map_of_mem _ ha

section Log

variable {m : Metadata}

private theorem filterMap_id_map_some {α β : Type} (f : α → β) (l : List α) :
    (l.map fun a => some (f a)).filterMap id = l.map f := by
  induction l <;> simp [*]

/-- The `Removed` change of an assignment row. -/
def assignmentRemovedChange (a : SubgraphDeploymentAssignment) : EntityChange :=
  ⟨subgraphsId, assignmentTypename, a.id, .removed⟩

theorem removeUnusedAssignments_changes :
    (removeUnusedAssignments m).2 =
      (m.subgraphDeploymentAssignment.filter fun a => !m.deploymentInUse a.id).map
        assignmentRemovedChange :=
  filterMap_id_map_some assignmentRemovedChange _

/-- Deleting the rows a predicate rejects, with a `Removed` change for each. -/
theorem assignmentChanges_filter {rows : List SubgraphDeploymentAssignment}
    (hkey : (rows.map (·.id)).Nodup) (p : SubgraphDeploymentAssignment → Bool) :
    AssignmentChanges rows (rows.filter p)
      ((rows.filter fun a => !p a).map assignmentRemovedChange) := by
  have hremoved : ∀ d, (∃ c ∈ (rows.filter fun a => !p a).map assignmentRemovedChange,
      c.entityId = d ∧ c.operation = .removed) ↔ ∃ a ∈ rows, a.id = d ∧ p a = false := by
    intro d
    simp only [List.mem_map, List.mem_filter, Bool.not_eq_true']
    constructor
    · rintro ⟨_, ⟨a, ⟨ha, hp⟩, rfl⟩, hid, -⟩
      exact ⟨a, ha, hid, hp⟩
    · rintro ⟨a, ha, hid, hp⟩
      exact ⟨_, ⟨a, ⟨ha, hp⟩, rfl⟩, hid, rfl⟩
  have hset : ∀ d, ¬∃ c ∈ (rows.filter fun a => !p a).map assignmentRemovedChange,
      c.entityId = d ∧ c.operation = .set := by
    rintro d ⟨_, hc, -, hop⟩
    obtain ⟨a, -, rfl⟩ := List.mem_map.mp hc
    cases hop
  refine .of_iff hkey (fun c hc => ?_) ?_ (fun d => iff_of_false (hset d) ?_) fun d => ?_
  · obtain ⟨a, -, rfl⟩ := List.mem_map.mp hc
    exact ⟨rfl, rfl⟩
  · rw [List.map_map]
    exact hkey.sublist ((List.filter_sublist _).map _)
  · rintro ⟨a, ha, -, hna⟩
    exact hna (List.mem_filter.mp ha).1
  · rw [hremoved]
    constructor
    · rintro ⟨a, ha, hid, hp⟩
      exact ⟨a, ha, hid, fun h => by simp [hp] at h⟩
    · rintro ⟨a, ha, hid, hna⟩
      exact ⟨a, ha, hid, by simpa [ha] using hna⟩

/-- `remove_unused_assignments` logs exactly the rows it deletes. -/
theorem assignmentChanges_removeUnusedAssignments (hkey : m.assigned.Nodup) :
    AssignmentChanges m.subgraphDeploymentAssignment
      (removeUnusedAssignments m).1.subgraphDeploymentAssignment (removeUnusedAssignments m).2 := by
  rw [removeUnusedAssignments_changes, removeUnusedAssignments_assignment]
  exact assignmentChanges_filter hkey _

/-- The changes of `remove_unused_assignments` are all `Removed`. -/
theorem removed_of_mem_removeUnusedAssignments {c : EntityChange}
    (hc : c ∈ (removeUnusedAssignments m).2) : c.operation = .removed := by
  rw [removeUnusedAssignments_changes] at hc
  obtain ⟨a, -, rfl⟩ := List.mem_map.mp hc
  rfl

/-- Adding the `Set` of a row inserted before a clean-up that logged only deletions and kept
the row. -/
theorem AssignmentChanges.insert {before after : List SubgraphDeploymentAssignment}
    {changes : List EntityChange} {a : SubgraphDeploymentAssignment}
    (hkey : (before.map (·.id)).Nodup) (h : AssignmentChanges (before ++ [a]) after changes)
    (hrem : ∀ c ∈ changes, c.operation = .removed) (hsub : ∀ b ∈ after, b ∈ before ++ [a])
    (ha : a ∈ after) (hnew : a.id ∉ before.map (·.id)) :
    AssignmentChanges before after (changes ++ [assignmentSetChange a.id]) := by
  have hnot : a ∉ before := fun hb => hnew (List.mem_map_of_mem _ hb)
  have hkept : ¬∃ c ∈ changes, c.entityId = a.id ∧ c.operation = .removed := by
    intro hc
    obtain ⟨b, hb, hid, hna⟩ := (h.removed_iff _).mp hc
    rcases List.mem_append.mp hb with hb | hb
    · exact hnew (hid ▸ List.mem_map_of_mem _ hb)
    · exact hna (List.mem_singleton.mp hb ▸ ha)
  have hset : ∀ d, (∃ c ∈ changes ++ [assignmentSetChange a.id], c.entityId = d ∧
      c.operation = .set) ↔ d = a.id := fun d => by
    constructor
    · rintro ⟨c, hc, hid, hop⟩
      rcases List.mem_append.mp hc with hc | hc
      · exact absurd (hrem c hc) (by simp [hop])
      · simp [List.mem_singleton.mp hc, assignmentSetChange] at hid; exact hid.symm
    · rintro rfl
      exact ⟨_, List.mem_append_right _ (List.mem_singleton_self _), rfl, rfl⟩
  have hremoved : ∀ d, (∃ c ∈ changes ++ [assignmentSetChange a.id], c.entityId = d ∧
      c.operation = .removed) ↔ ∃ c ∈ changes, c.entityId = d ∧ c.operation = .removed :=
    fun d => by simp [assignmentSetChange, or_and_right, exists_or]
  refine .of_iff hkey (fun c hc => ?_) ?_ (fun d => ?_) fun d => ?_
  · rcases List.mem_append.mp hc with hc | hc
    · exact h.typed c hc
    · rw [List.mem_singleton.mp hc]; exact ⟨rfl, rfl⟩
  · rw [List.map_append]
    refine h.nodup.append (List.nodup_singleton _) (List.disjoint_singleton.mpr fun hc => ?_)
    obtain ⟨c, hc, hid⟩ := List.mem_map.mp hc
    exact hkept ⟨c, hc, hid, hrem c hc⟩
  · rw [hset]
    constructor
    · rintro rfl; exact ⟨a, ha, rfl, hnot⟩
    · rintro ⟨b, hb, rfl, hnb⟩
      rcases List.mem_append.mp (hsub b hb) with hb' | hb'
      · exact absurd hb' hnb
      · rw [List.mem_singleton.mp hb']
  · rw [hremoved, h.removed_iff]
    constructor
    · rintro ⟨b, hb, rfl, hna⟩
      rcases List.mem_append.mp hb with hb | hb
      · exact ⟨b, hb, rfl, hna⟩
      · exact absurd (List.mem_singleton.mp hb ▸ ha) hna
    · rintro ⟨b, hb, rfl, hna⟩
      exact ⟨b, List.mem_append_left _ hb, rfl, hna⟩

theorem assignmentChanges_nil (rows : List SubgraphDeploymentAssignment) :
    AssignmentChanges rows rows [] where
  typed := by simp
  nodup := List.nodup_nil
  set_iff _ := iff_of_false (by simp) fun ⟨_, ha, _, hna⟩ => hna ha
  removed_iff _ := iff_of_false (by simp) fun ⟨_, ha, _, hna⟩ => hna ha
  apply _ := by simp

variable {name id nodeId sid vid : String} {t : Nat} {mode : SubgraphVersionSwitchingMode}

theorem assignmentChanges_createSubgraphVersion (hkey : m.assigned.Nodup) :
    AssignmentChanges m.subgraphDeploymentAssignment
      (createSubgraphVersion name id nodeId mode t sid vid m).1.subgraphDeploymentAssignment
      (createSubgraphVersion name id nodeId mode t sid vid m).2 := by
  have hru := assignmentChanges_removeUnusedAssignments
    (stageVersion_assigned_key hkey : (stageVersion name id nodeId mode t sid vid m).assigned.Nodup)
  rw [stageVersion_assignment] at hru
  simp only [createSubgraphVersion]
  cases hn : newAssignment m id
  · simpa [hn] using hru
  · simp only [hn, if_true] at hru ⊢
    refine hru.insert hkey (fun c hc => removed_of_mem_removeUnusedAssignments hc)
      (fun b hb => ?_) ?_ (not_mem_assigned_of_newAssignment hn)
    · rw [removeUnusedAssignments_assignment, stageVersion_assignment, if_pos hn] at hb
      exact (List.mem_filter.mp hb).1
    · rw [removeUnusedAssignments_assignment, stageVersion_assignment, if_pos hn]
      exact List.mem_filter.mpr ⟨List.mem_append_right _ (List.mem_singleton_self _),
        Metadata.deploymentInUse_iff.mpr inUse_stageVersion⟩

/-- Every lifecycle transaction logs the change it makes to an assignment table with unique
ids. -/
theorem assignmentChanges_run (hkey : m.assigned.Nodup) (op : Operation) :
    AssignmentChanges m.subgraphDeploymentAssignment (op.run m).1.subgraphDeploymentAssignment
      (op.run m).2 := by
  cases op with
  | createSubgraphVersion => exact assignmentChanges_createSubgraphVersion hkey
  | deploymentSynced id =>
    exact @assignmentChanges_removeUnusedAssignments
      { m with subgraph := promotePending (pendingSubgraphVersions m id) m.subgraph } hkey
  | removeSubgraph name =>
    show AssignmentChanges _ (removeSubgraph name m).1.subgraphDeploymentAssignment
      (removeSubgraph name m).2
    unfold removeSubgraph
    split
    · exact @assignmentChanges_removeUnusedAssignments (deleteSubgraph _ m) hkey
    · exact assignmentChanges_nil _

/-- Every lifecycle transaction keeps the assignment ids unique, whatever ids it generates. -/
theorem assigned_key_run (hkey : m.assigned.Nodup) (op : Operation) :
    (op.run m).1.assigned.Nodup := by
  cases op with
  | createSubgraphVersion =>
    exact (stageVersion_assigned_key hkey).sublist assigned_removeUnusedAssignments_sublist
  | deploymentSynced => exact hkey.sublist assigned_removeUnusedAssignments_sublist
  | removeSubgraph name =>
    show (removeSubgraph name m).1.assigned.Nodup
    unfold removeSubgraph
    split
    · exact hkey.sublist assigned_removeUnusedAssignments_sublist
    · exact hkey

end Log

/-- From every reachable state, the changes `create_subgraph_version`, `deployment_synced`
and `remove_subgraph` return are exactly the change the call made to the assignment table:
one `Set` of type `SubgraphDeploymentAssignment` for each row it inserted, one `Removed` for
each row it deleted, nothing else, no deployment twice; applied to the assigned deployments
before the call they give those after it. -/
theorem changes_describe_assignments {m : Metadata} (h : Reachable m) (op : Operation)
    (hf : op.Fresh m) :
    AssignmentChanges m.subgraphDeploymentAssignment (op.run m).1.subgraphDeploymentAssignment
      (op.run m).2 := by
  have hkey := h.inv.assigned_key
  cases op with
  | createSubgraphVersion name id nodeId mode t sid vid =>
    exact assignmentChanges_createSubgraphVersion hkey
  | deploymentSynced id =>
    exact @assignmentChanges_removeUnusedAssignments
      { m with subgraph := promotePending (pendingSubgraphVersions m id) m.subgraph } hkey
  | removeSubgraph name =>
    show AssignmentChanges _ (removeSubgraph name m).1.subgraphDeploymentAssignment
      (removeSubgraph name m).2
    unfold removeSubgraph
    split
    · exact @assignmentChanges_removeUnusedAssignments (deleteSubgraph _ m) hkey
    · exact assignmentChanges_nil _

theorem changes_describe_assignments_removeSubgraph :
    Reachable deployedD1 ∧ (Operation.removeSubgraph "g").Fresh deployedD1 ∧
    AssignmentChanges deployedD1.subgraphDeploymentAssignment
      ((Operation.removeSubgraph "g").run deployedD1).1.subgraphDeploymentAssignment
      ((Operation.removeSubgraph "g").run deployedD1).2 :=
  ⟨reachable_deployedD1, trivial,
    changes_describe_assignments reachable_deployedD1 (.removeSubgraph "g") trivial⟩

end GraphNode.Store
