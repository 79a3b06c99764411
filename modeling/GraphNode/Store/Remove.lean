import GraphNode.Store.Lookup
/-!
# Removing a subgraph

`remove_subgraph` over the states the whole store reaches. It deletes the subgraph of the name
and that subgraph's versions and nothing else, and prunes the assignments to the deployments
still in use (`removeSubgraph_effect`); looking the name up then reports it not found.
Removing a name that `create_subgraph_version` has just introduced restores every table
exactly (`removeSubgraph_createSubgraphVersion`): deploying a subgraph and removing it leaves no
subgraph, version or assignment row behind.
-/

namespace GraphNode.Store

/-- What `remove_subgraph name` does to the tables, going from `m` to `m'`. -/
structure SubgraphRemoved (m m' : Metadata) (name : String) : Prop where
  named : ∀ s ∈ m'.subgraph, s.name ≠ name
  others : ∀ r, r.name ≠ name → (r ∈ m'.subgraph ↔ r ∈ m.subgraph)
  versions : ∀ v, v ∈ m'.subgraphVersion ↔
    v ∈ m.subgraphVersion ∧ ∀ s ∈ m.subgraph, s.name = name → v.subgraph ≠ s.id
  deployments : m'.subgraphDeployment = m.subgraphDeployment
  assignments : ∀ a, a ∈ m'.subgraphDeploymentAssignment ↔
    a ∈ m.subgraphDeploymentAssignment ∧ m'.InUse a.id

section Remove

variable {m : Metadata} {name : String}

theorem mem_findSubgraph {s : Subgraph} (h : findSubgraph m name = some s) :
    s ∈ m.subgraph ∧ s.name = name :=
  ⟨List.mem_of_find?_eq_some h, by simpa using List.find?_some h⟩

theorem findSubgraph_eq_none_iff : findSubgraph m name = none ↔ ∀ s ∈ m.subgraph, s.name ≠ name :=
  List.find?_eq_none.trans (by simp)

theorem AssignmentsWf.inUse (ha : AssignmentsWf m) {a : SubgraphDeploymentAssignment}
    (h : a ∈ m.subgraphDeploymentAssignment) : m.InUse a.id :=
  (ha.assigned_iff a.id).mp (List.mem_map_of_mem _ h)

/-- Without a subgraph of that name, `remove_subgraph` changes nothing. -/
theorem subgraphRemoved_self (ha : AssignmentsWf m) (hnone : ∀ s ∈ m.subgraph, s.name ≠ name) :
    SubgraphRemoved m m name where
  named := hnone
  others _ _ := Iff.rfl
  versions _ := ⟨fun hv => ⟨hv, fun s hs hn => absurd hn (hnone s hs)⟩, And.left⟩
  deployments := rfl
  assignments _ := ⟨fun h => ⟨h, ha.inUse h⟩, And.left⟩

/-- Deleting the one subgraph of the name, its versions, and then the unused assignments. -/
theorem subgraphRemoved_deleteSubgraph (hw : VersionsWf m) {s : Subgraph} (hs : s ∈ m.subgraph)
    (hname : s.name = name) :
    SubgraphRemoved m (removeUnusedAssignments (deleteSubgraph s.id m)).1 name where
  named r hr hrn := by
    obtain ⟨hr, hne⟩ := List.mem_filter.mp hr
    have : r = s := List.inj_on_of_nodup_map hw.name_key hr hs (hrn.trans hname.symm)
    simp [this] at hne
  others r hrn := by
    refine List.mem_filter.trans ⟨And.left, fun hr => ⟨hr, ?_⟩⟩
    have : r.id ≠ s.id := fun hid => hrn (List.inj_on_of_nodup_map hw.subgraph_key hr hs hid ▸ hname)
    simpa using this
  versions v := by
    refine List.mem_filter.trans (and_congr_right fun _ => ?_)
    refine ⟨fun hne s' hs' hn' => ?_, fun hall => by simpa using hall s hs hname⟩
    rw [List.inj_on_of_nodup_map hw.name_key hs' hs (hn'.trans hname.symm)]
    simpa using hne
  deployments := rfl
  assignments _ := List.mem_filter.trans (and_congr_right fun _ => Metadata.deploymentInUse_iff)

end Remove

/-- In every state the whole store reaches, `remove_subgraph name` deletes the subgraph of that
name and that subgraph's versions, keeps every other subgraph, version and deployment row,
and keeps exactly the assignments of the deployments still in use; afterwards
`deployment_state_from_name` reports the name not found. -/
theorem removeSubgraph_effect {m : Metadata} (h : StoreReachable m) (name : String) :
    SubgraphRemoved m (removeSubgraph name m).1 name ∧
    ∀ valid, deploymentStateFromName valid (removeSubgraph name m).1 name =
      .error (.queryExecutionError s!"Subgraph `{name}` not found") := by
  have hi := h.inv
  have heff : SubgraphRemoved m (removeSubgraph name m).1 name := by
    unfold removeSubgraph
    split
    · rename_i s hfind
      obtain ⟨hs, hname⟩ := mem_findSubgraph hfind
      exact subgraphRemoved_deleteSubgraph hi.toVersionsWf hs hname
    · rename_i hfind
      exact subgraphRemoved_self hi.toAssignmentsWf (findSubgraph_eq_none_iff.mp hfind)
  exact ⟨heff, fun valid => by rw [deploymentStateFromName, stateRows_eq_nil heff.named]⟩

theorem removeSubgraph_effect_deployedD1 :
    let name := "g"
    StoreReachable deployedD1 ∧
      (SubgraphRemoved deployedD1 (removeSubgraph name deployedD1).1 name ∧
      ∀ valid, deploymentStateFromName valid (removeSubgraph name deployedD1).1 name =
        .error (.queryExecutionError s!"Subgraph `{name}` not found")) :=
  ⟨reachable_deployedD1.storeReachable,
    removeSubgraph_effect reachable_deployedD1.storeReachable "g"⟩

section Undo

variable {m : Metadata} {name id nodeId sid vid : String} {mode : SubgraphVersionSwitchingMode}
  {t : Nat}

theorem Metadata.InUse.mono {m' : Metadata} {d : String} (h : m.InUse d)
    (hs : ∀ s ∈ m.subgraph, s ∈ m'.subgraph) (hv : ∀ v ∈ m.subgraphVersion, v ∈ m'.subgraphVersion) :
    m'.InUse d :=
  let ⟨s, hs', v, hv', hp, hd⟩ := h
  ⟨s, hs s hs', v, hv v hv', hp, hd⟩

/-- `create_subgraph_version` under a new name appends the new subgraph row, pointing at the new
version, and the new version row. -/
theorem createSubgraphVersion_of_new (hnone : findSubgraph m name = none)
    (hsid : sid ∉ m.subgraph.map (·.id)) :
    (createSubgraphVersion name id nodeId mode t sid vid m).1.subgraph =
      m.subgraph ++ [⟨sid, name, some vid, none, t⟩] ∧
    (createSubgraphVersion name id nodeId mode t sid vid m).1.subgraphVersion =
      m.subgraphVersion ++ [⟨vid, sid, id, t⟩] := by
  have hinfo : subgraphInfo name t sid m = _ := subgraphInfo_of_none hnone
  refine ⟨?_, ?_⟩
  · show (stageVersion name id nodeId mode t sid vid m).subgraph = _
    rw [stageVersion_subgraph]
    dsimp only
    rw [hinfo]
    simp only [createSubgraph, currentExistsAndSynced, List.map_append, List.map_cons,
      List.map_nil]
    congr 1
    · refine (List.map_congr_left fun r hr => if_neg fun h => hsid ?_).trans (List.map_id _)
      exact h ▸ List.mem_map_of_mem _ hr
    · cases mode <;> simp [updateSubgraph, switchVersion]
  · show (stageVersion name id nodeId mode t sid vid m).subgraphVersion = _
    rw [stageVersion_subgraphVersion, hinfo]

/-- `remove_subgraph` then finds the row `create_subgraph_version` appended, and its two
`delete`s leave the subgraph and version rows of `m`. -/
theorem deleteSubgraph_createSubgraphVersion_of_new (hw : VersionsWf m)
    (hnone : findSubgraph m name = none) (hsid : sid ∉ m.subgraph.map (·.id)) :
    findSubgraph (createSubgraphVersion name id nodeId mode t sid vid m).1 name =
      some ⟨sid, name, some vid, none, t⟩ ∧
    (deleteSubgraph sid (createSubgraphVersion name id nodeId mode t sid vid m).1).subgraph =
      m.subgraph ∧
    (deleteSubgraph sid
      (createSubgraphVersion name id nodeId mode t sid vid m).1).subgraphVersion =
      m.subgraphVersion := by
  obtain ⟨hsub, hver⟩ := @createSubgraphVersion_of_new m name id nodeId sid vid mode t hnone hsid
  refine ⟨?_, ?_, ?_⟩
  · rw [findSubgraph] at hnone ⊢
    simp [hsub, hnone]
  · rw [deleteSubgraph, hsub, List.filter_append, List.filter_eq_self.mpr fun r hr =>
      bne_iff_ne.mpr fun h : r.id = sid => hsid (h ▸ List.mem_map_of_mem _ hr)]
    simp
  · rw [deleteSubgraph, hver, List.filter_append, List.filter_eq_self.mpr fun v hv =>
      bne_iff_ne.mpr fun h : v.subgraph = sid => hsid (h ▸ hw.version_subgraph v hv)]
    simp

/-- The clean-up of `remove_subgraph`, on the tables of `m` and the assignments
`create_subgraph_version` left, keeps the assignments of `m` and drops the one it added. -/
theorem filter_assignment_createSubgraphVersion_of_new (hi : Inv m)
    (hnone : findSubgraph m name = none) (hsid : sid ∉ m.subgraph.map (·.id)) :
    (createSubgraphVersion name id nodeId mode t sid vid m).1.subgraphDeploymentAssignment.filter
      (fun a => m.deploymentInUse a.id) = m.subgraphDeploymentAssignment := by
  obtain ⟨hsub, hver⟩ := @createSubgraphVersion_of_new m name id nodeId sid vid mode t hnone hsid
  have hold : ∀ a ∈ m.subgraphDeploymentAssignment,
      (m.deploymentInUse a.id &&
        (stageVersion name id nodeId mode t sid vid m).deploymentInUse a.id) = true := by
    intro a ha
    have hm := hi.inUse ha
    rw [Bool.and_eq_true, Metadata.deploymentInUse_iff, Metadata.deploymentInUse_iff]
    exact ⟨hm, hm.mono (fun s hs => (hsub ▸ List.mem_append_left _ hs :))
      fun v hv => (hver ▸ List.mem_append_left _ hv :)⟩
  show ((stageVersion name id nodeId mode t sid vid m).subgraphDeploymentAssignment.filter
    _).filter _ = _
  rw [List.filter_filter, stageVersion_assignment]
  split
  · rename_i hnew
    have hunused : m.deploymentInUse id = false := by
      rw [Bool.eq_false_iff, ne_eq, Metadata.deploymentInUse_iff, ← hi.assigned_iff]
      exact not_mem_assigned_of_newAssignment hnew
    rw [List.filter_append, List.filter_eq_self.mpr hold]
    simp [hunused]
  · exact List.filter_eq_self.mpr hold

end Undo

/-- In every state the whole store reaches, deploying a subgraph under a new name with a fresh
subgraph id and removing that name again leaves every table as it was: the subgraph row, the
version row and the assignment `create_subgraph_version` inserted are all deleted, and nothing
else changes. -/
theorem removeSubgraph_createSubgraphVersion {m : Metadata} (h : StoreReachable m)
    (name id nodeId : String) (mode : SubgraphVersionSwitchingMode) (t : Nat) (sid vid : String)
    (hname : ∀ s ∈ m.subgraph, s.name ≠ name) (hsid : sid ∉ m.subgraph.map (·.id)) :
    (removeSubgraph name (createSubgraphVersion name id nodeId mode t sid vid m).1).1 = m := by
  have hi := h.inv
  have hnone := findSubgraph_eq_none_iff.mpr hname
  obtain ⟨hfind, hsub, hver⟩ := @deleteSubgraph_createSubgraphVersion_of_new m name id nodeId sid
    vid mode t hi.toVersionsWf hnone hsid
  have hinuse : (deleteSubgraph sid
      (createSubgraphVersion name id nodeId mode t sid vid m).1).deploymentInUse =
      m.deploymentInUse := by
    unfold Metadata.deploymentInUse
    rw [hsub, hver]
  rw [removeSubgraph, hfind]
  refine Metadata.ext_of hsub hver ?_ ?_
  · show (stageVersion name id nodeId mode t sid vid m).subgraphDeployment = _
    simp
  · rw [removeUnusedAssignments_assignment, hinuse]
    exact filter_assignment_createSubgraphVersion_of_new hi hnone hsid

theorem removeSubgraph_createSubgraphVersion_deployedD1 :
    StoreReachable deployedD1 ∧ (∀ s ∈ deployedD1.subgraph, s.name ≠ "h") ∧
      "s2" ∉ deployedD1.subgraph.map (·.id) ∧
      (removeSubgraph "h"
        (createSubgraphVersion "h" "D2" "n" .synced 0 "s2" "v2" deployedD1).1).1 = deployedD1 :=
  have hname : ∀ s ∈ deployedD1.subgraph, s.name ≠ "h" := by decide
  have hsid : "s2" ∉ deployedD1.subgraph.map (·.id) := by decide
  ⟨reachable_deployedD1.storeReachable, hname, hsid, removeSubgraph_createSubgraphVersion
    reachable_deployedD1.storeReachable "h" "D2" "n" .synced 0 "s2" "v2" hname hsid⟩

end GraphNode.Store
