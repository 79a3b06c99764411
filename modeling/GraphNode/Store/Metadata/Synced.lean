import GraphNode.Store.Metadata.Invariant
/-!
# Promotion by `deployment_synced`

`create_subgraph_version` in `Synced` mode makes the new version pending whenever the current
version's deployment is synced, without looking at the new version's own deployment. A
deployment that is already synced can therefore become pending (`synced_pending_reachable`):
the pending version of a subgraph need not belong to an unsynced deployment.

Such a version is still promotable: from every reachable state, `deployment_synced` for the
deployment of a pending version makes that version current and clears the pending version,
the promoted row being the only row of that subgraph (`deploymentSynced_promotes_pending`). The promotion loop updates by subgraph id, so this rests
on subgraph ids and version ids being keys.

The whole effect of `deployment_synced` from a reachable state (`deploymentSynced_effect`):
the deployment's row is marked synced and no other deployment row changes, every subgraph
pending on it is promoted and no other subgraph row or version row changes, and the clean-up
deletes exactly the assignments of the deployments no longer in use.

A second `deployment_synced` for the same deployment, from any state, changes nothing and
returns no change (`deploymentSynced_idempotent`).
-/

namespace GraphNode.Store

section Promotion

variable {pending : List (String × String)} {rows : List Subgraph}

/-- A row whose id the promotion loop never selects comes through unchanged. -/
theorem mem_promotePending_of_forall_ne {r : Subgraph} (hr : r ∈ rows)
    (hn : ∀ y, (r.id, y) ∉ pending) : r ∈ promotePending pending rows := by
  induction pending generalizing rows with
  | nil => exact hr
  | cons sv pending ih =>
    have hne : r.id ≠ sv.1 := fun h => hn sv.2 (by rw [h]; exact List.mem_cons_self _ _)
    refine ih (List.mem_map.mpr ⟨r, hr, by simp [updateSubgraph, hne]⟩)
      fun y hy => hn y (List.mem_cons_of_mem _ hy)

/-- A row the loop selects with a single version is promoted to that version. -/
theorem promote_mem_promotePending {s : Subgraph} {x : String} (hs : s ∈ rows)
    (hx : (s.id, x) ∈ pending) (hfun : ∀ y, (s.id, y) ∈ pending → y = x) :
    promote x s ∈ promotePending pending rows := by
  induction pending generalizing rows s with
  | nil => cases hx
  | cons sv pending ih =>
    simp only [promotePending, List.foldl_cons]
    rw [← promotePending]
    by_cases hid : s.id = sv.1
    · have hy : sv.2 = x := hfun sv.2 (by simp [hid])
      have hs' : promote x s ∈ rows.map (updateSubgraph sv.1 (promote sv.2)) :=
        List.mem_map.mpr ⟨s, hs, by simp [updateSubgraph, hid, hy]⟩
      by_cases hx' : (s.id, x) ∈ pending
      · have := ih hs' hx' fun y hy' => hfun y (List.mem_cons_of_mem _ hy')
        simpa [promote] using this
      · refine mem_promotePending_of_forall_ne hs' fun y hy' => ?_
        have : y = x := hfun y (List.mem_cons_of_mem _ hy')
        subst this
        exact hx' hy'
    · have hs' : s ∈ rows.map (updateSubgraph sv.1 (promote sv.2)) :=
        List.mem_map.mpr ⟨s, hs, by simp [updateSubgraph, hid]⟩
      have hx' : (s.id, x) ∈ pending := by
        rcases List.mem_cons.mp hx with h | h
        · exact absurd (congrArg Prod.fst h) hid
        · exact h
      exact ih hs' hx' fun y hy' => hfun y (List.mem_cons_of_mem _ hy')

end Promotion

section Synced

variable {m : Metadata}

/-- In tables whose subgraph ids are keys, `deployment_synced` promotes a subgraph pending on
the deployment to its pending version. -/
theorem promote_mem_deploymentSynced (hw : VersionsWf m) {s : Subgraph} (hs : s ∈ m.subgraph)
    {v : SubgraphVersion} (hv : v ∈ m.subgraphVersion) (hp : s.pendingVersion = some v.id) :
    promote v.id s ∈ (deploymentSynced v.deployment m).1.subgraph := by
  refine promote_mem_promotePending hs
    (mem_pendingSubgraphVersions.mpr ⟨s, hs, v, hv, hp, rfl, rfl, rfl⟩) fun y hy => ?_
  obtain ⟨s', hs', v', -, hp', -, hsid, rfl⟩ := mem_pendingSubgraphVersions.mp hy
  rw [List.inj_on_of_nodup_map hw.subgraph_key hs' hs hsid, hp] at hp'
  exact (Option.some.inj hp').symm

/-- In tables whose subgraph ids are keys, `deployment_synced` keeps every subgraph row not
pending on the deployment. -/
theorem mem_deploymentSynced_of_not_pending (hw : VersionsWf m) {id : String} {s : Subgraph}
    (hs : s ∈ m.subgraph)
    (hn : ∀ v ∈ m.subgraphVersion, s.pendingVersion = some v.id → v.deployment ≠ id) :
    s ∈ (deploymentSynced id m).1.subgraph :=
  mem_promotePending_of_forall_ne hs fun _ hy => by
    obtain ⟨s', hs', v, hv, hp, hdep, hsid, -⟩ := mem_pendingSubgraphVersions.mp hy
    rw [List.inj_on_of_nodup_map hw.subgraph_key hs' hs hsid] at hp
    exact hn v hv hp hdep

end Synced

/-- The sample run continued: mark `D1` synced, and deploy `D1` under `g` again in `Synced`
mode. -/
def redeploySynced : Metadata :=
  (createSubgraphVersion "g" "D1" "n" .synced 0 "s2" "v2" (deploymentSynced "D1" deployedD1).1).1

theorem reachable_redeploySynced : Reachable redeploySynced :=
  .step (.createSubgraphVersion "g" "D1" "n" .synced 0 "s2" "v2")
    (.step (.deploymentSynced "D1") reachable_deployedD1 trivial) (by decide)

/-- From every reachable state, `deployment_synced` for the deployment of a subgraph's pending
version makes that version the subgraph's current version and clears its pending version,
whether or not the deployment was already synced: the promoted row is in the result, and it is
the only row with the subgraph's id there. -/
theorem deploymentSynced_promotes_pending {m : Metadata} (h : Reachable m) {s : Subgraph}
    (hs : s ∈ m.subgraph) {v : SubgraphVersion} (hv : v ∈ m.subgraphVersion)
    (hp : s.pendingVersion = some v.id) :
    { s with currentVersion := some v.id, pendingVersion := none } ∈
        (deploymentSynced v.deployment m).1.subgraph ∧
      ∀ r ∈ (deploymentSynced v.deployment m).1.subgraph, r.id = s.id →
        r = { s with currentVersion := some v.id, pendingVersion := none } := by
  have hw := h.inv.toVersionsWf
  have hmem := promote_mem_deploymentSynced hw hs hv hp
  have hids : (deploymentSynced v.deployment m).1.subgraph.map (·.id) = m.subgraph.map (·.id) :=
    map_promotePending (·.id) (fun _ _ => rfl) _ _
  exact ⟨hmem, fun r hr hid => List.inj_on_of_nodup_map (hids ▸ hw.subgraph_key) hr hmem hid⟩

theorem deploymentSynced_promotes_pending_redeploySynced :
    Reachable redeploySynced ∧
    (⟨"s1", "g", some "v1", some "v2", 0⟩ : Subgraph) ∈ redeploySynced.subgraph ∧
    (⟨"v2", "s1", "D1", 0⟩ : SubgraphVersion) ∈ redeploySynced.subgraphVersion ∧
    ((⟨"s1", "g", some "v2", none, 0⟩ : Subgraph) ∈
        (deploymentSynced "D1" redeploySynced).1.subgraph ∧
      ∀ r ∈ (deploymentSynced "D1" redeploySynced).1.subgraph, r.id = "s1" →
        r = ⟨"s1", "g", some "v2", none, 0⟩) :=
  ⟨reachable_redeploySynced, by decide, by decide,
    @deploymentSynced_promotes_pending _ reachable_redeploySynced
      ⟨"s1", "g", some "v1", some "v2", 0⟩ (by decide) ⟨"v2", "s1", "D1", 0⟩ (by decide) rfl⟩

/-- What `deployment_synced id` does to the tables, going from `m` to `m'`. -/
structure DeploymentSyncedEffect (m m' : Metadata) (id : String) : Prop where
  synced : ∀ d' ∈ m'.subgraphDeployment, d'.id = id →
    ∃ d ∈ m.subgraphDeployment, d' = { d with synced := true }
  synced_row : ∀ d ∈ m.subgraphDeployment, d.id = id →
    { d with synced := true } ∈ m'.subgraphDeployment
  other_deployments : ∀ d, d.id ≠ id → (d ∈ m'.subgraphDeployment ↔ d ∈ m.subgraphDeployment)
  promoted : ∀ s ∈ m.subgraph, ∀ v ∈ m.subgraphVersion, s.pendingVersion = some v.id →
    v.deployment = id → { s with currentVersion := some v.id, pendingVersion := none } ∈ m'.subgraph
  other_subgraphs : ∀ s ∈ m.subgraph,
    (∀ v ∈ m.subgraphVersion, s.pendingVersion = some v.id → v.deployment ≠ id) → s ∈ m'.subgraph
  subgraph_ids : m'.subgraph.map (·.id) = m.subgraph.map (·.id)
  versions : m'.subgraphVersion = m.subgraphVersion
  assignments : ∀ a, a ∈ m'.subgraphDeploymentAssignment ↔
    a ∈ m.subgraphDeploymentAssignment ∧ m'.InUse a.id

/-- From every reachable state, `deployment_synced id` sets the `synced` flag of `id`'s row and
leaves every other deployment row alone; it makes every subgraph pending on a version of `id`
current on that version with no pending version, and keeps every other subgraph row and every
version row; and it deletes exactly the assignments of the deployments that no subgraph has as
current or pending version afterwards. -/
theorem deploymentSynced_effect {m : Metadata} (h : Reachable m) (id : String) :
    DeploymentSyncedEffect m (deploymentSynced id m).1 id := by
  have hw := h.inv.toVersionsWf
  refine ⟨fun d' hd' hid => ?_, fun d hd hid => ?_, fun d hid => ?_,
    fun s hs v hv hp hdep => ?_, fun _ hs hn => mem_deploymentSynced_of_not_pending hw hs hn,
    map_promotePending (·.id) (fun _ _ => rfl) _ _, rfl, fun a => ?_⟩
  · rw [deploymentSynced_subgraphDeployment] at hd'
    obtain ⟨d, hd, rfl⟩ := List.mem_map.mp hd'
    rw [id_markSynced] at hid
    exact ⟨d, hd, markSynced_of_eq hid⟩
  · rw [deploymentSynced_subgraphDeployment, ← markSynced_of_eq hid]
    exact List.mem_map_of_mem _ hd
  · rw [deploymentSynced_subgraphDeployment, List.mem_map]
    constructor
    · rintro ⟨d₀, hd₀, rfl⟩
      rwa [markSynced_of_ne (by rwa [id_markSynced] at hid)]
    · exact fun hd => ⟨d, hd, markSynced_of_ne hid⟩
  · subst hdep
    exact promote_mem_deploymentSynced hw hs hv hp
  · rw [deploymentSynced_assignment, List.mem_filter, Metadata.deploymentInUse_iff]

theorem deploymentSynced_effect_redeploySynced :
    Reachable redeploySynced ∧
      DeploymentSyncedEffect redeploySynced (deploymentSynced "D1" redeploySynced).1 "D1" :=
  ⟨reachable_redeploySynced, deploymentSynced_effect reachable_redeploySynced "D1"⟩

/-- A run from unsynced deployment rows reaches a subgraph whose pending version belongs to a
deployment that is already synced. -/
theorem synced_pending_reachable :
    (∀ d ∈ initD1.subgraphDeployment, d.synced = false) ∧ Reachable redeploySynced ∧
    ∃ s ∈ redeploySynced.subgraph, ∃ v ∈ redeploySynced.subgraphVersion,
      s.pendingVersion = some v.id ∧
      ∃ d ∈ redeploySynced.subgraphDeployment, d.id = v.deployment ∧ d.synced = true := by
  refine ⟨by decide, ?_, ⟨"s1", "g", some "v1", some "v2", 0⟩, by decide,
    ⟨"v2", "s1", "D1", 0⟩, by decide, rfl, { deploymentD1 with synced := true }, by decide, rfl,
    rfl⟩
  exact reachable_redeploySynced

/-! ## Running `deployment_synced` again -/

section Idempotence

variable {m : Metadata} {id : String}

/-- After the promotion loop a row is pending on nothing, or it is a row the loop never
selected. -/
theorem pendingVersion_promotePending {pending : List (String × String)} {rows : List Subgraph}
    {r : Subgraph} (h : r ∈ promotePending pending rows) :
    r.pendingVersion = none ∨ r ∈ rows ∧ ∀ y, (r.id, y) ∉ pending := by
  induction pending generalizing rows with
  | nil => exact .inr ⟨h, fun _ => List.not_mem_nil _⟩
  | cons sv pending ih =>
    rcases ih h with hnone | ⟨hr₁, hsel⟩
    · exact .inl hnone
    obtain ⟨r₀, hr₀, hr⟩ := List.mem_map.mp hr₁
    unfold updateSubgraph at hr
    split at hr
    · exact .inl (hr ▸ rfl)
    · rename_i hid
      subst hr
      refine .inr ⟨hr₀, fun y hy => ?_⟩
      rcases List.mem_cons.mp hy with h | h
      · exact hid (congrArg Prod.fst h)
      · exact hsel y h

/-- After `deployment_synced id` no subgraph is pending on a version of `id`. -/
theorem pendingSubgraphVersions_deploymentSynced (id : String) (m : Metadata) :
    pendingSubgraphVersions (deploymentSynced id m).1 id = [] := by
  refine List.eq_nil_iff_forall_not_mem.mpr fun ⟨sid, x⟩ hx => ?_
  obtain ⟨s, hs, v, hv, hp, hd, -, -⟩ := mem_pendingSubgraphVersions.mp hx
  rcases pendingVersion_promotePending hs with hnone | ⟨hs₀, hsel⟩
  · rw [hnone] at hp
    cases hp
  · exact hsel v.id (mem_pendingSubgraphVersions.mpr ⟨s, hs₀, v, hv, hp, hd, rfl, rfl⟩)

/-- `deployment_synced id` changes nothing and returns no change in tables where no subgraph is
pending on `id`, every assignment is in use, and the row of `id` is synced. -/
theorem deploymentSynced_of_done (hp : pendingSubgraphVersions m id = [])
    (ha : ∀ a ∈ m.subgraphDeploymentAssignment, m.deploymentInUse a.id = true)
    (hs : ∀ d ∈ m.subgraphDeployment, d.id = id → d.synced = true) :
    deploymentSynced id m = (m, []) := by
  have hm : ({ m with subgraph := promotePending (pendingSubgraphVersions m id) m.subgraph } :
      Metadata) = m := by
    rw [hp]
    rfl
  rw [deploymentSynced, hm]
  refine Prod.ext (Metadata.ext_of rfl rfl ?_ (List.filter_eq_self.mpr ha)) ?_
  · refine (List.map_congr_left fun d hd => ?_).trans (List.map_id _)
    by_cases hid : d.id = id
    · rw [markSynced_of_eq hid, ← hs d hd hid]
      rfl
    · exact markSynced_of_ne hid
  · have hnone : m.subgraphDeploymentAssignment.filter (fun a => !m.deploymentInUse a.id) = [] :=
      List.filter_eq_nil_iff.mpr fun a h => by simp [ha a h]
    simp only [removeUnusedAssignments, hnone, List.map_nil, List.filterMap_nil]

end Idempotence

/-- Running `deployment_synced` a second time, from any state, changes nothing and returns no
change: the first run leaves no subgraph pending on the deployment, no unused assignment and
the deployment's row synced, so a retried call is harmless. -/
theorem deploymentSynced_idempotent (id : String) (m : Metadata) :
    deploymentSynced id (deploymentSynced id m).1 = ((deploymentSynced id m).1, []) := by
  refine deploymentSynced_of_done (pendingSubgraphVersions_deploymentSynced id m)
    (fun a ha => (List.mem_filter.mp ha).2) fun d hd hid => ?_
  obtain ⟨d₀, -, rfl⟩ := List.mem_map.mp hd
  rw [id_markSynced] at hid
  rw [markSynced_of_eq hid]

end GraphNode.Store
