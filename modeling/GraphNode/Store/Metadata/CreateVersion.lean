import GraphNode.Store.Metadata.Invariant
/-!
# The effect of `create_subgraph_version`

From every reachable state, `create_subgraph_version name id nodeId mode` leaves exactly one
subgraph named `name`, gives it a fresh version of deployment `id`, makes that version
current or pending as `mode` and the current version's `synced` flag decide, leaves every
other subgraph row and every earlier version row alone, and leaves `id` with exactly one
assignment (`createSubgraphVersion_effect`).

The mode switch reads `current_exists_and_synced`, the first row of a join; in a reachable
state version ids and deployment ids are keys, so that row is the only one and the flag is
`SyncedCurrent`, stated without the join (`currentExistsAndSynced_iff`).
-/

namespace GraphNode.Store

/-- The subgraph named `name` has a current version whose deployment is synced. -/
def Metadata.SyncedCurrent (m : Metadata) (name : String) : Prop :=
  ∃ s ∈ m.subgraph, s.name = name ∧ ∃ c, s.currentVersion = some c ∧ m.SyncedVersion c

/-- What `create_subgraph_version name id nodeId mode` at time `createdAt` does to the
tables, going from `m` to `m'` with the fresh version id `versionId`. -/
structure VersionCreated (m m' : Metadata) (name id nodeId : String)
    (mode : SubgraphVersionSwitchingMode) (createdAt : Nat) (versionId : String) : Prop where
  named : ∃ s ∈ m'.subgraph, s.name = name ∧ (∀ r ∈ m'.subgraph, r.name = name → r = s) ∧
    { id := versionId, subgraph := s.id, deployment := id, createdAt } ∈ m'.subgraphVersion ∧
    (mode = .instant ∨ ¬m.SyncedCurrent name →
      s.currentVersion = some versionId ∧ s.pendingVersion = none) ∧
    (mode = .synced → m.SyncedCurrent name →
      (∃ s₀ ∈ m.subgraph, s₀.name = name ∧ s.currentVersion = s₀.currentVersion) ∧
        s.pendingVersion = some versionId)
  others : ∀ r, r.name ≠ name → (r ∈ m'.subgraph ↔ r ∈ m.subgraph)
  versions : ∀ v ∈ m.subgraphVersion, v ∈ m'.subgraphVersion
  assignment : ∃ a, m'.subgraphDeploymentAssignment.filter (·.id == id) = [a] ∧
    (∀ a₀ ∈ m.subgraphDeploymentAssignment, a₀.id = id → a = a₀) ∧
    ((∀ a₀ ∈ m.subgraphDeploymentAssignment, a₀.id ≠ id) → a = { id, nodeId, cost := 1 })

section Create

variable {m : Metadata} {name id nodeId sid vid : String} {t : Nat}
  {mode : SubgraphVersionSwitchingMode}

/-- In a state whose version ids are keys, `current_exists_and_synced` of a version is whether
its deployment is synced. -/
theorem currentExistsAndSynced_some_iff (hkey : (m.subgraphVersion.map (·.id)).Nodup)
    (c : String) : currentExistsAndSynced m (some c) = true ↔ m.SyncedVersion c := by
  refine ⟨fun h => ?_, fun ⟨v, hv, hvid, d, hd, hdid, hds⟩ => ?_⟩
  · obtain ⟨c', hc', hsync⟩ := syncedVersion_of_currentExistsAndSynced h
    cases hc'
    exact hsync
  · refine head?_getD_of_mem (mem_currentFlags.mpr ⟨d, hd, v, hv, hdid.symm, hvid, rfl⟩)
      fun b hb => ?_
    obtain ⟨d', hd', v', hv', hdep', hid', rfl⟩ := mem_currentFlags.mp hb
    obtain rfl : v' = v := List.inj_on_of_nodup_map hkey hv' hv (hid'.trans hvid.symm)
    rwa [List.inj_on_of_nodup_map m.deployment_key hd' hd (hdep'.symm.trans hdid.symm)]

/-- The row with the switched id is the one named `name`. -/
theorem name_of_id_subgraphInfo (hw : VersionsWf m) (hsid : sid ∉ m.subgraph.map (·.id))
    {r : Subgraph} (hr : r ∈ (subgraphInfo name t sid m).1.subgraph)
    (hid : r.id = (subgraphInfo name t sid m).2.1) : r.name = name := by
  obtain ⟨s, hs, hsid', hname, -⟩ := subgraphInfo_row name t sid m
  rw [List.inj_on_of_nodup_map (subgraphInfo_key hw.subgraph_key hsid) hr hs (hid.trans hsid'.symm),
    hname]

/-- In a table keyed by `id`, the rows with the id of row `a` are `[a]`. -/
theorem filter_id_eq_singleton {rows : List SubgraphDeploymentAssignment}
    (hkey : (rows.map (·.id)).Nodup) {a : SubgraphDeploymentAssignment} (ha : a ∈ rows) :
    rows.filter (·.id == a.id) = [a] := by
  induction rows with
  | nil => cases ha
  | cons b rows ih =>
    rw [List.map_cons, List.nodup_cons] at hkey
    rcases List.mem_cons.mp ha with rfl | ha
    · rw [List.filter_cons_of_pos (by simp), List.filter_eq_nil_iff.mpr]
      intro x hx hxid
      exact hkey.1 (beq_iff_eq.mp hxid ▸ List.mem_map_of_mem (·.id) hx)
    · have hne : b.id ≠ a.id := fun h => hkey.1 (h ▸ List.mem_map_of_mem _ ha)
      rw [List.filter_cons_of_neg (by simpa using hne), ih hkey.2 ha]

theorem syncedCurrent_iff_of_find (hw : VersionsWf m) {s : Subgraph}
    (hf : findSubgraph m name = some s) :
    m.SyncedCurrent name ↔ currentExistsAndSynced m s.currentVersion = true := by
  have hs := List.mem_of_find?_eq_some hf
  have hn : s.name = name := by simpa using List.find?_some hf
  constructor
  · rintro ⟨s', hs', hn', c, hc, hsync⟩
    rw [List.inj_on_of_nodup_map hw.name_key hs' hs (hn'.trans hn.symm)] at hc
    rwa [hc, currentExistsAndSynced_some_iff hw.version_key]
  · intro hsyn
    obtain ⟨c, hc, hsync⟩ := syncedVersion_of_currentExistsAndSynced hsyn
    exact ⟨s, hs, hn, c, hc, hsync⟩

theorem not_syncedCurrent_of_find (hf : findSubgraph m name = none) : ¬m.SyncedCurrent name :=
  fun ⟨s, hs, hn, _⟩ => List.find?_eq_none.mp hf s hs (by simp [hn])

/-- The switched row of `create_subgraph_version` against `SyncedCurrent`. -/
theorem switched_row (hw : VersionsWf m) (name : String) (t : Nat) (sid : String)
    (mode : SubgraphVersionSwitchingMode) (vid : String) :
    ∃ s₀ ∈ (subgraphInfo name t sid m).1.subgraph, s₀.id = (subgraphInfo name t sid m).2.1 ∧
      s₀.name = name ∧
      (mode = .instant ∨ ¬m.SyncedCurrent name →
        (switchVersion mode (currentExistsAndSynced (subgraphInfo name t sid m).1
          (subgraphInfo name t sid m).2.2) vid s₀).currentVersion = some vid ∧
        (switchVersion mode (currentExistsAndSynced (subgraphInfo name t sid m).1
          (subgraphInfo name t sid m).2.2) vid s₀).pendingVersion = none) ∧
      (mode = .synced → m.SyncedCurrent name →
        (∃ s ∈ m.subgraph, s.name = name ∧
          (switchVersion mode (currentExistsAndSynced (subgraphInfo name t sid m).1
            (subgraphInfo name t sid m).2.2) vid s₀).currentVersion = s.currentVersion) ∧
        (switchVersion mode (currentExistsAndSynced (subgraphInfo name t sid m).1
          (subgraphInfo name t sid m).2.2) vid s₀).pendingVersion = some vid) := by
  cases hf : findSubgraph m name with
  | none =>
    rw [subgraphInfo_of_none hf]
    refine ⟨_, List.mem_append_right _ (List.mem_singleton_self _), rfl, rfl,
      fun _ => ?_, fun _ h => absurd h (not_syncedCurrent_of_find hf)⟩
    cases mode <;> exact ⟨rfl, rfl⟩
  | some s =>
    rw [subgraphInfo_of_some hf]
    have hsync := syncedCurrent_iff_of_find hw hf
    refine ⟨s, List.mem_of_find?_eq_some hf, rfl, by simpa using List.find?_some hf,
      fun h => ?_, fun hm h => ?_⟩
    · rcases h with rfl | h
      · exact ⟨rfl, rfl⟩
      · rw [show currentExistsAndSynced m s.currentVersion = false by simpa [hsync] using h]
        cases mode <;> exact ⟨rfl, rfl⟩
    · subst hm
      rw [hsync.mp h]
      exact ⟨⟨s, List.mem_of_find?_eq_some hf, by simpa using List.find?_some hf, rfl⟩, rfl⟩

/-- `create_subgraph_version name` keeps every subgraph row not named `name`, and adds none. -/
theorem mem_createSubgraphVersion_of_name_ne (hw : VersionsWf m)
    (hsid : sid ∉ m.subgraph.map (·.id)) {r : Subgraph} (hrn : r.name ≠ name) :
    r ∈ (createSubgraphVersion name id nodeId mode t sid vid m).1.subgraph ↔ r ∈ m.subgraph := by
  have hsub : (createSubgraphVersion name id nodeId mode t sid vid m).1.subgraph =
      (stageVersion name id nodeId mode t sid vid m).subgraph := rfl
  rw [stageVersion_subgraph] at hsub
  rw [hsub, List.mem_map]
  constructor
  · rintro ⟨r₀, hr₀, rfl⟩
    have hne : r₀.id ≠ (subgraphInfo name t sid m).2.1 := fun hid => hrn (by
      simpa [updateSubgraph, hid] using name_of_id_subgraphInfo hw hsid hr₀ hid)
    rw [updateSubgraph, if_neg hne] at hrn ⊢
    exact (mem_subgraphInfo_name hr₀).resolve_right hrn
  · intro hr
    have hne : r.id ≠ (subgraphInfo name t sid m).2.1 := fun hid =>
      hrn (name_of_id_subgraphInfo hw hsid (subset_subgraphInfo hr) hid)
    exact ⟨r, subset_subgraphInfo hr, by rw [updateSubgraph, if_neg hne]⟩

/-- After `create_subgraph_version`, deployment `id` has exactly one assignment: the one it
had, or else a new one to `nodeId`. -/
theorem assignment_createSubgraphVersion
    (hi' : Inv (createSubgraphVersion name id nodeId mode t sid vid m).1) :
    ∃ a, (createSubgraphVersion name id nodeId mode t sid vid
        m).1.subgraphDeploymentAssignment.filter (·.id == id) = [a] ∧
      (∀ a₀ ∈ m.subgraphDeploymentAssignment, a₀.id = id → a = a₀) ∧
      ((∀ a₀ ∈ m.subgraphDeploymentAssignment, a₀.id ≠ id) → a = { id, nodeId, cost := 1 }) := by
  have hin : id ∈ (createSubgraphVersion name id nodeId mode t sid vid m).1.assigned :=
    (hi'.assigned_iff id).mpr inUse_stageVersion
  obtain ⟨a, ha, rfl⟩ := List.mem_map.mp hin
  refine ⟨a, filter_id_eq_singleton hi'.assigned_key ha, fun a₀ ha₀ hid => ?_, fun hnone => ?_⟩
  · have ha₀' : a₀ ∈ (createSubgraphVersion name a.id nodeId mode t sid vid
        m).1.subgraphDeploymentAssignment := by
      refine List.mem_filter.mpr ⟨?_, Metadata.deploymentInUse_iff.mpr (hid ▸ inUse_stageVersion)⟩
      rw [stageVersion_assignment]
      split <;> simp [ha₀]
    exact List.inj_on_of_nodup_map hi'.assigned_key ha ha₀' hid.symm
  · have hn : newAssignment m a.id = true := by simpa [newAssignment] using hnone
    have hstage := (List.mem_filter.mp ha).1
    rw [stageVersion_assignment, if_pos hn, List.mem_append, List.mem_singleton] at hstage
    exact hstage.resolve_left fun h => hnone a h rfl

end Create

/-- From every reachable state, `create_subgraph_version name id nodeId mode` with fresh
generated ids leaves exactly one subgraph named `name`, with a fresh version of deployment `id`
that becomes current (pending cleared) in `Instant` mode or when `name` had no current version
of a synced deployment, and pending (current kept) otherwise; it leaves every other subgraph
row and every earlier version row unchanged, and leaves `id` exactly one assignment: the one it
had, whatever `nodeId` is, or else a new one to `nodeId`. -/
theorem createSubgraphVersion_effect {m : Metadata} (h : Reachable m) (name id nodeId : String)
    (mode : SubgraphVersionSwitchingMode) (createdAt : Nat) (sid vid : String)
    (hfresh : sid ∉ m.subgraph.map (·.id) ∧ vid ∉ m.subgraphVersion.map (·.id)) :
    VersionCreated m (createSubgraphVersion name id nodeId mode createdAt sid vid m).1
      name id nodeId mode createdAt vid := by
  have hw := h.inv.toVersionsWf
  have hi' := (h.step (.createSubgraphVersion name id nodeId mode createdAt sid vid) hfresh).inv
  have hsub : (createSubgraphVersion name id nodeId mode createdAt sid vid m).1.subgraph =
      (stageVersion name id nodeId mode createdAt sid vid m).subgraph := rfl
  have hver : (createSubgraphVersion name id nodeId mode createdAt sid vid m).1.subgraphVersion =
      (stageVersion name id nodeId mode createdAt sid vid m).subgraphVersion := rfl
  rw [stageVersion_subgraph] at hsub
  rw [stageVersion_subgraphVersion] at hver
  obtain ⟨s₀, hs₀, hid₀, hname₀, hinst, hsyn⟩ := switched_row hw name createdAt sid mode vid
  refine ⟨⟨_, hsub ▸ List.mem_map_of_mem _ hs₀, ?_, fun r hr hrn => ?_, ?_, ?_, ?_⟩,
    fun _ hrn => mem_createSubgraphVersion_of_name_ne hw hfresh.1 hrn,
    fun v hv => by simp [hver, hv], assignment_createSubgraphVersion hi'⟩
  · simp [updateSubgraph, hid₀, hname₀]
  · refine List.inj_on_of_nodup_map hi'.name_key hr (hsub ▸ List.mem_map_of_mem _ hs₀) ?_
    simp [hrn, updateSubgraph, hid₀, hname₀]
  · rw [hver, updateSubgraph, if_pos hid₀, id_switchVersion, hid₀]
    exact List.mem_append_right _ (List.mem_singleton_self _)
  · simpa [updateSubgraph, hid₀] using hinst
  · simpa [updateSubgraph, hid₀] using hsyn

theorem createSubgraphVersion_effect_synced :
    Reachable deployedD1 ∧
    ("s2" ∉ deployedD1.subgraph.map (·.id) ∧ "v2" ∉ deployedD1.subgraphVersion.map (·.id)) ∧
    VersionCreated deployedD1
      (createSubgraphVersion "g" "D2" "n" .synced 0 "s2" "v2" deployedD1).1
      "g" "D2" "n" .synced 0 "v2" :=
  ⟨reachable_deployedD1, by decide,
    createSubgraphVersion_effect reachable_deployedD1 "g" "D2" "n" .synced 0 "s2" "v2" (by decide)⟩

end GraphNode.Store
