import GraphNode.Store.Metadata.Lifecycle
/-!
# The metadata invariant

The states the lifecycle functions reach from empty `subgraph`, `subgraph_version` and
`subgraph_deployment_assignment` tables, and the invariant they keep:

* `VersionsWf`: subgraph ids, subgraph names and version ids are unique; a subgraph's current
  and pending versions are versions of that subgraph; every version's subgraph exists; a
  pending version comes with a different, synced current version;
* `AssignmentsWf`: the assignment table has one row for each deployment in use and no other.

Each operation keeps both (`Inv.run`), so they hold of every reachable state
(`Reachable.inv`). The assignment half is the same argument for all three operations:
`remove_unused_assignments` leaves exactly the assignments in use, provided every deployment
in use had one before it ran.
-/

namespace GraphNode.Store

/-- Version `c` belongs to a deployment whose row is synced. -/
def Metadata.SyncedVersion (m : Metadata) (c : String) : Prop :=
  ∃ v ∈ m.subgraphVersion, v.id = c ∧
    ∃ d ∈ m.subgraphDeployment, d.id = v.deployment ∧ d.synced = true

/-- The invariant of the subgraph and version tables. -/
structure VersionsWf (m : Metadata) : Prop where
  subgraph_key : (m.subgraph.map (·.id)).Nodup
  name_key : (m.subgraph.map (·.name)).Nodup
  version_key : (m.subgraphVersion.map (·.id)).Nodup
  own_version : ∀ s ∈ m.subgraph, ∀ x, s.Points x →
    ∃ v ∈ m.subgraphVersion, v.id = x ∧ v.subgraph = s.id
  version_subgraph : ∀ v ∈ m.subgraphVersion, v.subgraph ∈ m.subgraph.map (·.id)
  pending_current : ∀ s ∈ m.subgraph, ∀ x, s.pendingVersion = some x →
    ∃ c, s.currentVersion = some c ∧ c ≠ x ∧ m.SyncedVersion c

/-- The assignment table holds one row for each deployment in use, and no other. -/
structure AssignmentsWf (m : Metadata) : Prop where
  assigned_key : m.assigned.Nodup
  assigned_iff : ∀ d, d ∈ m.assigned ↔ m.InUse d

/-- The invariant of the metadata tables. -/
structure Inv (m : Metadata) extends VersionsWf m, AssignmentsWf m : Prop

/-- The states reachable from empty subgraph, version and assignment tables and any
deployment table, one transaction at a time, with fresh generated ids. -/
inductive Reachable : Metadata → Prop
  | init (deployments : List SubgraphDeployment) (key : (deployments.map (·.id)).Nodup) :
      Reachable ⟨[], [], deployments, [], key⟩
  | step {m : Metadata} (op : Operation) : Reachable m → op.Fresh m → Reachable (op.run m).1

section Steps

variable {m m' : Metadata} {c d : String}

/-- A deployment in use after a step was in use before it, or is the deployment of a version
the step added, when every version the step's subgraphs point at was pointed at before. -/
theorem inUse_of_inUse
    (hp : ∀ s' ∈ m'.subgraph, ∀ v ∈ m.subgraphVersion, s'.Points v.id →
      ∃ s ∈ m.subgraph, s.Points v.id)
    (h : m'.InUse d) :
    m.InUse d ∨ ∃ v ∈ m'.subgraphVersion, v ∉ m.subgraphVersion ∧ v.deployment = d := by
  obtain ⟨s', hs', v, hv, hpt, rfl⟩ := h
  by_cases hvm : v ∈ m.subgraphVersion
  · obtain ⟨s, hs, hpt'⟩ := hp s' hs' v hvm hpt
    exact .inl ⟨s, hs, v, hvm, hpt', rfl⟩
  · exact .inr ⟨v, hv, hvm, rfl⟩

/-- `remove_unused_assignments` leaves one assignment for each deployment in use, provided
each of them had one before. -/
theorem assignmentsWf_removeUnusedAssignments (hkey : m.assigned.Nodup)
    (hcover : ∀ d, m.InUse d → d ∈ m.assigned) :
    AssignmentsWf (removeUnusedAssignments m).1 where
  assigned_key := hkey.sublist assigned_removeUnusedAssignments_sublist
  assigned_iff d := by
    rw [mem_assigned_removeUnusedAssignments]
    exact ⟨And.right, fun h => ⟨hcover d h, h⟩⟩

theorem versionsWf_removeUnusedAssignments (hw : VersionsWf m) :
    VersionsWf (removeUnusedAssignments m).1 :=
  ⟨hw.1, hw.2, hw.3, hw.4, hw.5, hw.6⟩

theorem Metadata.SyncedVersion.mono (h : m.SyncedVersion c)
    (hv : ∀ v ∈ m.subgraphVersion, v.id = c → v ∈ m'.subgraphVersion)
    (hd : ∀ d ∈ m.subgraphDeployment, d.synced = true →
      ∃ d' ∈ m'.subgraphDeployment, d'.id = d.id ∧ d'.synced = true) :
    m'.SyncedVersion c := by
  obtain ⟨v, hvm, rfl, d, hdm, hid, hs⟩ := h
  obtain ⟨d', hd'm, hid', hs'⟩ := hd d hdm hs
  exact ⟨v, hv v hvm rfl, rfl, d', hd'm, hid'.trans hid, hs'⟩

/-- The version of `c` that a subgraph points at is the one `SyncedVersion` names. -/
theorem VersionsWf.syncedVersion_subgraph (hw : VersionsWf m) {s : Subgraph} (hs : s ∈ m.subgraph)
    {c : String} (hc : s.currentVersion = some c) (hsync : m.SyncedVersion c) :
    ∃ v ∈ m.subgraphVersion, v.id = c ∧ v.subgraph = s.id ∧
      ∃ d ∈ m.subgraphDeployment, d.id = v.deployment ∧ d.synced = true := by
  obtain ⟨v, hv, hid, hsub⟩ := hw.own_version s hs c (.inl hc)
  obtain ⟨v', hv', hid', d, hd, hdid, hds⟩ := hsync
  have : v' = v := List.inj_on_of_nodup_map hw.version_key hv' hv (hid'.trans hid.symm)
  subst this
  exact ⟨v', hv', hid', hsub, d, hd, hdid, hds⟩

/-! ## `remove_subgraph` -/

theorem versionsWf_deleteSubgraph (hw : VersionsWf m) (sid : String) :
    VersionsWf (deleteSubgraph sid m) where
  subgraph_key := hw.subgraph_key.sublist ((List.filter_sublist _).map _)
  name_key := hw.name_key.sublist ((List.filter_sublist _).map _)
  version_key := hw.version_key.sublist ((List.filter_sublist _).map _)
  own_version s hs x hx := by
    simp only [deleteSubgraph, List.mem_filter, bne_iff_ne, ne_eq] at hs ⊢
    obtain ⟨v, hv, hid, hsub⟩ := hw.own_version s hs.1 x hx
    exact ⟨v, ⟨hv, hsub ▸ hs.2⟩, hid, hsub⟩
  version_subgraph v hv := by
    simp only [deleteSubgraph, List.mem_filter, List.mem_map, bne_iff_ne, ne_eq] at hv ⊢
    obtain ⟨r, hr, hid⟩ := List.mem_map.mp (hw.version_subgraph v hv.1)
    exact ⟨r, ⟨hr, hid ▸ hv.2⟩, hid⟩
  pending_current s hs x hx := by
    simp only [deleteSubgraph, List.mem_filter, bne_iff_ne, ne_eq] at hs
    obtain ⟨c, hc, hne, hsync⟩ := hw.pending_current s hs.1 x hx
    obtain ⟨v, hv, hid, hsub, d, hd, hdid, hds⟩ := hw.syncedVersion_subgraph hs.1 hc hsync
    refine ⟨c, hc, hne, v, ?_, hid, d, hd, hdid, hds⟩
    simp only [deleteSubgraph, List.mem_filter, bne_iff_ne, ne_eq]
    exact ⟨hv, hsub ▸ hs.2⟩

theorem inv_removeSubgraph (h : Inv m) (name : String) : Inv (removeSubgraph name m).1 := by
  unfold removeSubgraph
  split
  · rename_i s _
    have hv := versionsWf_deleteSubgraph h.toVersionsWf s.id
    suffices hcover : ∀ d, (deleteSubgraph s.id m).InUse d → d ∈ m.assigned from
      ⟨versionsWf_removeUnusedAssignments hv,
        assignmentsWf_removeUnusedAssignments h.assigned_key hcover⟩
    intro d hd
    have hp : ∀ s' ∈ (deleteSubgraph s.id m).subgraph, ∀ v ∈ m.subgraphVersion, s'.Points v.id →
        ∃ s ∈ m.subgraph, s.Points v.id := fun s' hs' _ _ hpt =>
      ⟨s', (List.mem_filter.mp hs').1, hpt⟩
    rcases inUse_of_inUse hp hd with hu | ⟨v, hv, hvm, -⟩
    · exact (h.assigned_iff d).mpr hu
    · exact absurd (List.mem_filter.mp hv).1 hvm
  · exact h

/-! ## `deployment_synced` -/

theorem versionsWf_promotePending (hw : VersionsWf m) (id : String) :
    VersionsWf { m with subgraph := promotePending (pendingSubgraphVersions m id) m.subgraph } where
  subgraph_key := by rw [map_promotePending (·.id) fun _ _ => rfl]; exact hw.subgraph_key
  name_key := by rw [map_promotePending (·.name) fun _ _ => rfl]; exact hw.name_key
  version_key := hw.version_key
  own_version r hr x hx := by
    obtain ⟨r₀, hr₀, rfl | ⟨y, hy, rfl⟩⟩ := mem_promotePending hr
    · exact hw.own_version r hr₀ x hx
    · obtain ⟨s, hs, v, hv, hpend, -, hsid, rfl⟩ := mem_pendingSubgraphVersions.mp hy
      have hx : v.id = x := by simpa [Subgraph.Points, promote] using hx
      subst hx
      obtain ⟨v', hv', hid, hsub⟩ := hw.own_version s hs v.id (.inr hpend)
      exact ⟨v', hv', hid, hsub.trans hsid⟩
  version_subgraph v hv := by
    rw [map_promotePending (·.id) fun _ _ => rfl]; exact hw.version_subgraph v hv
  pending_current r hr x hx := by
    obtain ⟨r₀, hr₀, rfl | ⟨y, -, rfl⟩⟩ := mem_promotePending hr
    · exact hw.pending_current r hr₀ x hx
    · simp [promote] at hx

theorem syncedVersion_markSynced (h : m.SyncedVersion c) (id : String) :
    (m.updateDeployments (markSynced id) (id_markSynced id)).SyncedVersion c :=
  h.mono (fun _ hv _ => hv) fun d hd hs =>
    ⟨markSynced id d, List.mem_map_of_mem _ hd, id_markSynced id d, by
      unfold GraphNode.Store.markSynced; split <;> simp [hs]⟩

theorem inv_deploymentSynced (h : Inv m) (id : String) : Inv (deploymentSynced id m).1 := by
  have hv := versionsWf_promotePending h.toVersionsWf id
  have hcover : ∀ d, Metadata.InUse
      { m with subgraph := promotePending (pendingSubgraphVersions m id) m.subgraph } d →
      d ∈ m.assigned := by
    intro d hd
    have hp : ∀ s' ∈ promotePending (pendingSubgraphVersions m id) m.subgraph,
        ∀ v ∈ m.subgraphVersion, s'.Points v.id → ∃ s ∈ m.subgraph, s.Points v.id := by
      intro s' hs' v _ hpt
      obtain ⟨r₀, hr₀, rfl | ⟨y, hy, rfl⟩⟩ := mem_promotePending hs'
      · exact ⟨s', hr₀, hpt⟩
      · obtain ⟨s, hs, w, -, hpend, -, -, rfl⟩ := mem_pendingSubgraphVersions.mp hy
        have : w.id = v.id := by simpa [Subgraph.Points, promote] using hpt
        rw [← this]
        exact ⟨s, hs, .inr hpend⟩
    rcases inUse_of_inUse hp hd with hu | ⟨v, hv, hvm, -⟩
    · exact (h.assigned_iff d).mpr hu
    · exact absurd hv hvm
  have ha : AssignmentsWf (removeUnusedAssignments
      { m with subgraph := promotePending (pendingSubgraphVersions m id) m.subgraph }).1 :=
    assignmentsWf_removeUnusedAssignments h.assigned_key hcover
  exact
    { hv with
      pending_current := fun s hs x hx => by
        obtain ⟨c, hc, hne, hsync⟩ := hv.pending_current s hs x hx
        exact ⟨c, hc, hne, syncedVersion_markSynced hsync id⟩
      assigned_key := ha.assigned_key
      assigned_iff := ha.assigned_iff }

/-! ## `create_subgraph_version` -/

variable {name id nodeId sid vid : String} {t : Nat} {mode : SubgraphVersionSwitchingMode}

/-- A row after finding or creating the subgraph was there before, or is the new row, which
points at no version. -/
theorem mem_subgraphInfo {r : Subgraph} (hr : r ∈ (subgraphInfo name t sid m).1.subgraph) :
    r ∈ m.subgraph ∨ ∀ x, ¬r.Points x := by
  unfold subgraphInfo at hr
  split at hr
  · exact .inl hr
  · simp only [createSubgraph, List.mem_append, List.mem_singleton] at hr
    rcases hr with hr | rfl
    · exact .inl hr
    · exact .inr fun x => by simp [Subgraph.Points]

/-- A row after finding or creating the subgraph was there before, or is named `name`. -/
theorem mem_subgraphInfo_name {r : Subgraph} (hr : r ∈ (subgraphInfo name t sid m).1.subgraph) :
    r ∈ m.subgraph ∨ r.name = name := by
  unfold subgraphInfo at hr
  split at hr
  · exact .inl hr
  · simp only [createSubgraph, List.mem_append, List.mem_singleton] at hr
    exact hr.imp (fun h => h) fun h => by rw [h]

theorem subset_subgraphInfo {r : Subgraph} (hr : r ∈ m.subgraph) :
    r ∈ (subgraphInfo name t sid m).1.subgraph := by
  unfold subgraphInfo
  split
  · exact hr
  · exact List.mem_append_left _ hr

/-- The row `create_subgraph_version` switches: named `name`, with the id and current version
`subgraphInfo` returns. -/
theorem subgraphInfo_row (name : String) (t : Nat) (sid : String) (m : Metadata) :
    ∃ s ∈ (subgraphInfo name t sid m).1.subgraph, s.id = (subgraphInfo name t sid m).2.1 ∧
      s.name = name ∧ s.currentVersion = (subgraphInfo name t sid m).2.2 := by
  unfold subgraphInfo
  split
  · rename_i s hs
    exact ⟨s, List.mem_of_find?_eq_some hs, rfl, by simpa using List.find?_some hs, rfl⟩
  · exact ⟨_, List.mem_append_right _ (List.mem_singleton_self _), rfl, rfl, rfl⟩

theorem subgraphInfo_key (hkey : (m.subgraph.map (·.id)).Nodup)
    (hsid : sid ∉ m.subgraph.map (·.id)) :
    ((subgraphInfo name t sid m).1.subgraph.map (·.id)).Nodup := by
  unfold subgraphInfo
  split
  · exact hkey
  · simp only [createSubgraph, List.map_append, List.map_cons, List.map_nil]
    exact hkey.append (List.nodup_singleton _) (List.disjoint_singleton.mpr hsid)

theorem subgraphInfo_name_key (hkey : (m.subgraph.map (·.name)).Nodup) :
    ((subgraphInfo name t sid m).1.subgraph.map (·.name)).Nodup := by
  unfold subgraphInfo
  split
  · exact hkey
  · rename_i hnone
    have hname : name ∉ m.subgraph.map (·.name) := by
      simp only [List.mem_map, not_exists, not_and]
      intro s hs hn
      exact List.find?_eq_none.mp hnone s hs (by simp [hn])
    simp only [createSubgraph, List.map_append, List.map_cons, List.map_nil]
    exact hkey.append (List.nodup_singleton _) (List.disjoint_singleton.mpr hname)

private theorem mem_of_head?_getD {l : List Bool} (h : l.head?.getD false = true) : true ∈ l := by
  cases l with
  | nil => simp at h
  | cons b l => simp only [List.head?_cons, Option.getD_some] at h; simp [h]

theorem head?_getD_of_mem {l : List Bool} {b : Bool} (hb : b ∈ l) (hall : ∀ b ∈ l, b = true) :
    l.head?.getD false = true := by
  cases l with
  | nil => cases hb
  | cons b' l => exact hall b' (List.mem_cons_self _ _)

/-- The `synced` flags the join of `current_exists_and_synced` selects for version `c`. -/
theorem mem_currentFlags {c : String} {b : Bool} :
    b ∈ (m.subgraphDeployment.flatMap fun d =>
        (m.subgraphVersion.filter fun v => v.deployment == d.id && v.id == c).map
          fun _ => d.synced) ↔
      ∃ d ∈ m.subgraphDeployment, ∃ v ∈ m.subgraphVersion,
        v.deployment = d.id ∧ v.id = c ∧ d.synced = b := by
  simp only [List.mem_flatMap, List.mem_map, List.mem_filter, Bool.and_eq_true, beq_iff_eq,
    and_assoc]

/-- `current_exists_and_synced` is `true` only for a current version of a synced deployment. -/
theorem syncedVersion_of_currentExistsAndSynced {cur : Option String}
    (h : currentExistsAndSynced m cur = true) : ∃ c, cur = some c ∧ m.SyncedVersion c := by
  cases cur with
  | none => simp [currentExistsAndSynced] at h
  | some c =>
    obtain ⟨d, hd, v, hv, hdep, hid, hs⟩ := mem_currentFlags.mp (mem_of_head?_getD h)
    exact ⟨c, rfl, v, hv, hid, d, hd, hdep.symm, hs⟩

theorem syncedVersion_stageVersion (h : m.SyncedVersion c) :
    (stageVersion name id nodeId mode t sid vid m).SyncedVersion c :=
  h.mono (fun _ hv _ => by simp [hv]) fun d hd hs => ⟨d, by simpa using hd, rfl, hs⟩

/-- What a row after the staging points at: the new version, in the switched row, or what a
row with its id pointed at before. -/
theorem points_stageVersion {r : Subgraph} {x : String}
    (hr : r ∈ (stageVersion name id nodeId mode t sid vid m).subgraph) (hx : r.Points x) :
    (x = vid ∧ r.id = (subgraphInfo name t sid m).2.1) ∨
      ∃ r₀ ∈ m.subgraph, r₀.id = r.id ∧ r₀.Points x := by
  rw [stageVersion_subgraph] at hr
  obtain ⟨r₀, hr₀, rfl⟩ := List.mem_map.mp hr
  have hpt : (x = vid ∧ r₀.id = (subgraphInfo name t sid m).2.1) ∨ r₀.Points x := by
    unfold updateSubgraph at hx
    split at hx
    · exact (points_switchVersion hx).imp (fun h => ⟨h, ‹_›⟩) fun h => h
    · exact .inr hx
  rcases hpt with ⟨rfl, hid⟩ | hpt
  · exact .inl ⟨rfl, by simp [hid]⟩
  · rcases mem_subgraphInfo hr₀ with hm | hno
    · exact .inr ⟨r₀, hm, by simp, hpt⟩
    · exact absurd hpt (hno x)

theorem versionsWf_stageVersion (hw : VersionsWf m)
    (hfresh : sid ∉ m.subgraph.map (·.id) ∧ vid ∉ m.subgraphVersion.map (·.id)) :
    VersionsWf (stageVersion name id nodeId mode t sid vid m) where
  subgraph_key := by
    rw [stageVersion_subgraph, map_map_updateSubgraph (·.id) fun _ => id_switchVersion]
    exact subgraphInfo_key hw.subgraph_key hfresh.1
  name_key := by
    rw [stageVersion_subgraph, map_map_updateSubgraph (·.name) fun _ => name_switchVersion]
    exact subgraphInfo_name_key hw.name_key
  version_key := by
    rw [stageVersion_subgraphVersion, List.map_append]
    exact hw.version_key.append (List.nodup_singleton _) (List.disjoint_singleton.mpr hfresh.2)
  own_version r hr x hx := by
    rcases points_stageVersion hr hx with ⟨rfl, hid⟩ | ⟨r₀, hr₀, hid, hpt⟩
    · rw [stageVersion_subgraphVersion]
      exact ⟨_, List.mem_append_right _ (List.mem_singleton_self _), rfl, hid.symm⟩
    · obtain ⟨v, hv, hvid, hsub⟩ := hw.own_version r₀ hr₀ x hpt
      exact ⟨v, by simp [hv], hvid, hsub.trans hid⟩
  version_subgraph v hv := by
    rw [stageVersion_subgraph, map_map_updateSubgraph (·.id) fun _ => id_switchVersion]
    rw [stageVersion_subgraphVersion, List.mem_append, List.mem_singleton] at hv
    rcases hv with hv | rfl
    · obtain ⟨r, hr, hid⟩ := List.mem_map.mp (hw.version_subgraph v hv)
      exact List.mem_map.mpr ⟨r, subset_subgraphInfo hr, hid⟩
    · obtain ⟨s, hs, hid, -⟩ := subgraphInfo_row name t sid m
      exact List.mem_map.mpr ⟨s, hs, hid⟩
  pending_current r hr x hx := by
    rw [stageVersion_subgraph] at hr
    obtain ⟨r₀, hr₀, rfl⟩ := List.mem_map.mp hr
    by_cases hid : r₀.id = (subgraphInfo name t sid m).2.1
    · simp only [updateSubgraph, if_pos hid] at hx ⊢
      obtain ⟨-, hsyn, rfl, hcur⟩ := pendingVersion_switchVersion hx
      obtain ⟨s, hs, hsid, -, hscur⟩ := subgraphInfo_row name t sid m
      have : r₀ = s := List.inj_on_of_nodup_map (subgraphInfo_key hw.subgraph_key hfresh.1)
        hr₀ hs (hid.trans hsid.symm)
      subst this
      obtain ⟨c, hc, v, hv, rfl, hsync⟩ := syncedVersion_of_currentExistsAndSynced hsyn
      simp only [subgraphInfo_subgraphVersion, subgraphInfo_subgraphDeployment] at hv hsync
      refine ⟨v.id, hcur.trans (hscur.trans hc), ?_, syncedVersion_stageVersion ⟨v, hv, rfl, hsync⟩⟩
      rintro rfl
      exact hfresh.2 (List.mem_map_of_mem _ hv)
    · simp only [updateSubgraph, if_neg hid] at hx ⊢
      rcases mem_subgraphInfo hr₀ with hm | hno
      · obtain ⟨c, hc, hne, hsync⟩ := hw.pending_current r₀ hm x hx
        exact ⟨c, hc, hne, syncedVersion_stageVersion hsync⟩
      · exact absurd (.inr hx) (hno x)

/-- The staged version puts its deployment in use. -/
theorem inUse_stageVersion : (stageVersion name id nodeId mode t sid vid m).InUse id := by
  obtain ⟨s, hs, hsid, -⟩ := subgraphInfo_row name t sid m
  refine ⟨updateSubgraph (subgraphInfo name t sid m).2.1
      (switchVersion mode (currentExistsAndSynced (subgraphInfo name t sid m).1
        (subgraphInfo name t sid m).2.2) vid) s, ?_,
      { id := vid, subgraph := (subgraphInfo name t sid m).2.1, deployment := id, createdAt := t },
      ?_, ?_, rfl⟩
  · rw [stageVersion_subgraph]
    exact List.mem_map_of_mem _ hs
  · rw [stageVersion_subgraphVersion]
    exact List.mem_append_right _ (List.mem_singleton_self _)
  · simp only [updateSubgraph, if_pos hsid]
    exact points_switchVersion_self

/-- The assignment rows after the staging: those before and the new one, if any. -/
theorem assigned_stageVersion :
    (stageVersion name id nodeId mode t sid vid m).assigned =
      m.assigned ++ if newAssignment m id then [id] else [] := by
  simp only [Metadata.assigned, stageVersion_assignment]
  split <;> simp

theorem not_mem_assigned_of_newAssignment (h : newAssignment m id = true) : id ∉ m.assigned := by
  simpa [newAssignment, Metadata.assigned] using h

theorem mem_assigned_of_newAssignment (h : newAssignment m id = false) : id ∈ m.assigned := by
  simpa [newAssignment, Metadata.assigned] using h

theorem stageVersion_assigned_key (hkey : m.assigned.Nodup) :
    (stageVersion name id nodeId mode t sid vid m).assigned.Nodup := by
  rw [assigned_stageVersion]
  split
  · exact hkey.append (List.nodup_singleton _)
      (List.disjoint_singleton.mpr (not_mem_assigned_of_newAssignment ‹_›))
  · simpa using hkey

theorem inv_createSubgraphVersion (h : Inv m)
    (hfresh : sid ∉ m.subgraph.map (·.id) ∧ vid ∉ m.subgraphVersion.map (·.id)) :
    Inv (createSubgraphVersion name id nodeId mode t sid vid m).1 := by
  refine ⟨versionsWf_removeUnusedAssignments (versionsWf_stageVersion h.toVersionsWf hfresh),
    assignmentsWf_removeUnusedAssignments (stageVersion_assigned_key h.assigned_key)
      fun d hd => ?_⟩
  have hp : ∀ s' ∈ (stageVersion name id nodeId mode t sid vid m).subgraph,
      ∀ v ∈ m.subgraphVersion, s'.Points v.id → ∃ s ∈ m.subgraph, s.Points v.id := by
    intro s' hs' v hv hpt
    rcases points_stageVersion hs' hpt with ⟨hvid, -⟩ | ⟨r₀, hr₀, -, hpt₀⟩
    · exact absurd (hvid ▸ List.mem_map_of_mem _ hv) hfresh.2
    · exact ⟨r₀, hr₀, hpt₀⟩
  rw [assigned_stageVersion, List.mem_append]
  rcases inUse_of_inUse hp hd with hu | ⟨v, hv, hvm, rfl⟩
  · exact .inl ((h.assigned_iff _).mpr hu)
  · rw [stageVersion_subgraphVersion, List.mem_append, List.mem_singleton] at hv
    rcases hv with hv | rfl
    · exact absurd hv hvm
    · cases hn : newAssignment m id
      · exact .inl (mem_assigned_of_newAssignment hn)
      · simp [hn]

end Steps

/-- Every lifecycle operation keeps the invariant. -/
theorem Inv.run {m : Metadata} (h : Inv m) (op : Operation) (hf : op.Fresh m) :
    Inv (op.run m).1 := by
  cases op with
  | createSubgraphVersion name id nodeId mode t sid vid => exact inv_createSubgraphVersion h hf
  | deploymentSynced id => exact inv_deploymentSynced h id
  | removeSubgraph name => exact inv_removeSubgraph h name

theorem inv_init (deployments : List SubgraphDeployment) (key : (deployments.map (·.id)).Nodup) :
    Inv ⟨[], [], deployments, [], key⟩ where
  subgraph_key := List.nodup_nil
  name_key := List.nodup_nil
  version_key := List.nodup_nil
  own_version := by simp
  version_subgraph := by simp
  pending_current := by simp
  assigned_key := List.nodup_nil
  assigned_iff := by simp [Metadata.assigned, Metadata.InUse]

/-- The invariant holds of every reachable state. -/
theorem Reachable.inv {m : Metadata} (h : Reachable m) : Inv m := by
  induction h with
  | init deployments key => exact inv_init deployments key
  | step op _ hf ih => exact ih.run op hf

/-- The deployment row of the sample runs, unsynced. -/
def deploymentD1 : SubgraphDeployment := ⟨"D1", false, none, none, none, 0, 0, 0⟩

/-- Empty subgraph, version and assignment tables beside the deployment `D1`. -/
def initD1 : Metadata := ⟨[], [], [deploymentD1], [], by decide⟩

/-- `D1` deployed under the new subgraph `g` in `Instant` mode. -/
def deployedD1 : Metadata :=
  (createSubgraphVersion "g" "D1" "n" .instant 0 "s1" "v1" initD1).1

theorem reachable_deployedD1 : Reachable deployedD1 :=
  .step (.createSubgraphVersion "g" "D1" "n" .instant 0 "s1" "v1") (.init _ _) (by decide)

/-- Over every run of `create_subgraph_version`, `deployment_synced` and `remove_subgraph`
from empty subgraph, version and assignment tables, the deployments with an assignment row
are exactly the deployments of the versions some subgraph has as current or pending, and no
deployment has two assignment rows. -/
theorem assignments_match_versions_in_use {m : Metadata} (h : Reachable m) :
    (∀ d, (∃ a ∈ m.subgraphDeploymentAssignment, a.id = d) ↔
      ∃ s ∈ m.subgraph, ∃ v ∈ m.subgraphVersion,
        (s.currentVersion = some v.id ∨ s.pendingVersion = some v.id) ∧ v.deployment = d) ∧
    (m.subgraphDeploymentAssignment.map (·.id)).Nodup := by
  have hi := h.inv
  refine ⟨fun d => ?_, hi.assigned_key⟩
  have := hi.assigned_iff d
  simpa [Metadata.assigned, Metadata.InUse, Subgraph.Points] using this

theorem assignments_match_versions_in_use_deployedD1 :
    Reachable deployedD1 ∧
    (∀ d, (∃ a ∈ deployedD1.subgraphDeploymentAssignment, a.id = d) ↔
      ∃ s ∈ deployedD1.subgraph, ∃ v ∈ deployedD1.subgraphVersion,
        (s.currentVersion = some v.id ∨ s.pendingVersion = some v.id) ∧ v.deployment = d) ∧
    (deployedD1.subgraphDeploymentAssignment.map (·.id)).Nodup :=
  ⟨reachable_deployedD1, assignments_match_versions_in_use reachable_deployedD1⟩

end GraphNode.Store
