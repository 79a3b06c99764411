import GraphNode.Store.System
/-!
# Looking a deployment up by subgraph name

`deployment_state_from_name` reads a name's deployment with one query: `subgraph` left joined
with its current version and that version's deployment. In every state the whole store
reaches, names, version ids and deployment ids are keys, so the query returns exactly the row
of the subgraph of that name (`stateRows_eq_of_mem`), and its outcome follows the tables
(`deploymentStateFromName_resolves`): each error names what is missing, a valid current
deployment is read as `deployment_state_from_id` reads it, and the error of a name shared by two
subgraphs never comes.
-/

namespace GraphNode.Store

section Joins

variable {α β : Type}

/-- A list of at most one element that holds `x` is `[x]`. -/
theorem eq_singleton_of_length_le_one {l : List α} {x : α} (hl : l.length ≤ 1) (hx : x ∈ l) :
    l = [x] := by
  match l, hl, hx with
  | [_], _, hx => rw [List.mem_singleton.mp hx]
  | _ :: _ :: _, hl, _ => simp at hl

/-- On a list keyed by `f`, a predicate that holds exactly on `a`'s key finds `a`. -/
theorem find?_eq_some_of_key {f : α → β} {p : α → Bool} {l : List α} {a : α}
    (hkey : (l.map f).Nodup) (ha : a ∈ l) (hp : ∀ x ∈ l, p x = true ↔ f x = f a) :
    l.find? p = some a := by
  obtain ⟨b, hb⟩ := Option.isSome_iff_exists.mp (List.find?_isSome.mpr ⟨a, ha, (hp a ha).mpr rfl⟩)
  have hbl := List.mem_of_find?_eq_some hb
  rw [hb, List.inj_on_of_nodup_map hkey hbl ha ((hp b hbl).mp (List.find?_some hb))]

/-- A left row meets the first right row it matches, or `NULL` when it matches none. -/
theorem mem_leftOuterJoin_find? {p : α → β → Bool} {l : List α} (r : List β) {a : α}
    (ha : a ∈ l) : (a, r.find? (p a)) ∈ leftOuterJoin p l r := by
  refine List.mem_flatMap.mpr ⟨a, ha, ?_⟩
  cases hf : r.find? (p a) with
  | none =>
    rw [List.filter_eq_nil_iff.mpr fun b hb => by simpa using List.find?_eq_none.mp hf b hb]
    exact List.mem_singleton_self _
  | some b =>
    have hb : b ∈ r.filter (p a) :=
      List.mem_filter.mpr ⟨List.mem_of_find?_eq_some hf, List.find?_some hf⟩
    split
    · rename_i hnil
      rw [hnil] at hb
      cases hb
    · exact List.mem_map.mpr ⟨b, hb, rfl⟩

theorem toOption_bind {ε : Type} (x : Except ε α) (f : α → Except ε β) :
    (x >>= f).toOption = x.toOption.bind fun a => (f a).toOption := by
  cases x <;> rfl

end Joins

section Resolve

variable {m : Metadata} {name : String}

/-- What `convert_to_u32` accepts does not depend on the subgraph its message names. -/
theorem toOption_convertToU32 (number : Option Int) (field subgraph : String) :
    (convertToU32 number field subgraph).toOption =
      number.bind fun n => if 0 ≤ n then some (UInt32.ofNat n.toNat) else none := by
  cases number with
  | none => rfl
  | some n => by_cases h : 0 ≤ n <;> simp [convertToU32, h, Except.toOption]

/-- What `latest_as_block_number` accepts does not depend on the subgraph its message names. -/
theorem toOption_latestAsBlockNumber (latest : Option Int) (subgraph : String) :
    (latestAsBlockNumber latest subgraph).toOption =
      latest.bind fun n => if i32Min ≤ n ∧ n ≤ i32Max then some n else none := by
  cases latest with
  | none => rfl
  | some n =>
    by_cases h : i32Min ≤ n ∧ n ≤ i32Max <;> simp [latestAsBlockNumber, h, Except.toOption]

theorem stateRows_eq_nil (h : ∀ s ∈ m.subgraph, s.name ≠ name) : stateRows m name = [] := by
  rw [stateRows, List.filter_eq_nil_iff.mpr fun s hs => by simpa using h s hs]
  rfl

/-- With names, version ids and deployment ids keys, the query of
`deployment_state_from_name` returns the one row of the subgraph of that name: its current
version `v`, and the deployment `d` of that version, where they exist. -/
theorem stateRows_eq_of_mem (hw : VersionsWf m) {s : Subgraph} (hs : s ∈ m.subgraph)
    (hname : s.name = name) {v : Option SubgraphVersion}
    (hv : m.subgraphVersion.find? (fun v => s.currentVersion == some v.id) = v)
    {d : Option SubgraphDeployment}
    (hd : m.subgraphDeployment.find? (fun d => v.any (·.deployment == d.id)) = d) :
    stateRows m name = [(s.id, v.map (·.id), d.map (·.id), d.map (·.reorgCount),
      d.map (·.maxReorgDepth), d.bind (·.latestEthereumBlockNumber))] := by
  subst hv hd
  exact eq_singleton_of_length_le_one (length_stateRows_le_one hw name)
    (List.mem_map.mpr ⟨_, mem_leftOuterJoin_find? _ (mem_leftOuterJoin_find? _
      (List.mem_filter.mpr ⟨hs, by simpa using hname⟩)), rfl⟩)

/-- The deployment of the current version `v` is its row, found by id. -/
theorem find?_deployment_of_mem {v : SubgraphVersion} {d : SubgraphDeployment}
    (hd : d ∈ m.subgraphDeployment) (hdid : d.id = v.deployment) :
    m.subgraphDeployment.find? (fun d => (some v).any (·.deployment == d.id)) = some d :=
  find?_eq_some_of_key m.deployment_key hd fun x _ => by
    simp only [Option.any_some, beq_iff_eq, hdid]
    exact eq_comm

end Resolve

/-- What `deployment_state_from_name valid` is for, in the tables `m`: the state of the
deployment of the current version of the subgraph called `name`, as `deployment_state_from_id`
reads it, with an error naming whatever is missing on the way, and never the error of a name
shared by two subgraphs. -/
structure NameResolution (valid : String → Bool) (m : Metadata) (name : String) : Prop where
  not_found : (∀ s ∈ m.subgraph, s.name ≠ name) →
    deploymentStateFromName valid m name =
      .error (.queryExecutionError s!"Subgraph `{name}` not found")
  no_current : ∀ s ∈ m.subgraph, s.name = name → s.currentVersion = none →
    deploymentStateFromName valid m name =
      .error (.queryExecutionError s!"The subgraph `{name}` has no current version. The subgraph may have been created but not deployed yet. Make sure to run `graph deploy` to deploy the subgraph and have it start indexing.")
  current : ∀ s ∈ m.subgraph, s.name = name → ∀ c, s.currentVersion = some c →
    ∃ v ∈ m.subgraphVersion, v.id = c ∧
      ((∀ d ∈ m.subgraphDeployment, d.id ≠ v.deployment) →
        deploymentStateFromName valid m name = .error (.constraintViolation
          s!"The version `{c}` of subgraph `{name}` is missing a deployment")) ∧
      ((∃ d ∈ m.subgraphDeployment, d.id = v.deployment) → valid v.deployment = false →
        deploymentStateFromName valid m name = .error (.constraintViolation
          s!"Illegal deployment id `{v.deployment}` for current version of `{name}`")) ∧
      (valid v.deployment = true → (deploymentStateFromName valid m name).toOption =
        (deploymentStateFromId m v.deployment).toOption)
  never_multiple : deploymentStateFromName valid m name ≠
    .error (.constraintViolation s!"Multiple subgraphs with the name `{name}` exist")

/-- In every state the whole store reaches, `deployment_state_from_name` resolves every name
through the tables: with no subgraph of that name it reports the name not found; for the
subgraph of that name without a current version it reports that; otherwise the current version
exists, and when its deployment row is missing the lookup reports the version, when the
deployment id is invalid it reports the id, and else it succeeds exactly when
`deployment_state_from_id` of that deployment does, with the same state. It never reports two
subgraphs of one name. -/
theorem deploymentStateFromName_resolves {m : Metadata} (h : StoreReachable m)
    (valid : String → Bool) (name : String) : NameResolution valid m name := by
  have hw := h.inv.toVersionsWf
  refine ⟨fun hnone => by rw [deploymentStateFromName, stateRows_eq_nil hnone],
    fun s hs hname hcur => ?_, fun s hs hname c hc => ?_,
    deploymentStateFromName_ne_multiple valid name (length_stateRows_le_one hw name)⟩
  · have hv : m.subgraphVersion.find? (fun v => s.currentVersion == some v.id) = none :=
      List.find?_eq_none.mpr fun v _ => by simp [hcur]
    rw [deploymentStateFromName, stateRows_eq_of_mem hw hs hname hv rfl]
    rfl
  obtain ⟨v, hv, hvid, -⟩ := hw.own_version s hs c (.inl hc)
  have hvf : m.subgraphVersion.find? (fun v => s.currentVersion == some v.id) = some v :=
    find?_eq_some_of_key hw.version_key hv fun x _ => by
      simp only [hc, beq_iff_eq, Option.some.injEq, hvid]
      exact eq_comm
  have hmissing : (∀ d ∈ m.subgraphDeployment, d.id ≠ v.deployment) →
      deploymentStateFromName valid m name = .error (.constraintViolation
        s!"The version `{c}` of subgraph `{name}` is missing a deployment") := fun hmiss => by
    have hdf : m.subgraphDeployment.find? (fun d => (some v).any (·.deployment == d.id)) =
        none := List.find?_eq_none.mpr fun d hd => by
      simpa only [Option.any_some, beq_iff_eq] using (hmiss d hd).symm
    rw [deploymentStateFromName, stateRows_eq_of_mem hw hs hname hvf hdf, ← hvid]
    rfl
  refine ⟨v, hv, hvid, hmissing, fun ⟨d, hd, hdid⟩ hinv => ?_, fun hval => ?_⟩
  · rw [deploymentStateFromName, stateRows_eq_of_mem hw hs hname hvf
      (find?_deployment_of_mem hd hdid)]
    simp only [Option.map_some', Option.some_bind, deploymentStateOfRow, checkedDeploymentId,
      hdid, hinv]
    rfl
  · by_cases hex : ∃ d ∈ m.subgraphDeployment, d.id = v.deployment
    · obtain ⟨d, hd, hdid⟩ := hex
      rw [deploymentStateFromName, stateRows_eq_of_mem hw hs hname hvf
        (find?_deployment_of_mem hd hdid), deploymentStateFromId, ← hdid, find?_of_mem hd]
      simp only [Option.map_some', Option.some_bind, deploymentStateOfRow, checkedDeploymentId,
        hdid, hval, if_true, toOption_bind, toOption_convertToU32, toOption_latestAsBlockNumber]
      rfl
    · push_neg at hex
      have hdf : m.subgraphDeployment.find? (·.id == v.deployment) = none :=
        List.find?_eq_none.mpr fun d hd => by simpa using hex d hd
      rw [hmissing hex, deploymentStateFromId, hdf]
      rfl

theorem deploymentStateFromName_resolves_ingestedD1 :
    StoreReachable ingestedD1 ∧ NameResolution (fun _ => true) ingestedD1 "g" :=
  ⟨storeReachable_ingestedD1, deploymentStateFromName_resolves storeReachable_ingestedD1 _ _⟩

end GraphNode.Store
