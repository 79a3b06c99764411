import GraphNode.Store.Metadata.Synced
/-!
# Reading a deployment's state

`deployment_state_from_name` and `deployment_state_from_id` of `metadata.rs`, with the checks
`convert_to_u32` and `latest_as_block_number` they share. The `integer` columns are `i32` and
`latest_ethereum_block_number` is a `numeric` holding an integer; `BlockNumber` is `i32`.

In every reachable state a name selects at most one row of the query of
`deployment_state_from_name`, so it never reports two subgraphs of one name
(`subgraph_tables_wf`).
-/

namespace GraphNode.Store

/-- `DeploymentState`, as the store reports it to the runtime. -/
structure DeploymentState where
  id : String
  reorgCount : UInt32
  maxReorgDepth : UInt32
  latestEthereumBlockNumber : Int
  deriving DecidableEq, Repr

/-- `i32::MAX`. -/
def i32Max : Int := 2147483647

/-- `i32::MIN`. -/
def i32Min : Int := -2147483648

/-- `convert_to_u32`: an `i32` column read as `u32`. -/
def convertToU32 (number : Option Int) (field subgraph : String) : Except StoreError UInt32 :=
  match number with
  | none => .error (.constraintViolation s!"missing {field} for subgraph `{subgraph}`")
  | some number =>
    if 0 ≤ number then .ok (UInt32.ofNat number.toNat)
    else .error (.constraintViolation
      s!"invalid value {number} for {field} in subgraph {subgraph}")

/-- The `Debug` rendering of an integral `BigDecimal`. -/
def bigDecimalDebug (n : Int) : String := s!"BigDecimal(\"{n}\")"

/-- `latest_as_block_number`. -/
def latestAsBlockNumber (latest : Option Int) (subgraph : String) : Except StoreError Int :=
  match latest with
  | none => .error (.queryExecutionError s!"Subgraph `{subgraph}` has not started syncing yet. Wait for it to ingest a few blocks before querying it")
  | some latest =>
    if i32Min ≤ latest ∧ latest ≤ i32Max then .ok latest
    else
      let shown := bigDecimalDebug latest
      .error (.constraintViolation s!"Subgraph `{subgraph}` has an invalid latest_ethereum_block_number `{shown}` that can not be represented as an i32")

/-- `deployment_state_from_id`. -/
def deploymentStateFromId (m : Metadata) (id : String) : Except StoreError DeploymentState :=
  match m.subgraphDeployment.find? (·.id == id) with
  | none => .error (.queryExecutionError s!"No data found for subgraph {id}")
  | some d => do
    let reorgCount ← convertToU32 (some d.reorgCount) "reorg_count" id
    let maxReorgDepth ← convertToU32 (some d.maxReorgDepth) "max_reorg_depth" id
    let latestEthereumBlockNumber ← latestAsBlockNumber d.latestEthereumBlockNumber id
    pure ⟨id, reorgCount, maxReorgDepth, latestEthereumBlockNumber⟩

/-- `l LEFT OUTER JOIN r ON p`: each left row with every right row it matches, or with
`NULL` when it matches none. -/
def leftOuterJoin {α β : Type} (p : α → β → Bool) (l : List α) (r : List β) :
    List (α × Option β) :=
  l.flatMap fun a =>
    match r.filter (p a) with
    | [] => [(a, none)]
    | bs => bs.map fun b => (a, some b)

/-- A row of the query of `deployment_state_from_name`. -/
abbrev StateRow := String × Option String × Option String × Option Int × Option Int × Option Int

/-- The query of `deployment_state_from_name`: `subgraph` left joined with its current version
and that version's deployment. The filter on the name, a column of `subgraph`, is applied
before the joins, which selects the same rows. -/
def stateRows (m : Metadata) (name : String) : List StateRow :=
  (leftOuterJoin (fun (sv : Subgraph × Option SubgraphVersion) d =>
      sv.2.any (·.deployment == d.id))
    (leftOuterJoin (fun s v => s.currentVersion == some v.id)
      (m.subgraph.filter (·.name == name)) m.subgraphVersion)
    m.subgraphDeployment).map fun ((s, v), d) =>
      (s.id, v.map (·.id), d.map (·.id), d.map (·.reorgCount), d.map (·.maxReorgDepth),
        d.bind (·.latestEthereumBlockNumber))

/-- `SubgraphDeploymentId::new` on the deployment id of the current version; `valid` is its
check. -/
def checkedDeploymentId (valid : String → Bool) (did name : String) :
    Except StoreError String :=
  if valid did then .ok did
  else .error (.constraintViolation
    s!"Illegal deployment id `{did}` for current version of `{name}`")

/-- The state `deployment_state_from_name` reads from the one row its query returned. -/
def deploymentStateOfRow (valid : String → Bool) (name : String) :
    StateRow → Except StoreError DeploymentState
  | (_, none, _, _, _, _) => .error (.queryExecutionError s!"The subgraph `{name}` has no current version. The subgraph may have been created but not deployed yet. Make sure to run `graph deploy` to deploy the subgraph and have it start indexing.")
  | (_, some vid, none, _, _, _) => .error (.constraintViolation
      s!"The version `{vid}` of subgraph `{name}` is missing a deployment")
  | (_, some _, some did, reorgCount, maxReorgDepth, latestEthereumBlockNumber) => do
    let id ← checkedDeploymentId valid did name
    let reorgCount ← convertToU32 reorgCount "reorg_count" name
    let maxReorgDepth ← convertToU32 maxReorgDepth "max_reorg_depth" name
    let latestEthereumBlockNumber ← latestAsBlockNumber latestEthereumBlockNumber name
    pure ⟨id, reorgCount, maxReorgDepth, latestEthereumBlockNumber⟩

/-- `deployment_state_from_name`. -/
def deploymentStateFromName (valid : String → Bool) (m : Metadata) (name : String) :
    Except StoreError DeploymentState :=
  match stateRows m name with
  | [] => .error (.queryExecutionError s!"Subgraph `{name}` not found")
  | [row] => deploymentStateOfRow valid name row
  | _ => .error (.constraintViolation s!"Multiple subgraphs with the name `{name}` exist")

section Lemmas

variable {α β : Type}

theorem length_filter_le_one_of_key {f : α → β} {p : α → Bool} {l : List α}
    (hkey : (l.map f).Nodup) (hp : ∀ a ∈ l, ∀ b ∈ l, p a → p b → f a = f b) :
    (l.filter p).length ≤ 1 := by
  match h : l.filter p with
  | [] | [_] => simp
  | a :: b :: _ =>
    have hn : ((l.filter p).map f).Nodup := hkey.sublist ((List.filter_sublist l).map f)
    have ha : a ∈ l.filter p := h ▸ List.mem_cons_self _ _
    have hb : b ∈ l.filter p := h ▸ List.mem_cons_of_mem _ (List.mem_cons_self _ _)
    rw [List.mem_filter] at ha hb
    rw [h, List.map_cons, List.map_cons, List.nodup_cons] at hn
    exact absurd (hp a ha.1 b hb.1 ha.2 hb.2 ▸ List.mem_cons_self _ _) hn.1

theorem length_leftOuterJoin_le_one {p : α → β → Bool} {l : List α} {r : List β}
    (hl : l.length ≤ 1) (hr : ∀ a ∈ l, (r.filter (p a)).length ≤ 1) :
    (leftOuterJoin p l r).length ≤ 1 := by
  match l, hl with
  | [], _ => simp [leftOuterJoin]
  | [a], _ =>
    have := hr a (List.mem_singleton_self a)
    simp only [leftOuterJoin, List.flatMap_cons, List.flatMap_nil, List.append_nil]
    split <;> simp_all

/-- A name selects at most one row of the query of `deployment_state_from_name` when names,
version ids and deployment ids are keys. -/
theorem length_stateRows_le_one {m : Metadata} (hw : VersionsWf m) (name : String) :
    (stateRows m name).length ≤ 1 := by
  rw [stateRows, List.length_map]
  refine length_leftOuterJoin_le_one (length_leftOuterJoin_le_one ?_ ?_) ?_
  · exact length_filter_le_one_of_key hw.name_key fun a ha b hb _ _ => by
      simp_all [List.mem_filter]
  · intro s _
    refine length_filter_le_one_of_key hw.version_key fun a _ b _ ha hb => ?_
    simp only [beq_iff_eq] at ha hb
    exact Option.some.inj (ha.symm.trans hb)
  · rintro ⟨s, v⟩ _
    refine length_filter_le_one_of_key m.deployment_key fun a _ b _ ha hb => ?_
    cases v <;> simp_all

theorem bind_ne_error {ε α γ : Type} {x : Except ε α} {f : α → Except ε γ} {e : ε}
    (hx : x ≠ .error e) (hf : ∀ a, f a ≠ .error e) : x >>= f ≠ .error e := by
  cases x with
  | error e' => exact fun h => hx (congrArg Except.error (Except.error.inj h))
  | ok a => exact hf a

theorem convertToU32_ne_multiple (number : Option Int) (field subgraph name : String) :
    convertToU32 number field subgraph ≠
      .error (.constraintViolation s!"Multiple subgraphs with the name `{name}` exist") := by
  unfold convertToU32
  split
  · intro h; cases h
  · split <;> intro h <;> cases h

theorem latestAsBlockNumber_ne_multiple (latest : Option Int) (subgraph name : String) :
    latestAsBlockNumber latest subgraph ≠
      .error (.constraintViolation s!"Multiple subgraphs with the name `{name}` exist") := by
  unfold latestAsBlockNumber
  split
  · nofun
  · split <;> intro h <;> cases h

/-- No error read from a single row is the error for two subgraphs of one name. -/
theorem deploymentStateOfRow_ne_multiple (valid : String → Bool) (name : String)
    (row : StateRow) :
    deploymentStateOfRow valid name row ≠
      .error (.constraintViolation s!"Multiple subgraphs with the name `{name}` exist") := by
  rcases row with ⟨_, _ | _, _ | did, rc, mrd, latest⟩
  · nofun
  · nofun
  · intro h; cases h
  · rw [deploymentStateOfRow]
    refine bind_ne_error ?_ fun _ => bind_ne_error (convertToU32_ne_multiple _ _ _ _) fun _ =>
        bind_ne_error (convertToU32_ne_multiple _ _ _ _) fun _ =>
          bind_ne_error (latestAsBlockNumber_ne_multiple _ _ _) fun _ h => by cases h
    unfold checkedDeploymentId
    split <;> intro h <;> cases h

/-- With at most one row, `deployment_state_from_name` reports no two subgraphs of one
name. -/
theorem deploymentStateFromName_ne_multiple {m : Metadata} (valid : String → Bool)
    (name : String) (h : (stateRows m name).length ≤ 1) :
    deploymentStateFromName valid m name ≠
      .error (.constraintViolation s!"Multiple subgraphs with the name `{name}` exist") := by
  unfold deploymentStateFromName
  match stateRows m name, h with
  | [], _ => nofun
  | [row], _ => exact deploymentStateOfRow_ne_multiple valid name row
  | _ :: _ :: _, h => simp at h

/-- `deployment_state_from_id` on a row whose counters are naturals and whose block number
fits an `i32`. -/
theorem deploymentStateFromId_of_find? {m : Metadata} {id : String} {d : SubgraphDeployment}
    (hd : m.subgraphDeployment.find? (·.id == id) = some d) {rc mrd n : Nat}
    (hrc : d.reorgCount = rc) (hmrd : d.maxReorgDepth = mrd)
    (hn : d.latestEthereumBlockNumber = some (n : Int)) (hle : (n : Int) ≤ i32Max) :
    deploymentStateFromId m id = .ok ⟨id, .ofNat rc, .ofNat mrd, n⟩ := by
  have hmin : i32Min ≤ n := by unfold i32Min; omega
  simp only [deploymentStateFromId, hd, convertToU32, latestAsBlockNumber, hrc, hmrd, hn,
    Int.toNat_ofNat, if_pos (Int.ofNat_nonneg _), if_pos (And.intro hmin hle)]
  rfl

end Lemmas

/-- In every reachable state, subgraph names are unique, so `deployment_state_from_name`
never reports two subgraphs of one name; every current or pending version that is set is a
version of that subgraph, and every version's subgraph exists; and a pending version comes
with a different current version whose deployment is synced. -/
theorem subgraph_tables_wf {m : Metadata} (h : Reachable m) :
    (m.subgraph.map (·.name)).Nodup ∧
    (∀ (valid : String → Bool) (name : String), deploymentStateFromName valid m name ≠
      .error (.constraintViolation s!"Multiple subgraphs with the name `{name}` exist")) ∧
    (∀ s ∈ m.subgraph, ∀ x, (s.currentVersion = some x ∨ s.pendingVersion = some x) →
      ∃ v ∈ m.subgraphVersion, v.id = x ∧ v.subgraph = s.id) ∧
    (∀ v ∈ m.subgraphVersion, ∃ s ∈ m.subgraph, s.id = v.subgraph) ∧
    (∀ s ∈ m.subgraph, ∀ x, s.pendingVersion = some x →
      ∃ c, s.currentVersion = some c ∧ c ≠ x ∧
        ∃ v ∈ m.subgraphVersion, v.id = c ∧
          ∃ d ∈ m.subgraphDeployment, d.id = v.deployment ∧ d.synced = true) := by
  have hw := h.inv.toVersionsWf
  refine ⟨hw.name_key, fun valid name => deploymentStateFromName_ne_multiple valid name
    (length_stateRows_le_one hw name), hw.own_version, fun v hv => ?_, hw.pending_current⟩
  simpa using hw.version_subgraph v hv

/-- `D1` deployed under a second name `h` after the run to `redeploySynced`: two subgraphs, one
of them with a pending version on a synced deployment. -/
def twoNamesPending : Metadata :=
  (createSubgraphVersion "h" "D1" "n" .instant 0 "s3" "v3" redeploySynced).1

theorem reachable_twoNamesPending : Reachable twoNamesPending :=
  .step (.createSubgraphVersion "h" "D1" "n" .instant 0 "s3" "v3") reachable_redeploySynced
    (by decide)

theorem subgraph_tables_wf_twoNamesPending :
    twoNamesPending.subgraph.map (·.name) = ["g", "h"] ∧
    (∃ s ∈ twoNamesPending.subgraph, s.pendingVersion.isSome) ∧
    Reachable twoNamesPending ∧
    (twoNamesPending.subgraph.map (·.name)).Nodup ∧
    (∀ (valid : String → Bool) (name : String), deploymentStateFromName valid twoNamesPending name ≠
      .error (.constraintViolation s!"Multiple subgraphs with the name `{name}` exist")) ∧
    (∀ s ∈ twoNamesPending.subgraph, ∀ x, (s.currentVersion = some x ∨ s.pendingVersion = some x) →
      ∃ v ∈ twoNamesPending.subgraphVersion, v.id = x ∧ v.subgraph = s.id) ∧
    (∀ v ∈ twoNamesPending.subgraphVersion, ∃ s ∈ twoNamesPending.subgraph, s.id = v.subgraph) ∧
    (∀ s ∈ twoNamesPending.subgraph, ∀ x, s.pendingVersion = some x →
      ∃ c, s.currentVersion = some c ∧ c ≠ x ∧
        ∃ v ∈ twoNamesPending.subgraphVersion, v.id = c ∧
          ∃ d ∈ twoNamesPending.subgraphDeployment, d.id = v.deployment ∧ d.synced = true) :=
  ⟨by decide, by decide, reachable_twoNamesPending, subgraph_tables_wf reachable_twoNamesPending⟩

end GraphNode.Store
