import GraphNode.Store.Metadata.Invariant
/-!
# The entity count of a deployment

`Connection::update_entity_count` of `entities.rs`: after a block's writes the deployment's
`entity_count` is moved by the block's net count of new entities, and a `NULL` or `-1`
count is replaced by the deployment's count query in the same statement. A block with a net
count of `0` returns before the statement.

An exact count stays exact over every run of blocks; a `NULL` or `-1` count stays as it is
until the first block that changes the number of open rows, and is exact from then on
(`entity_count_after_blocks`). A `-1` is therefore not replaced at a block whose net count is
`0` (`sentinel_kept_at_zero_delta`).
-/

namespace GraphNode.Store

/-- SQL `nullif(x, y)`. -/
def nullif (x : Option Int) (y : Int) : Option Int := if x = some y then none else x

/-- SQL `coalesce(x, y)` with a `y` that is never `NULL`. -/
def coalesce (x : Option Int) (y : Int) : Int := x.getD y

/-- The value `coalesce((nullif(entity_count, -1)) + count, (count_query))`, with `countQuery`
the value of the count query. -/
def newEntityCount (entityCount : Option Int) (count countQuery : Int) : Int :=
  coalesce ((nullif entityCount (-1)).map (· + count)) countQuery

/-- `update_entity_count(count)` on the deployment `id`, where the count query evaluates to
`countQuery`. -/
def updateEntityCount (id : String) (count countQuery : Int) (m : Metadata) : Metadata :=
  if count = 0 then m
  else m.updateDeployments
    (fun d => if d.id = id then
      { d with entityCount := some (newEntityCount d.entityCount count countQuery) } else d)
    (fun d => by dsimp only; split <;> rfl)

/-- The blocks of a deployment, each given by the number of open entity rows it leaves: its
transaction writes the entities, then calls `update_entity_count` with the net number of rows
it opened, and the count query counts the open rows. -/
def runBlocks (id : String) : Nat → List Nat → Metadata → Metadata
  | _, [], m => m
  | before, after :: blocks, m =>
    runBlocks id after blocks (updateEntityCount id ((after : Int) - before) after m)

/-- The `entity_count` one block leaves. -/
def blockEntityCount (count countQuery : Int) (entityCount : Option Int) : Option Int :=
  if count = 0 then entityCount else some (newEntityCount entityCount count countQuery)

/-- The deployment's row after one block. -/
def blockRow (count countQuery : Int) (d : SubgraphDeployment) : SubgraphDeployment :=
  { d with entityCount := blockEntityCount count countQuery d.entityCount }

section Lemmas

variable {entityCount : Option Int} {count countQuery : Int}

theorem newEntityCount_of_exact (n : Nat) :
    newEntityCount (some n) count countQuery = n + count := by
  unfold newEntityCount nullif coalesce
  rw [if_neg (by intro h; cases h)]
  rfl

theorem newEntityCount_of_sentinel (h : entityCount = none ∨ entityCount = some (-1)) :
    newEntityCount entityCount count countQuery = countQuery := by
  rcases h with rfl | rfl <;> rfl

/-- The deployment's row after `update_entity_count`; every other row is left alone. -/
theorem find?_updateEntityCount {m : Metadata} {id : String} :
    (updateEntityCount id count countQuery m).subgraphDeployment.find? (·.id == id) =
      (m.subgraphDeployment.find? (·.id == id)).map (blockRow count countQuery) := by
  unfold updateEntityCount
  split
  · rename_i h0
    cases m.subgraphDeployment.find? (·.id == id) with
    | none => rfl
    | some d => simp only [Option.map_some', blockRow, blockEntityCount, if_pos h0]
  · rename_i h0
    rw [updateDeployments_subgraphDeployment, List.find?_map]
    have hp : ((·.id == id) ∘ fun d : SubgraphDeployment => if d.id = id then
        { d with entityCount := some (newEntityCount d.entityCount count countQuery) } else d) =
        (·.id == id) := by
      funext d; simp only [Function.comp]; split <;> rfl
    rw [hp]
    cases h : m.subgraphDeployment.find? (·.id == id) with
    | none => rfl
    | some d =>
      have hid : d.id = id := by simpa using List.find?_some h
      simp [hid, blockRow, blockEntityCount, h0]

/-- A block that changes the number of open rows leaves the exact count, from an exact, `NULL`
or `-1` count. -/
theorem blockRow_entityCount {d : SubgraphDeployment} {before after : Nat} (hne : after ≠ before)
    (hc : d.entityCount = some (before : Int) ∨ d.entityCount = none ∨
      d.entityCount = some (-1)) :
    (blockRow ((after : Int) - before) after d).entityCount = some (after : Int) := by
  have h0 : (after : Int) - before ≠ 0 := by omega
  simp only [blockRow, blockEntityCount, if_neg h0]
  rcases hc with hc | hc
  · rw [hc, newEntityCount_of_exact]; exact congrArg some (by omega)
  · rw [newEntityCount_of_sentinel hc]

end Lemmas

/-- Over every run of blocks from `before` open rows, a deployment whose `entity_count` is
exact, `NULL` or `-1` ends with the exact count if it started exact or some block changed
the number of open rows, and otherwise with the count it started with. -/
theorem entity_count_after_blocks {m : Metadata} {id : String} {d : SubgraphDeployment}
    (hd : m.subgraphDeployment.find? (·.id == id) = some d) (before : Nat)
    (hc : d.entityCount = some (before : Int) ∨ d.entityCount = none ∨
      d.entityCount = some (-1))
    (blocks : List Nat) :
    ∃ d', (runBlocks id before blocks m).subgraphDeployment.find? (·.id == id) = some d' ∧
      d'.entityCount = if d.entityCount = some (before : Int) ∨ ∃ b ∈ blocks, b ≠ before
        then some ((blocks.getLastD before : Nat) : Int) else d.entityCount := by
  induction blocks generalizing m d before with
  | nil => exact ⟨d, hd, by split <;> simp_all⟩
  | cons b blocks ih =>
    simp only [runBlocks]
    have hd₁ := (@find?_updateEntityCount ((b : Int) - before) b m id).trans
      (congrArg (Option.map _) hd)
    by_cases hb : b = before
    · subst hb
      have hrow : blockRow ((b : Int) - b) b d = d := by
        simp [blockRow, blockEntityCount]
      rw [Option.map_some', hrow] at hd₁
      obtain ⟨d', hd', he⟩ := ih hd₁ b hc
      refine ⟨d', hd', he.trans ?_⟩
      simp only [List.mem_cons, List.getLastD_cons]
      congr 1
      simp
    · obtain ⟨d', hd', he⟩ := ih hd₁ b (.inl (blockRow_entityCount hb hc))
      refine ⟨d', hd', ?_⟩
      rw [he, if_pos (.inl (blockRow_entityCount hb hc)),
        if_pos (.inr ⟨b, List.mem_cons_self _ _, hb⟩), List.getLastD_cons]

/-- The deployment `D1` with its count set to `-1` to force a recount. -/
def sentinelRow : SubgraphDeployment := { deploymentD1 with entityCount := some (-1) }

/-- The metadata tables with `sentinelRow` as the only deployment. -/
def sentinelD1 : Metadata := ⟨[], [], [sentinelRow], [], by decide⟩

theorem entity_count_after_blocks_sentinelD1 :
    sentinelD1.subgraphDeployment.find? (·.id == "D1") = some sentinelRow ∧
    (sentinelRow.entityCount = some ((5 : Nat) : Int) ∨ sentinelRow.entityCount = none ∨
      sentinelRow.entityCount = some (-1)) ∧
    ∃ d', (runBlocks "D1" 5 [5, 7, 6] sentinelD1).subgraphDeployment.find? (·.id == "D1") =
        some d' ∧
      d'.entityCount = if sentinelRow.entityCount = some ((5 : Nat) : Int) ∨
          ∃ b ∈ [5, 7, 6], b ≠ 5
        then some (([5, 7, 6].getLastD 5 : Nat) : Int) else sentinelRow.entityCount :=
  ⟨rfl, .inr (.inr rfl),
    @entity_count_after_blocks sentinelD1 "D1" sentinelRow rfl 5 (.inr (.inr rfl)) [5, 7, 6]⟩

/-- A `-1` count with five open rows, and a block that leaves the five rows open: the block
calls `update_entity_count(0)`, which returns before the statement, and the count stays `-1`. -/
theorem sentinel_kept_at_zero_delta :
    ∃ d, (runBlocks "D1" 5 [5] sentinelD1).subgraphDeployment.find? (·.id == "D1") = some d ∧
      d.entityCount = some (-1) ∧ d.entityCount ≠ some ((5 : Nat) : Int) :=
  ⟨sentinelRow, rfl, rfl, by decide⟩

end GraphNode.Store
