import Mathlib.Data.List.Infix
import Mathlib.Data.List.Forall2
import Mathlib.Algebra.Group.Nat.Basic
import Mathlib.Algebra.Group.Int
import GraphNode.Store.Metadata.DeploymentState
/-!
# Block pointers and reorg counters

`forward_block_ptr` and `revert_block_ptr` of `metadata.rs`, each one `UPDATE` of the
deployment's row in its own transaction. The reorg counters are Postgres `integer`s, so an
update whose new value leaves the `int4` range fails and writes nothing.

Over a run of calls the counters record what the calls did (`Recorded`): `reorg_count` is the
number of reverts, `current_reorg_depth` the number of reverts since the last forward, and
`max_reorg_depth` the largest value `current_reorg_depth` has taken. That holds while the
reverts number at most `i32::MAX` (`reorg_counters_recorded`); the `2^31`-th revert from zero
counters overflows `reorg_count` and fails (`reorg_count_overflow`).
-/

namespace GraphNode.Store

section ExceptList

variable {α β ε : Type} {f : α → Except ε β}

theorem mapM_ok_iff {l : List α} {l' : List β} :
    l.mapM f = .ok l' ↔ List.Forall₂ (fun a b => f a = .ok b) l l' := by
  induction l generalizing l' with
  | nil =>
    rw [List.mapM_nil, List.forall₂_nil_left_iff]
    exact ⟨fun h => (Except.ok.inj h).symm, fun h => h ▸ rfl⟩
  | cons a l ih =>
    rw [List.mapM_cons, List.forall₂_cons_left_iff]
    cases h : f a with
    | error e => exact ⟨nofun, fun ⟨_, _, hb, _⟩ => by cases hb⟩
    | ok b =>
      cases hl : l.mapM f with
      | error e => exact ⟨nofun, fun ⟨_, _, _, hbs, _⟩ => by rw [← ih, hl] at hbs; cases hbs⟩
      | ok bs =>
        show Except.ok (b :: bs) = _ ↔ _
        constructor
        · exact fun h' => ⟨b, bs, rfl, ih.mp hl, (Except.ok.inj h').symm⟩
        · rintro ⟨b', bs', hb, hbs, rfl⟩
          rw [← ih, hl] at hbs
          cases hb; cases hbs; rfl

/-- The first failing element fails the whole map; here only `d` fails. -/
theorem mapM_eq_error {l : List α} {d : α} {e : ε} (hd : d ∈ l) (he : f d = .error e)
    (hok : ∀ a ∈ l, a ≠ d → ∃ b, f a = .ok b) : l.mapM f = .error e := by
  induction l with
  | nil => cases hd
  | cons a l ih =>
    rw [List.mapM_cons]
    by_cases had : a = d
    · subst had; rw [he]; rfl
    · obtain ⟨b, hb⟩ := hok a (List.mem_cons_self _ _) had
      rw [hb, ih ((List.mem_cons.mp hd).resolve_left (Ne.symm had))
        fun a' ha' => hok a' (List.mem_cons_of_mem _ ha')]
      rfl

variable {R : α → β → Prop}

theorem map_eq_of_forall₂ {γ : Type} {g : α → γ} {g' : β → γ} (hR : ∀ a b, R a b → g' b = g a)
    {l : List α} {l' : List β} (h : List.Forall₂ R l l') : l'.map g' = l.map g := by
  induction h with
  | nil => rfl
  | cons hab _ ih => rw [List.map_cons, List.map_cons, hR _ _ hab, ih]

theorem find?_of_forall₂ {p : α → Bool} {q : β → Bool} (hR : ∀ a b, R a b → q b = p a)
    {l : List α} {l' : List β} (h : List.Forall₂ R l l') {a : α} (ha : l.find? p = some a) :
    ∃ b, l'.find? q = some b ∧ R a b := by
  induction h with
  | nil => cases ha
  | @cons a' b' _ _ hab _ ih =>
    by_cases hp : p a'
    · rw [List.find?_cons_of_pos _ hp] at ha
      cases ha
      exact ⟨b', List.find?_cons_of_pos _ (by rw [hR _ _ hab]; exact hp), hab⟩
    · rw [List.find?_cons_of_neg _ hp] at ha
      obtain ⟨b, hb, hR'⟩ := ih ha
      exact ⟨b, by rw [List.find?_cons_of_neg _ (by rw [hR _ _ hab]; exact hp), hb], hR'⟩

end ExceptList

/-- An `UPDATE` of `subgraph_deployment` whose new values may fail: the first failing row
fails the statement and nothing is written. -/
def Metadata.updateDeploymentsM (m : Metadata)
    (f : SubgraphDeployment → Except StoreError SubgraphDeployment)
    (hf : ∀ d d', f d = .ok d' → d'.id = d.id) : Except StoreError Metadata :=
  match h : m.subgraphDeployment.mapM f with
  | .error e => .error e
  | .ok ds => .ok
    { m with
      subgraphDeployment := ds
      deployment_key := by
        have hids : ds.map (·.id) = m.subgraphDeployment.map (·.id) :=
          map_eq_of_forall₂ (fun a b hab => hf a b hab) (mapM_ok_iff.mp h)
        rw [hids]
        exact m.deployment_key }

section UpdateM

variable {m : Metadata} {f : SubgraphDeployment → Except StoreError SubgraphDeployment}
  {hf : ∀ d d', f d = .ok d' → d'.id = d.id}

theorem Metadata.updateDeploymentsM_of_ok {ds : List SubgraphDeployment}
    (h : m.subgraphDeployment.mapM f = .ok ds) :
    ∃ m', m.updateDeploymentsM f hf = .ok m' ∧ m'.subgraphDeployment = ds := by
  unfold Metadata.updateDeploymentsM
  split
  · rename_i he; rw [h] at he; cases he
  · rename_i hds; rw [h] at hds; cases hds; exact ⟨_, rfl, rfl⟩

theorem Metadata.updateDeploymentsM_of_error {e : StoreError}
    (h : m.subgraphDeployment.mapM f = .error e) : m.updateDeploymentsM f hf = .error e := by
  unfold Metadata.updateDeploymentsM
  split
  · rename_i he; rw [h] at he; cases he; rfl
  · rename_i hds; rw [h] at hds; cases hds

end UpdateM

/-- Modelled from the spec: `SubgraphDeploymentEntity::TYPENAME`. -/
def deploymentTypename : String := "SubgraphDeployment"

/-- `block_ptr_store_event`: the changes of the event, one `Set` of the deployment. -/
def blockPtrStoreEvent (id : String) : List EntityChange :=
  [⟨subgraphsId, deploymentTypename, id, .set⟩]

/-- A Postgres `integer` result; outside the `int4` range the statement fails. -/
def int4 (n : Int) : Except StoreError Int :=
  if i32Min ≤ n ∧ n ≤ i32Max then .ok n else .error (.unknown "integer out of range")

/-- The values `forward_block_ptr` sets. -/
def forwardRow (ptr : EthereumBlockPointer) (d : SubgraphDeployment) : SubgraphDeployment :=
  { d with
    latestEthereumBlockNumber := some ptr.number.toNat
    latestEthereumBlockHash := some ptr.hash
    currentReorgDepth := 0 }

/-- The values `revert_block_ptr` sets. Every right-hand side reads the old row,
`greatest(current_reorg_depth + 1, max_reorg_depth)` included. -/
def revertRow (ptr : EthereumBlockPointer) (d : SubgraphDeployment) :
    Except StoreError SubgraphDeployment := do
  let reorgCount ← int4 (d.reorgCount + 1)
  let currentReorgDepth ← int4 (d.currentReorgDepth + 1)
  pure { d with
    latestEthereumBlockNumber := some ptr.number.toNat
    latestEthereumBlockHash := some ptr.hash
    reorgCount := reorgCount
    currentReorgDepth := currentReorgDepth
    maxReorgDepth := max currentReorgDepth d.maxReorgDepth }

theorem id_of_revertRow {ptr : EthereumBlockPointer} {d d' : SubgraphDeployment}
    (h : revertRow ptr d = .ok d') : d'.id = d.id := by
  unfold revertRow int4 at h
  repeat' split at h
  all_goals cases h
  rfl

/-- The row update of `revert_block_ptr` on deployment `id`. -/
def revertUpdate (id : String) (ptr : EthereumBlockPointer) (d : SubgraphDeployment) :
    Except StoreError SubgraphDeployment :=
  if d.id = id then revertRow ptr d else .ok d

theorem id_of_revertUpdate {id : String} {ptr : EthereumBlockPointer}
    {d d' : SubgraphDeployment} (h : revertUpdate id ptr d = .ok d') : d'.id = d.id := by
  unfold revertUpdate at h
  split at h
  · exact id_of_revertRow h
  · cases h; rfl

/-- `forward_block_ptr`. -/
def forwardBlockPtr (id : String) (ptr : EthereumBlockPointer) (m : Metadata) :
    Except StoreError (Metadata × List EntityChange) :=
  .ok (m.updateDeployments (fun d => if d.id = id then forwardRow ptr d else d)
    (fun d => by dsimp only; split <;> rfl), blockPtrStoreEvent id)

/-- `revert_block_ptr`. -/
def revertBlockPtr (id : String) (ptr : EthereumBlockPointer) (m : Metadata) :
    Except StoreError (Metadata × List EntityChange) := do
  let m ← m.updateDeploymentsM (revertUpdate id ptr) fun _ _ => id_of_revertUpdate
  pure (m, blockPtrStoreEvent id)

/-- The block pointer with number `0` and the zero hash. -/
def zeroPtr : EthereumBlockPointer := ⟨⟨List.replicate 32 0, List.length_replicate _ _⟩, 0⟩

/-- A call of `forward_block_ptr` or `revert_block_ptr`. -/
inductive BlockPtrOp
  | forward (ptr : EthereumBlockPointer)
  | revert (ptr : EthereumBlockPointer)
  deriving DecidableEq, Repr

namespace BlockPtrOp

def ptr : BlockPtrOp → EthereumBlockPointer
  | .forward ptr | .revert ptr => ptr

def isRevert : BlockPtrOp → Bool
  | .forward _ => false
  | .revert _ => true

/-- The call on the deployment `id`. -/
def run (id : String) : BlockPtrOp → Metadata → Except StoreError (Metadata × List EntityChange)
  | .forward ptr, m => forwardBlockPtr id ptr m
  | .revert ptr, m => revertBlockPtr id ptr m

/-- What the call writes to the deployment's own row. -/
def apply : BlockPtrOp → SubgraphDeployment → Except StoreError SubgraphDeployment
  | .forward ptr, d => .ok (forwardRow ptr d)
  | .revert ptr, d => revertRow ptr d

end BlockPtrOp

/-- One call in its own transaction: a failed call leaves the tables as they were. -/
def runBlockPtrOp (id : String) (m : Metadata) (op : BlockPtrOp) : Metadata :=
  match op.run id m with
  | .ok (m', _) => m'
  | .error _ => m

/-- A sequence of calls on the deployment `id`. -/
def runBlockPtrOps (id : String) (ops : List BlockPtrOp) (m : Metadata) : Metadata :=
  ops.foldl (runBlockPtrOp id) m

theorem runBlockPtrOps_concat (id : String) (ops : List BlockPtrOp) (op : BlockPtrOp)
    (m : Metadata) :
    runBlockPtrOps id (ops ++ [op]) m = runBlockPtrOp id (runBlockPtrOps id ops m) op := by
  rw [runBlockPtrOps, List.foldl_append, List.foldl_cons, List.foldl_nil]; rfl

/-! ## What the counters should record -/

/-- The number of `revert_block_ptr` calls. -/
def revertCount (ops : List BlockPtrOp) : Nat := ops.countP BlockPtrOp.isRevert

/-- The number of `revert_block_ptr` calls since the last `forward_block_ptr`. -/
def reorgDepth (ops : List BlockPtrOp) : Nat := (ops.reverse.takeWhile BlockPtrOp.isRevert).length

/-- The largest reorg depth over all prefixes of the calls. -/
def largestReorgDepth (ops : List BlockPtrOp) : Nat := (ops.inits.map reorgDepth).foldl max 0

section Counters

variable (ops : List BlockPtrOp) (ptr : EthereumBlockPointer)

@[simp] theorem revertCount_nil : revertCount [] = 0 := rfl
@[simp] theorem reorgDepth_nil : reorgDepth [] = 0 := rfl
@[simp] theorem largestReorgDepth_nil : largestReorgDepth [] = 0 := rfl

@[simp] theorem revertCount_forward :
    revertCount (ops ++ [.forward ptr]) = revertCount ops := by
  simp [revertCount, BlockPtrOp.isRevert]

@[simp] theorem revertCount_revert :
    revertCount (ops ++ [.revert ptr]) = revertCount ops + 1 := by
  simp [revertCount, BlockPtrOp.isRevert]

@[simp] theorem reorgDepth_forward : reorgDepth (ops ++ [.forward ptr]) = 0 := by
  simp [reorgDepth, BlockPtrOp.isRevert]

@[simp] theorem reorgDepth_revert :
    reorgDepth (ops ++ [.revert ptr]) = reorgDepth ops + 1 := by
  simp [reorgDepth, BlockPtrOp.isRevert]

@[simp] theorem revertCount_replicate_revert (n : Nat) :
    revertCount (List.replicate n (.revert ptr)) = n := by
  simp [revertCount, List.countP_replicate, BlockPtrOp.isRevert]

theorem largestReorgDepth_concat (op : BlockPtrOp) :
    largestReorgDepth (ops ++ [op]) = max (largestReorgDepth ops) (reorgDepth (ops ++ [op])) := by
  simp [largestReorgDepth, List.inits_append]

theorem reorgDepth_le_largestReorgDepth : reorgDepth ops ≤ largestReorgDepth ops := by
  induction ops using List.reverseRecOn with
  | nil => rfl
  | append_singleton ops op _ => rw [largestReorgDepth_concat]; omega

theorem largestReorgDepth_le_revertCount : largestReorgDepth ops ≤ revertCount ops := by
  induction ops using List.reverseRecOn with
  | nil => rfl
  | append_singleton ops op ih =>
    have hd : reorgDepth ops ≤ largestReorgDepth ops := reorgDepth_le_largestReorgDepth ops
    rw [largestReorgDepth_concat]
    cases op <;> simp <;> omega

end Counters

/-- The deployment row `d` records the calls `ops`, made from zero counters. -/
structure Recorded (ops : List BlockPtrOp) (d : SubgraphDeployment) : Prop where
  reorg_count : d.reorgCount = revertCount ops
  current_reorg_depth : d.currentReorgDepth = reorgDepth ops
  max_reorg_depth : d.maxReorgDepth = largestReorgDepth ops
  latest : ∀ op ∈ ops.getLast?, d.latestEthereumBlockNumber = some op.ptr.number.toNat

theorem int4_of_le {n : Int} (h0 : 0 ≤ n) (h : n ≤ i32Max) : int4 n = .ok n := by
  rw [int4, if_pos ⟨by unfold i32Min; omega, h⟩]

/-- A call keeps the record while the reverts number at most `i32::MAX`. -/
theorem Recorded.apply {ops : List BlockPtrOp} {d : SubgraphDeployment} (h : Recorded ops d)
    (op : BlockPtrOp) (hrev : revertCount (ops ++ [op]) ≤ i32Max) :
    ∃ d', op.apply d = .ok d' ∧ Recorded (ops ++ [op]) d' := by
  have hd := reorgDepth_le_largestReorgDepth ops
  have hl := largestReorgDepth_le_revertCount ops
  cases op with
  | forward ptr =>
    refine ⟨_, rfl, ?_, ?_, ?_, ?_⟩ <;>
      simp [forwardRow, BlockPtrOp.ptr, h.reorg_count, h.max_reorg_depth, largestReorgDepth_concat]
  | revert ptr =>
    replace hrev : (revertCount ops : Int) + 1 ≤ i32Max := by simpa using hrev
    have hc : d.currentReorgDepth + 1 ≤ i32Max := by rw [h.current_reorg_depth]; omega
    have happ : (BlockPtrOp.revert ptr).apply d = .ok { d with
        latestEthereumBlockNumber := some ptr.number.toNat
        latestEthereumBlockHash := some ptr.hash
        reorgCount := d.reorgCount + 1
        currentReorgDepth := d.currentReorgDepth + 1
        maxReorgDepth := max (d.currentReorgDepth + 1) d.maxReorgDepth } := by
      rw [BlockPtrOp.apply, revertRow, int4_of_le (by rw [h.reorg_count]; omega)
        (by rw [h.reorg_count]; exact hrev), int4_of_le (by rw [h.current_reorg_depth]; omega) hc]
      rfl
    refine ⟨_, happ, ?_, ?_, ?_, ?_⟩
    all_goals simp [BlockPtrOp.ptr, h.reorg_count, h.current_reorg_depth, h.max_reorg_depth,
      largestReorgDepth_concat]
    omega

/-- `revert_block_ptr` on a row whose `reorg_count` is `i32::MAX` fails. -/
theorem revertRow_overflow {ptr : EthereumBlockPointer} {d : SubgraphDeployment}
    (h : d.reorgCount = i32Max) : revertRow ptr d = .error (.unknown "integer out of range") := by
  rw [revertRow, int4, if_neg (by rw [h]; unfold i32Max; omega)]
  rfl

section Table

variable {m : Metadata} {id : String} {d : SubgraphDeployment}

/-- The deployment's row is the only row with its id. -/
theorem eq_of_find? (hd : m.subgraphDeployment.find? (·.id == id) = some d)
    {r : SubgraphDeployment} (hr : r ∈ m.subgraphDeployment) (hid : r.id = id) : r = d := by
  have hdid : d.id = id := by simpa using List.find?_some hd
  exact List.inj_on_of_nodup_map m.deployment_key hr (List.mem_of_find?_eq_some hd)
    (hid.trans hdid.symm)

theorem find?_forwardBlockPtr (hd : m.subgraphDeployment.find? (·.id == id) = some d)
    (ptr : EthereumBlockPointer) :
    (runBlockPtrOp id m (.forward ptr)).subgraphDeployment.find? (·.id == id) =
      some (forwardRow ptr d) := by
  have hdid : d.id = id := by simpa using List.find?_some hd
  have hp : ((·.id == id) ∘ fun d : SubgraphDeployment =>
      if d.id = id then forwardRow ptr d else d) = (·.id == id) := by
    funext r; simp only [Function.comp]; split <;> rfl
  simp only [runBlockPtrOp, BlockPtrOp.run, forwardBlockPtr, updateDeployments_subgraphDeployment,
    List.find?_map, hp, hd, Option.map_some', if_pos hdid]

theorem find?_revertBlockPtr (hd : m.subgraphDeployment.find? (·.id == id) = some d)
    {ptr : EthereumBlockPointer} {d' : SubgraphDeployment} (h : revertRow ptr d = .ok d') :
    (runBlockPtrOp id m (.revert ptr)).subgraphDeployment.find? (·.id == id) = some d' := by
  have hdid : d.id = id := by simpa using List.find?_some hd
  have hall : List.Forall₂ (fun a b => revertUpdate id ptr a = .ok b) m.subgraphDeployment
      (m.subgraphDeployment.map fun r => if r.id = id then d' else r) := by
    refine List.forall₂_map_right_iff.mpr (List.forall₂_same.mpr fun r hr => ?_)
    unfold revertUpdate
    split
    · rename_i hrid; rw [eq_of_find? hd hr hrid, h]
    · rfl
  obtain ⟨b, hb, hR⟩ : ∃ b, (m.subgraphDeployment.map fun r => if r.id = id then d' else r).find?
      (·.id == id) = some b ∧ revertUpdate id ptr d = .ok b :=
    find?_of_forall₂ (fun _ _ hab => by rw [id_of_revertUpdate hab]) hall hd
  rw [revertUpdate, if_pos hdid, h] at hR
  cases hR
  obtain ⟨m', hm', hds⟩ := @Metadata.updateDeploymentsM_of_ok m (revertUpdate id ptr)
    (fun _ _ => id_of_revertUpdate) _ (mapM_ok_iff.mpr hall)
  have hrun : runBlockPtrOp id m (.revert ptr) = m' := by
    rw [runBlockPtrOp, BlockPtrOp.run, revertBlockPtr, hm']; rfl
  rw [hrun, hds]
  exact hb

theorem runBlockPtrOp_revert_error (hd : m.subgraphDeployment.find? (·.id == id) = some d)
    {ptr : EthereumBlockPointer} {e : StoreError} (h : revertRow ptr d = .error e) :
    runBlockPtrOp id m (.revert ptr) = m := by
  have hdid : d.id = id := by simpa using List.find?_some hd
  have hM : m.subgraphDeployment.mapM (revertUpdate id ptr) = .error e :=
    mapM_eq_error (List.mem_of_find?_eq_some hd) (by rw [revertUpdate, if_pos hdid, h])
      fun r hr hne => ⟨r, if_neg fun hrid => hne (eq_of_find? hd hr hrid)⟩
  rw [runBlockPtrOp, BlockPtrOp.run, revertBlockPtr, Metadata.updateDeploymentsM_of_error hM]
  rfl

/-- A call whose row update succeeds writes that row; one whose update fails writes
nothing. -/
theorem find?_runBlockPtrOp (hd : m.subgraphDeployment.find? (·.id == id) = some d)
    {op : BlockPtrOp} {d' : SubgraphDeployment} (h : op.apply d = .ok d') :
    (runBlockPtrOp id m op).subgraphDeployment.find? (·.id == id) = some d' := by
  cases op with
  | forward ptr => cases h; exact find?_forwardBlockPtr hd ptr
  | revert ptr => exact find?_revertBlockPtr hd h

end Table

/-- From a row with zero counters, a run with at most `i32::MAX` reverts keeps a row of the
deployment that records the whole run. -/
theorem recorded_runBlockPtrOps {m : Metadata} {d : SubgraphDeployment}
    (hd : m.subgraphDeployment.find? (·.id == d.id) = some d)
    (h0 : d.reorgCount = 0 ∧ d.currentReorgDepth = 0 ∧ d.maxReorgDepth = 0)
    (ops : List BlockPtrOp) (hrev : revertCount ops ≤ i32Max) :
    ∃ d', (runBlockPtrOps d.id ops m).subgraphDeployment.find? (·.id == d.id) = some d' ∧
      Recorded ops d' := by
  induction ops using List.reverseRecOn with
  | nil => exact ⟨d, hd, h0.1, h0.2.1, h0.2.2, nofun⟩
  | append_singleton ops op ih =>
    have hle : revertCount ops ≤ revertCount (ops ++ [op]) := by cases op <;> simp
    obtain ⟨d₁, hd₁, hrec⟩ := ih (le_trans (by exact_mod_cast hle) hrev)
    obtain ⟨d₂, happ, hrec₂⟩ := hrec.apply op hrev
    refine ⟨d₂, ?_, hrec₂⟩
    rw [runBlockPtrOps_concat]
    exact find?_runBlockPtrOp hd₁ happ

theorem find?_of_mem {m : Metadata} {d : SubgraphDeployment} (hd : d ∈ m.subgraphDeployment) :
    m.subgraphDeployment.find? (·.id == d.id) = some d := by
  have hs : (m.subgraphDeployment.find? (·.id == d.id)).isSome :=
    List.find?_isSome.mpr ⟨d, hd, beq_self_eq_true _⟩
  obtain ⟨r, hr⟩ := Option.isSome_iff_exists.mp hs
  rw [hr, eq_of_find? hr hd rfl]

/-- From a deployment row with zero reorg counters, over every sequence of `forward_block_ptr`
and `revert_block_ptr` calls with at most `i32::MAX` reverts and block numbers at most
`i32::MAX`, the row keeps `0 ≤ current_reorg_depth ≤ max_reorg_depth ≤ reorg_count`, with
`current_reorg_depth` the reverts since the last forward, `max_reorg_depth` the largest value
it has taken, and `reorg_count` the number of reverts; after a nonempty sequence
`deployment_state_from_id` reports these counters and the number of the last pointer written.
Every prefix of such a sequence is such a sequence. -/
theorem reorg_counters_recorded {m : Metadata} {d : SubgraphDeployment}
    (hd : d ∈ m.subgraphDeployment)
    (h0 : d.reorgCount = 0 ∧ d.currentReorgDepth = 0 ∧ d.maxReorgDepth = 0)
    (ops : List BlockPtrOp) (hrev : revertCount ops ≤ i32Max)
    (hnum : ∀ op ∈ ops, op.ptr.number.toNat ≤ i32Max) :
    ∃ d' ∈ (runBlockPtrOps d.id ops m).subgraphDeployment, d'.id = d.id ∧
      0 ≤ d'.currentReorgDepth ∧ d'.currentReorgDepth ≤ d'.maxReorgDepth ∧
      d'.maxReorgDepth ≤ d'.reorgCount ∧
      d'.currentReorgDepth = reorgDepth ops ∧ d'.maxReorgDepth = largestReorgDepth ops ∧
      d'.reorgCount = revertCount ops ∧
      ∀ op ∈ ops.getLast?, deploymentStateFromId (runBlockPtrOps d.id ops m) d.id =
        .ok ⟨d.id, .ofNat (revertCount ops), .ofNat (largestReorgDepth ops),
          op.ptr.number.toNat⟩ := by
  obtain ⟨d', hd', hrec⟩ := recorded_runBlockPtrOps (find?_of_mem hd) h0 ops hrev
  have hdl := reorgDepth_le_largestReorgDepth ops
  have hlr := largestReorgDepth_le_revertCount ops
  refine ⟨d', List.mem_of_find?_eq_some hd', by simpa using List.find?_some hd', ?_, ?_, ?_,
    hrec.current_reorg_depth, hrec.max_reorg_depth, hrec.reorg_count, fun op hop => ?_⟩
  · rw [hrec.current_reorg_depth]; omega
  · rw [hrec.current_reorg_depth, hrec.max_reorg_depth]; omega
  · rw [hrec.max_reorg_depth, hrec.reorg_count]; omega
  · exact deploymentStateFromId_of_find? hd' hrec.reorg_count hrec.max_reorg_depth
      (hrec.latest op hop) (hnum op (List.mem_of_getLast?_eq_some hop))

theorem reorg_counters_recorded_initD1 :
    deploymentD1 ∈ initD1.subgraphDeployment ∧
    (deploymentD1.reorgCount = 0 ∧ deploymentD1.currentReorgDepth = 0 ∧
      deploymentD1.maxReorgDepth = 0) ∧
    revertCount [.forward zeroPtr, .revert zeroPtr, .revert zeroPtr, .forward zeroPtr] ≤ i32Max ∧
    (∀ op ∈ [BlockPtrOp.forward zeroPtr, .revert zeroPtr, .revert zeroPtr, .forward zeroPtr],
      op.ptr.number.toNat ≤ i32Max) ∧
    let ops := [BlockPtrOp.forward zeroPtr, .revert zeroPtr, .revert zeroPtr, .forward zeroPtr]
    ∃ d' ∈ (runBlockPtrOps deploymentD1.id ops initD1).subgraphDeployment,
      d'.id = deploymentD1.id ∧
      0 ≤ d'.currentReorgDepth ∧ d'.currentReorgDepth ≤ d'.maxReorgDepth ∧
      d'.maxReorgDepth ≤ d'.reorgCount ∧
      d'.currentReorgDepth = reorgDepth ops ∧ d'.maxReorgDepth = largestReorgDepth ops ∧
      d'.reorgCount = revertCount ops ∧
      ∀ op ∈ ops.getLast?,
        deploymentStateFromId (runBlockPtrOps deploymentD1.id ops initD1) deploymentD1.id =
          .ok ⟨deploymentD1.id, .ofNat (revertCount ops), .ofNat (largestReorgDepth ops),
            op.ptr.number.toNat⟩ :=
  ⟨by decide, by decide, by decide, by decide,
    reorg_counters_recorded (by decide) (by decide)
      [.forward zeroPtr, .revert zeroPtr, .revert zeroPtr, .forward zeroPtr] (by decide)
      (by decide)⟩

/-- `2^31` reverts from zero counters: the last one overflows `reorg_count` and fails, so
`reorg_count` stays one below the number of reverts. Before any call, a row that has never
had a block pointer written makes `deployment_state_from_id` fail. -/
theorem reorg_count_overflow :
    (∀ op ∈ List.replicate (2 ^ 31) (BlockPtrOp.revert zeroPtr),
      op.ptr.number.toNat ≤ i32Max) ∧
    revertCount (List.replicate (2 ^ 31) (.revert zeroPtr)) = 2 ^ 31 ∧
    (∃ d ∈ (runBlockPtrOps "D1" (List.replicate (2 ^ 31) (.revert zeroPtr))
        initD1).subgraphDeployment, d.id = "D1" ∧ d.reorgCount = 2 ^ 31 - 1) ∧
    deploymentStateFromId (runBlockPtrOps "D1" [] initD1) "D1" = .error (.queryExecutionError
      "Subgraph `D1` has not started syncing yet. Wait for it to ingest a few blocks before querying it") := by
  obtain ⟨N, hN⟩ : ∃ N, 2 ^ 31 = N + 1 := ⟨2 ^ 31 - 1, by decide⟩
  have hNmax : (N : Int) = i32Max := by
    have h2 : (2 : Nat) ^ 31 = 2147483648 := by decide
    unfold i32Max; omega
  rw [hN]
  refine ⟨fun op hop => ?_, revertCount_replicate_revert _ _, ?_, rfl⟩
  · rw [List.eq_of_mem_replicate hop]; decide
  obtain ⟨d, hd, hrec⟩ := @recorded_runBlockPtrOps initD1 deploymentD1 rfl ⟨rfl, rfl, rfl⟩
    (List.replicate N (.revert zeroPtr))
    (by rw [revertCount_replicate_revert, hNmax])
  have hrc : d.reorgCount = i32Max := by
    rw [hrec.reorg_count, revertCount_replicate_revert, hNmax]
  have hrun : runBlockPtrOps "D1" (List.replicate (N + 1) (.revert zeroPtr)) initD1 =
      runBlockPtrOps "D1" (List.replicate N (.revert zeroPtr)) initD1 := by
    rw [List.replicate_succ', runBlockPtrOps_concat]
    exact runBlockPtrOp_revert_error hd (revertRow_overflow hrc)
  rw [hrun]
  refine ⟨d, List.mem_of_find?_eq_some hd, by simpa using List.find?_some hd, ?_⟩
  rw [hrc]; rfl

end GraphNode.Store
