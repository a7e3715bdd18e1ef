import SalRuntime.Mint.Dated
import SalRuntime.Mint.LamportMint
import SalRuntime.Replica.Replica

/-!
# Replicas that mint

The trusted generation of operations of `src/replica.js`. A replica with a mint stamps the operations
that it generates, and its mint observes the operations that it commits or receives. The mint does
not observe what a received state holds.

## Main definitions

* `MintedReplica` — a replica with a mint.
* `MintedReplica.generate`, `MintedReplica.commitGenerated` — trusted generation.
* `MintedReplica.commit`, `MintedReplica.ingest` — the calls that observe.
-/

namespace SalRuntime

/-- A time that a mint gave, with the ids that the head state of its replica held then. -/
structure Issue where
  /-- The time. -/
  time : ℕ
  /-- The ids in the head state. -/
  seen : List ℕ
  deriving DecidableEq, Repr

/-- A replica with a mint. What the mint gave is kept for the record. -/
structure MintedReplica (D : Datatype) (γ : Type) [LinearOrder γ] where
  /-- The replica. -/
  replica : Replica (timed D) γ
  /-- The mint, if there is one. -/
  mint : Option LamportMint
  /-- What the mint gave. -/
  issued : List Issue

variable {D : Datatype} {γ : Type} [LinearOrder γ]

/-- A call of a replica with a mint. -/
abbrev MintCall (D : Datatype) (γ : Type) [LinearOrder γ] (α : Type) :=
  Effect (MintedReplica D γ) Failure α

namespace MintedReplica

variable (H : ContentHash (Timed D.Op) D.Print γ) (M : Dated D)

/-- `new DistributedReplica(datatype, name, { mint })`. -/
def create (D : Datatype) (H : ContentHash (Timed D.Op) D.Print γ) (name : String)
    (mint : Option LamportMint) : MintedReplica D γ where
  replica := Replica.create (timed D) H name
  mint
  issued := []

/-- A call that leaves the mint alone. -/
def onReplica {α : Type} (call : Call (timed D) γ α) : MintCall D γ α := do
  let m ← get
  let (res, replica) := call.exec m.replica
  set { m with replica }
  liftM res

theorem exec_onReplica {α : Type} (call : Call (timed D) γ α) (m : MintedReplica D γ) :
    Effect.exec (onReplica call) m =
      ((Effect.exec call m.replica).1, { m with replica := (Effect.exec call m.replica).2 }) := by
  rw [onReplica, Effect.exec_bind_ok (Effect.exec_get m)]
  exact (Effect.exec_bind_ok (Effect.exec_set _ m) _).trans (Effect.exec_lift _ _)

/-- The ids in the head state. -/
def headIds (m : MintedReplica D γ) : List ℕ :=
  match m.replica.headState with
  | .ok s => M.ids s
  | .error _ => []

/-- The next time of the mint. -/
def mintTime : MintCall D γ ℕ := do
  let m ← get
  match m.mint with
  | none => throw (.error "trusted minting requires a unique persistent mint slot")
  | some mint =>
    let (time, mint) ← mint.next
    let issue : Issue := { time, seen := m.headIds M }
    set ({ m with mint := some mint, issued := m.issued ++ [issue] } : MintedReplica D γ)
    return time

/-- Stamp an operation. -/
def generate (payload : Timed D.Op) : MintCall D γ (Timed D.Op) := do
  return M.stampOperation (← mintTime M) payload

/-- Stamp operations one after the other. -/
def generateBatch : List (Timed D.Op) → MintCall D γ (List (Timed D.Op))
  | [] => return []
  | payload :: payloads => do
    let generated ← generate M payload
    return generated :: (← generateBatch payloads)

/-- The mint after it has observed a payload. -/
def observed (mint : LamportMint) (payload : Payload (Timed D.Op)) : LamportMint :=
  payload.ops.foldl (fun mint op => mint.observe (M.operationTime op)) mint

/-- The mint, if there is one, observes a payload. -/
def observePayload (payload : Payload (Timed D.Op)) : MintCall D γ Unit :=
  modify fun m => { m with mint := m.mint.map fun mint => observed M mint payload }

theorem exec_observePayload {m : MintedReplica D γ} (payload : Payload (Timed D.Op))
    {mint : LamportMint} (hmint : m.mint = some mint) : Effect.exec (observePayload M payload) m =
      (.ok ⟨⟩, { m with mint := some (observed M mint payload) }) := by
  rw [observePayload, Effect.exec_modify, hmint]
  rfl

/-- Apply one operation on the head. -/
def commit (payload : Timed D.Op) : MintCall D γ γ := do
  let m ← get
  let head ← m.replica.headState
  let prepared ← (timed D).prepared head payload
  let state ← (timed D).apply head prepared
  observePayload M (.one prepared)
  onReplica (Replica.author H (.one prepared) state)

/-- Apply a list of operations on the head, as one commit. -/
def commitBatch (ops : List (Timed D.Op)) : MintCall D γ γ := do
  let m ← get
  match ops with
  | [] => return m.replica.headGid
  | [op] => commit H M op
  | ops =>
    let head ← m.replica.headState
    if D.needsPrepare then
      let (prepared, state) ← Replica.prepareEach (timed D) head ops
      observePayload M (.many prepared)
      onReplica (Replica.author H (.many prepared) state)
    else
      let state ← Replica.applyOps (timed D) head (.many ops)
      observePayload M (.many ops)
      onReplica (Replica.author H (.many ops) state)

/-- Stamp an operation and commit it. -/
def commitGenerated (payload : Timed D.Op) : MintCall D γ (γ × Timed D.Op) := do
  let generated ← generate M payload
  return (← commit H M generated, generated)

/-- Stamp operations and commit them as one. -/
def commitGeneratedBatch (payloads : List (Timed D.Op)) :
    MintCall D γ (γ × List (Timed D.Op)) := do
  let generated ← generateBatch M payloads
  return (← commitBatch H M generated, generated)

/-- Ingest a wire commit that is not held. Only operations are observed. -/
def ingestNew (wc : WireCommit (timed D) γ) (parentGids : List (Option γ)) : MintCall D γ γ := do
  let g ← onReplica (Replica.ingestNew H wc parentGids)
  match wc.body with
  | .op _ _ payload => observePayload M payload
  | _ => pure ()
  return g

variable {H M} in
/-- Observing does not change what ingesting a wire commit returns. -/
theorem returns_ingestNew {wc : WireCommit (timed D) γ} {parentGids : List (Option γ)}
    {m : MintedReplica D γ} : Effect.Returns (fun g => ∃ r',
      Effect.exec (Replica.ingestNew H wc parentGids) m.replica = (.ok g, r'))
      (ingestNew H M wc parentGids) m := by
  refine .bind fun g m' hreplica => ?_
  rw [exec_onReplica, Prod.mk.injEq] at hreplica
  have hok : Effect.exec (Replica.ingestNew H wc parentGids) m.replica = (.ok g, _) :=
    Prod.ext hreplica.1 rfl
  cases hbody : wc.body with
  | op replica seq payload => exact .bind fun _ _ _ => .pure ⟨_, hok⟩
  | merge | compact cut state | base epoch fp roster proof state => exact .pure ⟨_, hok⟩

/-- Ingest the commits of a delta one after the other. -/
def ingestFrom (prior : Option γ) : List (WireCommit (timed D) γ) → MintCall D γ ℕ
  | [] => return 0
  | wc :: rest => do
    let m ← get
    if wc.gid.any m.replica.byGid.has then ingestFrom wc.gid rest
    else
      let g ← ingestNew H M wc (wc.parents.map fun p => p.or prior)
      return (← ingestFrom (some g) rest) + 1

/-- Ingest a delta. -/
def ingest (wireCommits : List (WireCommit (timed D) γ)) : MintCall D γ ℕ := do
  let added ← ingestFrom H M none wireCommits
  if added > 0 then onReplica Replica.refresh
  return added

end MintedReplica

end SalRuntime
