import Mathlib.Data.Fin.Tuple.Basic
import SalRuntime.Datatypes.Mrdt
import SalRuntime.Store.Frontier
import SalRuntime.Store.Gc

/-!
# The shared-store runtime

The runtime of `src/runtime.js`: replicas that commit on their own heads and synchronize their
heads over one commit store. A synchronization fast-forwards, or merges over the unique maximal
common ancestor and is refused when there are several. State compactions open numbered epochs;
merges lift the older side and the base into the newer epoch.

The object identity of a replica is its index; a call that throws is an error and changes
nothing.

## Main definitions

* `Runtime.Replica`, `Runtime` — the data model.
* `Runtime.commit`, `Runtime.sync`, `Runtime.gc`, `Runtime.compactStable` — the operations.
* `Runtime.Act`, `Runtime.step`, `Runtime.run` — runs of the operations.
-/

namespace SalRuntime

variable {D : Datatype} {N : ℕ}

/-- A replica of the shared-store runtime. -/
structure Runtime.Replica (D : Datatype) where
  /-- The name. -/
  name : String
  /-- The current head. -/
  head : Commit D.State D.Op
  /-- The next sequence number. -/
  seq : ℕ
  /-- The latest commit of every replica that the head has absorbed. -/
  frontier : Frontier

/-- The shared-store runtime with `N` registered replicas. -/
structure Runtime (D : Datatype) (N : ℕ) where
  /-- The commit store. -/
  dag : Dag D.State D.Op
  /-- The root commit. -/
  root : Commit D.State D.Op
  /-- The registered replicas. -/
  replicas : Fin N → Runtime.Replica D
  /-- The translation maps: the map at index `e` lifts epoch `e` to epoch `e + 1`. -/
  epochs : List D.Translate
  /-- The epoch in which the state of a commit is coded. -/
  epochOf : SortedMap ℕ ℕ

namespace Runtime

/-- The root commit of a new store. -/
def rootCommit (D : Datatype) : Commit D.State D.Op :=
  { id := 0, parents := [], op := none, state := D.init }

/-- `new Runtime(datatype)`. -/
def create (D : Datatype) : Runtime D 0 where
  dag := Dag.empty.push [] none D.init
  root := rootCommit D
  replicas := Fin.elim0
  epochs := []
  epochOf := SortedMap.empty.insert 0 0

/-- The epoch of a commit. Every commit has one. -/
def epochAt (rt : Runtime D N) (id : ℕ) : ℕ := (rt.epochOf.get? id).getD 0

/-- Lift a state from one epoch to another. -/
def liftState (rt : Runtime D N) (state : D.State) (fromEpoch toEpoch : ℕ) :
    Except Failure D.State :=
  D.remaps state ((rt.epochs.drop fromEpoch).take (toEpoch - fromEpoch))

/-- Register a replica at the root, unless the root has been collected. -/
def replica (rt : Runtime D N) (name : String) : Except Failure (Runtime D (N + 1)) :=
  if rt.dag.has rt.root.id then do
    let frontier ← rt.dag.frontierOf rt.root.id
    let r : Replica D := { name, head := rt.root, seq := 0, frontier }
    return { rt with replicas := Fin.snoc (α := fun _ => Replica D) rt.replicas r }
  else throw (.error ("cannot register a replica after gc pruned the root: the keep-set " ++
    "was computed against the then-current replica set (open-membership caveat)"))

/-- Collect the commit store against the current heads. -/
def gc (rt : Runtime D N) : Except Failure (Runtime D N × Dag.GcStats) := do
  let (dag, stats) ← rt.dag.runGc (List.ofFn fun i => (rt.replicas i).head.id)
  return ({ rt with dag }, stats)

/-- The registered names. -/
def registeredNames (rt : Runtime D N) : List String := List.ofFn fun i => (rt.replicas i).name

/-- Move a replica to a head, and recompute its frontier. -/
def setHead (rt : Runtime D N) (i : Fin N) (head : Commit D.State D.Op) :
    Except Failure (Runtime D N) := do
  let frontier ← rt.dag.frontierOf head.id
  return { rt with
    replicas := Function.update rt.replicas i { rt.replicas i with head, frontier } }

/-- Apply an operation on a replica's own head. -/
def commit (rt : Runtime D N) (i : Fin N) (payload : D.Op) : Except Failure (Runtime D N) := do
  let r := rt.replicas i
  let prepared ← D.prepared r.head.state payload
  let state ← D.apply r.head.state prepared
  let epoch := rt.epochAt r.head.id
  let op : Op D.Op := { replica := r.name, seq := r.seq, payload := prepared }
  let (dag, head) ← rt.dag.add [r.head.id] (some op) state
  let rt' : Runtime D N := { rt with
    dag
    replicas := Function.update rt.replicas i { r with seq := r.seq + 1 }
    epochOf := rt.epochOf.insert head.id epoch }
  rt'.setHead i head

/-- Re-code the head of a replica over a cut and open a new epoch. -/
def compact (rt : Runtime D N) (i : Fin N) (cut : D.Cut) (opts : CompactOpts) :
    Except Failure (Runtime D N × CompactStats) := do
  match D.compact, D.remapState with
  | some compact, some _ =>
    let r := rt.replicas i
    let e := rt.epochAt r.head.id
    if e ≠ rt.epochs.length then
      throw (.error ("stale-epoch compaction refused: v1 linearizes compaction epochs; " ++
        "sync to the newest epoch first (concurrent compaction is the deferred protocol half)"))
    let result ← compact r.head.state cut opts
    let (dag, head) ← rt.dag.add [r.head.id] none result.state
    let rt' : Runtime D N := { rt with
      dag
      epochs := rt.epochs ++ [result.translate]
      epochOf := rt.epochOf.insert head.id (e + 1) }
    return (← rt'.setHead i head, result.stats)
  | _, _ =>
    throw (.error "datatype does not support state compaction (needs compact + remapState)")

/-- Merge two heads over a base, in the newest epoch of the two: the base and the older head are
lifted into it. Returns the merged state and its epoch. -/
def mergeOver (rt : Runtime D N) (l : ℕ) (a b : Commit D.State D.Op) :
    Except Failure (D.State × ℕ) := do
  let eA := rt.epochAt a.id
  let eB := rt.epochAt b.id
  let eT := max eA eB
  let base ← rt.dag.get l
  let lState ← rt.liftState base.state (rt.epochAt l) eT
  let aState ← rt.liftState a.state eA eT
  let bState ← rt.liftState b.state eB eT
  let merged ← D.merge3 lState aState bState
  return (merged, eT)

/-- Join the current heads of two replicas; both move to the join. -/
def sync (rt : Runtime D N) (i j : Fin N) : Except Failure (Runtime D N) := do
  let a := (rt.replicas i).head
  let b := (rt.replicas j).head
  if a.id = b.id then return rt
  if ← rt.dag.isAncestor a.id b.id then return ← rt.setHead i b
  if ← rt.dag.isAncestor b.id a.id then return ← rt.setHead j a
  let l ← rt.dag.lca a.id b.id
  let (merged, eT) ← rt.mergeOver l a b
  let (dag, c) ← rt.dag.add [a.id, b.id] none merged
  let rt' : Runtime D N := { rt with dag, epochOf := rt.epochOf.insert c.id eT }
  (← rt'.setHead i c).setHead j c

/-- The cut a replica can certify from its frontier. -/
def stableCut (rt : Runtime D N) (i : Fin N) : Except Failure (StableCut D.Op) :=
  rt.dag.stableCut (rt.replicas i).head.id rt.registeredNames (rt.replicas i).name

/-- What `compactStable` reports. -/
inductive CompactOutcome
  /-- `compacted: false`, with the reason and the replicas not heard from. -/
  | refused (reason : String) (missing : List String)
  /-- `compacted: true`, with the statistics and the size of the cut. -/
  | compacted (stats : CompactStats) (cutSize : ℕ)
  deriving DecidableEq, Repr

/-- Compact the head of a replica at the largest cut it can certify. -/
def compactStable (rt : Runtime D N) (i : Fin N) (opts : CompactOpts) :
    Except Failure (Runtime D N × CompactOutcome) := do
  if rt.epochAt (rt.replicas i).head.id ≠ rt.epochs.length then
    return (rt, .refused "stale epoch; sync to the newest epoch first" [])
  let cut ← rt.stableCut i
  if !cut.complete then
    let names := ", ".intercalate cut.missing
    return (rt, .refused s!"certificate absent: not heard from {names} since the cut" cut.missing)
  let settledIds := insertIds (fun op => (D.insId op).toList) cut.meet
  if settledIds.length = 0 then
    return (rt, .refused "the certified stable cut is empty" [])
  let (rt', stats) ← rt.compact i (D.settledCut settledIds) opts
  return (rt', .compacted stats settledIds.length)

/-- The read of a replica's head. -/
def read (rt : Runtime D N) (i : Fin N) : D.View := D.read (rt.replicas i).head.state

/-! ### Runs -/

/-- A runtime whose replicas, with the given names, are all at the root. -/
def start (D : Datatype) (names : Fin N → String) : Runtime D N :=
  { create D with
    replicas := fun i =>
      { name := names i, head := rootCommit D, seq := 0, frontier := SortedMap.empty } }

/-- A call of the runtime, over operations `ω`. -/
inductive Act (ω : Type) (N : ℕ)
  /-- Replica `i` commits an operation. -/
  | commit (i : Fin N) (payload : ω)
  /-- Replica `i` synchronizes with replica `j`. -/
  | sync (i j : Fin N)
  /-- The commit store is collected. -/
  | gc
  /-- Replica `i` compacts at its certified cut, without options. -/
  | compactStable (i : Fin N)

/-- The runtime a call returns, if it does not throw. -/
def call (rt : Runtime D N) : Act D.Op N → Except Failure (Runtime D N)
  | .commit i payload => rt.commit i payload
  | .sync i j => rt.sync i j
  | .gc => do return (← rt.gc).1
  | .compactStable i => do return (← rt.compactStable i {}).1

/-- The runtime after a call; a call that throws changes nothing. -/
def step (rt : Runtime D N) (act : Act D.Op N) : Runtime D N :=
  match rt.call act with
  | .ok rt' => rt'
  | .error _ => rt

/-- The runtime after a sequence of calls. -/
def run (rt : Runtime D N) (acts : List (Act D.Op N)) : Runtime D N := acts.foldl step rt

end Runtime

end SalRuntime
