import Mathlib.Data.Fin.VecNotation
import SalRuntime.Replica.Replica

/-!
# Networks of replicas

Replicas that exchange wire commits, and the synchronization round `syncReplicas` of
`src/replica.js`. The network keeps every wire commit that was ever sent and delivers any of them,
in any order and any number of times.

## Main definitions

* `Network` — the replicas and what was sent.
* `Network.syncReplicas` — a bidirectional round between two replicas.
* `Network.Act`, `Network.step`, `Network.run` — runs.
-/

namespace SalRuntime

/-- Replicas and the wire commits that were sent. -/
structure Network (D : Datatype) (γ : Type) [LinearOrder γ] (N : ℕ) where
  /-- The replicas. -/
  replicas : Fin N → Replica D γ
  /-- Every wire commit that was ever sent, in order. -/
  sent : List (WireCommit D γ)

variable {D : Datatype} {γ : Type} [LinearOrder γ] {N : ℕ}

namespace Network

variable (H : ContentHash D.Op D.Print γ)

/-- Call a replica. -/
def on {α : Type} (i : Fin N) (call : Call D γ α) : Effect (Network D γ N) Failure α := do
  let w ← get
  let (res, r) := call.exec (w.replicas i)
  set { w with replicas := Function.update w.replicas i r }
  liftM res

/-- A bidirectional round between two replicas. -/
def syncReplicas (i j : Fin N) : Effect (Network D γ N) Failure Unit := do
  let w ← get
  let hasA ← (w.replicas i).ancestryGids
  let hasB ← (w.replicas j).ancestryGids
  let toB ← (w.replicas i).delta H hasB
  let toA ← (w.replicas j).delta H hasA
  let aHead := (w.replicas i).headGid
  let bHead := (w.replicas j).headGid
  let _ ← on j (Replica.ingest H (overWire toB))
  let _ ← on i (Replica.ingest H (overWire toA))
  let _ ← on j (Replica.mergeWithGid H aHead)
  let _ ← on i (Replica.mergeWithGid H bHead)
  let w ← get
  let _ ← on i (Replica.acknowledgeFetch (w.replicas j).name (w.replicas j).headGid
    (w.replicas j).epochKey)
  let w ← get
  let _ ← on j (Replica.acknowledgeFetch (w.replicas i).name (w.replicas i).headGid
    (w.replicas i).epochKey)

/-- A call in a network, over operations `ω` and content ids `γ`. -/
inductive Act (ω γ : Type) (N : ℕ)
  /-- Replica `i` commits an operation. -/
  | commit (i : Fin N) (payload : ω)
  /-- Replica `i` commits a batch. -/
  | commitBatch (i : Fin N) (ops : List ω)
  /-- Replica `i` sends the delta for a peer that holds the given content ids. -/
  | send (i : Fin N) (theirGids : List γ)
  /-- Replica `i` ingests the sent wire commits at the given positions. -/
  | deliver (i : Fin N) (positions : List ℕ)
  /-- Replica `i` merges with a commit of its store. -/
  | mergeWithGid (i : Fin N) (g : γ)
  /-- A round between two replicas. -/
  | sync (i j : Fin N)
  /-- Replica `i` compacts at its certified cut, without options. -/
  | compactStable (i : Fin N)
  /-- Replica `i` collects its history. -/
  | gc (i : Fin N)
  /-- Replica `i` prunes its history. -/
  | prune (i : Fin N)

/-- Send a delta. -/
def send (i : Fin N) (theirGids : List γ) : Effect (Network D γ N) Failure Unit := do
  let w ← get
  let delta ← (w.replicas i).delta H theirGids
  set { w with sent := w.sent ++ delta }

/-- Deliver the wire commits at some positions. -/
def deliver (i : Fin N) (positions : List ℕ) : Effect (Network D γ N) Failure Unit := do
  let w ← get
  let _ ← on i (Replica.ingest H (positions.filterMap (w.sent[·]?)))

/-- The calls. -/
def call : Act D.Op γ N → Effect (Network D γ N) Failure Unit
  | .commit i payload => do let _ ← on i (Replica.commit H payload)
  | .commitBatch i ops => do let _ ← on i (Replica.commitBatch H ops)
  | .send i theirGids => send H i theirGids
  | .deliver i positions => deliver H i positions
  | .mergeWithGid i g => do let _ ← on i (Replica.mergeWithGid H g)
  | .sync i j => syncReplicas H i j
  | .compactStable i => do let _ ← on i (Replica.compactStable H {})
  | .gc i => do let _ ← on i Replica.gc
  | .prune i => do let _ ← on i Replica.pruneToEpochBase

/-- The network after a call. What a call that throws has changed stays changed. -/
def step (w : Network D γ N) (act : Act D.Op γ N) : Network D γ N := ((call H act).exec w).2

/-- The network after a sequence of calls. -/
def run (w : Network D γ N) (acts : List (Act D.Op γ N)) : Network D γ N := acts.foldl (step H) w

/-- New replicas that have registered each other. -/
def start (D : Datatype) (H : ContentHash D.Op D.Print γ) (names : Fin N → String) :
    Network D γ N where
  replicas i :=
    { Replica.create D H (names i) with
      registered := (List.ofFn names).foldl addMember [names i] }
  sent := []

end Network

end SalRuntime
