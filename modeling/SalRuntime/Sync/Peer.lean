import SalRuntime.Foundations.Effect
import SalRuntime.Replica.Replica

/-!
# Peers with stores of their own

The gossip protocol of `src/sync.js`: a peer holds a commit store of its own, and two peers exchange the
commits that the other one lacks, each by its operation and the content ids of its parents. The receiver
recomputes the states and the content ids. A peer has no epochs, and collects no history.

The bytes that a round would transmit are left out.

## Main definitions

* `Peer` — the data model.
* `Peer.commit`, `Peer.delta`, `Peer.ingest`, `Peer.mergeWithGid`, `Peer.stableCut` — the methods.
* `PeerNetwork.syncPeers` — a bidirectional round between two peers.
* `PeerNetwork.Act`, `PeerNetwork.step`, `PeerNetwork.run` — runs.
-/

namespace SalRuntime

/-- A peer. -/
structure Peer (D : Datatype) (γ : Type) [LinearOrder γ] where
  /-- The name. -/
  name : String
  /-- The commit store. -/
  dag : Dag D.State (Payload D.Op)
  /-- The next sequence number. -/
  seq : ℕ
  /-- The content ids of the commits. -/
  gid : SortedMap ℕ γ
  /-- The commits of the content ids. -/
  byGid : SortedMap γ ℕ
  /-- The replicas this peer has heard of, in the order of insertion. -/
  registered : List String
  /-- The head. -/
  headId : ℕ
  /-- The latest commit of every replica in the ancestry of the head. -/
  frontier : Frontier

variable {D : Datatype} {γ : Type} [LinearOrder γ]

namespace Peer

/-- A call of a peer. -/
abbrev Call (D : Datatype) (γ : Type) [LinearOrder γ] (α : Type) := Effect (Peer D γ) Failure α

variable (H : ContentHash D.Op D.Print γ)

/-- The content id of the head. -/
def headGid (p : Peer D γ) : Option γ := p.gid.get? p.headId

/-- The read of the head. -/
def read (p : Peer D γ) : Except Failure D.View := do return D.read (← p.dag.get p.headId).state

/-- `new Peer(datatype, name)`. -/
def create (D : Datatype) (H : ContentHash D.Op D.Print γ) (name : String) : Peer D γ where
  name
  dag := Dag.empty.push [] none D.init
  seq := 0
  gid := SortedMap.empty.insert 0 (H.digest .root)
  byGid := SortedMap.empty.insert (H.digest .root) 0
  registered := [name]
  headId := 0
  frontier := SortedMap.empty

/-- Append a commit to the store. -/
def add (parents : List ℕ) (op : Option (Op (Payload D.Op))) (state : D.State) :
    Call D γ (Commit D.State (Payload D.Op)) := do
  let p ← get
  let (dag, c) ← p.dag.add parents op state
  set { p with dag }
  return c

/-- Record the content id of a commit. -/
def index (c : Commit D.State (Payload D.Op)) : Call D γ γ := do
  let p ← get
  let g ← commitContentId H c (c.parents.filterMap p.gid.get?)
  set { p with gid := p.gid.insert c.id g, byGid := p.byGid.insert g c.id }
  return g

/-- Append a commit and record its content id. -/
def file (parents : List ℕ) (op : Option (Op (Payload D.Op))) (state : D.State) :
    Call D γ (ℕ × γ) := do
  let c ← add parents op state
  return (c.id, ← index H c)

/-- Recompute the frontier. -/
def refresh : Call D γ Unit := do
  let p ← get
  set { p with frontier := ← p.dag.frontierOf p.headId }

/-- Move the head. -/
def setHead (id : ℕ) : Call D γ Unit := do
  modify fun p => { p with headId := id }
  refresh

/-- Apply an operation on the head. -/
def commit (payload : D.Op) : Call D γ γ := do
  let p ← get
  let head ← p.dag.get p.headId
  let state ← D.apply head.state payload
  set { p with seq := p.seq + 1 }
  let op : Op (Payload D.Op) := { replica := p.name, seq := p.seq, payload := .one payload }
  let (id, g) ← file H [p.headId] (some op) state
  setHead id
  return g

/-! ### Deltas -/

/-- The content ids in the ancestry of the head. -/
def ancestryGids (p : Peer D γ) : Except Failure (List γ) := do
  return (← p.dag.ancestorSet p.headId).filterMap p.gid.get?

/-- Is a commit shipped to a peer with the given content ids? The root is not. -/
def missing (p : Peer D γ) (theirGids : List γ) (id : ℕ) : Bool :=
  !(p.gid.get? id).any theirGids.contains && !decide ((p.dag.parentsOf id).length = 0)

/-- The wire commit of a stored commit. -/
def wireOf (p : Peer D γ) (id : ℕ) : Except Failure (WireCommit D γ) := do
  let c ← p.dag.get id
  let body := match c.op with
    | some op => .op op.replica op.seq op.payload
    | none => .merge
  return { gid := p.gid.get? id, parents := c.parents.map p.gid.get?, body }

/-- The commits of the head's ancestry that a peer lacks, in the order of their creation. -/
def delta (p : Peer D γ) (theirGids : List γ) : Except Failure (List (WireCommit D γ)) := do
  let closure ← p.dag.ancestorSet p.headId
  let ids := (closure.filter (p.missing theirGids)).insertionSort (· ≤ ·)
  ids.mapM p.wireOf

/-! ### Ingestion -/

/-- The operation, if any, and the state of a received commit. Every commit without an operation is
taken for a merge of its first two parents, and a batch is no operation of a datatype. -/
def receive (wc : WireCommit D γ) (localParents : List ℕ) :
    Call D γ (Option (Op (Payload D.Op)) × D.State) := do
  let p ← get
  match wc.body, localParents with
  | .op replica seq (.one payload), p0 :: _ =>
    let parent ← p.dag.get p0
    let state ← D.apply parent.state payload
    set { p with registered := addMember p.registered replica }
    return (some { replica, seq, payload := .one payload }, state)
  | .op _ _ (.many _), _ :: _ => throw (.error "unknown op type: undefined")
  | .op .., [] => throw (.error "no such commit: undefined (pruned by gc, or never added)")
  | _, p0 :: p1 :: _ =>
    let l ← p.dag.lca p0 p1
    let base ← p.dag.get l
    let a ← p.dag.get p0
    let b ← p.dag.get p1
    let state ← D.merge3 base.state a.state b.state
    return (none, state)
  | _, _ => throw (.error "no such commit: undefined (pruned by gc, or never added)")

/-- Ingest a wire commit that is not held, whose parents have the given content ids. -/
def ingestNew (wc : WireCommit D γ) (parentGids : List (Option γ)) : Call D γ γ := do
  let p ← get
  let localParents := parentGids.filterMap fun g => g.bind p.byGid.get?
  if localParents.length ≠ parentGids.length then
    throw (.error "ingest: unknown parent (delta not ancestor-closed)")
  let (op, state) ← receive wc localParents
  let (_, g) ← file H localParents op state
  if wc.gid.any (· ≠ g) then throw (.error "content-address mismatch")
  return g

/-- Ingest the commits of a delta one after the other, given the content id of the preceding one.
Returns the number of commits that were added. -/
def ingestFrom (prior : Option γ) : List (WireCommit D γ) → Call D γ ℕ
  | [] => return 0
  | wc :: rest => do
    let p ← get
    if wc.gid.any p.byGid.has then ingestFrom wc.gid rest
    else
      let g ← ingestNew H wc (wc.parents.map fun g => g.or prior)
      return (← ingestFrom (some g) rest) + 1

/-- Ingest a delta. -/
def ingest (wireCommits : List (WireCommit D γ)) : Call D γ ℕ := do
  let added ← ingestFrom H none wireCommits
  if added > 0 then refresh
  return added

/-- Merge the head with a commit of the store: fast-forward if one subsumes the other, or else merge
over the only maximal common ancestor. -/
def mergeWithGid (g : Option γ) : Call D γ (Option γ) := do
  let p ← get
  match g.bind p.byGid.get? with
  | none => throw (.error "mergeWithGid: commit not present (ingest first)")
  | some b =>
    let a := p.headId
    if a = b then return p.headGid
    if ← p.dag.isAncestor a b then setHead b
    else if !(← p.dag.isAncestor b a) then
      let l ← p.dag.lca a b
      let base ← p.dag.get l
      let aC ← p.dag.get a
      let bC ← p.dag.get b
      let merged ← D.merge3 base.state aC.state bC.state
      let (id, _) ← file H [a, b] none merged
      setHead id
    return (← get).headGid

/-- The certified stable cut over the replicas this peer has heard of. -/
def stableCut (p : Peer D γ) : Except Failure (StableCut (Payload D.Op)) :=
  p.dag.stableCut p.headId p.registered p.name

end Peer

/-! ### Rounds -/

/-- Peers that exchange deltas. -/
abbrev PeerNetwork (D : Datatype) (γ : Type) [LinearOrder γ] (N : ℕ) := Fin N → Peer D γ

namespace PeerNetwork

variable {N : ℕ} (H : ContentHash D.Op D.Print γ)

/-- What a round reports. -/
structure SyncOutcome where
  /-- The number of commits shipped to the second peer. -/
  toBCount : ℕ
  /-- The number of commits shipped to the first peer. -/
  toACount : ℕ
  /-- Did the heads merge? -/
  merged : Bool
  deriving DecidableEq, Repr

/-- Call a peer. -/
def on {α : Type} (i : Fin N) (call : Peer.Call D γ α) : Effect (PeerNetwork D γ N) Failure α := do
  let w ← get
  let (res, p) := call.exec (w i)
  set (Function.update w i p)
  liftM res

/-- Merge the heads of two peers with the heads they advertised; a criss-cross is reported. -/
def mergeHeads (i j : Fin N) (aHead bHead : Option γ) :
    Effect (PeerNetwork D γ N) Failure Bool :=
  let merges : Effect (PeerNetwork D γ N) Failure Bool := do
    let _ ← on j (Peer.mergeWithGid H aHead)
    let _ ← on i (Peer.mergeWithGid H bHead)
    return true
  tryCatch merges fun
    | .crissCross _ => return false
    | e => throw e

/-- A bidirectional round between two peers: both deltas are computed first, then both peers ingest, and
then both merge their heads. -/
def syncPeers (i j : Fin N) : Effect (PeerNetwork D γ N) Failure SyncOutcome := do
  let w ← get
  let hasA ← (w i).ancestryGids
  let hasB ← (w j).ancestryGids
  let toB ← (w i).delta hasB
  let toA ← (w j).delta hasA
  let _ ← on j (Peer.ingest H (overWire toB))
  let _ ← on i (Peer.ingest H (overWire toA))
  let merged ← mergeHeads H i j (w i).headGid (w j).headGid
  return { toBCount := toB.length, toACount := toA.length, merged }

/-- A call of peers, over operations `ω`. -/
inductive Act (ω : Type) (N : ℕ)
  /-- Peer `i` commits an operation. -/
  | commit (i : Fin N) (payload : ω)
  /-- A round between two peers. -/
  | sync (i j : Fin N)

/-- The calls; the result tells whether a round merged the heads. -/
def call : Act D.Op N → Effect (PeerNetwork D γ N) Failure Bool
  | .commit i payload => do
    let _ ← on i (Peer.commit H payload)
    return true
  | .sync i j => do return (← syncPeers H i j).merged

/-- The peers after a call. What a call that throws has changed stays changed. -/
def step (w : PeerNetwork D γ N) (act : Act D.Op N) : PeerNetwork D γ N := ((call H act).exec w).2

/-- The peers after a sequence of calls. -/
def run (w : PeerNetwork D γ N) (acts : List (Act D.Op N)) : PeerNetwork D γ N :=
  acts.foldl (step H) w

/-- New peers. -/
def start (D : Datatype) (H : ContentHash D.Op D.Print γ) (names : Fin N → String) :
    PeerNetwork D γ N := fun i => Peer.create D H (names i)

end PeerNetwork

end SalRuntime
