import SalRuntime.Foundations.Effect
import SalRuntime.Replica.Epoch
import SalRuntime.Replica.Wire
import SalRuntime.Store.Frontier
import SalRuntime.Store.Gc

/-!
# The distributed replica

The replica of `src/replica.js`: one content-addressed commit store with operations, delta gossip,
merges across epochs, certified state compaction and history collection. The methods of the object
are calls that change the replica and may throw; what a call wrote before it threw stays.

Content ids come from a collision-free hash. The optional minting of operation ids is left out.

## Main definitions

* `Replica` — the data model.
* `Replica.commit`, `Replica.commitBatch` — local operations.
* `Replica.delta`, `Replica.ingest`, `Replica.mergeWithGid` — the exchange of commits.
* `Replica.joinState`, `Replica.baseFor`, `Replica.baseState` — the merge across epochs over a
  virtual base.
* `Replica.compactStable`, `Replica.gc`, `Replica.pruneToEpochBase` — state compaction and history
  collection.
-/

namespace SalRuntime

/-- A replica. -/
structure Replica (D : Datatype) (γ : Type) [LinearOrder γ] where
  /-- The name. -/
  name : String
  /-- The commit store. -/
  dag : Dag D.State (Payload D.Op)
  /-- The next sequence number. -/
  seq : ℕ
  /-- The content ids of the commits. -/
  gid : SortedMap ℕ γ
  /-- The commits of the content ids. -/
  byGid : SortedMap γ ℕ
  /-- The roster, in order of registration. -/
  registered : List String
  /-- Is the roster closed? -/
  gcClosed : Bool
  /-- The replicas that have authored a received operation. -/
  everAuthored : List String
  /-- The known epochs. -/
  epochDag : EpochDag D γ
  /-- The epochs of the commits. -/
  epochOf : SortedMap ℕ (EpochKey γ)
  /-- The parentless compactions, with the content id of the pruned parent. -/
  epochBase : SortedMap ℕ (Option γ)
  /-- The boundaries of the collected history. -/
  gcBoundary : List ℕ
  /-- The epochs of the heads that peers have acknowledged. -/
  fetchAcks : SortedMap String (EpochKey γ)
  /-- The content id of the root. -/
  rootGid : γ
  /-- The head. -/
  headId : ℕ
  /-- The latest commit of every replica in the ancestry of the head. -/
  frontier : Frontier

variable {D : Datatype} {γ : Type} [LinearOrder γ]

/-- A call of a replica. -/
abbrev Call (D : Datatype) (γ : Type) [LinearOrder γ] (α : Type) := Effect (Replica D γ) Failure α

/-- Add a member to a set that is listed in the order of insertion. -/
def addMember (l : List String) (name : String) : List String :=
  if name ∈ l then l else l ++ [name]

/-- The content id of a commit with parents of the given content ids. -/
def commitContentId (H : ContentHash D.Op D.Print γ) (c : Commit D.State (Payload D.Op))
    (parentGids : List γ) : Except Failure γ :=
  if c.parents.length = 0 then .ok (H.digest .root)
  else
    match c.op with
    | some op => .ok (H.digest (.authored parentGids op.replica op.seq op.payload))
    | none =>
      if c.parents.length = 1 then
        match D.fingerprint with
        | some fingerprint => .ok (H.digest (.compact parentGids (fingerprint c.state)))
        | none =>
          .error (.error "commitContentId: a compaction commit needs a fingerprint function")
      else .ok (H.digest (.merge (parentGids.insertionSort (· ≤ ·))))

namespace Replica

variable (H : ContentHash D.Op D.Print γ)

/-- The epoch of a commit. Every commit has one. -/
def epochAt (r : Replica D γ) (id : ℕ) : EpochKey γ := (r.epochOf.get? id).getD EPOCH0

/-- The content ids of the parents of a commit. -/
def parentGids (r : Replica D γ) (c : Commit D.State (Payload D.Op)) : List γ :=
  c.parents.filterMap r.gid.get?

/-- The content id of the head. -/
def headGid (r : Replica D γ) : γ := (r.gid.get? r.headId).getD r.rootGid

/-- The epoch of the head. -/
def epochKey (r : Replica D γ) : EpochKey γ := r.epochAt r.headId

/-- The state of the head. -/
def headState (r : Replica D γ) : Except Failure D.State := do return (← r.dag.get r.headId).state

/-- The read of the head. -/
def read (r : Replica D γ) : Except Failure D.View := do return D.read (← r.headState)

/-- `new DistributedReplica(datatype, name)`. -/
def create (D : Datatype) (H : ContentHash D.Op D.Print γ) (name : String) : Replica D γ where
  name
  dag := Dag.empty.push [] none D.init
  seq := 0
  gid := SortedMap.empty.insert 0 (H.digest .root)
  byGid := SortedMap.empty.insert (H.digest .root) 0
  registered := [name]
  gcClosed := false
  everAuthored := []
  epochDag := EpochDag.create D γ
  epochOf := SortedMap.empty.insert 0 EPOCH0
  epochBase := SortedMap.empty
  gcBoundary := []
  fetchAcks := SortedMap.empty
  rootGid := H.digest .root
  headId := 0
  frontier := SortedMap.empty

/-- Add a member to the roster. -/
def register (name : String) : Call D γ Unit := do
  let r ← get
  if r.gcClosed && decide (name ∉ r.registered) then
    throw (.error (s!"open-membership after commit GC: {name} must bootstrap through a " ++
      "certified epoch base"))
  set { r with registered := addMember r.registered name }

/-- Append a commit to the store. -/
def add (parents : List ℕ) (op : Option (Op (Payload D.Op))) (state : D.State) :
    Call D γ (Commit D.State (Payload D.Op)) := do
  let r ← get
  let (dag, c) ← r.dag.add parents op state
  set { r with dag }
  return c

/-- Record the content id of a commit. -/
def index (c : Commit D.State (Payload D.Op)) : Call D γ γ := do
  let r ← get
  let g ← commitContentId H c (r.parentGids c)
  set { r with gid := r.gid.insert c.id g, byGid := r.byGid.insert g c.id }
  return g

/-- Record the epoch of a commit. -/
def setEpoch (id : ℕ) (key : EpochKey γ) : Call D γ Unit :=
  modify fun r => { r with epochOf := r.epochOf.insert id key }

/-- Recompute the frontier. -/
def refresh : Call D γ Unit := do
  let r ← get
  set { r with frontier := ← r.dag.frontierOf r.headId }

/-- Move the head. -/
def setHead (id : ℕ) : Call D γ Unit := do
  modify fun r => { r with headId := id }
  refresh

/-- Append a commit of an epoch and record its content id. -/
def file (parents : List ℕ) (op : Option (Op (Payload D.Op))) (state : D.State)
    (key : EpochKey γ) : Call D γ (ℕ × γ) := do
  let c ← add parents op state
  setEpoch c.id key
  return (c.id, ← index H c)

/-! ### Local operations -/

/-- Append an operation of this replica to the head. -/
def author (payload : Payload D.Op) (state : D.State) : Call D γ γ := do
  let r ← get
  set { r with seq := r.seq + 1 }
  let op : Op (Payload D.Op) := { replica := r.name, seq := r.seq, payload }
  let (id, g) ← file H [r.headId] (some op) state r.epochKey
  setHead id
  return g

/-- Apply one operation on the head. -/
def commit (payload : D.Op) : Call D γ γ := do
  let r ← get
  let head ← r.headState
  let prepared ← D.prepared head payload
  let state ← D.apply head prepared
  author H (.one prepared) state

/-- Apply a payload: one operation, or a batch. -/
def applyOps (D : Datatype) (state : D.State) : Payload D.Op → Except Failure D.State
  | .one op => D.apply state op
  | .many ops =>
    match D.applyBatch with
    | some applyBatch => applyBatch state ops
    | none => ops.foldlM D.apply state

/-- Prepare and apply operations one after the other. -/
def prepareEach (D : Datatype) : D.State → List D.Op → Except Failure (List D.Op × D.State)
  | state, [] => .ok ([], state)
  | state, op :: ops => do
    let p ← D.prepared state op
    let (ps, final) ← prepareEach D (← D.apply state p) ops
    return (p :: ps, final)

/-- Apply a list of operations on the head, as one commit. -/
def commitBatch (ops : List D.Op) : Call D γ γ := do
  let r ← get
  match ops with
  | [] => return r.headGid
  | [op] => commit H op
  | ops =>
    let head ← r.headState
    if D.needsPrepare then
      let (prepared, state) ← prepareEach D head ops
      author H (.many prepared) state
    else
      let state ← applyOps D head (.many ops)
      author H (.many ops) state

/-! ### Deltas -/

/-- The content ids in the ancestry of the head. -/
def ancestryGids (r : Replica D γ) : Except Failure (List γ) := do
  return (← r.dag.ancestorSet r.headId).filterMap r.gid.get?

/-- Is a commit shipped to a peer with the given content ids? Roots are not. -/
def missing (r : Replica D γ) (theirGids : List γ) (id : ℕ) : Bool :=
  !(r.gid.get? id).any (· ∈ theirGids) &&
    !((r.dag.parentsOf id).length = 0 && !r.epochBase.has id && decide (id ∉ r.gcBoundary))

/-- The wire commit of a stored commit. -/
def wireOf (r : Replica D γ) (id : ℕ) : Except Failure (WireCommit D γ) := do
  let c ← r.dag.get id
  let gid := r.gid.get? id
  let parents := c.parents.map r.gid.get?
  if id ∈ r.gcBoundary then
    match D.encodeState, D.fingerprint with
    | some encodeState, some fingerprint =>
      let epoch := r.epochAt id
      let fp := fingerprint c.state
      let roster := r.registered.insertionSort (· ≤ ·)
      let proof := H.certify (gid.getD r.rootGid) epoch fp roster
      return { gid, parents, body := .base epoch fp roster proof (encodeState c.state) }
    | _, _ => throw (.error "GC boundary transfer requires encodeState + fingerprint")
  match c.op with
  | some op => return { gid, parents, body := .op op.replica op.seq op.payload }
  | none =>
    let eb := (r.epochBase.get? id).join
    if c.parents.length = 1 || eb.isSome then
      let cut := ((r.epochDag.get? (r.epochAt id)).bind EpochNode.cut).getD D.emptyCut
      match D.encodeState with
      | some encodeState =>
        let parents := if eb.isSome then [eb] else parents
        return { gid, parents, body := .compact cut (encodeState c.state) }
      | none => throw (.error "this.datatype.encodeState is not a function")
    return { gid, parents, body := .merge }

/-- The commits of the head's ancestry that a peer lacks, parents first. -/
def delta (r : Replica D γ) (theirGids : List γ) : Except Failure (List (WireCommit D γ)) := do
  let closure ← r.dag.ancestorSet r.headId
  let ids := (closure.filter (r.missing theirGids)).insertionSort (· ≤ ·)
  ids.mapM (r.wireOf H)

/-! ### Translation between epochs -/

/-- The walk of `toEpoch` from `k` down to `toKey`. The graph of epochs has no cycle, so its size
bounds the number of steps. -/
def toEpochLoop (E : EpochDag D γ) (toKey : EpochKey γ) :
    ℕ → D.State → EpochKey γ → Except Failure (Option D.State)
  | 0, _, _ => .ok none
  | fuel + 1, s, k =>
    if k = toKey then .ok (some s)
    else
      match E.get? k with
      | some { parents := [p], translateInv := some m, .. } => do
        toEpochLoop E toKey fuel (← D.remap s m) p
      | _ => .ok none

/-- Lift a state down to an ancestor epoch; nothing if an inverse map is missing. -/
def toEpoch (r : Replica D γ) (state : D.State) (fromKey toKey : EpochKey γ) :
    Except Failure (Option D.State) :=
  toEpochLoop r.epochDag toKey (r.epochDag.nodes.length + 1) state fromKey

/-- Lift a state up to a descendant epoch; nothing if a map is missing. -/
def liftState (r : Replica D γ) (state : D.State) (fromKey toKey : EpochKey γ) :
    Except Failure (Option D.State) :=
  match r.epochDag.liftChain fromKey toKey with
  | none => .ok none
  | some maps => do return some (← D.remaps state maps)

/-! ### Virtual merge bases -/

/-- The maximal common ancestors of the union of the ancestries of `S` and of `w`. -/
def mcasOfSet (r : Replica D γ) (S : List ℕ) (w : ℕ) : Except Failure (List ℕ) := do
  let A ← S.foldlM (fun A s => do return A ++ (← r.dag.ancestorSet s).filter (· ∉ A)) []
  let B ← r.dag.ancestorSet w
  return r.dag.maximalOf (A.filter (· ∈ B))

/-- The maximal common ancestors, by the search that suits the number of commits. -/
def mcasFor (r : Replica D γ) (S : List ℕ) (w : ℕ) : Except Failure (List ℕ) :=
  match S with
  | [s] => r.dag.mcas s w
  | S => r.mcasOfSet S w

/-- Lift a state down, or refuse the antichain. -/
def liftDown (r : Replica D γ) (id : ℕ) (target : EpochKey γ) (antichain : List ℕ) :
    Except Failure D.State := do
  let c ← r.dag.get id
  if r.epochAt id = target then return c.state
  match ← r.toEpoch c.state (r.epochAt id) target with
  | some lifted => return lifted
  | none => throw (.crissCross antichain)

/-- Sort commits by their content ids. -/
def sortByGid (r : Replica D γ) (ids : List ℕ) : List ℕ :=
  ids.insertionSort fun x y =>
    (r.gid.get? x).getD r.rootGid ≤ (r.gid.get? y).getD r.rootGid

/-- Fold an antichain into one state, the bases of the merges being given by `base`. -/
def foldBase (r : Replica D γ) (base : List ℕ → ℕ → Except Failure D.State) (target : EpochKey γ)
    (antichain : List ℕ) : List ℕ → D.State → List ℕ → Except Failure D.State
  | _, acc, [] => .ok acc
  | support, acc, mi :: rest => do
    let l ← base support mi
    let acc ← D.merge3 l acc (← r.liftDown mi target antichain)
    foldBase r base target antichain (support ++ [mi]) acc rest

/-- The state of the virtual base of the set `S` and the commit `w`, coded in `target`: that of the
unique maximal common ancestor, or the fold of several. -/
def baseState (r : Replica D γ) : ℕ → List ℕ → ℕ → EpochKey γ → Except Failure D.State
  | 0, _, _, _ => .error (.error "Maximum call stack size exceeded")
  | fuel + 1, S, w, target => do
    let m ← r.mcasFor S w
    match m with
    | [] => throw (.noCommonAncestor S w)
    | [x] => r.liftDown x target m
    | m =>
      match r.sortByGid m with
      | [] => throw (.noCommonAncestor S w)
      | x :: rest =>
        let acc ← r.liftDown x target m
        r.foldBase (fun support mi => baseState r fuel support mi target) target m [x] acc rest

/-- The virtual base and the epoch it is coded in. The recursion descends in the history, so the
size of the store bounds its depth. -/
def baseFor (r : Replica D γ) (S : List ℕ) (w : ℕ) : Except Failure (D.State × EpochKey γ) := do
  match ← r.mcasFor S w with
  | [] => throw (.noCommonAncestor S w)
  | x :: m =>
    let target := if m.all fun y => r.epochAt y = r.epochAt x then r.epochAt x else EPOCH0
    return (← r.baseState (r.dag.size + 1) S w target, target)

/-! ### Merges -/

/-- Merge states that are coded alike, and audit the merge. -/
def mergeInFrame (D : Datatype) (l a b : D.State) : Except Failure D.State := do
  let state ← D.merge3 l a b
  match D.auditMergeCoverage with
  | none => return state
  | some audit =>
    match audit l a b state with
    | .ok () => return state
    | .error evidence => throw (.error s!"merge coverage certificate failed: {evidence}")

/-- Register the join of two epochs. -/
def joinEpochs (ea eb : EpochKey γ) : Call D γ Unit := do
  let r ← get
  set { r with epochDag := ← r.epochDag.join ea eb }

/-- The merge without a base, of a datatype that ignores it. -/
def joinHeadOnly (aId bId : ℕ) : Call D γ (D.State × EpochKey γ) := do
  let r ← get
  let ea := r.epochAt aId
  let eb := r.epochAt bId
  let aState := (← r.dag.get aId).state
  let bState := (← r.dag.get bId).state
  if ea = eb then return (← mergeInFrame D D.init aState bState, ea)
  let a0 ← r.toEpoch aState ea EPOCH0
  let b0 ← r.toEpoch bState eb EPOCH0
  match a0, b0 with
  | some a0, some b0 =>
    joinEpochs ea eb
    return (← mergeInFrame D D.init a0 b0, EPOCH0)
  | _, _ => throw (.crissCross [aId, bId])

/-- Merge with every state lifted down to the uncompacted epoch. -/
def joinAtRoot (ea eb el : EpochKey γ) (aState bState lState : D.State) :
    Call D γ (D.State × EpochKey γ) := do
  let r ← get
  let a0 ← r.toEpoch aState ea EPOCH0
  let b0 ← r.toEpoch bState eb EPOCH0
  let l0 ← r.toEpoch lState el EPOCH0
  match a0, b0, l0 with
  | some a0, some b0, some l0 =>
    if ea ≠ eb then joinEpochs ea eb
    return (← mergeInFrame D l0 a0 b0, EPOCH0)
  | _, _, _ =>
    throw (.error "cross-epoch merge: an inverse epoch map is unavailable for translation")

/-- Merge with the heads lifted down to the epoch of the base, or further. -/
def joinBelow (ea eb el : EpochKey γ) (aState bState lState : D.State) :
    Call D γ (D.State × EpochKey γ) := do
  let r ← get
  let aE ← (if ea = el then .ok (some aState) else r.toEpoch aState ea el : Except Failure _)
  let bE ← (if eb = el then .ok (some bState) else r.toEpoch bState eb el : Except Failure _)
  match aE, bE with
  | some aE, some bE =>
    if ea ≠ eb then joinEpochs ea eb
    return (← mergeInFrame D lState aE bE, el)
  | _, _ => joinAtRoot ea eb el aState bState lState

/-- **The join of two commits**: the merged state and the epoch in which it is coded. -/
def joinState (aId bId : ℕ) : Call D γ (D.State × EpochKey γ) := do
  let r ← get
  let ea := r.epochAt aId
  let eb := r.epochAt bId
  let aState := (← r.dag.get aId).state
  let bState := (← r.dag.get bId).state
  match r.baseFor [aId] bId with
  | .error (.noCommonAncestor S w) =>
    if D.headOnlyMerge then joinHeadOnly aId bId else throw (.noCommonAncestor S w)
  | .error e => throw e
  | .ok (lState, el) =>
    if ea = eb && ea = el then return (← mergeInFrame D lState aState bState, ea)
    if ea = eb then
      match ← r.liftState lState el ea with
      | some lUp => return (← mergeInFrame D lUp aState bState, ea)
      | none => joinBelow ea eb el aState bState lState
    else joinBelow ea eb el aState bState lState

/-! ### Ingestion -/

/-- Put the root back if a commit of a delta names it and the store has dropped it. -/
def reconstructRoot (parentGids : List (Option γ)) : Call D γ Unit := do
  let r ← get
  if some r.rootGid ∈ parentGids && !r.byGid.has r.rootGid then
    let (_, g) ← file H [] none D.init EPOCH0
    if g ≠ r.rootGid then throw (.error "canonical root reconstruction mismatch")

/-- Must the root be put back? -/
def needsRoot (r : Replica D γ) (parentGids : List (Option γ)) : Bool :=
  decide (some r.rootGid ∈ parentGids) && !r.byGid.has r.rootGid

/-- Compare the recomputed content id with the one on the wire. -/
def checkGid (g : γ) (wireGid : Option γ) : Call D γ Unit :=
  if wireGid.any (· ≠ g) then throw (.error "content-address mismatch") else pure ()

/-- Ingest a boundary of a collected history. -/
def ingestBase (gid : γ) (localParents : List ℕ) (epoch : EpochKey γ) (fp : D.Print)
    (roster : List String) (proof : γ) (wireState : D.Wire) : Call D γ γ := do
  match D.decodeState, D.fingerprint with
  | some decodeState, some fingerprint =>
    let r ← get
    let state ← decodeState wireState
    if fingerprint state ≠ fp then throw (.error "GC boundary fingerprint mismatch")
    let roster := roster.insertionSort (· ≤ ·)
    if H.certify gid epoch (fingerprint state) roster ≠ proof then
      throw (.error "GC boundary certificate mismatch")
    if !r.epochDag.has epoch then
      throw (.error "GC boundary epoch is unavailable; fetch its epoch certificate first")
    let unknown := roster.filter (· ∉ r.registered)
    if r.gcClosed && decide (unknown ≠ []) then
      let names := ", ".intercalate unknown
      throw (.error s!"open-membership after commit GC: boundary introduces {names}")
    set { r with registered := roster.foldl addMember r.registered }
    let c ← add localParents none state
    modify fun r => { r with
      gid := r.gid.insert c.id gid
      byGid := r.byGid.insert gid c.id
      epochOf := r.epochOf.insert c.id epoch
      gcBoundary := r.gcBoundary ++ [c.id] }
    return gid
  | _, _ => throw (.error "GC boundary ingest requires decodeState + fingerprint")

/-- Ingest an operation commit. -/
def ingestOp (wireGid : Option γ) (localParents : List ℕ) (op : Op (Payload D.Op)) :
    Call D γ γ := do
  let r ← get
  if r.gcClosed && decide (op.replica ∉ r.registered) then
    throw (.error (s!"open-membership after commit GC: {op.replica} is not in the closed roster"))
  match localParents with
  | [] => throw (.error "no such commit: undefined (pruned by gc, or never added)")
  | p :: _ =>
    let state ← applyOps D (← r.dag.get p).state op.payload
    set { r with
      registered := addMember r.registered op.replica
      everAuthored := addMember r.everAuthored op.replica }
    let (_, g) ← file H localParents (some op) state (r.epochAt p)
    checkGid g wireGid
    return g

/-- The content id of an epoch base, over the content ids its wire commit names as parents. The
first of them is hashed, also if it is missing. -/
def epochBaseId (parentGids : List (Option γ)) (state : D.State) : Except Failure γ :=
  match D.fingerprint with
  | none => .error (.error "commitContentId: a compaction commit needs a fingerprint function")
  | some fingerprint =>
    match parentGids with
    | some parentGid :: _ => .ok (H.digest (.compact [parentGid] (fingerprint state)))
    | none :: _ => .ok (H.digest (.orphan (fingerprint state)))
    | [] => .ok (H.digest (.compact [] (fingerprint state)))

/-- Ingest a compaction whose parent was pruned. -/
def ingestEpochBase (wireGid : Option γ) (parentGids : List (Option γ)) (cut : D.Cut)
    (wireState : D.Wire) : Call D γ γ := do
  match D.decodeState with
  | none => throw (.error "this.datatype.decodeState is not a function")
  | some decodeState =>
    let state ← decodeState wireState
    let c ← add [] none state
    modify fun r => { r with epochBase := r.epochBase.insert c.id parentGids.head?.join }
    let g ← epochBaseId H parentGids state
    checkGid g wireGid
    modify fun r => { r with
      gid := r.gid.insert c.id g
      byGid := r.byGid.insert g c.id
      epochDag := r.epochDag.compaction (.frame g)
        { settledIds := (D.settledIds cut).getD [], cut := some cut, translate := none,
          translateInv := none, parentKey := EPOCH0 }
      epochOf := r.epochOf.insert c.id (.frame g) }
    return g

/-- The inverse map of a compaction, if it can be built. -/
def inverseOf (D : Datatype) (pre post : D.State) (cut : D.Cut) :
    Except Failure (Option D.Translate) :=
  match D.inverseTranslate with
  | some inverseTranslate => do return some (← inverseTranslate pre post cut)
  | none => .ok (D.coordInverse pre post).toOption

/-- Ingest a compaction of the commit `p`: the forward map is recomputed from the parent and the
cut. -/
def ingestCompact (wireGid : Option γ) (localParents : List ℕ) (p : ℕ) (cut : D.Cut)
    (wireState : D.Wire) : Call D γ γ := do
  match D.decodeState with
  | none => throw (.error "this.datatype.decodeState is not a function")
  | some decodeState =>
    let r ← get
    let state ← decodeState wireState
    let parentState := (← r.dag.get p).state
    let translateInv ← inverseOf D parentState state cut
    let translate := D.compact.bind fun compact =>
      ((compact parentState cut {}).toOption.map Compacted.translate)
    let key : EpochKey γ := (wireGid.map EpochKey.frame).getD .null
    set { r with
      epochDag := r.epochDag.compaction key
        { settledIds := (D.settledIds cut).getD [], cut := some cut, translate, translateInv,
          parentKey := r.epochAt p } }
    let (_, g) ← file H localParents none state key
    checkGid g wireGid
    return g

/-- Ingest a merge. -/
def ingestMerge (wireGid : Option γ) (localParents : List ℕ) : Call D γ γ := do
  match localParents with
  | a :: b :: _ =>
    let (state, key) ← joinState a b
    let (_, g) ← file H localParents none state key
    checkGid g wireGid
    return g
  | _ => throw (.error "no such commit: undefined (pruned by gc, or never added)")

/-- Ingest a wire commit that is not held, whose parents have the given content ids. -/
def ingestNew (wc : WireCommit D γ) (parentGids : List (Option γ)) : Call D γ γ := do
  reconstructRoot H parentGids
  let r ← get
  let localParents := parentGids.filterMap fun g => g.bind r.byGid.get?
  let closed := decide (localParents.length = parentGids.length)
  if !closed && !(wc.body.isCompact && wc.parents.length = 1) then
    throw (.error "ingest: unknown parent (delta not ancestor-closed)")
  match wc.body with
  | .base epoch fp roster proof state =>
    match wc.gid with
    | some gid => ingestBase H gid localParents epoch fp roster proof state
    | none => throw (.error "GC boundary certificate mismatch")
  | .op replica seq payload => ingestOp H wc.gid localParents { replica, seq, payload }
  | .compact cut state =>
    match localParents with
    | p :: _ => ingestCompact H wc.gid localParents p cut state
    | [] => ingestEpochBase H wc.gid parentGids cut state
  | .merge => ingestMerge H wc.gid localParents

/-- Ingest the commits of a delta one after the other, given the content id of the preceding one.
Returns the number of commits that were added. -/
def ingestFrom (prior : Option γ) : List (WireCommit D γ) → Call D γ ℕ
  | [] => return 0
  | wc :: rest => do
    let r ← get
    if wc.gid.any r.byGid.has then ingestFrom wc.gid rest
    else
      let g ← ingestNew H wc (wc.parents.map fun p => p.or prior)
      return (← ingestFrom (some g) rest) + 1

/-- Ingest a delta. -/
def ingest (wireCommits : List (WireCommit D γ)) : Call D γ ℕ := do
  let added ← ingestFrom H none wireCommits
  if added > 0 then refresh
  return added

/-- Merge the head with a commit of the store: fast-forward if one subsumes the other. -/
def mergeWithGid (g : γ) : Call D γ γ := do
  let r ← get
  match r.byGid.get? g with
  | none => throw (.error "mergeWithGid: commit not present (ingest first)")
  | some b =>
    let a := r.headId
    if a = b then return r.headGid
    let headC ← r.dag.get a
    if r.seq = 0 && headC.op.isNone && headC.parents.length = 0 && !r.epochBase.has a then
      setHead b
    else if ← r.dag.isAncestor a b then setHead b
    else if !(← r.dag.isAncestor b a) then
      let (state, key) ← joinState a b
      let (id, _) ← file H [a, b] none state key
      setHead id
    return (← get).headGid

/-- Record that a peer has fetched a head of the given epoch. -/
def acknowledgeFetch (peer : String) (headGid : γ) (epochKey : EpochKey γ) : Call D γ Bool := do
  let r ← get
  if peer ∉ r.registered then return false
  match r.byGid.get? headGid with
  | none => return false
  | some id =>
    if r.epochAt id ≠ epochKey then return false
    let behind ← match r.fetchAcks.get? peer with
      | none => pure true
      | some old => r.epochDag.subcut old epochKey
    if behind then
      set { r with fetchAcks := r.fetchAcks.insert peer epochKey }
      return true
    return false

/-! ### Collection -/

/-- The cut that the replica can certify. -/
def stableCut (r : Replica D γ) : Except Failure (StableCut (Payload D.Op)) :=
  r.dag.stableCut r.headId r.registered r.name

/-- What `compactStable` reports. -/
inductive CompactOutcome
  /-- `compacted: false`, with the reason and the replicas not heard from. -/
  | refused (reason : String) (missing : List String)
  /-- `compacted: true`, with the statistics and the size of the cut. -/
  | compacted (stats : CompactStats) (cutSize : ℕ)
  deriving DecidableEq, Repr

/-- The cut that a compaction uses: what the datatype makes of the certified meet, or the settled
insert ids. -/
def cutOf (D : Datatype) (meet : SortedMap EventKey (Op (Payload D.Op))) (settledIds : List ℕ) :
    D.Cut :=
  match D.cutFromMeet with
  | some cutFromMeet => cutFromMeet (meet.values.flatMap fun op => op.payload.ops)
  | none => D.settledCut settledIds

/-- The insert ids of the operations of a payload. -/
def payloadIds (D : Datatype) (payload : Payload D.Op) : List ℕ := payload.ops.filterMap D.insId

/-- Compact the head at the largest cut the replica can certify. -/
def compactStable (opts : CompactOpts) : Call D γ CompactOutcome := do
  match D.compact, D.remapState with
  | some compact, some _ =>
    let r ← get
    let sc ← r.stableCut
    if !sc.complete then
      let names := ", ".intercalate sc.missing
      return .refused s!"certificate absent: not heard from {names} since the cut" sc.missing
    let settledIds := insertIds (payloadIds D) sc.meet
    if settledIds.length = 0 then return .refused "the certified stable cut is empty" []
    let cut := cutOf D sc.meet settledIds
    let head ← r.headState
    let result ← compact head cut opts
    if result.stats.symbolsAfter = result.stats.symbolsBefore &&
        !(result.stats.recordsDropped > 0 || result.stats.markPairsDropped > 0) then
      return .refused "nothing to compact at this cut" []
    let translateInv ← inverseOf D head result.state cut
    let c ← add [r.headId] none result.state
    let g ← index H c
    modify fun r' => { r' with
      epochDag := r'.epochDag.compaction (.frame g)
        { settledIds := (D.settledIds cut).getD settledIds, cut := some cut,
          translate := some result.translate, translateInv, parentKey := r.epochKey } }
    setEpoch c.id (.frame g)
    setHead c.id
    return .compacted result.stats settledIds.length
  | _, _ =>
    return .refused "datatype does not support state compaction (needs compact + remapState)" []

/-- What `gc` reports: the counts, or the replicas not heard from. -/
inductive GcOutcome
  /-- `refused: true`. -/
  | refused (missing : List String)
  /-- `refused: false`. -/
  | collected (stats : Dag.GcStats)
  deriving DecidableEq, Repr

/-- Forget the indexes of the commits that are not in the store. -/
def dropIndexes (r : Replica D γ) : Replica D γ :=
  let gone := r.gid.keys.filter fun id => !r.dag.has id
  { r with
    byGid := (gone.filterMap r.gid.get?).foldl SortedMap.erase r.byGid
    gid := gone.foldl SortedMap.erase r.gid
    epochOf := gone.foldl SortedMap.erase r.epochOf
    epochBase := gone.foldl SortedMap.erase r.epochBase
    gcBoundary := r.gcBoundary.filter fun id => id ∉ gone }

/-- Collect the history below the head and the evidence of the frontier. -/
def gc : Call D γ GcOutcome := do
  let r ← get
  let missing := r.registered.filter fun name => name ≠ r.name && !r.frontier.has name
  if missing ≠ [] then return .refused missing
  let (dag, stats) ← r.dag.runGc (r.headId :: r.frontier.values.map Evidence.id)
  let cut := dag.ids.filter fun id =>
    (dag.parentsOf id).length < (r.dag.parentsOf id).length && !r.epochBase.has id &&
      decide (id ∉ r.gcBoundary)
  set ({ r with
    dag
    gcBoundary := r.gcBoundary ++ cut
    gcClosed := r.gcClosed || decide (stats.dropped > 0) } : Replica D γ).dropIndexes
  return .collected stats

/-- A candidate of `pruneToEpochBase` and its depth. -/
structure Candidate where
  /-- The commit. -/
  id : ℕ
  /-- The depth of its epoch. -/
  num : ℕ
  deriving DecidableEq, Repr

/-- Take a compaction of a depth greater than that of the candidate. -/
def betterCandidate (r : Replica D γ) (best : Option Candidate) (id : ℕ) : Option Candidate :=
  let isCompact := (r.dag.opOf id).isNone &&
    ((r.dag.parentsOf id).length = 1 || r.epochBase.has id)
  match r.epochDag.get? (r.epochAt id) with
  | some n => if isCompact && best.all (·.num < n.num) then some ⟨id, n.num⟩ else best
  | none => best

/-- Has the evidence from a replica passed a cut, by its last operation or by its last receipt? -/
def pastCut (r : Replica D γ) (kKey : EpochKey γ) (name : String) : Except Failure Bool := do
  let authored ← match r.frontier.get? name with
    | some e => r.epochDag.subcut kKey (r.epochAt e.id)
    | none => .ok false
  let fetched ← match r.fetchAcks.get? name with
    | some key => r.epochDag.subcut kKey key
    | none => .ok false
  return authored || fetched

/-- The registered replicas whose evidence has not passed a cut. -/
def notPastCut (r : Replica D γ) (kKey : EpochKey γ) : List String → Except Failure (Option String)
  | [] => .ok none
  | name :: names => do
    if name = r.name then notPastCut r kKey names
    else if ← r.pastCut kKey name then notPastCut r kKey names
    else return some name

/-- What `pruneToEpochBase` reports. -/
inductive PruneOutcome
  /-- `pruned: 0`, with the reason. -/
  | refused (reason : String)
  /-- The number of removed commits and the depth of the base. -/
  | pruned (count epoch : ℕ)
  deriving DecidableEq, Repr

/-- Remove commits and their indexes. -/
def removeCommits (r : Replica D γ) (below : List ℕ) : Replica D γ :=
  { r with
    dag := below.foldl Dag.remove r.dag
    byGid := (below.filterMap r.gid.get?).foldl SortedMap.erase r.byGid
    gid := below.foldl SortedMap.erase r.gid
    epochOf := below.foldl SortedMap.erase r.epochOf
    epochBase := below.foldl SortedMap.erase r.epochBase }

/-- Prune the history below the newest compaction. -/
def pruneToEpochBase : Call D γ PruneOutcome := do
  let r ← get
  let closure ← r.dag.ancestorSet r.headId
  match closure.foldl r.betterCandidate none with
  | none => return .refused "no compaction in ancestry"
  | some k =>
    match r.dag.parentsOf k.id with
    | [] => return .refused "already the epoch base"
    | p :: _ =>
      let sc ← r.stableCut
      if !sc.complete then
        let names := ",".intercalate sc.missing
        return .refused s!"cut incomplete: missing {names}"
      match ← r.notPastCut (r.epochAt k.id) r.registered with
      | some name => return .refused s!"evidence from {name} has not reached the compaction cut"
      | none =>
        let below ← r.dag.ancestorSet p
        let dag ← r.dag.sever k.id
        set (({ r with dag, epochBase := r.epochBase.insert k.id (r.gid.get? p) } :
          Replica D γ).removeCommits below)
        refresh
        return .pruned below.length k.num

end Replica

end SalRuntime
