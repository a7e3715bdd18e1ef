import SalRuntime.Datatypes.EmbedRGA

/-!
# State compaction of the embedded-chain sequence

The compaction `compactEliasDelta` of `src/compact.js` and the inverse map of `src/epoch.js`. The
coordinates of the live records form a tree; sibling groups below a settled cut are renumbered, and
every coordinate is rewritten along the tree.

The tree is kept as the list of its nodes in the order of their creation, each under the chain of
deltas that leads to it from the root. A chain tells the telescoped id of its node and the chain of
its parent, so neither is stored. What the code computes by a traversal of the tree is computed for
each node from the chain.

## Main definitions

* `CoordTree` — the coordinate tree.
* `compactEliasDelta` — the compaction at a cut.
* `buildInverseTranslate` — the map back from compacted coordinates.
* `compactibleEmbedRGA` — the sequence with the compaction hooks.
-/

namespace SalRuntime

variable {α : Type}

/-- A settled cut; an absent field is empty. -/
structure CoordCut where
  /-- The insert ids that are asserted settled. -/
  settledIds : Option (List ℕ)
  /-- Coordinates known to be in flight. -/
  inflight : List (List Bool)
  /-- Coordinates of records at which an operation in flight is anchored. -/
  frozenAnchorCoords : List (List Bool)
  deriving DecidableEq

/-- A node of the coordinate tree. -/
structure CoordNode where
  /-- The live record of the node. -/
  recordId : Option ℕ
  /-- Does a coordinate in flight enter the child group of the node by an unsettled codeword? -/
  inflightChild : Bool
  /-- Does a coordinate in flight end at the node? -/
  inflightHere : Bool
  /-- Does the walk along a coordinate in flight witness that the node is settled? -/
  seedSettled : Bool
  deriving DecidableEq, Repr

/-- A new node. -/
def mkNode : CoordNode where
  recordId := none
  inflightChild := false
  inflightHere := false
  seedSettled := false

/-- The nodes of a coordinate tree under their chains. -/
abbrev CoordTree := List (List ℕ × CoordNode)

namespace CoordTree

/-- The tree with the root only. -/
def root : CoordTree := [([], mkNode)]

/-- The node of a chain. -/
def node? (t : CoordTree) (p : List ℕ) : Option CoordNode := (t.find? fun e => e.1 = p).map Prod.snd

/-- Is there a node of this chain? -/
def has (t : CoordTree) (p : List ℕ) : Bool := (t.node? p).isSome

/-- The tree in which the node `p` has a child for the delta `d`. -/
def childOf (t : CoordTree) (p : List ℕ) (d : ℕ) : CoordTree :=
  if t.has (p ++ [d]) then t else t ++ [(p ++ [d], mkNode)]

/-- Change the node of a chain. -/
def update (t : CoordTree) (p : List ℕ) (f : CoordNode → CoordNode) : CoordTree :=
  t.map fun e => if e.1 = p then (e.1, f e.2) else e

/-- The deltas of the children of a node, ascending. -/
def kids (t : CoordTree) (p : List ℕ) : List ℕ :=
  (t.filterMap fun e => if e.1.dropLast = p then e.1.getLast? else none).insertionSort (· ≤ ·)

/-- Walk down from the node `p`, creating the nodes that are missing and changing each of them. -/
def descend (f : CoordNode → CoordNode) (t : CoordTree) (p : List ℕ) : List ℕ → CoordTree
  | [] => t
  | d :: ds => descend f ((t.childOf p d).update (p ++ [d]) f) (p ++ [d]) ds

/-- Enter a live record. -/
def addRecord (t : CoordTree) (id : ℕ) (coord : List Bool) : Except Failure CoordTree := do
  let chain ← decodeChain coord
  return (t.descend (fun n => n) [] chain).update chain fun n => { n with recordId := some id }

/-- Enter the live records of a state. -/
def addRecords (t : CoordTree) : List (ℕ × Record α) → Except Failure CoordTree
  | [] => .ok t
  | (id, rec) :: es => do addRecords (← t.addRecord id rec.coord) es

/-- Walk along a coordinate in flight, from the node `p` on: its settled codewords keep the nodes
they pass through, and the first other one is noted at the node whose child group it enters. -/
def seedInflight (settled : List ℕ) (total : ℕ) :
    ℕ → CoordTree → List ℕ → List Bool → Except Failure CoordTree
  | _, t, p, [] =>
    .ok (if p = [] then t else t.update p fun n => { n with inflightHere := true })
  | 0, t, _, _ :: _ => .ok t
  | n + 1, t, p, b :: bits => do
    let (d, rest) ← decodeOne (total - (b :: bits).length) (b :: bits)
    if p.sum + d ∉ settled then return t.update p fun n => { n with inflightChild := true }
    let t := (t.childOf p d).update (p ++ [d]) fun n => { n with seedSettled := true }
    seedInflight settled total n t (p ++ [d]) rest

/-- Enter the coordinates in flight. -/
def addInflight (settled : List ℕ) (t : CoordTree) : List (List Bool) → Except Failure CoordTree
  | [] => .ok t
  | c :: cs => do addInflight settled (← seedInflight settled c.length c.length t [] c) cs

/-- Note that the child group at a coordinate is frozen. -/
def freeze (t : CoordTree) (coord : List Bool) : Except Failure CoordTree := do
  let chain ← decodeChain coord
  return (t.descend (fun n => { n with seedSettled := true }) [] chain).update chain
    fun n => { n with inflightChild := true }

/-- Enter the frozen anchors. -/
def addFrozen (t : CoordTree) : List (List Bool) → Except Failure CoordTree
  | [] => .ok t
  | c :: cs => do addFrozen (← t.freeze c) cs

/-- The tree of a state at a cut. -/
def build (s : EmbedRGA.State α) (cut : CoordCut) : Except Failure CoordTree := do
  let t ← root.addRecords s.entries
  let t ← addInflight (cut.settledIds.getD []) t cut.inflight
  t.addFrozen cut.frozenAnchorCoords

section Recode

variable (t : CoordTree) (settled : List ℕ) (opts : CompactOpts)

/-- Is a node known to be settled: by its own record, by a walk along a coordinate in flight, or
by a descendant? -/
def evidence (p : List ℕ) : Bool :=
  t.any fun e => p.isPrefixOf e.1 && (e.2.seedSettled || e.2.recordId.any (· ∈ settled))

/-- Are the nodes on the way from the node `p` settled? -/
def stableFrom (p : List ℕ) : List ℕ → Bool
  | [] => true
  | d :: ds => t.evidence settled (p ++ [d]) && stableFrom (p ++ [d]) ds

/-- Is a node below the cut: is it settled, with all its ancestors? -/
def stable (p : List ℕ) : Bool := t.stableFrom settled [] p

/-- May the node be on a spine: is it dead, stable, with a single child? -/
def spineMember (p : List ℕ) : Bool :=
  (t.node? p).any (·.recordId.isNone) && t.stable settled p && decide ((t.kids p).length = 1)

/-- Is no coordinate in flight anchored or ending at the node? -/
def inflightFree (p : List ℕ) : Bool := (t.node? p).any fun n => !n.inflightChild && !n.inflightHere

/-- Is the node collapsed onto its parent: are both members of a spine? The root is on no spine. -/
def fusedAway (p : List ℕ) : Bool :=
  opts.fuseSpines && decide (p.dropLast ≠ []) &&
    (t.spineMember settled p.dropLast && t.inflightFree p.dropLast) &&
      (t.spineMember settled p && t.inflightFree p)

/-- Are all children of the node stable? -/
def allStable (p : List ℕ) : Bool := (t.kids p).all fun d => t.stable settled (p ++ [d])

/-- Is the child group of the node renumbered? -/
def renumber (p : List ℕ) : Bool :=
  t.allStable settled p &&
    (!(t.node? p).any CoordNode.inflightChild || opts.unguardedRenumber)

/-- The new delta of a node: its rank among its siblings if they are renumbered, else the old one;
zero if the node is collapsed onto its parent. -/
def label (p : List ℕ) : ℕ :=
  if t.fusedAway settled opts p then 0
  else
    let d := p.getLast?.getD 0
    if t.renumber settled opts p.dropLast then (t.kids p.dropLast).idxOf d + 1 else d

/-- The codeword of a new delta; a collapsed node has none. -/
def codeword (d : ℕ) : List Bool := if d = 0 then [] else dEnc d

/-- The new coordinate of a node. -/
def newCoord (p : List ℕ) : List Bool := spell codeword (t.label settled opts) p

/-- Does the traversal visit the node? It passes over the members of a spine above its tail. -/
def visited (p : List ℕ) : Bool := (t.kids p).all fun d => !t.fusedAway settled opts (p ++ [d])

/-- The rounds of `translate`, from the node `p` on. -/
def translateFrom (total : ℕ) : ℕ → List ℕ → List Bool → Except Failure (List Bool)
  | _, p, [] => .ok (t.newCoord settled opts p)
  | 0, p, b :: bits => .ok (t.newCoord settled opts p ++ b :: bits)
  | n + 1, p, b :: bits => do
    let (d, rest) ← decodeOne (total - (b :: bits).length) (b :: bits)
    if t.has (p ++ [d]) then translateFrom total n (p ++ [d]) rest
    else return t.newCoord settled opts p ++ b :: bits

/-- Re-map the part of a coordinate that is in the tree and keep the rest. -/
def translate (coord : List Bool) : Except Failure (List Bool) :=
  t.translateFrom settled opts coord.length coord.length [] coord

/-- The chains of the nodes that satisfy a predicate. -/
def count (p : List ℕ → Bool) : ℕ := (t.filter fun e => p e.1).length

/-- The new record of a live record. -/
def recode (rec : Record α) : Except Failure (Record α) := do
  return { coord := t.newCoord settled opts (← decodeChain rec.coord), el := rec.el }

end Recode

end CoordTree

namespace EmbedRGA

/-- Change the records of a state one after the other. -/
def mapRecords (s : State α) (f : Record α → Except Failure (Record α)) :
    Except Failure (State α) := do
  let es ← s.entries.mapM fun e => do return (e.1, ← f e.2)
  return SortedMap.ofList es

/-- The number of coordinate symbols. -/
def symbols (s : State α) : ℕ := (s.values.map fun rec => rec.coord.length).sum

end EmbedRGA

open CoordTree in
/-- The statistics of a compaction. -/
def compactStats (t : CoordTree) (settled : List ℕ) (opts : CompactOpts)
    (before after : EmbedRGA.State α) : CompactStats :=
  let visited := t.visited settled opts
  let parent p := decide (t.kids p ≠ [])
  { symbolsBefore := EmbedRGA.symbols before
    symbolsAfter := EmbedRGA.symbols after
    groupsRenumbered := t.count fun p => visited p && parent p && t.renumber settled opts p
    groupsSkippedInflight := t.count fun p => visited p &&
      (if parent p then t.allStable settled p && !t.renumber settled opts p
        else (t.node? p).any CoordNode.inflightChild)
    groupsSkippedUnstable := t.count fun p => visited p && parent p && !t.allStable settled p
    spinesFused := t.count fun p => !visited p && !t.fusedAway settled opts p
    levelsRemoved := t.count (t.fusedAway settled opts)
    spinesSkippedInflight := t.count fun p => opts.fuseSpines && decide (p ≠ []) &&
      t.spineMember settled p && !t.inflightFree p }

/-- **Compaction** of a state at a cut. -/
def compactEliasDelta (s : EmbedRGA.State α) (cut : CoordCut) (opts : CompactOpts) :
    Except Failure (Compacted (EmbedRGA.State α) (List Bool → Except Failure (List Bool))) := do
  let settled := cut.settledIds.getD []
  let t ← CoordTree.build s cut
  let state ← EmbedRGA.mapRecords s (t.recode settled opts)
  return { state, translate := t.translate settled opts,
           stats := compactStats t settled opts s state }

/-- Translate the coordinates of a state. -/
def remapState (s : EmbedRGA.State α) (translate : List Bool → Except Failure (List Bool)) :
    Except Failure (EmbedRGA.State α) :=
  EmbedRGA.mapRecords s fun rec => do return { coord := ← translate rec.coord, el := rec.el }

/-! ### The inverse map -/

/-- The tree of an inverse map: the old coordinates of its nodes under the chains of their new
coordinates. -/
abbrev InverseTree := List (List ℕ × List Bool)

namespace InverseTree

/-- The old coordinate of a node. -/
def pre? (t : InverseTree) (p : List ℕ) : Option (List Bool) :=
  (t.find? fun e => e.1 = p).map Prod.snd

/-- Enter a chain of new deltas below the node `p` of old coordinate `pre`, aligned with the
codewords of the old coordinate. -/
def descend (t : InverseTree) (p : List ℕ) (pre : List Bool) :
    List (List Bool) → List ℕ → InverseTree
  | _, [] => t
  | segs, d :: ds =>
    match t.pre? (p ++ [d]) with
    | some pre' => descend t (p ++ [d]) pre' segs.tail ds
    | none =>
      let pre' := pre ++ segs.headD (dEnc d)
      descend (t ++ [(p ++ [d], pre')]) (p ++ [d]) pre' segs.tail ds

/-- The codewords of a coordinate. -/
def codewordSegs (coord : List Bool) : Except Failure (List (List Bool)) := do
  return (← decodeChain coord).map dEnc

/-- Enter the records of the compacted state. -/
def addRecords (preState : EmbedRGA.State α) (t : InverseTree) :
    List (ℕ × Record α) → Except Failure InverseTree
  | [] => .ok t
  | (id, rec) :: es =>
    match preState.get? id with
    | none => addRecords preState t es
    | some old => do
      let segs ← codewordSegs old.coord
      let chain ← decodeChain rec.coord
      addRecords preState (t.descend [] [] segs chain) es

/-- The rounds of the inverse map, from the node `p` on. -/
def applyFrom (t : InverseTree) (total : ℕ) :
    ℕ → List ℕ → List Bool → List Bool → Except Failure (List Bool)
  | _, _, pre, [] => .ok pre
  | 0, _, pre, b :: bits => .ok (pre ++ b :: bits)
  | n + 1, p, pre, b :: bits => do
    let (d, rest) ← decodeOne (total - (b :: bits).length) (b :: bits)
    match t.pre? (p ++ [d]) with
    | some pre' => applyFrom t total n (p ++ [d]) pre' rest
    | none => return pre ++ b :: bits

end InverseTree

/-- **The inverse map** of a compaction, from the states before and after it. -/
def buildInverseTranslate (preState postState : EmbedRGA.State α) :
    Except Failure (List Bool → Except Failure (List Bool)) := do
  let t ← InverseTree.addRecords preState [] postState.entries
  return fun coord => t.applyFrom coord.length coord.length [] [] coord

/-- The embedded-chain sequence with the compaction hooks. -/
@[reducible] def compactibleEmbedRGA (α : Type) [DecidableEq α] : Datatype :=
  { embedRGA α with
    Wire := List (ℕ × List Bool × α)
    Cut := CoordCut
    Translate := List Bool → Except Failure (List Bool)
    encodeState := some EmbedRGA.fingerprint
    decodeState := some fun enc =>
      .ok (SortedMap.ofList (enc.map fun e => (e.1, { coord := e.2.1, el := e.2.2 })))
    compact := some compactEliasDelta
    remapState := some remapState
    settledCut := fun ids => { settledIds := some ids, inflight := [], frozenAnchorCoords := [] }
    emptyCut := { settledIds := none, inflight := [], frozenAnchorCoords := [] }
    settledIds := CoordCut.settledIds
    cutFromMeet := none
    inverseTranslate := none
    coordInverse := buildInverseTranslate }

end SalRuntime
