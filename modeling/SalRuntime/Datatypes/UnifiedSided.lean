import SalRuntime.Datatypes.Mrdt
import SalRuntime.Datatypes.SidedOp

/-!
# The full policy kernel

The sided sequence of `src/datatypes/unifiedSidedEmbedRGA.js`. A node of every inserted id keeps
its chain; a live node also keeps its element and the observation of its gap. The label of a step
is the id of its node. The state-compaction hooks and the snapshots are left out.

## Main definitions

* `UnifiedSided.prepare`, `UnifiedSided.apply`, `UnifiedSided.merge3`,
  `UnifiedSided.readEntries` — the operations.
* `unifiedSided` — the datatype.
-/

namespace SalRuntime

variable {α : Type}

namespace UnifiedSided

/-- The observation of a gap: is there a right child, and what follows the anchor. -/
structure Gap where
  /-- Does the anchor have a right child? -/
  hasR : Bool
  /-- The id of the successor. -/
  succId : Option ℕ
  deriving DecidableEq, Repr

/-- A node: its chain, and the element and the gap of a live node. -/
structure Node (α : Type) where
  /-- The chain. -/
  chain : Chain
  /-- The element. A deleted node has none. -/
  el : Option α
  /-- The observation of the gap. -/
  gap : Option Gap
  deriving DecidableEq, Repr

/-- A state. -/
structure State (α : Type) where
  /-- The nodes of the inserted ids. -/
  nodes : SortedMap ℕ (Node α)
  /-- The gap at the root. -/
  rootGap : Gap
  /-- A cached policy order. -/
  order : Option (List ℕ)

/-- The initial state. -/
def init : State α := { nodes := SortedMap.empty, rootGap := ⟨false, none⟩, order := none }

/-- Is there a node, and is it live? -/
def live (n : Option (Node α)) : Bool := (n.bind Node.el).isSome

/-- The gap of an anchor. -/
def gap (s : State α) : Option ℕ → Option Gap
  | none => some s.rootGap
  | some id => (s.nodes.get? id).bind Node.gap

/-- The chain of a parent. -/
def chain (s : State α) : Option ℕ → Option Chain
  | none => some []
  | some id => (s.nodes.get? id).map Node.chain

/-- Place an insertion, unless it is placed. -/
def prepare (s : State α) : SidedOp α → Except Failure (SidedOp α)
  | .ins id el anchorId none => do
    if id < 1 ∨ s.nodes.has id = true then throw (.error s!"bad fresh id {id}")
    if anchorId.any fun a => !live (s.nodes.get? a) then
      throw (.error s!"anchor {showId anchorId} not live")
    match gap s anchorId with
    | none => throw (.error s!"gap {showId anchorId} missing")
    | some g =>
      let side := mintSide g.hasR g.succId
      let parentId := mintParent g.succId anchorId side
      if (chain s parentId).isNone then
        throw (.error s!"parent chain {showId parentId} missing")
      if h : parentId.getD 0 < id then return .ins id el anchorId (some ⟨side, parentId, h⟩)
      throw (.error "non-positive delta")
  | op => return op

/-- The state with a new node, of which the anchor has now a right child or a successor. -/
def linkNode (s : State α) (id : ℕ) (el : α) (anchorId succId : Option ℕ) (ch : Chain) :
    State α where
  nodes := (s.nodes.modifyAt anchorId fun n => { n with gap := some ⟨true, some id⟩ }).insert id
    { chain := ch, el := some el, gap := some ⟨false, succId⟩ }
  rootGap := if anchorId.isNone then ⟨true, some id⟩ else s.rootGap
  order := none

/-- Insert a node at a place. -/
def insertAt (s : State α) (id : ℕ) (el : α) (anchorId : Option ℕ) (p : Placement id) :
    Except Failure (State α) :=
  match gap s anchorId with
  | none =>
    if p.side = .R ∧ p.parentId ≠ anchorId then .error (.error "Fugue parent mismatch")
    else .error (.error "Cannot read properties of undefined")
  | some g =>
    if p.parentId ≠ mintParent g.succId anchorId p.side then
      .error (.error "Fugue parent mismatch")
    else
      .ok (linkNode s id el anchorId g.succId
        ((chain s p.parentId).getD [] ++ [⟨p.side, id - p.parentId.getD 0, id⟩]))

/-- Apply an operation. Deleting an id that is not live does nothing. -/
def apply (s : State α) (raw : SidedOp α) : Except Failure (State α) := do
  match ← prepare s raw with
  | .ins id el anchorId (some p) => insertAt s id el anchorId p
  | .ins _ _ _ none => throw (.error "Fugue parent mismatch")
  | .del id =>
    match s.nodes.get? id with
    | none => return s
    | some n =>
      if n.el.isNone then return s
      return { s with nodes := s.nodes.insert id { n with el := none, gap := none }, order := none }

/-! ### The policy order -/

/-- The id of the last node of a chain. -/
def idOf (c : Chain) : Option ℕ := c.getLast?.map Link.label

/-- Siblings on a side by descending keys, and by ascending ids. -/
def precedes (c d : Chain) : Prop :=
  blockKey d < blockKey c ∨ blockKey c = blockKey d ∧ (idOf c).getD 0 ≤ (idOf d).getD 0

instance : DecidableRel precedes := fun c d =>
  inferInstanceAs (Decidable (blockKey d < blockKey c ∨
    blockKey c = blockKey d ∧ (idOf c).getD 0 ≤ (idOf d).getD 0))

/-- The chains of the children of a node on a side. -/
def band (nodes : SortedMap ℕ (Node α)) (parentId : Option ℕ) (side : FugueSide) : List Chain :=
  (((eachEntry nodes).map fun e => e.2.chain).filter fun c =>
    idOf c.dropLast = parentId ∧ c.getLast?.map Link.side = some side).insertionSort precedes

/-- The ids of all nodes in policy order. A node is on the stack twice at most. -/
def policyOrder (nodes : SortedMap ℕ (Node α)) : List ℕ :=
  let roots := band nodes none .L ++ band nodes none .R
  (inOrder (fun c => (band nodes (idOf c) .L, band nodes (idOf c) .R)) (2 * nodes.size)
    (roots.map (·, false))).filterMap idOf

/-- The live entries in display order. -/
def readEntries (s : State α) : List (ℕ × Chain × α) :=
  (s.order.getD (policyOrder s.nodes)).filterMap fun id =>
    (s.nodes.get? id).bind fun n => n.el.map fun el => (id, n.chain, el)

/-- The live ids in display order. -/
def readIds (s : State α) : List ℕ := (readEntries s).map Prod.fst

/-- The live elements in display order. -/
def read (s : State α) : List α := (readEntries s).map fun e => e.2.2

/-! ### The merge -/

/-- The later of two successors. -/
def maxSucc (chainOf : ℕ → Option Chain) : Option ℕ → Option ℕ → Except Failure (Option ℕ)
  | none, j => .ok j
  | i, none => .ok i
  | some i, some j =>
    match chainOf i, chainOf j with
    | some c, some d => .ok (some (if coordKey c < coordKey d then j else i))
    | _, _ => .error (.error "Cannot read properties of undefined (reading 'chain')")

/-- Merge the observations of a gap. -/
def mergeGap (chainOf : ℕ → Option Chain) (ga gb : Option Gap) : Except Failure (Option Gap) := do
  if ga = gb then return ga
  let succId ← maxSucc chainOf (ga.bind Gap.succId) (gb.bind Gap.succId)
  return some ⟨ga.any Gap.hasR || gb.any Gap.hasR, succId⟩

/-- The chain of a node of either side of a merge. -/
def chainIn (a b : State α) (id : ℕ) : Option Chain :=
  ((a.nodes.get? id).or (b.nodes.get? id)).map Node.chain

/-- Is the node of an id that both sides have live after the merge? -/
def staysLive (nl na nb : Option (Node α)) : Bool :=
  (live na && live nb) || (live na && !live nl) || (live nb && !live nl)

/-- The merged node of an id that both sides have. -/
def joinNodes (chainOf : ℕ → Option Chain) (isLive : Bool) (na nb : Node α) :
    Except Failure (Node α) :=
  if isLive then do
    let g ← mergeGap chainOf na.gap nb.gap
    return { chain := na.chain, el := if live (some na) then na.el else nb.el, gap := g }
  else return { chain := na.chain, el := none, gap := none }

/-- The merged node of an id that `b` has. -/
def mergeNode (l a b : State α) (id : ℕ) (nb : Node α) : Except Failure (Node α) :=
  match a.nodes.get? id with
  | none => return nb
  | some na =>
    if na.chain ≠ nb.chain ∧ coord na.chain ≠ coord nb.chain then
      throw (.error s!"chain divergence {id}")
    else joinNodes (chainIn a b) (staysLive (l.nodes.get? id) (some na) (some nb)) na nb

/-- The deleted node of an id that is live in the base and in `a` and that `b` lacks. -/
def settled (l a b : State α) (id : ℕ) : Option (Node α) :=
  if b.nodes.has id then none
  else (a.nodes.get? id).bind fun na =>
    if live (l.nodes.get? id) && live (some na) then
      some { chain := na.chain, el := none, gap := none }
    else none

/-- The three-way merge: the base, then the two sides. -/
def merge3 (l a b : State α) : Except Failure (State α) := do
  let t ← (eachEntry b.nodes).foldlM
    (fun t e => do return t.insert e.1 (← mergeNode l a b e.1 e.2)) a.nodes
  let rootGap ← mergeGap (chainIn a b) (some a.rootGap) (some b.rootGap)
  return {
    nodes := ((eachEntry l.nodes).map Prod.fst).foldl
      (fun t id => t.insertSome id (settled l a b id)) t
    rootGap := rootGap.getD a.rootGap
    order := none }

end UnifiedSided

/-- The full policy kernel. -/
@[reducible] def unifiedSided (α : Type) : Datatype where
  State := UnifiedSided.State α
  Op := SidedOp α
  View := List α
  Print := Unit
  printDecEq := inferInstance
  Wire := Unit
  Cut := Unit
  Translate := Unit
  init := UnifiedSided.init
  prepare := some UnifiedSided.prepare
  needsPrepare := true
  apply := UnifiedSided.apply
  applyBatch := some fun s ops => ops.foldlM UnifiedSided.apply s
  merge3 := UnifiedSided.merge3
  read := UnifiedSided.read
  insId := SidedOp.insId
  headOnlyMerge := false
  auditMergeCoverage := none
  fingerprint := none
  encodeState := none
  decodeState := none
  compact := none
  remapState := none
  settledCut := fun _ => ()
  emptyCut := ()
  settledIds := fun _ => none
  cutFromMeet := none
  inverseTranslate := none
  coordInverse := fun _ _ => .ok ()

namespace UnifiedSided

/-! ### Siblings -/

theorem le_of_precedes {c d : Chain} (h : precedes c d) : blockKey d ≤ blockKey c :=
  h.elim le_of_lt fun h => h.1.ge

instance : Std.Total precedes := ⟨fun c d => by
  rcases lt_trichotomy (blockKey c) (blockKey d) with h | h | h
  · exact Or.inr (Or.inl h)
  · exact (le_total ((idOf c).getD 0) ((idOf d).getD 0)).imp (fun hle => Or.inr ⟨h, hle⟩)
      fun hle => Or.inr ⟨h.symm, hle⟩
  · exact Or.inl (Or.inl h)⟩

instance : IsTrans Chain precedes := ⟨fun c d e h h' => by
  rcases h with h | ⟨h, hle⟩
  · exact Or.inl ((le_of_precedes h').trans_lt h)
  · rcases h' with h' | ⟨h', hle'⟩
    · exact Or.inl (h ▸ h')
    · exact Or.inr ⟨h.trans h', hle.trans hle'⟩⟩

theorem mem_band {nodes : SortedMap ℕ (Node α)} {parentId : Option ℕ} {side : FugueSide} {k : Chain} :
    k ∈ band nodes parentId side ↔ (∃ id n, nodes.get? id = some n ∧ n.chain = k) ∧
      idOf k.dropLast = parentId ∧ k.getLast?.map Link.side = some side := by
  rw [band, List.mem_insertionSort, List.mem_filter, decide_eq_true_eq]
  refine and_congr_left fun _ => ?_
  simp only [List.mem_map, mem_eachEntry, Prod.exists]

theorem pairwise_band (nodes : SortedMap ℕ (Node α)) (parentId : Option ℕ) (side : FugueSide) :
    (band nodes parentId side).Pairwise fun c d => blockKey d ≤ blockKey c :=
  (List.pairwise_insertionSort precedes _).imp le_of_precedes

theorem nodup_band {nodes : SortedMap ℕ (Node α)}
    (hnodup : ((eachEntry nodes).map fun e => e.2.chain).Nodup) (parentId : Option ℕ)
    (side : FugueSide) : (band nodes parentId side).Nodup :=
  (List.perm_insertionSort precedes _).nodup_iff.mpr (hnodup.filter _)

end UnifiedSided

end SalRuntime
