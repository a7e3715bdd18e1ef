import SalRuntime.Datatypes.CoordinateOrder
import SalRuntime.Datatypes.SidedOp
import SalRuntime.Foundations.Preorder

/-!
# The prefix-sharing embedded-chain RGA

The kernel of `src/datatypes/sharedEmbedRGA.js`: a record points to a path node, which points to its
parent, instead of carrying the bits of its whole coordinate. The read rebuilds the tree of the retained
nodes and walks it in preorder, newest children first.

A node is told from others by its id, as the code tells them in its maps; nodes are values, so what the code
shares is not seen.

## Main definitions

* `PathNode` — path nodes.
* `SharedEmbedRGA.apply`, `SharedEmbedRGA.merge3`, `SharedEmbedRGA.readEntries` — the operations.
* `sharedEmbedRGA` — the datatype.
* `SharedEmbedRGA.sharedToAbsolute` — the state with absolute coordinates.
* `SharedEmbedRGA.Woven` — the nodes of a state are told apart by their ids and by their distances.

## Main results

* `SharedEmbedRGA.Woven.readEntries_eq` — the walk of the nodes reads what sorting the absolute
  coordinates reads.
* `SharedEmbedRGA.merge3_eq_ok` — the merge of states whose nodes agree.
-/

namespace SalRuntime

variable {α : Type}

/-- A path node, or `null`. -/
inductive PathNode
  /-- No node: the parent of a root. -/
  | null
  /-- A node. -/
  | node (parent : PathNode) (delta : ℕ) (id : ℤ) (birthId birthParentId : Option ℕ)
  deriving DecidableEq, Repr

namespace PathNode

/-- The parent. -/
def parent : PathNode → PathNode
  | null => null
  | node parent .. => parent

/-- The distance from the parent. -/
def delta : PathNode → ℕ
  | null => 0
  | node _ delta .. => delta

/-- The id, or zero. -/
def id : PathNode → ℤ
  | null => 0
  | node _ _ id .. => id

/-- The id under which the node was inserted. -/
def birthId : PathNode → Option ℕ
  | null => none
  | node _ _ _ birthId _ => birthId

/-- The id of the anchor of the insertion, or zero. -/
def birthParentId : PathNode → Option ℕ
  | null => none
  | node _ _ _ _ birthParentId => birthParentId

/-- The distances from the root to the node. -/
def deltas : PathNode → List ℕ
  | null => []
  | node parent delta .. => parent.deltas ++ [delta]

/-- The node and its ancestors. -/
def ancestors : PathNode → List PathNode
  | null => []
  | node parent delta id birthId birthParentId =>
    node parent delta id birthId birthParentId :: parent.ancestors

theorem deltas_eq {n : PathNode} (h : n ≠ null) : n.deltas = n.parent.deltas ++ [n.delta] := by
  cases n with
  | null => exact absurd rfl h
  | node parent delta id birthId birthParentId => rfl

theorem deltas_eq_nil_iff {n : PathNode} : n.deltas = [] ↔ n = null := by
  cases n with
  | null => simp [deltas]
  | node parent delta id birthId birthParentId => simp [deltas]

theorem ne_null_of_mem_ancestors {m n : PathNode} (h : m ∈ n.ancestors) : m ≠ null := by
  induction n with
  | null => cases h
  | node parent delta id birthId birthParentId ih =>
    rcases List.mem_cons.mp h with rfl | h
    · exact PathNode.noConfusion
    · exact ih h

theorem mem_ancestors_self {n : PathNode} (h : n ≠ null) : n ∈ n.ancestors := by
  cases n with
  | null => exact absurd rfl h
  | node parent delta id birthId birthParentId => exact List.mem_cons_self

theorem parent_mem_ancestors {m n : PathNode} (h : m ∈ n.ancestors) (hne : m.parent ≠ null) :
    m.parent ∈ n.ancestors := by
  induction n with
  | null => cases h
  | node parent delta id birthId birthParentId ih =>
    rcases List.mem_cons.mp h with rfl | h
    · exact List.mem_cons_of_mem _ (mem_ancestors_self hne)
    · exact List.mem_cons_of_mem _ (ih h)

/-- The nonempty prefixes of the distances of a node are those of its ancestors. -/
theorem exists_ancestor_of_prefix {n : PathNode} {c : List ℕ} (h : c <+: n.deltas) (hne : c ≠ []) :
    ∃ m ∈ n.ancestors, m.deltas = c := by
  induction n with
  | null => exact absurd (List.prefix_nil.mp h) hne
  | node parent delta id birthId birthParentId ih =>
    rcases List.prefix_concat_iff.mp h with heq | hpre
    · exact ⟨_, List.mem_cons_self, heq.symm⟩
    · obtain ⟨m, hm, heq⟩ := ih hpre
      exact ⟨m, List.mem_cons_of_mem _ hm, heq⟩

theorem mem_ancestors_trans {k m n : PathNode} (h : k ∈ m.ancestors) (hm : m ∈ n.ancestors) :
    k ∈ n.ancestors := by
  induction n with
  | null => cases hm
  | node parent delta id birthId birthParentId ih =>
    rcases List.mem_cons.mp hm with rfl | hm
    · exact h
    · exact List.mem_cons_of_mem _ (ih hm)

/-- The distances of a node are its own and those of its ancestors. -/
theorem exists_ancestor_of_mem_deltas {n : PathNode} {d : ℕ} (h : d ∈ n.deltas) :
    ∃ m ∈ n.ancestors, m.delta = d := by
  induction n with
  | null => cases h
  | node parent delta id birthId birthParentId ih =>
    rcases List.mem_append.mp h with h | h
    · obtain ⟨m, hm, heq⟩ := ih h
      exact ⟨m, List.mem_cons_of_mem _ hm, heq⟩
    · exact ⟨_, List.mem_cons_self, (List.mem_singleton.mp h).symm⟩

end PathNode

namespace SharedEmbedRGA

/-- A record: the path node and the element. -/
structure Rec (α : Type) where
  /-- The path node. -/
  path : PathNode
  /-- The element. -/
  el : α
  deriving DecidableEq, Repr

/-- States: the live records by id. -/
abbrev State (α : Type) := SortedMap ℕ (Rec α)

/-- The initial state. -/
def init : State α := SortedMap.empty

/-- Mint the record of an insertion. -/
def insRecord (s : State α) (id : ℕ) (el : α) (anchorId : Option ℕ) : Except Failure (Rec α) := do
  if s.has id then throw (.error s!"duplicate insert id {id}")
  let (parent, anchor) ← match anchorId with
    | none => pure (PathNode.null, 0)
    | some a =>
      match s.get? a with
      | none => throw (.error s!"anchor {a} not live")
      | some r => pure (r.path, a)
  if (id : ℤ) - anchor < 1 then
    throw (.error s!"delta must be positive, got {(id : ℤ) - anchor}")
  return { path := .node parent (id - anchor) id (some id) (some (anchorId.getD 0)), el }

/-- Apply an operation. Deleting an absent id does nothing. -/
def apply (s : State α) : SeqOp α → Except Failure (State α)
  | .ins id el anchorId => do return s.insert id (← insRecord s id el anchorId)
  | .del id => return s.erase id

/-- Apply a list of operations, one after the other. -/
def applyBatch (s : State α) (ops : List (SeqOp α)) : Except Failure (State α) := ops.foldlM apply s

/-! ### The read -/

/-- Add a node and its ancestors to the nodes seen, up to the first one that has been seen. -/
def visit (seen : List PathNode) : PathNode → List PathNode
  | .null => seen
  | .node parent delta id birthId birthParentId =>
    if id ∈ seen.map PathNode.id then seen
    else visit (seen ++ [.node parent delta id birthId birthParentId]) parent

/-- The nodes that the records retain, in the order in which they are seen. -/
def retained (s : State α) : List PathNode :=
  (eachEntry s).foldl (fun seen e => visit seen e.2.path) []

/-- Nodes by descending distances. -/
def ordered (ns : List PathNode) : List PathNode := ns.insertionSort fun m n => n.delta ≤ m.delta

/-- The nodes without a parent. -/
def roots (ns : List PathNode) : List PathNode := ordered (ns.filter fun n => n.parent = .null)

/-- The nodes filed under the id of their parent. -/
def children (ns : List PathNode) (id : ℤ) : List PathNode :=
  ordered (ns.filter fun n => n.parent ≠ .null ∧ n.parent.id = id)

/-- The record filed under the id of its node; a later one replaces an earlier one. -/
def liveAt (s : State α) (id : ℤ) : Option (ℕ × Rec α) :=
  (eachEntry s).reverse.find? fun e => e.2.path.id = id

/-- The records in display order. Every retained node is popped at most once, so their number bounds the
rounds. -/
def readEntries (s : State α) : List (ℕ × Rec α) :=
  let ns := retained s
  (preorder (fun n => children ns n.id) ns.length (roots ns)).filterMap fun n => liveAt s n.id

/-- The elements in display order. -/
def read (s : State α) : List α := (readEntries s).map fun e => e.2.el

/-- The ids in display order. -/
def readIds (s : State α) : List ℕ := (readEntries s).map Prod.fst

/-! ### Absolute coordinates -/

/-- The coordinate of a node: the codewords of its distances. -/
def coordOf (path : PathNode) : List Bool := path.deltas.flatMap dEnc

/-- The record with its absolute coordinate. -/
def Rec.absolute (r : Rec α) : Record α := { coord := coordOf r.path, el := r.el }

/-- The state with absolute coordinates. -/
def sharedToAbsolute (s : State α) : EmbedRGA.State α := s.mapVal fun _ r => r.absolute

/-! ### The merge -/

/-- File a node and its ancestors under the ids of their births, unless these are taken. -/
def fileNodes (nodes : SortedMap ℕ PathNode) : PathNode → SortedMap ℕ PathNode
  | .null => nodes
  | .node parent delta id birthId birthParentId =>
    let n := PathNode.node parent delta id birthId birthParentId
    match birthId with
    | some b => fileNodes (if nodes.has b then nodes else nodes.insert b n) parent
    | none => fileNodes nodes parent

/-- The node that is filed under the birth of a node, or the node itself below such a node. -/
def canonical (nodes : SortedMap ℕ PathNode) :
    PathNode → Except Failure (PathNode × SortedMap ℕ PathNode)
  | .null => return (.null, nodes)
  | .node parent delta id birthId birthParentId =>
    match birthId with
    | none => do
      let (parent, nodes) ← canonical nodes parent
      return (.node parent delta id none birthParentId, nodes)
    | some b =>
      match nodes.get? b with
      | some old =>
        if old.birthParentId ≠ birthParentId then throw (.error s!"birth divergence at node {b}")
        else return (old, nodes)
      | none => do
        let (parent, nodes) ← canonical nodes parent
        let n := PathNode.node parent delta id (some b) birthParentId
        return (n, nodes.insert b n)

/-- Remove from `a` the ids of the base `l` that `b` lacks. -/
def mergeRemove (l a b : State α) : State α :=
  (eachEntry l).foldl (fun t e => if b.has e.1 then t else t.erase e.1) a

/-- Add to `t` the records of `b` that neither `a` nor the base has, on the nodes of `a`; records of both
sides must agree on their births. -/
def mergeAdd (l a : State α) :
    List (ℕ × Rec α) → SortedMap ℕ PathNode → State α → Except Failure (State α)
  | [], _, t => .ok t
  | (id, rb) :: es, nodes, t =>
    match a.get? id with
    | some ra =>
      if ra.path.birthId ≠ rb.path.birthId ∨ ra.path.birthParentId ≠ rb.path.birthParentId then
        .error (.error s!"birth divergence at id {id}: provenance must agree")
      else mergeAdd l a es nodes t
    | none =>
      if l.has id then mergeAdd l a es nodes t
      else do
        let (path, nodes) ← canonical nodes rb.path
        mergeAdd l a es nodes (t.insert id { path, el := rb.el })

/-- The three-way merge: the live ids of both sides, and those a side has and the base lacks. -/
def merge3 (l a b : State α) : Except Failure (State α) :=
  mergeAdd l a (eachEntry b) ((eachEntry a).foldl (fun nodes e => fileNodes nodes e.2.path) .empty)
    (mergeRemove l a b)

/-- The canonical serialization. -/
def fingerprint (s : State α) : List (ℕ × List ℕ × α) :=
  s.entries.map fun e => (e.1, e.2.path.deltas, e.2.el)

end SharedEmbedRGA

/-- The embedded-chain RGA with shared path nodes. -/
@[reducible] def sharedEmbedRGA (α : Type) [DecidableEq α] : Datatype where
  State := SharedEmbedRGA.State α
  Op := SeqOp α
  View := List α
  Print := List (ℕ × List ℕ × α)
  printDecEq := inferInstance
  Wire := Unit
  Cut := Unit
  Translate := Unit
  init := SharedEmbedRGA.init
  prepare := none
  needsPrepare := false
  apply := SharedEmbedRGA.apply
  applyBatch := some SharedEmbedRGA.applyBatch
  merge3 := SharedEmbedRGA.merge3
  read := SharedEmbedRGA.read
  insId := SeqOp.insId
  headOnlyMerge := false
  auditMergeCoverage := none
  fingerprint := some SharedEmbedRGA.fingerprint
  encodeState := none
  decodeState := none
  compact := none
  remapState := none
  settledCut := fun _ => ()
  emptyCut := ()
  settledIds := fun _ => none
  cutFromMeet := none
  inverseTranslate := none
  coordInverse := fun _ _ => .ok ()

namespace SharedEmbedRGA

variable {s : State α}

/-! ### The retained nodes -/

/-- The node, or a descendant of it, is the node of a record. -/
def Retained (s : State α) (n : PathNode) : Prop :=
  ∃ id r, s.get? id = some r ∧ n ∈ r.path.ancestors

theorem Retained.ne_null {n : PathNode} (h : Retained s n) : n ≠ .null := by
  obtain ⟨id, r, -, hn⟩ := h
  exact PathNode.ne_null_of_mem_ancestors hn

theorem Retained.parent {n : PathNode} (h : Retained s n) (hne : n.parent ≠ .null) :
    Retained s n.parent := by
  obtain ⟨id, r, hr, hn⟩ := h
  exact ⟨id, r, hr, PathNode.parent_mem_ancestors hn hne⟩

/-- Records are on nodes of their ids, and the retained nodes are told apart by their ids and by their
distances. -/
structure Woven (s : State α) : Prop where
  /-- A record is on a node. -/
  node : ∀ id r, s.get? id = some r → r.path ≠ .null
  /-- The node has the id of the record. -/
  own : ∀ id r, s.get? id = some r → r.path.id = id
  /-- Nodes have different ids. -/
  same : ∀ m n, Retained s m → Retained s n → m.id = n.id → m = n
  /-- Nodes have different distances. -/
  apart : ∀ m n, Retained s m → Retained s n → m.deltas = n.deltas → m = n
  /-- Distances are positive. -/
  pos : ∀ n, Retained s n → 1 ≤ n.delta

/-- The nodes seen hold the parents of their members, except perhaps the node `p`. -/
def ClosedBut (seen : List PathNode) (p : PathNode) : Prop :=
  ∀ n ∈ seen, n.parent = .null ∨ n.parent ∈ seen ∨ n.parent = p

/-- **A visit** sees the ancestors of the node. -/
theorem visit_spec {p : PathNode} {seen : List PathNode} (hnodup : (seen.map PathNode.id).Nodup)
    (hsame : ∀ m ∈ seen, ∀ n ∈ p.ancestors, m.id = n.id → m = n)
    (hancestors : ∀ m ∈ p.ancestors, ∀ n ∈ p.ancestors, m.id = n.id → m = n)
    (hclosed : ClosedBut seen p) : ((visit seen p).map PathNode.id).Nodup ∧
      ClosedBut (visit seen p) .null ∧ (∀ n, n ∈ visit seen p ↔ n ∈ seen ∨ n ∈ p.ancestors) := by
  induction p generalizing seen with
  | null => exact ⟨hnodup, hclosed, fun n => by simp [visit, PathNode.ancestors]⟩
  | node parent delta id birthId birthParentId ih =>
    set p := PathNode.node parent delta id birthId birthParentId with hp
    have hself : p ∈ p.ancestors := List.mem_cons_self
    rw [visit]
    split_ifs with hid
    · -- The node has been seen, and with it its ancestors.
      obtain ⟨m, hm, hmid⟩ := List.mem_map.mp hid
      obtain rfl : m = p := hsame m hm p hself hmid
      have hnull : ∀ n ∈ seen, n.parent = .null ∨ n.parent ∈ seen := fun n hn => by
        rcases hclosed n hn with h | h | h
        · exact Or.inl h
        · exact Or.inr h
        · exact Or.inr (h ▸ hm)
      have hall (q : PathNode) (hq : q ∈ seen) : ∀ n ∈ q.ancestors, n ∈ seen := by
        induction q with
        | null => simp [PathNode.ancestors]
        | node q' _ _ _ _ ihq =>
          intro n hn
          rcases List.mem_cons.mp hn with rfl | hn
          · exact hq
          · rcases hnull _ hq with h | h
            · rw [show q' = .null from h] at hn
              cases hn
            · exact ihq h n hn
      refine ⟨hnodup, fun n hn => (hnull n hn).imp_right Or.inl, fun n => ⟨Or.inl, ?_⟩⟩
      exact fun h => h.elim (fun h => h) (hall _ hm n)
    · have hparent : ∀ n ∈ parent.ancestors, n ∈ p.ancestors := fun n hn => List.mem_cons_of_mem _ hn
      have hnodup' : ((seen ++ [p]).map PathNode.id).Nodup := by
        rw [List.map_append, List.nodup_append]
        refine ⟨hnodup, List.nodup_singleton _, fun a ha b hb heq => hid ?_⟩
        rw [heq, List.mem_singleton.mp hb] at ha
        exact ha
      have hsame' : ∀ m ∈ seen ++ [p], ∀ n ∈ parent.ancestors, m.id = n.id → m = n := by
        intro m hm n hn
        rcases List.mem_append.mp hm with hm | hm
        · exact hsame m hm n (hparent n hn)
        · rw [List.mem_singleton.mp hm]
          exact hancestors p hself n (hparent n hn)
      have hclosed' : ClosedBut (seen ++ [p]) parent := by
        intro n hn
        rcases List.mem_append.mp hn with hn | hn
        · rcases hclosed n hn with h | h | h
          · exact Or.inl h
          · exact Or.inr (Or.inl (List.mem_append_left _ h))
          · exact Or.inr (Or.inl (List.mem_append_right _ (List.mem_singleton.mpr h)))
        · rw [List.mem_singleton.mp hn]
          exact Or.inr (Or.inr rfl)
      obtain ⟨hnodup'', hclosed'', hmem⟩ := ih hnodup' hsame'
        (fun m hm n hn => hancestors m (hparent m hm) n (hparent n hn)) hclosed'
      refine ⟨hnodup'', hclosed'', fun n => ?_⟩
      rw [hmem, List.mem_append, List.mem_singleton, or_assoc]
      exact or_congr_right List.mem_cons.symm

theorem mem_ordered {ns : List PathNode} {n : PathNode} : n ∈ ordered ns ↔ n ∈ ns :=
  List.mem_insertionSort _

/-- Nodes with different distances are listed by strictly descending distances. -/
theorem pairwise_ordered {ns : List PathNode} (hnodup : ns.Nodup)
    (hinj : ∀ m ∈ ns, ∀ n ∈ ns, m.delta = n.delta → m = n) :
    (ordered ns).Pairwise fun m n => n.delta < m.delta := by
  have htotal : Std.Total fun m n : PathNode => n.delta ≤ m.delta := ⟨fun m n => le_total _ _⟩
  have htrans : IsTrans PathNode fun m n => n.delta ≤ m.delta := ⟨fun _ _ _ hab hbc => hbc.trans hab⟩
  have hsorted : (ordered ns).Pairwise fun m n => n.delta ≤ m.delta := List.pairwise_insertionSort _ _
  have hnodup' : (ordered ns).Nodup := (List.perm_insertionSort _ _).nodup_iff.mpr hnodup
  refine (hsorted.and hnodup').imp_of_mem fun {m n} hm hn hmn => lt_of_le_of_ne hmn.1 fun heq => ?_
  exact hmn.2 (hinj n (mem_ordered.mp hn) m (mem_ordered.mp hm) heq).symm

section Woven

variable (h : Woven s)

include h

theorem foldl_visit_spec {es : List (ℕ × Rec α)} (hes : ∀ e ∈ es, s.get? e.1 = some e.2)
    {seen : List PathNode} (hnodup : (seen.map PathNode.id).Nodup)
    (hseen : ∀ n ∈ seen, Retained s n) (hclosed : ClosedBut seen .null) :
    ((es.foldl (fun seen e => visit seen e.2.path) seen).map PathNode.id).Nodup ∧
      ∀ n, n ∈ es.foldl (fun seen e => visit seen e.2.path) seen ↔
        n ∈ seen ∨ ∃ e ∈ es, n ∈ e.2.path.ancestors := by
  induction es generalizing seen with
  | nil => exact ⟨hnodup, fun n => by simp⟩
  | cons e es ih =>
    rw [List.forall_mem_cons] at hes
    have hretained : ∀ n ∈ e.2.path.ancestors, Retained s n := fun n hn => ⟨e.1, e.2, hes.1, hn⟩
    have hclosed' : ClosedBut seen e.2.path := fun n hn => by
      rcases hclosed n hn with hn | hn | hn
      · exact Or.inl hn
      · exact Or.inr (Or.inl hn)
      · exact Or.inl hn
    obtain ⟨hnodup', hclosed'', hmem⟩ := visit_spec hnodup
      (fun m hm n hn => h.same m n (hseen m hm) (hretained n hn))
      (fun m hm n hn => h.same m n (hretained m hm) (hretained n hn)) hclosed'
    have hseen' : ∀ n ∈ visit seen e.2.path, Retained s n := fun n hn =>
      ((hmem n).mp hn).elim (hseen n) (hretained n)
    obtain ⟨hnodup'', hmem'⟩ := ih hes.2 hnodup' hseen' hclosed''
    refine ⟨hnodup'', fun n => ?_⟩
    rw [List.foldl_cons, hmem', hmem, or_assoc, List.exists_mem_cons_iff]

/-- The retained nodes, each once. -/
theorem Woven.retained_spec : ((retained s).map PathNode.id).Nodup ∧
    ∀ n, n ∈ retained s ↔ Retained s n := by
  have hentries : ∀ e ∈ eachEntry s, s.get? e.1 = some e.2 := fun e he => mem_eachEntry.mp he
  have hnil : (([] : List PathNode).map PathNode.id).Nodup := List.nodup_nil
  obtain ⟨hnodup, hmem⟩ := foldl_visit_spec h hentries hnil (by simp) fun n hn => by cases hn
  refine ⟨hnodup, fun n => ?_⟩
  rw [retained, hmem]
  simp only [List.not_mem_nil, false_or, Retained, Prod.exists, mem_eachEntry]

theorem Woven.pos_of_mem_deltas {n : PathNode} (hn : Retained s n) : ∀ d ∈ n.deltas, 1 ≤ d := by
  intro d hd
  obtain ⟨id, r, hr, hnr⟩ := hn
  obtain ⟨m, hm, rfl⟩ := PathNode.exists_ancestor_of_mem_deltas hd
  exact h.pos m ⟨id, r, hr, PathNode.mem_ancestors_trans hm hnr⟩

/-- The keys of the paths of the retained nodes. -/
theorem Woven.inOrderKey : InOrderKey (PathNode.deltas '' {n | Retained s n}) (fun _ => false)
    fun c => sortKey (c.flatMap dEnc) where
  closed c d hcd hne := by
    obtain ⟨n, ⟨id, r, hr, hnr⟩, hn⟩ := hcd
    obtain ⟨m, hm, rfl⟩ := PathNode.exists_ancestor_of_prefix (n := n) (hn ▸ List.prefix_append c d) hne
    exact ⟨m, ⟨id, r, hr, PathNode.mem_ancestors_trans hm hnr⟩, rfl⟩
  left c x d _ hx := by cases hx
  right c x d hcd _ := by
    obtain ⟨n, hn, heq⟩ := hcd
    have hpos := h.pos_of_mem_deltas hn
    rw [heq] at hpos
    exact sortKey_flatMap_lt (fun e he => hpos e (List.mem_append_left _ he)) hpos
      (above_append_of_ne_nil c (by simp))
  apart c x y d e hx hy hlt := by
    obtain ⟨m, hm, hmx⟩ := hx
    obtain ⟨n, hn, hny⟩ := hy
    have hposx := h.pos_of_mem_deltas hm
    have hposy := h.pos_of_mem_deltas hn
    rw [hmx] at hposx
    rw [hny] at hposy
    have hposx' : ∀ a ∈ c ++ [x], 1 ≤ a := fun a ha => hposx a (by simp at ha ⊢; tauto)
    have hposy' : ∀ a ∈ c ++ [y], 1 ≤ a := fun a ha => hposy a (by simp at ha ⊢; tauto)
    have hab : Above (c ++ [x]) (c ++ [y]) := above_of_sortKey_lt hposx' hposy' hlt
    -- Siblings are compared by their distances.
    have hyx : y < x := by
      rcases lt_trichotomy x y with hxy | rfl | hyx
      · exact absurd (above_of_lt c hxy [] []) hab.asymm
      · exact absurd hab (above_irrefl _)
      · exact hyx
    exact sortKey_flatMap_lt hposx hposy (above_of_lt c hyx d e)

/-- The children of a retained node are the nodes whose distances extend its distances. -/
theorem Woven.mem_children_iff {x : PathNode} (hx : Retained s x) (k : PathNode) :
    k ∈ children (retained s) x.id ↔ Retained s k ∧ ∃ d, k.deltas = x.deltas ++ [d] := by
  rw [children, mem_ordered, List.mem_filter, h.retained_spec.2, decide_eq_true_eq]
  refine and_congr_right fun hk => ⟨fun ⟨hne, hid⟩ => ⟨k.delta, ?_⟩, fun ⟨d, hd⟩ => ?_⟩
  · rw [PathNode.deltas_eq hk.ne_null, h.same _ _ (hk.parent hne) hx hid]
  · rw [PathNode.deltas_eq hk.ne_null] at hd
    have hparent := (List.append_inj' hd rfl).1
    have hne : k.parent ≠ .null := fun hnull => hx.ne_null
      (PathNode.deltas_eq_nil_iff.mp (hparent ▸ PathNode.deltas_eq_nil_iff.mpr hnull))
    exact ⟨hne, congrArg PathNode.id (h.apart _ _ (hk.parent hne) hx hparent)⟩

theorem Woven.mem_roots_iff (k : PathNode) :
    k ∈ roots (retained s) ↔ Retained s k ∧ ∃ d, k.deltas = [d] := by
  rw [roots, mem_ordered, List.mem_filter, h.retained_spec.2, decide_eq_true_eq]
  refine and_congr_right fun hk => ⟨fun hnull => ⟨k.delta, ?_⟩, fun ⟨d, hd⟩ => ?_⟩
  · rw [PathNode.deltas_eq hk.ne_null, hnull]
    rfl
  · have hparent : k.parent.deltas ++ [k.delta] = [] ++ [d] :=
      (PathNode.deltas_eq hk.ne_null).symm.trans hd
    exact PathNode.deltas_eq_nil_iff.mp (List.append_inj' hparent rfl).1

/-- Nodes filtered from the retained ones, all below the same node, are listed by descending keys. -/
theorem Woven.pairwise_key {p : PathNode → Bool} {c : List ℕ}
    (hp : ∀ n, n ∈ ordered ((retained s).filter p) → Retained s n ∧ ∃ d, n.deltas = c ++ [d]) :
    (ordered ((retained s).filter p)).Pairwise fun m n =>
      sortKey (n.deltas.flatMap dEnc) < sortKey (m.deltas.flatMap dEnc) := by
  have hdeltas (n : PathNode) (hn : n ∈ ordered ((retained s).filter p)) :
      Retained s n ∧ n.deltas = c ++ [n.delta] := by
    obtain ⟨hret, d, hd⟩ := hp n hn
    have heq := PathNode.deltas_eq hret.ne_null
    rw [hd] at heq
    obtain ⟨-, hdelta⟩ := List.append_inj' heq rfl
    exact ⟨hret, by rw [hd, hdelta]⟩
  have hsorted := pairwise_ordered (h.retained_spec.1.of_map.filter p) fun m hm n hn heq => by
    obtain ⟨hmr, hmd⟩ := hdeltas m (mem_ordered.mpr hm)
    obtain ⟨hnr, hnd⟩ := hdeltas n (mem_ordered.mpr hn)
    exact h.apart m n hmr hnr (by rw [hmd, hnd, heq])
  refine hsorted.imp_of_mem fun {m n} hm hn hlt => ?_
  obtain ⟨hmr, hmd⟩ := hdeltas m hm
  obtain ⟨hnr, hnd⟩ := hdeltas n hn
  refine sortKey_flatMap_lt (h.pos_of_mem_deltas hmr) (h.pos_of_mem_deltas hnr) ?_
  rw [hmd, hnd]
  exact above_of_lt c hlt [] []

/-- **The retained nodes form a forest.** -/
theorem Woven.pathForest : PathForest {n | Retained s n} PathNode.deltas
    (fun c => sortKey (c.flatMap dEnc)) (fun n => children (retained s) n.id)
    (roots (retained s)) where
  inj m hm n hn heq := h.apart m n hm hn heq
  ne_nil n hn hnil := hn.ne_null (PathNode.deltas_eq_nil_iff.mp hnil)
  key_inj := by
    rintro _ ⟨m, hm, rfl⟩ _ ⟨n, hn, rfl⟩ heq
    have hm := h.pos_of_mem_deltas hm
    have hn := h.pos_of_mem_deltas hn
    rcases above_trichotomy m.deltas n.deltas with hab | hab | hab
    · exact absurd heq (sortKey_flatMap_lt hm hn hab).ne'
    · exact hab
    · exact absurd heq (sortKey_flatMap_lt hn hm hab).ne
  inOrderKey := h.inOrderKey
  mem_kids x hx k := h.mem_children_iff hx k
  sorted_kids x hx := h.pairwise_key fun n hn => (h.mem_children_iff hx n).mp hn
  mem_roots k := h.mem_roots_iff k
  sorted_roots := h.pairwise_key (c := []) fun n hn => (h.mem_roots_iff n).mp hn

theorem Woven.liveAt_eq_some_iff {n : PathNode} {e : ℕ × Rec α} :
    liveAt s n.id = some e ↔ s.get? e.1 = some e.2 ∧ e.2.path.id = n.id := by
  have hmem {e : ℕ × Rec α} (he : liveAt s n.id = some e) :
      s.get? e.1 = some e.2 ∧ e.2.path.id = n.id := by
    refine ⟨mem_eachEntry.mp (List.mem_reverse.mp (List.mem_of_find?_eq_some he)), ?_⟩
    simpa using List.find?_some he
  refine ⟨hmem, fun ⟨he, hid⟩ => ?_⟩
  cases hlive : liveAt s n.id with
  | none =>
    have hnone := List.find?_eq_none.mp hlive e (List.mem_reverse.mpr (mem_eachEntry.mpr he))
    simp [hid] at hnone
  | some f =>
    obtain ⟨hf, hfid⟩ := hmem hlive
    have hkey : f.1 = e.1 := by
      have hown := h.own f.1 f.2 hf
      have hown' := h.own e.1 e.2 he
      omega
    rw [hkey, he, Option.some.injEq] at hf
    exact congrArg some (Prod.ext hkey hf.symm)

/-- **The walk of the nodes** lists the records by descending keys of their coordinates. -/
theorem Woven.readEntries_spec : (readEntries s).Pairwise (fun e f =>
      sortKey (coordOf f.2.path) < sortKey (coordOf e.2.path)) ∧
    ∀ e, e ∈ readEntries s ↔ s.get? e.1 = some e.2 := by
  obtain ⟨hsorted, hmem⟩ := h.pathForest.preorder_spec (h.retained_spec.1.of_map)
    (fun n => h.retained_spec.2 n) le_rfl
  have hlive {n : PathNode} {e : ℕ × Rec α} (hn : Retained s n) (he : liveAt s n.id = some e) :
      e.2.path = n := by
    obtain ⟨he, hid⟩ := h.liveAt_eq_some_iff.mp he
    exact h.same _ _ ⟨e.1, e.2, he, PathNode.mem_ancestors_self (h.node e.1 e.2 he)⟩ hn hid
  rw [readEntries]
  constructor
  · rw [List.pairwise_filterMap]
    refine hsorted.imp_of_mem fun {m n} hm hn hlt e he f hf => ?_
    rw [coordOf, coordOf, hlive ((hmem m).mp hm) he, hlive ((hmem n).mp hn) hf]
    exact hlt
  · intro e
    rw [List.mem_filterMap]
    constructor
    · rintro ⟨n, -, he⟩
      exact (h.liveAt_eq_some_iff.mp he).1
    · intro he
      refine ⟨e.2.path, (hmem _).mpr ?_, h.liveAt_eq_some_iff.mpr ⟨he, rfl⟩⟩
      exact ⟨e.1, e.2, he, PathNode.mem_ancestors_self (h.node e.1 e.2 he)⟩

/-- **A change of the representation only**: the walk of the nodes reads what sorting the absolute
coordinates reads. -/
theorem Woven.readEntries_eq : EmbedRGA.readEntries (sharedToAbsolute s) =
    (readEntries s).map fun e => (e.1, e.2.absolute) := by
  obtain ⟨hsorted, hmem⟩ := h.readEntries_spec
  have hperm := EmbedRGA.perm_readEntries (sharedToAbsolute s)
  have habsolute (e : ℕ × Record α) : e ∈ (sharedToAbsolute s).entries ↔
      e ∈ (readEntries s).map fun e => (e.1, e.2.absolute) := by
    rw [SortedMap.mem_entries_iff, sharedToAbsolute, SortedMap.get?_mapVal, Option.map_eq_some_iff,
      List.mem_map]
    constructor
    · rintro ⟨r, hr, heq⟩
      exact ⟨(e.1, r), (hmem (e.1, r)).mpr hr, Prod.ext rfl heq⟩
    · rintro ⟨f, hf, rfl⟩
      exact ⟨f.2, (hmem f).mp hf, rfl⟩
  have hstrict : ((readEntries s).map fun e => (e.1, e.2.absolute)).Pairwise EmbedRGA.precedes := by
    rw [List.pairwise_map]
    exact hsorted.imp fun hlt => Or.inl hlt
  have hnodup : ((readEntries s).map fun e => (e.1, e.2.absolute)).Nodup := by
    rw [List.Nodup, List.pairwise_map]
    refine hsorted.imp fun {e f} hlt heq => ?_
    have hcoord := congrArg (fun g : ℕ × Record α => sortKey g.2.coord) heq
    exact absurd hcoord hlt.ne'
  have hperm' : (EmbedRGA.readEntries (sharedToAbsolute s)).Perm
      ((readEntries s).map fun e => (e.1, e.2.absolute)) :=
    hperm.trans ((List.perm_ext_iff_of_nodup (sharedToAbsolute s).nodup_keys.of_map hnodup).mpr
      habsolute)
  refine hperm'.eq_of_pairwise (fun e f he hf hef hfe => ?_) (EmbedRGA.pairwise_readEntries _) hstrict
  have hkey : e.1 = f.1 := by
    rcases hef with hef | ⟨hef, hle⟩ <;> rcases hfe with hfe | ⟨hfe, hle'⟩
    · exact absurd hef (lt_asymm hfe)
    · exact absurd hef (by rw [hfe]; exact lt_irrefl _)
    · exact absurd hfe (by rw [hef]; exact lt_irrefl _)
    · omega
  have he := SortedMap.mem_entries_iff.mp (hperm.subset he)
  have hf := SortedMap.mem_entries_iff.mp ((habsolute f).mpr hf)
  rw [hkey, hf, Option.some.injEq] at he
  exact Prod.ext hkey he.symm

theorem Woven.readIds_eq : EmbedRGA.readIds (sharedToAbsolute s) = readIds s := by
  rw [EmbedRGA.readIds, readIds, h.readEntries_eq, List.map_map]
  rfl

theorem Woven.read_eq : EmbedRGA.read (sharedToAbsolute s) = read s := by
  rw [EmbedRGA.read, read, h.readEntries_eq, List.map_map]
  rfl

end Woven

/-! ### Merging states whose nodes agree -/

section Merge

variable {K : Set PathNode} {l a b : State α}

/-- The nodes filed are nodes of `K`, under the ids of their births. -/
def Files (K : Set PathNode) (nodes : SortedMap ℕ PathNode) : Prop :=
  ∀ i n, nodes.get? i = some n → n ∈ K ∧ n.birthId = some i

theorem Files.insert {nodes : SortedMap ℕ PathNode} (h : Files K nodes) {i : ℕ} {n : PathNode}
    (hn : n ∈ K) (hi : n.birthId = some i) : Files K (nodes.insert i n) := by
  intro j m hm
  rw [SortedMap.get?_insert] at hm
  split_ifs at hm with heq
  · cases hm
    exact ⟨hn, heq ▸ hi⟩
  · exact h j m hm

theorem Files.fileNodes {nodes : SortedMap ℕ PathNode} (h : Files K nodes) {n : PathNode}
    (hn : ∀ m ∈ n.ancestors, m ∈ K) : Files K (fileNodes nodes n) := by
  induction n generalizing nodes with
  | null => exact h
  | node parent delta id birthId birthParentId ih =>
    have hself := hn _ List.mem_cons_self
    have hparent : ∀ m ∈ parent.ancestors, m ∈ K := fun m hm => hn m (List.mem_cons_of_mem _ hm)
    cases birthId with
    | none => exact ih h hparent
    | some i =>
      refine ih ?_ hparent
      split_ifs
      · exact h
      · exact h.insert hself rfl

/-- **A canonical node** is the node itself, if nodes with the same birth are the same. -/
theorem canonical_eq_ok (hK : ∀ m ∈ K, ∀ n ∈ K, m.birthId = n.birthId → m.birthId ≠ none → m = n)
    {n : PathNode} (hn : ∀ m ∈ n.ancestors, m ∈ K) {nodes : SortedMap ℕ PathNode}
    (h : Files K nodes) : ∃ nodes', canonical nodes n = .ok (n, nodes') ∧ Files K nodes' := by
  induction n generalizing nodes with
  | null => exact ⟨nodes, rfl, h⟩
  | node parent delta id birthId birthParentId ih =>
    have hself := hn _ List.mem_cons_self
    obtain ⟨nodes', hparent, h'⟩ := ih (fun m hm => hn m (List.mem_cons_of_mem _ hm)) h
    cases birthId with
    | none => exact ⟨nodes', by rw [canonical, hparent]; rfl, h'⟩
    | some i =>
      cases hold : nodes.get? i with
      | some old =>
        obtain ⟨holdK, hbirth⟩ := h i old hold
        obtain rfl := hK old holdK _ hself hbirth (by rw [hbirth]; exact Option.some_ne_none i)
        exact ⟨nodes, by simp [canonical, hold, PathNode.birthParentId, pure, Except.pure], h⟩
      | none =>
        exact ⟨nodes'.insert i _, by simp [canonical, hold, hparent, bind, Except.bind, pure, Except.pure],
          h'.insert hself rfl⟩

theorem mergeAdd_eq_ok (hK : ∀ m ∈ K, ∀ n ∈ K, m.birthId = n.birthId → m.birthId ≠ none → m = n)
    {es : List (ℕ × Rec α)} (hes : ∀ e ∈ es, ∀ m ∈ e.2.path.ancestors, m ∈ K)
    (hnodup : (es.map Prod.fst).Nodup)
    (hagree : ∀ e ∈ es, ∀ ra, a.get? e.1 = some ra →
      ra.path.birthId = e.2.path.birthId ∧ ra.path.birthParentId = e.2.path.birthParentId)
    {nodes : SortedMap ℕ PathNode} (hnodes : Files K nodes) {t : State α} :
    ∃ m, mergeAdd l a es nodes t = .ok m ∧
      (∀ e ∈ es, a.has e.1 = false → l.has e.1 = false → m.get? e.1 = some e.2) ∧
      ∀ id, (id ∈ es.map Prod.fst → a.has id = true ∨ l.has id = true) → m.get? id = t.get? id := by
  induction es generalizing nodes t with
  | nil => exact ⟨t, rfl, by simp, fun _ _ => rfl⟩
  | cons e es ih =>
    obtain ⟨i, rb⟩ := e
    rw [List.map_cons, List.nodup_cons] at hnodup
    rw [List.forall_mem_cons] at hes hagree
    rw [mergeAdd]
    cases ha : a.get? i with
    | some ra =>
      obtain ⟨hbirth, hbirth'⟩ := hagree.1 ra ha
      have hai : a.has i = true := SortedMap.has_iff.mpr ⟨ra, ha⟩
      obtain ⟨m, hm, hnew, hold⟩ := ih hes.2 hnodup.2 hagree.2 hnodes (t := t)
      refine ⟨m, by simpa [hbirth, hbirth'] using hm, List.forall_mem_cons.mpr ⟨?_, hnew⟩,
        fun id hid => hold id fun hmem => hid (List.mem_cons_of_mem _ hmem)⟩
      intro hf
      simp [hai] at hf
    | none =>
      cases hl : l.has i with
      | true =>
        obtain ⟨m, hm, hnew, hold⟩ := ih hes.2 hnodup.2 hagree.2 hnodes (t := t)
        refine ⟨m, by simpa using hm, List.forall_mem_cons.mpr ⟨?_, hnew⟩,
          fun id hid => hold id fun hmem => hid (List.mem_cons_of_mem _ hmem)⟩
        intro _ hf
        simp [hl] at hf
      | false =>
        obtain ⟨nodes', hcanonical, hnodes'⟩ := canonical_eq_ok hK hes.1 hnodes
        obtain ⟨m, hm, hnew, hold⟩ := ih hes.2 hnodup.2 hagree.2 hnodes' (t := t.insert i rb)
        refine ⟨m, by simpa [hcanonical, bind, Except.bind] using hm,
          List.forall_mem_cons.mpr ⟨fun _ _ => ?_, hnew⟩, fun id hid => ?_⟩
        · rw [hold i fun hi => absurd hi hnodup.1, SortedMap.get?_insert_self]
        · have hne : id ≠ i := by
            rintro rfl
            rcases hid List.mem_cons_self with h | h
            · simp [SortedMap.has_eq_false_iff.mpr ha] at h
            · simp [hl] at h
          rw [hold id fun hmem => hid (List.mem_cons_of_mem _ hmem),
            SortedMap.get?_insert_of_ne _ _ hne]

theorem get?_mergeRemove (l a b : State α) (id : ℕ) : (mergeRemove l a b).get? id =
    if l.has id = true ∧ b.has id = false then none else a.get? id := by
  have hfold (es : List (ℕ × Rec α)) (t : State α) :
      (es.foldl (fun t e => if b.has e.1 then t else t.erase e.1) t).get? id =
        if id ∈ es.map Prod.fst ∧ b.has id = false then none else t.get? id := by
    induction es generalizing t with
    | nil => simp
    | cons e es ih =>
      rw [List.foldl_cons, ih, List.map_cons]
      by_cases hid : id = e.1
      · cases hb : b.has id <;> simp [hid, SortedMap.get?_erase, hid ▸ hb]
      · have hmem : id ∈ e.1 :: es.map Prod.fst ↔ id ∈ es.map Prod.fst := by
          rw [List.mem_cons, or_iff_right hid]
        simp only [hmem]
        cases hb : b.has e.1 <;> simp [SortedMap.get?_erase, hid]
  rw [mergeRemove, hfold]
  have hkeys : id ∈ (eachEntry l).map Prod.fst ↔ l.has id = true := by
    rw [List.mem_map, SortedMap.has_iff]
    constructor
    · rintro ⟨e, he, rfl⟩
      exact ⟨e.2, mem_eachEntry.mp he⟩
    · rintro ⟨r, hr⟩
      exact ⟨(id, r), mem_eachEntry.mpr hr, rfl⟩
  simp only [hkeys]

/-- **The merge of states whose nodes agree**, where nodes with the same birth are the same. -/
theorem merge3_eq_ok (hK : ∀ m ∈ K, ∀ n ∈ K, m.birthId = n.birthId → m.birthId ≠ none → m = n)
    (ha : ∀ n, Retained a n → n ∈ K) (hb : ∀ n, Retained b n → n ∈ K)
    (hagree : ∀ id ra rb, a.get? id = some ra → b.get? id = some rb →
      ra.path.birthId = rb.path.birthId ∧ ra.path.birthParentId = rb.path.birthParentId) :
    ∃ m, merge3 l a b = .ok m ∧ ∀ id, m.get? id =
      if a.has id then (if l.has id = true ∧ b.has id = false then none else a.get? id)
      else if l.has id then none else b.get? id := by
  have hfiles : Files K ((eachEntry a).foldl (fun nodes e => fileNodes nodes e.2.path) .empty) := by
    refine List.foldlRecOn (motive := Files K) _ _ (fun i n h => by simp at h) fun nodes h e he => ?_
    exact h.fileNodes fun m hm => ha m ⟨e.1, e.2, mem_eachEntry.mp he, hm⟩
  obtain ⟨m, hm, hnew, hold⟩ := mergeAdd_eq_ok (l := l) (a := a) (t := mergeRemove l a b) hK
    (fun e he n hn => hb n ⟨e.1, e.2, mem_eachEntry.mp he, hn⟩) (nodup_keys_eachEntry b)
    (fun e he ra hra => hagree e.1 ra e.2 hra (mem_eachEntry.mp he)) hfiles
  refine ⟨m, hm, fun id => ?_⟩
  by_cases hcase : a.has id = false ∧ l.has id = false
  · rw [if_neg (by simp [hcase.1]), if_neg (by simp [hcase.2])]
    cases hget : b.get? id with
    | some rb => exact hnew (id, rb) (mem_eachEntry.mpr hget) hcase.1 hcase.2
    | none =>
      rw [hold id fun hmem => ?_, get?_mergeRemove, if_neg (by simp [hcase.2])]
      · exact SortedMap.has_eq_false_iff.mp hcase.1
      · obtain ⟨e, he, rfl⟩ := List.mem_map.mp hmem
        rw [mem_eachEntry, hget] at he
        cases he
  · have hcase' : a.has id = true ∨ l.has id = true := by
      cases hah : a.has id <;> cases hlh : l.has id <;> simp_all
    rw [hold id fun _ => hcase', get?_mergeRemove]
    cases hah : a.has id with
    | true => rfl
    | false =>
      have hlh := hcase'.resolve_left (by simp [hah])
      simp [hlh, SortedMap.has_eq_false_iff.mp hah]

end Merge

end SharedEmbedRGA

end SalRuntime
