import SalRuntime.Datatypes.SidedPolicy

/-!
# Snapshots of sided states

The snapshot of `src/datatypes/sidedEmbedRGA.js` at the meaning of its bytes: the retained nodes
with the ids of their parents, by ascending ids, the live ids with their elements, and the gaps.
Decoding rebuilds the chains from the root down and computes the policy order. A snapshot of nodes
that form a tree decodes to the retained part of this tree.

## Main definitions

* `Snapshot` — the content of a snapshot.
* `Snapshot.encode`, `Snapshot.decode` — the codec.
* `RetainedTree` — retained chains: those of a set of ids with the ids above them.

## Main results

* `NodesOver.retained_spec` — encoding retains the live ids and the successors, and what is above
  them.
* `RetainedTree.decodeNodes_eq` — decoding rebuilds the retained chains.
* `RetainedTree.policyOrder_spec` — the decoded order lists them by descending keys.
-/

namespace SalRuntime

variable {α : Type}

/-- The id of the last node of a chain. The root has the id `0`. -/
def nodeId (c : Chain) : ℕ := (UnifiedSided.idOf c).getD 0

/-- A node of a state: its chain, and the element and the gap of a live one. -/
structure FullNode (α : Type) where
  /-- The chain, labelled with ids. -/
  chain : Chain
  /-- The element and the gap of a live node. -/
  live : Option (α × UnifiedSided.Gap)
  deriving DecidableEq, Repr

/-- A snapshot. -/
structure Snapshot (α : Type) where
  /-- The ids of the retained nodes, the ids of their parents and their sides. -/
  nodes : List (ℕ × ℕ × FugueSide)
  /-- The live ids with their elements and gaps. -/
  live : List (ℕ × α × UnifiedSided.Gap)
  /-- The gap at the root. -/
  rootGap : UnifiedSided.Gap
  deriving DecidableEq, Repr

namespace Snapshot

/-! ### Encoding -/

/-- The live ids and the successors in gaps. -/
def roots (nodes : SortedMap ℕ (FullNode α)) (rootGap : UnifiedSided.Gap) : List ℕ :=
  rootGap.succId.toList ++ (eachEntry nodes).flatMap fun e =>
    match e.2.live with
    | some l => e.1 :: l.2.succId.toList
    | none => []

/-- Retain the nodes of a chain from the last one up to the first one that is retained. -/
def retain (c : Chain) : ℕ → SortedMap ℕ Chain → SortedMap ℕ Chain
  | 0, kept => kept
  | n + 1, kept =>
    if kept.has (nodeId (c.take (n + 1))) then kept
    else retain c n (kept.insert (nodeId (c.take (n + 1))) (c.take (n + 1)))

/-- Retain the chain of an id. -/
def retainId (nodes : SortedMap ℕ (FullNode α)) (kept : SortedMap ℕ Chain) (id : ℕ) :
    Except Failure (SortedMap ℕ Chain) :=
  match nodes.get? id with
  | some n => .ok (retain n.chain n.chain.length kept)
  | none => .error (.error s!"retained snapshot chain {id} missing")

/-- The retained chains. -/
def retained (nodes : SortedMap ℕ (FullNode α)) (ids : List ℕ) :
    Except Failure (SortedMap ℕ Chain) :=
  ids.foldlM (retainId nodes) SortedMap.empty

/-- What a snapshot says of a node. -/
def entry (e : ℕ × Chain) : ℕ × ℕ × FugueSide :=
  (e.1, nodeId e.2.dropLast, (e.2.getLast?.map Link.side).getD .R)

/-- Encode the nodes of a state. -/
def encode (nodes : SortedMap ℕ (FullNode α)) (rootGap : UnifiedSided.Gap) :
    Except Failure (Snapshot α) := do
  let kept ← retained nodes (roots nodes rootGap)
  return {
    nodes := kept.entries.map entry
    live := kept.entries.filterMap fun e =>
      (nodes.get? e.1).bind fun n => n.live.map fun l => (e.1, l)
    rootGap }

/-! ### Decoding -/

/-- Rebuild a node below its parent. -/
def decodeNode (all : SortedMap ℕ Chain) (n : ℕ × ℕ × FugueSide) :
    Except Failure (SortedMap ℕ Chain) :=
  if n.2.1 = 0 then .ok (all.insert n.1 [⟨n.2.2, n.1, n.1⟩])
  else
    match all.get? n.2.1 with
    | some parent => .ok (all.insert n.1 (parent ++ [⟨n.2.2, n.1 - n.2.1, n.1⟩]))
    | none => .error (.error s!"snapshot parent {n.2.1} missing")

/-- Rebuild the chains. -/
def decodeNodes (nodes : List (ℕ × ℕ × FugueSide)) : Except Failure (SortedMap ℕ Chain) :=
  nodes.foldlM decodeNode SortedMap.empty

/-- The ids of chains in policy order. -/
def policyOrder (chains : SortedMap ℕ Chain) : List ℕ :=
  UnifiedSided.policyOrder (chains.mapVal fun _ c => (⟨c, none, none⟩ : UnifiedSided.Node Unit))

/-- What the snapshot holds: its chains, the live ids, the gap at the root and the policy order. -/
structure Decoded (α : Type) where
  /-- The chains. -/
  chains : SortedMap ℕ Chain
  /-- The live ids with their elements and gaps. -/
  live : List (ℕ × α × UnifiedSided.Gap)
  /-- The gap at the root. -/
  rootGap : UnifiedSided.Gap
  /-- The ids of the chains in policy order. -/
  order : List ℕ

/-- Decode a snapshot. -/
def decode (s : Snapshot α) : Except Failure (Decoded α) := do
  let chains ← decodeNodes s.nodes
  return { chains, live := s.live, rootGap := s.rootGap, order := policyOrder chains }

end Snapshot

/-! ### Retained trees -/

/-- The chains of ids of a tree, with the chains above them. The parent of one chain may be
missing: its own chain is `hole`. -/
structure RetainedTree (χ : ℕ → Chain) (I : Set ℕ) (hole : Chain) (kept : SortedMap ℕ Chain) :
    Prop where
  /-- The chains are those of ids of the tree. -/
  chain : ∀ j c, kept.get? j = some c → j ∈ I ∧ c = χ j
  /-- Parents are retained. -/
  parent : ∀ j c, kept.get? j = some c →
    c.dropLast = [] ∨ c.dropLast = hole ∨ kept.has (nodeId c.dropLast) = true

/-- A tree with all parents is one with any hole. -/
theorem RetainedTree.with_hole {χ : ℕ → Chain} {I : Set ℕ} {kept : SortedMap ℕ Chain}
    (h : RetainedTree χ I [] kept) (hole : Chain) : RetainedTree χ I hole kept :=
  ⟨h.chain, fun j c hc => (h.parent j c hc).elim Or.inl fun hp => hp.imp_right Or.inr⟩

section Retain

variable {χ : ℕ → Chain} {I : Set ℕ} (hT : SidedTree χ I)

include hT

theorem SidedTree.nodeId_eq {id : ℕ} (hid : id ∈ I) : nodeId (χ id) = id := by
  rw [nodeId, hT.idOf_eq hid, Option.getD_some]

theorem SidedTree.nodeId_chainAt {p : Option ℕ} (hp : ∀ q, p = some q → q ∈ I) :
    nodeId (chainAt χ p) = p.getD 0 := by
  rw [nodeId, hT.idOf_chainAt hp]

/-- **Retaining a chain** retains its id and what is above it. -/
theorem RetainedTree.retain {c : Chain} {n : ℕ} (hn : n ≤ c.length)
    (hc : ∀ k, 0 < k → k ≤ c.length → ∃ i ∈ I, χ i = c.take k) {kept : SortedMap ℕ Chain}
    (h : RetainedTree χ I (c.take n) kept) :
    RetainedTree χ I [] (Snapshot.retain c n kept) ∧
      (∀ j, kept.has j = true → (Snapshot.retain c n kept).has j = true) ∧
      (0 < n → (Snapshot.retain c n kept).has (nodeId (c.take n)) = true) := by
  induction n generalizing kept with
  | zero =>
    refine ⟨⟨h.chain, fun j d hd => ?_⟩, fun j hj => hj, fun hpos => absurd hpos (lt_irrefl 0)⟩
    simpa [Snapshot.retain] using h.parent j d hd
  | succ n ih =>
    obtain ⟨i, hi, hχ⟩ := hc (n + 1) (Nat.succ_pos n) hn
    have hid : nodeId (c.take (n + 1)) = i := by rw [← hχ, hT.nodeId_eq hi]
    rw [Snapshot.retain]
    split_ifs with hhas
    · -- The node is retained, so the hole is filled.
      refine ⟨⟨h.chain, fun j d hd => ?_⟩, fun j hj => hj, fun _ => hhas⟩
      rcases h.parent j d hd with hp | hp | hp
      · exact Or.inl hp
      · exact Or.inr (Or.inr (hp ▸ hhas))
      · exact Or.inr (Or.inr hp)
    · set kept' := kept.insert (nodeId (c.take (n + 1))) (c.take (n + 1)) with hkept'
      have hmono (j : ℕ) (hj : kept.has j = true) : kept'.has j = true := by
        rw [hkept', SortedMap.has_insert, hj, Bool.or_true]
      have hself : kept'.has (nodeId (c.take (n + 1))) = true := by
        rw [hkept', SortedMap.has_insert, decide_eq_true rfl, Bool.true_or]
      have h' : RetainedTree χ I (c.take n) kept' := by
        refine ⟨fun j d hd => ?_, fun j d hd => ?_⟩
        · rw [hkept', SortedMap.get?_insert] at hd
          split_ifs at hd with hj
          · cases hd
            rw [hj, hid]
            exact ⟨hi, hχ.symm⟩
          · exact h.chain j d hd
        · rw [hkept', SortedMap.get?_insert] at hd
          split_ifs at hd with hj
          · -- The parent of the new node is the new hole.
            cases hd
            refine Or.inr (Or.inl ?_)
            rw [List.take_succ_eq_append_getElem hn, List.dropLast_concat]
          · rcases h.parent j d hd with hp | hp | hp
            · exact Or.inl hp
            · exact Or.inr (Or.inr (hp ▸ hself))
            · exact Or.inr (Or.inr (hmono _ hp))
      obtain ⟨htree, hle, -⟩ := ih (by omega) h'
      exact ⟨htree, fun j hj => hle j (hmono j hj), fun _ => hle _ hself⟩

end Retain

/-- The nodes of a state have the chains of ids of a tree, and the successors in gaps have nodes. -/
structure NodesOver (χ : ℕ → Chain) (I : Set ℕ) (nodes : SortedMap ℕ (FullNode α))
    (rootGap : UnifiedSided.Gap) : Prop where
  /-- The chains of nodes. -/
  chain : ∀ j n, nodes.get? j = some n → j ∈ I ∧ n.chain = χ j
  /-- The successor in the gap of a live node has a node. -/
  succ : ∀ j n el g i, nodes.get? j = some n → n.live = some (el, g) → g.succId = some i →
    nodes.has i = true
  /-- The successor in the gap at the root has a node. -/
  rootSucc : ∀ i, rootGap.succId = some i → nodes.has i = true

section Encode

variable {χ : ℕ → Chain} {I : Set ℕ} (hT : SidedTree χ I) {nodes : SortedMap ℕ (FullNode α)}
  {rootGap : UnifiedSided.Gap} (h : NodesOver χ I nodes rootGap)

theorem Snapshot.mem_roots {id : ℕ} : id ∈ Snapshot.roots nodes rootGap ↔
    rootGap.succId = some id ∨ ∃ j n l, nodes.get? j = some n ∧ n.live = some l ∧
      (id = j ∨ l.2.succId = some id) := by
  rw [Snapshot.roots, List.mem_append, Option.mem_toList, List.mem_flatMap]
  refine or_congr_right ⟨?_, ?_⟩
  · rintro ⟨⟨j, n⟩, he, hid⟩
    cases hl : n.live with
    | none => simp [hl] at hid
    | some l =>
      simp only [hl, List.mem_cons, Option.mem_toList] at hid
      exact ⟨j, n, l, mem_eachEntry.mp he, hl, hid⟩
  · rintro ⟨j, n, l, hn, hl, hid⟩
    refine ⟨(j, n), mem_eachEntry.mpr hn, ?_⟩
    simpa only [hl, List.mem_cons, Option.mem_toList] using hid

include hT h

/-- Every chain above a node is that of an id. -/
theorem NodesOver.exists_take {j : ℕ} {n : FullNode α} (hn : nodes.get? j = some n) {k : ℕ}
    (hk : 0 < k) (hle : k ≤ n.chain.length) : ∃ i ∈ I, χ i = n.chain.take k := by
  obtain ⟨hj, hchain⟩ := h.chain j n hn
  refine hT.exists_of_append (d := n.chain.drop k) (fun hnil => ?_) hj ?_
  · rw [List.take_eq_nil_iff] at hnil
    rcases hnil with rfl | hnil
    · omega
    · rw [hnil, List.length_nil] at hle
      omega
  · rw [List.take_append_drop, hchain]

/-- Retaining the chain of the id of a node. -/
theorem NodesOver.retainId {id : ℕ} (hid : nodes.has id = true) {kept : SortedMap ℕ Chain}
    (hkept : RetainedTree χ I [] kept) : ∃ kept', Snapshot.retainId nodes kept id = .ok kept' ∧
      RetainedTree χ I [] kept' ∧ kept'.has id = true ∧
      ∀ j, kept.has j = true → kept'.has j = true := by
  obtain ⟨n, hn⟩ := SortedMap.has_iff.mp hid
  obtain ⟨hidI, hchain⟩ := h.chain id n hn
  have hpos : 0 < n.chain.length := by
    rw [hchain]
    exact List.length_pos_iff.mpr (hT.chain_ne_nil hidI)
  obtain ⟨htree, hle, hself⟩ := (hkept.with_hole (n.chain.take n.chain.length)).retain hT le_rfl
    fun k => h.exists_take hT hn
  refine ⟨_, by rw [Snapshot.retainId, hn], htree, ?_, hle⟩
  have hself := hself hpos
  rwa [List.take_length, hchain, hT.nodeId_eq hidI, ← hchain] at hself

/-- **Encoding** retains the given ids and what is above them. -/
theorem NodesOver.retained_spec (ids : List ℕ) (hids : ∀ id ∈ ids, nodes.has id = true) :
    ∃ kept, Snapshot.retained nodes ids = .ok kept ∧ RetainedTree χ I [] kept ∧
      ∀ id ∈ ids, kept.has id = true := by
  have hfold {ids : List ℕ} (hids : ∀ id ∈ ids, nodes.has id = true) {t : SortedMap ℕ Chain}
      (ht : RetainedTree χ I [] t) : ∃ kept, ids.foldlM (Snapshot.retainId nodes) t = .ok kept ∧
        RetainedTree χ I [] kept ∧ (∀ id ∈ ids, kept.has id = true) ∧
        ∀ j, t.has j = true → kept.has j = true := by
    induction ids generalizing t with
    | nil => exact ⟨t, rfl, ht, fun _ hid => absurd hid List.not_mem_nil, fun _ hj => hj⟩
    | cons id ids ih =>
      obtain ⟨t', ht', htree, hself, hle⟩ := h.retainId hT (hids id List.mem_cons_self) ht
      obtain ⟨kept, hkept, htree', hin, hle'⟩ :=
        ih (fun i hi => hids i (List.mem_cons_of_mem _ hi)) htree
      refine ⟨kept, ?_, htree', fun i hi => ?_, fun j hj => hle' j (hle j hj)⟩
      · rw [List.foldlM_cons, ht']
        exact hkept
      · rcases List.mem_cons.mp hi with rfl | hi
        · exact hle' _ hself
        · exact hin i hi
  obtain ⟨kept, hkept, htree, hin, -⟩ := hfold hids (t := SortedMap.empty)
    ⟨fun _ _ hc => (by cases hc), fun _ _ hc => (by cases hc)⟩
  exact ⟨kept, hkept, htree, hin⟩

end Encode

/-! ### The decoded tree -/

section Decode

variable {χ : ℕ → Chain} {I : Set ℕ} (hT : SidedTree χ I) {kept : SortedMap ℕ Chain}
  (h : RetainedTree χ I [] kept)

include hT h

/-- A retained chain is that of a retained parent, extended by a step. -/
theorem RetainedTree.get?_eq_some {j : ℕ} {c : Chain} (hc : kept.get? j = some c) :
    ∃ (side : FugueSide) (p : Option ℕ), c = chainAt χ p ++ [⟨side, j - p.getD 0, j⟩] ∧
      p.getD 0 < j ∧ Snapshot.entry (j, c) = (j, p.getD 0, side) ∧
      ∀ q, p = some q → q ≠ 0 ∧ kept.get? q = some (χ q) := by
  obtain ⟨hj, rfl⟩ := h.chain j c hc
  obtain ⟨side, p, hχ, hlt, hp⟩ := hT j hj
  refine ⟨side, p, hχ, hlt, ?_, ?_⟩
  · rw [Snapshot.entry, hχ, List.dropLast_concat, hT.nodeId_chainAt hp, List.getLast?_concat]
    rfl
  · rintro q rfl
    obtain ⟨-, p', -, hlt', -⟩ := hT q (hp q rfl)
    refine ⟨by omega, ?_⟩
    have hparent := h.parent j _ hc
    rw [hχ, List.dropLast_concat, chainAt, hT.nodeId_eq (hp q rfl)] at hparent
    have hne := hT.chain_ne_nil (hp q rfl)
    obtain ⟨d, hd⟩ := SortedMap.has_iff.mp ((hparent.resolve_left hne).resolve_left hne)
    rw [hd, (h.chain q d hd).2]

/-- **Decoding** rebuilds the retained chains. -/
theorem RetainedTree.decodeNodes_eq :
    Snapshot.decodeNodes (kept.entries.map Snapshot.entry) = .ok kept := by
  -- The chains of a first part of the entries are rebuilt; parents have smaller ids.
  have hfold (pre post : List (ℕ × Chain)) (hsplit : pre ++ post = kept.entries)
      (all : SortedMap ℕ Chain) (hall : all.entries = pre) :
      (post.map Snapshot.entry).foldlM Snapshot.decodeNode all = .ok kept := by
    induction post generalizing pre all with
    | nil =>
      rw [List.append_nil] at hsplit
      have heq : all = kept := SortedMap.ext_get? fun k => by
        rw [SortedMap.get?, SortedMap.get?, hall, hsplit]
      rw [heq]
      rfl
    | cons e post ih =>
      obtain ⟨j, c⟩ := e
      have hsorted := kept.sorted
      rw [← hsplit] at hsorted
      have hc : kept.get? j = some c := SortedMap.mem_entries_iff.mp (by simp [← hsplit])
      obtain ⟨side, p, hchain, hlt, hentry, hp⟩ := h.get?_eq_some hT hc
      have hstep : Snapshot.decodeNode all (Snapshot.entry (j, c)) = .ok (all.insert j c) := by
        rw [hentry, Snapshot.decodeNode]
        cases p with
        | none => simp [hchain, chainAt]
        | some q =>
          obtain ⟨hq, hget⟩ := hp q rfl
          have hmem : (q, χ q) ∈ all.entries := by
            rw [← SortedMap.mem_entries_iff, ← hsplit, List.mem_append] at hget
            rw [hall]
            refine hget.resolve_right fun hpost => ?_
            rcases List.mem_cons.mp hpost with heq | hpost
            · have := congrArg Prod.fst heq
              simp only [Option.getD_some] at this hlt
              omega
            · have hle := (List.pairwise_cons.mp (List.pairwise_append.mp hsorted).2.1).1 _ hpost
              simp only [Option.getD_some] at hle hlt
              omega
          simp [hq, SortedMap.mem_entries_iff.mp hmem, hchain, chainAt]
      rw [List.map_cons, List.foldlM_cons, hstep]
      refine ih (pre ++ [(j, c)]) (by simpa using hsplit) (all.insert j c) ?_
      rw [← hall]
      refine SortedMap.insertEntry_of_lt fun x hx => ?_
      exact (List.pairwise_append.mp hsorted).2.2 x (hall ▸ hx) _ List.mem_cons_self
  exact hfold [] kept.entries rfl SortedMap.empty rfl

/-- The retained ids form a tree. -/
theorem RetainedTree.sidedTree : SidedTree χ {j | kept.has j = true} := by
  intro j hj
  obtain ⟨c, hc⟩ := SortedMap.has_iff.mp hj
  obtain ⟨side, p, hchain, hlt, -, hp⟩ := h.get?_eq_some hT hc
  exact ⟨side, p, (h.chain j c hc).2 ▸ hchain, hlt, fun q hq =>
    SortedMap.has_iff.mpr ⟨_, (hp q hq).2⟩⟩

/-- **The decoded order** lists the retained ids by descending keys. -/
theorem RetainedTree.policyOrder_spec :
    ((Snapshot.policyOrder kept).Pairwise fun i j => coordKey (χ j) < coordKey (χ i)) ∧
      ∀ id, id ∈ Snapshot.policyOrder kept ↔ kept.has id = true := by
  set u : UnifiedSided.State Unit :=
    { nodes := kept.mapVal fun _ c => ⟨c, none, none⟩, rootGap := ⟨false, none⟩, order := none }
  have hu : PolicyState χ {j | kept.has j = true} u := by
    refine ⟨fun j => by simp [u], fun j n hn => ?_, fun i hi => (by cases hi), rfl⟩
    rw [SortedMap.get?_mapVal] at hn
    obtain ⟨c, hc, rfl⟩ := Option.map_eq_some_iff.mp hn
    exact ⟨(h.chain j c hc).2, rfl, fun g i hg => by cases hg⟩
  exact hu.policyOrder_spec (h.sidedTree hT)

end Decode

end SalRuntime
