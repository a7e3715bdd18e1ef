import SalRuntime.Datatypes.Epochs

/-!
# The run table of a sequence state

The run table of `src/serialize.js`. The coordinates of the records span the kept tree, whose nodes
are kept as a list in the order of their creation, each under the chain of deltas that leads to it
from the root. The table cuts the tree into runs: chains of unique children with delta one that are
all live or all dead.

## Main definitions

* `coordTree` — the kept tree of a state.
* `buildRunTable` — the runs of the tree, parents before children.
* `KeptTree.Keeps` — a tree holds the records of a state at their chains.
* `RunTable.Partitions` — the entries of a table are runs that partition the nodes of a tree.

## Main results

* `exists_coordTree` — a placed state has a kept tree.
* `KeptTree.Wf.not_fusible` — runs are maximal.
* `exists_buildRunTable` — a placed state has a run table, which partitions its kept tree.
-/

namespace SalRuntime

variable {α : Type}

/-- A node of the kept tree: the chain of deltas from the root, and the record if it is live. -/
structure KeptNode (α : Type) where
  /-- The chain of deltas from the root. -/
  chain : List ℕ
  /-- The id and the element of the record at the node. -/
  record : Option (ℕ × α)
  deriving DecidableEq, Repr

namespace KeptNode

/-- The delta by which the node is a child of its parent. -/
def delta (n : KeptNode α) : ℕ := n.chain.getLast?.getD 0

/-- Does the node carry a record? -/
def live (n : KeptNode α) : Bool := n.record.isSome

/-- The element of the record. -/
def el (n : KeptNode α) : Option α := n.record.map Prod.snd

end KeptNode

/-- The nodes of a kept tree in the order of their creation. -/
abbrev KeptTree (α : Type) := List (KeptNode α)

namespace KeptTree

/-- The tree with the root only. -/
def root : KeptTree α := [{ chain := [], record := none }]

/-- The tree in which the node `p` has a child for the delta `d`. -/
def childOf (t : KeptTree α) (p : List ℕ) (d : ℕ) : KeptTree α :=
  if ∃ n ∈ t, n.chain = p ++ [d] then t else t ++ [{ chain := p ++ [d], record := none }]

/-- Walk down from the node `p`, creating the nodes that are missing. -/
def descend (t : KeptTree α) (p : List ℕ) : List ℕ → KeptTree α
  | [] => t
  | d :: ds => descend (t.childOf p d) (p ++ [d]) ds

/-- Enter a record at the node of its chain. -/
def setRecord (t : KeptTree α) (p : List ℕ) (rid : ℕ) (el : α) : KeptTree α :=
  t.map fun n => if n.chain = p then { n with record := some (rid, el) } else n

/-- Enter a record of the state. -/
def addRecord (t : KeptTree α) (e : ℕ × Record α) : Except Failure (KeptTree α) := do
  let chain ← decodeChain e.2.coord
  return (t.descend [] chain).setRecord chain e.1 e.2.el

/-- The children of a node, in the order of their creation. -/
def children (t : KeptTree α) (p : List ℕ) : List (KeptNode α) :=
  t.filter fun n => n.chain ≠ [] ∧ n.chain.dropLast = p

/-- Extend a run below its last node by the unique child, as long as the edge is fusible: the delta
is one, and both ends are live or both are dead. -/
def run (t : KeptTree α) : ℕ → KeptNode α → List (KeptNode α)
  | 0, n => [n]
  | f + 1, n =>
    match t.children n.chain with
    | [k] => if k.delta = 1 ∧ k.live = n.live then n :: run t f k else [n]
    | _ => [n]

end KeptTree

/-- The kept tree of a state. -/
def coordTree (s : EmbedRGA.State α) : Except Failure (KeptTree α) :=
  s.entries.foldlM KeptTree.addRecord KeptTree.root

/-- An entry of the table: a run of nodes, below the last node of its parent entry or below the
root. -/
structure RunEntry (α : Type) where
  /-- Do the nodes of the run carry records? -/
  live : Bool
  /-- The parent entry; `none` is the root. -/
  parent : Option ℕ
  /-- The offset of the attachment in the parent entry. -/
  poff : ℕ
  /-- The delta of the first node. -/
  delta : ℕ
  /-- The nodes of the run. -/
  members : List (KeptNode α)
  deriving Repr

/-- A run table. -/
structure RunTable (α : Type) where
  /-- The entries, parents before children. -/
  entries : List (RunEntry α)
  /-- For each entry the entries attached to it. -/
  att : List (List ℕ)

/-- A node whose run has not been cut yet. -/
structure PendingRun (α : Type) where
  /-- The first node of the run. -/
  node : KeptNode α
  /-- The parent entry. -/
  parent : Option ℕ
  /-- The offset of the attachment in the parent entry. -/
  poff : ℕ

namespace RunTable

/-- The empty table. -/
def empty : RunTable α := ⟨[], []⟩

/-- Attach an entry to its parent. -/
def attach (att : List (List ℕ)) (eid : ℕ) : Option ℕ → List (List ℕ)
  | none => att
  | some p => att.modify p (· ++ [eid])

/-- Append an entry and attach it to its parent. -/
def push (T : RunTable α) (e : RunEntry α) : RunTable α where
  entries := T.entries ++ [e]
  att := attach T.att T.entries.length e.parent ++ [[]]

/-- The run that starts at a pending node. -/
def entryOf (t : KeptTree α) (x : PendingRun α) : RunEntry α where
  live := x.node.live
  parent := x.parent
  poff := x.poff
  delta := x.node.delta
  members := t.run t.length x.node

/-- The nodes below the last node of a run, the last one first. -/
def pendingBelow (t : KeptTree α) (eid : ℕ) (e : RunEntry α) : List (PendingRun α) :=
  match e.members.getLast? with
  | none => []
  | some tail => ((t.children tail.chain).map fun k =>
      { node := k, parent := some eid, poff := e.members.length - 1 }).reverse

/-- Cut the runs at the nodes of the stack and below them. Every round takes nodes out of the tree,
so their number bounds the rounds. -/
def cutRuns (t : KeptTree α) : ℕ → List (PendingRun α) → RunTable α → RunTable α
  | 0, _, T => T
  | _ + 1, [], T => T
  | f + 1, x :: stack, T =>
    cutRuns t f (pendingBelow t T.entries.length (entryOf t x) ++ stack) (T.push (entryOf t x))

/-- The nodes below the root, the last one first. -/
def pendingRoots (t : KeptTree α) : List (PendingRun α) :=
  ((t.children []).map fun c => { node := c, parent := none, poff := 0 }).reverse

/-- Is an entry attached inside its parent, above the last node? -/
def interior (T : RunTable α) (e : RunEntry α) : Bool :=
  e.parent.any fun p => (T.entries[p]?).all fun q => e.poff ≠ q.members.length - 1

end RunTable

/-- The run table of a state. -/
def buildRunTable (s : EmbedRGA.State α) : Except Failure (RunTable α) := do
  let t ← coordTree s
  let T := RunTable.cutRuns t t.length (RunTable.pendingRoots t) RunTable.empty
  if T.entries.any T.interior then
    throw (.error "run table: interior attachment (tail-attachment lemma violated)")
  return T

/-! ### The kept tree -/

namespace KeptTree

variable {t : KeptTree α}

/-- The chains of the nodes. -/
abbrev chains (t : KeptTree α) : List (List ℕ) := t.map KeptNode.chain

/-- Each chain has one node, and the tree has the parents of its nodes. -/
structure Wf (t : KeptTree α) : Prop where
  /-- Each chain has one node. -/
  nodup : t.chains.Nodup
  /-- The root is a node. -/
  root : [] ∈ t.chains
  /-- Parents are nodes. -/
  parent : ∀ p d, p ++ [d] ∈ t.chains → p ∈ t.chains

theorem wf_root : (root : KeptTree α).Wf where
  nodup := List.nodup_singleton _
  root := List.mem_singleton_self _
  parent p d h := by simp [chains, KeptTree.root] at h

theorem Wf.eq (h : t.Wf) {n m : KeptNode α} (hn : n ∈ t) (hm : m ∈ t)
    (hchain : n.chain = m.chain) : n = m := List.inj_on_of_nodup_map h.nodup hn hm hchain

theorem Wf.nodup_nodes (h : t.Wf) : t.Nodup := h.nodup.of_map _

/-- All ancestors of a node are nodes. -/
theorem Wf.mem_of_prefix (h : t.Wf) {p q : List ℕ} (hq : q ∈ t.chains) (hpq : p <+: q) :
    p ∈ t.chains := by
  obtain ⟨r, rfl⟩ := hpq
  induction r using List.reverseRecOn with
  | nil => simpa using hq
  | append_singleton r d ih => exact ih (h.parent _ d (by rwa [List.append_assoc]))

theorem childOf_eq (t : KeptTree α) (p : List ℕ) (d : ℕ) : t.childOf p d =
    if p ++ [d] ∈ t.chains then t else t ++ [{ chain := p ++ [d], record := none }] :=
  if_congr List.mem_map.symm rfl rfl

theorem mem_childOf {p : List ℕ} {d : ℕ} {n : KeptNode α} : n ∈ t.childOf p d ↔
    n ∈ t ∨ p ++ [d] ∉ t.chains ∧ n = { chain := p ++ [d], record := none } := by
  rw [childOf_eq]
  split_ifs with h
  · exact ⟨Or.inl, fun hn => hn.elim id fun hn => absurd h hn.1⟩
  · simp [h]

theorem mem_chains_childOf {p : List ℕ} {d : ℕ} {q : List ℕ} :
    q ∈ (t.childOf p d).chains ↔ q ∈ t.chains ∨ q = p ++ [d] := by
  rw [childOf_eq]
  split_ifs with h
  · exact ⟨Or.inl, fun hq => hq.elim id fun hq => hq ▸ h⟩
  · simp [chains]

theorem Wf.childOf (h : t.Wf) {p : List ℕ} (hp : p ∈ t.chains) (d : ℕ) : (t.childOf p d).Wf where
  nodup := by
    rw [childOf_eq]
    split_ifs with hmem
    · exact h.nodup
    · rw [chains, List.map_append, List.map_singleton]
      exact List.nodup_append.mpr ⟨h.nodup, List.nodup_singleton _, by
        rintro a ha b hb rfl
        rw [List.mem_singleton.mp hb] at ha
        exact hmem ha⟩
  root := mem_chains_childOf.mpr (Or.inl h.root)
  parent q e hq := by
    rw [mem_chains_childOf] at hq ⊢
    rcases hq with hq | hq
    · exact Or.inl (h.parent q e hq)
    · exact Or.inl ((List.append_inj' hq rfl).1 ▸ hp)

theorem Wf.descend (h : t.Wf) {p : List ℕ} (hp : p ∈ t.chains) (ds : List ℕ) :
    (t.descend p ds).Wf := by
  induction ds generalizing t p with
  | nil => exact h
  | cons d ds ih => exact ih (h.childOf hp d) (mem_chains_childOf.mpr (Or.inr rfl))

/-- Walking down a chain creates the nodes that are missing on the way, without records. -/
theorem mem_descend {p ds : List ℕ} {n : KeptNode α} (hn : n ∈ t.descend p ds) :
    n ∈ t ∨ n.chain ∉ t.chains ∧ n.record = none := by
  induction ds generalizing t p with
  | nil => exact Or.inl hn
  | cons d ds ih =>
    rcases ih hn with hn | ⟨hnot, hrec⟩
    · rcases mem_childOf.mp hn with hn | ⟨hnot, rfl⟩
      · exact Or.inl hn
      · exact Or.inr ⟨hnot, rfl⟩
    · exact Or.inr ⟨fun hmem => hnot (mem_chains_childOf.mpr (Or.inl hmem)), hrec⟩

theorem subset_descend (t : KeptTree α) (p ds : List ℕ) : t ⊆ t.descend p ds := by
  induction ds generalizing t p with
  | nil => exact List.Subset.refl _
  | cons d ds ih => exact fun n hn => ih _ _ (mem_childOf.mpr (Or.inl hn))

theorem mem_chains_descend (t : KeptTree α) {p ds : List ℕ} (hp : p ∈ t.chains) :
    p ++ ds ∈ (t.descend p ds).chains := by
  induction ds generalizing t p with
  | nil => simpa [descend] using hp
  | cons d ds ih =>
    have h := ih (t.childOf p d) (mem_chains_childOf.mpr (Or.inr rfl))
    rwa [List.append_assoc] at h

@[simp] theorem chains_setRecord (t : KeptTree α) (p : List ℕ) (rid : ℕ) (el : α) :
    (t.setRecord p rid el).chains = t.chains := by
  rw [chains, setRecord, List.map_map]
  refine List.map_congr_left fun n _ => ?_
  rw [Function.comp_apply]
  split_ifs <;> rfl

theorem Wf.setRecord (h : t.Wf) (p : List ℕ) (rid : ℕ) (el : α) : (t.setRecord p rid el).Wf where
  nodup := by rw [chains_setRecord]; exact h.nodup
  root := by rw [chains_setRecord]; exact h.root
  parent := by rw [chains_setRecord]; exact h.parent

theorem mem_setRecord {p : List ℕ} {rid : ℕ} {el : α} {n : KeptNode α} :
    n ∈ t.setRecord p rid el ↔
      n.chain ≠ p ∧ n ∈ t ∨ p ∈ t.chains ∧ n = { chain := p, record := some (rid, el) } := by
  rw [setRecord, List.mem_map]
  constructor
  · rintro ⟨m, hm, rfl⟩
    by_cases hp : m.chain = p
    · subst hp
      rw [if_pos rfl]
      exact Or.inr ⟨List.mem_map_of_mem hm, rfl⟩
    · rw [if_neg hp]
      exact Or.inl ⟨hp, hm⟩
  · rintro (⟨hp, hn⟩ | ⟨hp, rfl⟩)
    · exact ⟨n, hn, if_neg hp⟩
    · obtain ⟨m, hm, rfl⟩ := List.mem_map.mp hp
      exact ⟨m, hm, if_pos rfl⟩

/-- The tree holds the given records at their chains, and no others. -/
structure Keeps (t : KeptTree α) (es : List (ℕ × Record α)) : Prop where
  /-- The tree is well formed. -/
  wf : t.Wf
  /-- Deltas are positive. -/
  pos : ∀ c ∈ t.chains, ∀ d ∈ c, 1 ≤ d
  /-- The live nodes are the records. -/
  record_iff : ∀ c rid el, { chain := c, record := some (rid, el) } ∈ t ↔
    ∃ r, (rid, r) ∈ es ∧ decodeChain r.coord = .ok c ∧ r.el = el

theorem keeps_root : (root : KeptTree α).Keeps [] where
  wf := wf_root
  pos c hc d hd := by simp_all [chains, root]
  record_iff c rid el := by simp [root]

/-- All chains on the way to a chain of positive deltas have positive deltas. -/
theorem pos_descend {p ds : List ℕ} (hpos : ∀ c ∈ t.chains, ∀ d ∈ c, 1 ≤ d) (hp : p ∈ t.chains)
    (hds : ∀ d ∈ ds, 1 ≤ d) : ∀ c ∈ (t.descend p ds).chains, ∀ d ∈ c, 1 ≤ d := by
  induction ds generalizing t p with
  | nil => exact hpos
  | cons d ds ih =>
    refine ih (fun c hc e he => ?_) (mem_chains_childOf.mpr (Or.inr rfl))
      fun e he => hds e (List.mem_cons_of_mem _ he)
    rcases mem_chains_childOf.mp hc with hc | rfl
    · exact hpos c hc e he
    · rcases List.mem_append.mp he with he | he
      · exact hpos p hp e he
      · exact List.mem_singleton.mp he ▸ hds d List.mem_cons_self

/-- **Entering a record** at a chain that no other record has. -/
theorem Keeps.addRecord {es : List (ℕ × Record α)} (h : t.Keeps es) {e : ℕ × Record α}
    {c : List ℕ} (hc : decodeChain e.2.coord = .ok c)
    (hfresh : ∀ f ∈ es, decodeChain f.2.coord ≠ .ok c) :
    ∃ t', t.addRecord e = .ok t' ∧ t'.Keeps (es ++ [e]) := by
  have hmem : [] ++ c ∈ (t.descend [] c).chains := t.mem_chains_descend h.wf.root
  rw [List.nil_append] at hmem
  refine ⟨(t.descend [] c).setRecord c e.1 e.2.el, by rw [KeptTree.addRecord, hc]; rfl,
    (h.wf.descend h.wf.root c).setRecord c e.1 e.2.el, ?_, fun p rid el => ?_⟩
  · rw [chains_setRecord]
    exact pos_descend h.pos h.wf.root (decodeChain_eq_ok_iff.mp hc).1
  rw [mem_setRecord]
  constructor
  · rintro (⟨hne, hn⟩ | ⟨-, hn⟩)
    · have hold : { chain := p, record := some (rid, el) } ∈ t :=
        (mem_descend hn).resolve_right fun hnew => by simp at hnew
      obtain ⟨r, hr, hdec, hel⟩ := (h.record_iff p rid el).mp hold
      exact ⟨r, List.mem_append_left _ hr, hdec, hel⟩
    · cases hn
      exact ⟨e.2, List.mem_append_right _ (List.mem_singleton_self _), hc, rfl⟩
  · rintro ⟨r, hr, hdec, rfl⟩
    rcases List.mem_append.mp hr with hr | hr
    · refine Or.inl ⟨fun hpc => hfresh (rid, r) hr ?_, subset_descend t [] c ?_⟩
      · rw [← hpc]
        exact hdec
      · exact (h.record_iff p rid r.el).mpr ⟨r, hr, hdec, rfl⟩
    · have her : (rid, r) = e := List.mem_singleton.mp hr
      subst her
      obtain rfl : p = c := Except.ok.inj (hdec.symm.trans hc)
      exact Or.inr ⟨hmem, rfl⟩

/-- Entering records whose chains are all different. -/
theorem Keeps.addRecords {es fs : List (ℕ × Record α)} (h : t.Keeps es)
    (hdec : ∀ f ∈ fs, ∃ c, decodeChain f.2.coord = .ok c)
    (happ : (es ++ fs).Pairwise fun e f => decodeChain e.2.coord ≠ decodeChain f.2.coord) :
    ∃ t', fs.foldlM KeptTree.addRecord t = .ok t' ∧ t'.Keeps (es ++ fs) := by
  induction fs generalizing t es with
  | nil => exact ⟨t, rfl, by rwa [List.append_nil]⟩
  | cons f fs ih =>
    obtain ⟨c, hc⟩ := hdec f List.mem_cons_self
    have hfresh : ∀ e ∈ es, decodeChain e.2.coord ≠ .ok c := fun e he =>
      hc ▸ (List.pairwise_append.mp happ).2.2 e he f List.mem_cons_self
    obtain ⟨t₁, ht₁, hk⟩ := h.addRecord hc hfresh
    have hassoc : es ++ [f] ++ fs = es ++ f :: fs := by simp
    obtain ⟨t', ht', hk'⟩ := ih hk (fun g hg => hdec g (List.mem_cons_of_mem _ hg))
      (hassoc ▸ happ)
    exact ⟨t', by rw [List.foldlM_cons, ht₁]; exact ht', hassoc ▸ hk'⟩

end KeptTree

/-- The chain of a record. -/
theorem EmbedRGA.Placed.exists_chain {s : EmbedRGA.State α} (h : EmbedRGA.Placed s)
    {e : ℕ × Record α} (he : e ∈ s.entries) : ∃ c, c ≠ [] ∧ decodeChain e.2.coord = .ok c := by
  have hget := SortedMap.mem_entries_iff.mp he
  obtain ⟨c, hc⟩ := h.decodes e.1 (SortedMap.has_iff.mpr ⟨e.2, hget⟩)
  refine ⟨c, h.ne_nil e.1 c hc, ?_⟩
  obtain ⟨r, hr, hdec⟩ := hc
  obtain rfl : r = e.2 := Option.some.inj (hr.symm.trans hget)
  exact hdec

/-- The records of a placed state have different chains. -/
theorem EmbedRGA.Placed.pairwise_entries {s : EmbedRGA.State α} (h : EmbedRGA.Placed s) :
    s.entries.Pairwise fun e f => decodeChain e.2.coord ≠ decodeChain f.2.coord := by
  refine s.sorted.imp_of_mem fun {e f} he hf hlt heq => ?_
  obtain ⟨c, -, hc⟩ := h.exists_chain he
  have hid := h.injective e.1 f.1 c ⟨e.2, SortedMap.mem_entries_iff.mp he, hc⟩
    ⟨f.2, SortedMap.mem_entries_iff.mp hf, heq ▸ hc⟩
  exact absurd (hid ▸ hlt) (lt_irrefl _)

/-- **A placed state has a kept tree.** -/
theorem exists_coordTree {s : EmbedRGA.State α} (h : EmbedRGA.Placed s) :
    ∃ t, coordTree s = .ok t ∧ t.Keeps s.entries := by
  refine KeptTree.keeps_root.addRecords (fun e he => ?_) h.pairwise_entries
  obtain ⟨c, -, hc⟩ := h.exists_chain he
  exact ⟨c, hc⟩

/-! ### Runs -/

/-- No chain is below the other. -/
def Apart (p q : List ℕ) : Prop := ¬ p <+: q ∧ ¬ q <+: p

theorem Apart.symm {p q : List ℕ} (h : Apart p q) : Apart q p := ⟨h.2, h.1⟩

/-- What is below chains that are apart is apart. -/
theorem Apart.mono {p q p' q' : List ℕ} (h : Apart p q) (hp : p <+: p') (hq : q <+: q') :
    Apart p' q' := by
  constructor
  · intro hpq
    rcases List.prefix_or_prefix_of_prefix (hp.trans hpq) hq with h' | h'
    · exact h.1 h'
    · exact h.2 h'
  · intro hqp
    rcases List.prefix_or_prefix_of_prefix (hq.trans hqp) hp with h' | h'
    · exact h.2 h'
    · exact h.1 h'

namespace KeptTree

variable {t : KeptTree α}

theorem mem_children {p : List ℕ} {k : KeptNode α} :
    k ∈ t.children p ↔ k ∈ t ∧ k.chain = p ++ [k.delta] := by
  rw [children, List.mem_filter, decide_eq_true_iff]
  refine and_congr_right fun _ => ?_
  constructor
  · rintro ⟨hne, rfl⟩
    rw [KeptNode.delta, List.getLast?_eq_some_getLast hne, Option.getD_some,
      List.dropLast_concat_getLast]
  · intro hk
    rw [hk]
    simp

/-- A node strictly below another one is below a child of it. -/
theorem Wf.exists_child (h : t.Wf) {m : KeptNode α} (hm : m ∈ t) {p : List ℕ} (hp : p <+: m.chain)
    (hne : p ≠ m.chain) : ∃ k ∈ t.children p, k.chain <+: m.chain := by
  obtain ⟨r, hr⟩ := hp
  cases r with
  | nil => exact absurd (by simpa using hr) hne
  | cons d r =>
    have hpre : p ++ [d] <+: m.chain := ⟨r, by simpa using hr⟩
    obtain ⟨k, hk, hkc⟩ := List.mem_map.mp (h.mem_of_prefix (List.mem_map_of_mem hm) hpre)
    refine ⟨k, mem_children.mpr ⟨hk, ?_⟩, hkc ▸ hpre⟩
    rw [KeptNode.delta, hkc]
    simp

/-- Children of a node are told apart by their deltas. -/
theorem Wf.children_eq (h : t.Wf) {p : List ℕ} {k k' : KeptNode α} (hk : k ∈ t.children p)
    (hk' : k' ∈ t.children p) (hd : k.delta = k'.delta) : k = k' := by
  rw [mem_children] at hk hk'
  exact h.eq hk.1 hk'.1 (by rw [hk.2, hk'.2, hd])

/-- Children of one node are apart. -/
theorem Wf.apart_children (h : t.Wf) {p : List ℕ} {k k' : KeptNode α} (hk : k ∈ t.children p)
    (hk' : k' ∈ t.children p) (hne : k ≠ k') : Apart k.chain k'.chain := by
  have hd : k.delta ≠ k'.delta := fun hd => hne (h.children_eq hk hk' hd)
  rw [(mem_children.mp hk).2, (mem_children.mp hk').2]
  constructor
  · rw [List.prefix_append_right_inj]
    exact fun hp => hd (List.cons_prefix_cons.mp hp).1
  · rw [List.prefix_append_right_inj]
    exact fun hp => hd (List.cons_prefix_cons.mp hp).1.symm

theorem Wf.nodup_children (h : t.Wf) (p : List ℕ) : (t.children p).Nodup := h.nodup_nodes.filter _

/-- A chain is shorter than the tree is large. -/
theorem Wf.length_lt (h : t.Wf) {n : KeptNode α} (hn : n ∈ t) : n.chain.length < t.length := by
  have hsub : (List.range (n.chain.length + 1)).map (fun i => n.chain.take i) ⊆ t.chains := by
    intro p hp
    obtain ⟨i, -, rfl⟩ := List.mem_map.mp hp
    exact h.mem_of_prefix (List.mem_map_of_mem hn) (List.take_prefix i n.chain)
  have hnodup : ((List.range (n.chain.length + 1)).map fun i => n.chain.take i).Nodup := by
    refine List.nodup_range.map_on fun i hi j hj hij => ?_
    have hlen := congrArg List.length hij
    rw [List.length_take, List.length_take] at hlen
    rw [List.mem_range] at hi hj
    omega
  have hle := (hnodup.subperm hsub).length_le
  rw [List.length_map, List.length_range, chains, List.length_map] at hle
  omega

/-- How a run goes on: it ends, or there is a unique child, which is fusible. -/
theorem run_cases (t : KeptTree α) (f : ℕ) (n : KeptNode α) : t.run f n = [n] ∨
    ∃ g k, f = g + 1 ∧ t.children n.chain = [k] ∧ k.delta = 1 ∧ k.live = n.live ∧
      t.run f n = n :: t.run g k := by
  cases f with
  | zero => exact Or.inl rfl
  | succ f =>
    rw [run]
    split
    · rename_i k hk
      split_ifs with hfus
      · exact Or.inr ⟨f, k, rfl, hk, hfus.1, hfus.2, rfl⟩
      · exact Or.inl rfl
    · exact Or.inl rfl

/-- A run goes down by deltas one and is all live or all dead. -/
theorem run_shape {f : ℕ} {n : KeptNode α} (hn : n ∈ t) {j : ℕ} {m : KeptNode α}
    (hm : (t.run f n)[j]? = some m) :
    m ∈ t ∧ m.chain = n.chain ++ List.replicate j 1 ∧ m.live = n.live := by
  induction f generalizing n j with
  | zero =>
    cases j with
    | zero => cases hm; simp [hn]
    | succ j => simp [run] at hm
  | succ f ih =>
    rcases run_cases t (f + 1) n with heq | ⟨g, k, hg, hk, hdelta, hlive, heq⟩
    · rw [heq] at hm
      cases j with
      | zero => cases hm; simp [hn]
      | succ j => simp at hm
    · obtain rfl : g = f := by omega
      have hchild := mem_children.mp (hk ▸ List.mem_singleton_self k : k ∈ t.children n.chain)
      rw [heq] at hm
      cases j with
      | zero => cases hm; simp [hn]
      | succ j =>
        obtain ⟨hmem, hchain, hl⟩ := ih hchild.1 (by simpa using hm)
        refine ⟨hmem, ?_, hl.trans hlive⟩
        rw [hchain, hchild.2, hdelta, List.append_assoc]
        rfl

theorem prefix_of_mem_run {f : ℕ} {n m : KeptNode α} (hn : n ∈ t) (hm : m ∈ t.run f n) :
    m ∈ t ∧ n.chain <+: m.chain := by
  obtain ⟨j, hj⟩ := List.mem_iff_getElem?.mp hm
  obtain ⟨hmem, hchain, -⟩ := run_shape hn hj
  exact ⟨hmem, hchain ▸ List.prefix_append _ _⟩

/-- The nodes of a run are different. -/
theorem nodup_run {f : ℕ} {n : KeptNode α} (hn : n ∈ t) : (t.run f n).Nodup := by
  rw [List.nodup_iff_getElem?_ne_getElem?]
  intro i j hij hj heq
  obtain ⟨m, hm⟩ : ∃ m, (t.run f n)[j]? = some m := ⟨_, List.getElem?_eq_getElem hj⟩
  have hi := (run_shape hn (heq.trans hm)).2.1
  have hlen := congrArg List.length (hi.symm.trans (run_shape hn hm).2.1)
  simp only [List.length_append, List.length_replicate] at hlen
  omega

/-- The last node of a run is below all its nodes. -/
theorem prefix_getLast?_run {f : ℕ} {n m z : KeptNode α} (hn : n ∈ t) (hm : m ∈ t.run f n)
    (hz : (t.run f n).getLast? = some z) : m.chain <+: z.chain := by
  obtain ⟨j, hj⟩ := List.mem_iff_getElem?.mp hm
  rw [List.getLast?_eq_getElem?] at hz
  have hlt := (List.getElem?_eq_some_iff.mp hj).1
  rw [(run_shape hn hj).2.1, (run_shape hn hz).2.1, List.prefix_append_right_inj]
  exact List.prefix_iff_eq_take.mpr (by rw [List.take_replicate]; congr 1; simp; omega)

theorem exists_getLast?_run (t : KeptTree α) (f : ℕ) (n : KeptNode α) :
    ∃ m, (t.run f n).getLast? = some m := by
  have hne : t.run f n ≠ [] := by
    rcases run_cases t f n with heq | ⟨g, k, -, -, -, -, heq⟩ <;> rw [heq] <;> simp
  exact ⟨_, List.getLast?_eq_some_getLast hne⟩

/-- **What is below a run**: its nodes, and what is below the children of its last node. -/
theorem Wf.below_run (h : t.Wf) {f : ℕ} {n m : KeptNode α} (hn : n ∈ t) (hm : m ∈ t)
    (hnm : n.chain <+: m.chain) : m ∈ t.run f n ∨
      ∃ z, (t.run f n).getLast? = some z ∧ ∃ k ∈ t.children z.chain, k.chain <+: m.chain := by
  induction f generalizing n with
  | zero =>
    by_cases heq : n.chain = m.chain
    · exact Or.inl (by rw [h.eq hn hm heq]; exact List.mem_singleton_self _)
    · exact Or.inr ⟨n, rfl, h.exists_child hm hnm heq⟩
  | succ f ih =>
    by_cases hchain : n.chain = m.chain
    · obtain rfl := h.eq hn hm hchain
      refine Or.inl ?_
      rcases run_cases t (f + 1) n with heq | ⟨g, k, -, -, -, -, heq⟩ <;> rw [heq] <;> simp
    · obtain ⟨k', hk', hpre⟩ := h.exists_child hm hnm hchain
      rcases run_cases t (f + 1) n with heq | ⟨g, k, hg, hk, -, -, heq⟩
      · exact Or.inr ⟨n, by rw [heq]; rfl, k', hk', hpre⟩
      · obtain rfl : g = f := by omega
        obtain rfl : k' = k := by rw [hk] at hk'; exact List.mem_singleton.mp hk'
        obtain ⟨z, hz⟩ := exists_getLast?_run t g k'
        rw [heq]
        rcases ih (mem_children.mp hk').1 hpre with hmem | ⟨z, hz, hbelow⟩
        · exact Or.inl (List.mem_cons_of_mem _ hmem)
        · exact Or.inr ⟨z, by rw [List.getLast?_cons, hz]; rfl, hbelow⟩

/-- **Runs are maximal**: the last node of a run has no fusible unique child. -/
theorem Wf.not_fusible (h : t.Wf) {n z k : KeptNode α} (hn : n ∈ t)
    (hz : (t.run t.length n).getLast? = some z) (hk : t.children z.chain = [k]) :
    ¬ (k.delta = 1 ∧ k.live = z.live) := by
  suffices hfuel : ∀ f n, n ∈ t → t.length ≤ f + n.chain.length → (t.run f n).getLast? = some z →
      ¬ (k.delta = 1 ∧ k.live = z.live) from hfuel _ n hn (by omega) hz
  intro f
  induction f with
  | zero =>
    intro n hn hle
    have := h.length_lt hn
    omega
  | succ f ih =>
    intro n hn hle hz
    rw [run] at hz
    split at hz
    · rename_i c hc
      have hchild := mem_children.mp (hc ▸ List.mem_singleton_self c : c ∈ t.children n.chain)
      split_ifs at hz with hfus
      · obtain ⟨y, hy⟩ := exists_getLast?_run t f c
        rw [List.getLast?_cons, hy, Option.getD_some] at hz
        obtain rfl := Option.some.inj hz
        refine ih c hchild.1 ?_ hy
        rw [hchild.2, List.length_append, List.length_singleton]
        omega
      · obtain rfl : n = z := by simpa using hz
        rw [hc] at hk
        obtain rfl := (List.cons.inj hk).1
        exact hfus
    · rename_i hnot
      obtain rfl : n = z := by simpa using hz
      exact absurd hk (hnot k)

end KeptTree

/-! ### The table -/

/-- The nodes of the entry go down from a chain by the delta and then by ones, all live or all
dead. -/
structure RunEntry.IsRun (e : RunEntry α) (base : List ℕ) : Prop where
  /-- There is a node. -/
  pos : 0 < e.members.length
  /-- The chains of the nodes. -/
  shape : ∀ j m, e.members[j]? = some m →
    m.chain = base ++ e.delta :: List.replicate j 1 ∧ m.live = e.live

namespace RunTable

/-- The chain below which a run hangs: the root, or the last node of the parent entry. -/
def Hangs (es : List (RunEntry α)) (parent : Option ℕ) (poff : ℕ) (base : List ℕ) : Prop :=
  match parent with
  | none => base = []
  | some p => ∃ e z, es[p]? = some e ∧ e.members.getLast? = some z ∧
      poff + 1 = e.members.length ∧ z.chain = base

theorem Hangs.append {es : List (RunEntry α)} {parent : Option ℕ} {poff : ℕ} {base : List ℕ}
    (h : Hangs es parent poff base) (fs : List (RunEntry α)) : Hangs (es ++ fs) parent poff base := by
  cases parent with
  | none => exact h
  | some p =>
    obtain ⟨e, z, he, hz⟩ := h
    have hlt : p < es.length := (List.getElem?_eq_some_iff.mp he).1
    exact ⟨e, z, by rw [List.getElem?_append_left hlt, he], hz⟩

/-- A run hangs below an earlier entry. -/
theorem Hangs.lt {es : List (RunEntry α)} {p poff : ℕ} {base : List ℕ}
    (h : Hangs es (some p) poff base) : p < es.length := by
  obtain ⟨e, z, he, -⟩ := h
  exact (List.getElem?_eq_some_iff.mp he).1

/-- The nodes of all entries. -/
def members (T : RunTable α) : List (KeptNode α) := T.entries.flatMap RunEntry.members

/-- The entries are runs of different nodes of the tree, each hangs below an earlier one, and each
is attached to its parent. -/
structure Sound (t : KeptTree α) (T : RunTable α) : Prop where
  /-- Entries are runs below earlier entries. -/
  runs : ∀ i e, T.entries[i]? = some e →
    ∃ base, Hangs (T.entries.take i) e.parent e.poff base ∧ e.IsRun base
  /-- Every entry has a list of attachments. -/
  att_length : T.att.length = T.entries.length
  /-- Attachments are listed once. -/
  att_nodup : ∀ l ∈ T.att, l.Nodup
  /-- Entries are attached to their parents. -/
  att_iff : ∀ (p : ℕ) l, T.att[p]? = some l →
    ∀ i, i ∈ l ↔ ∃ e, T.entries[i]? = some e ∧ e.parent = some p
  /-- No node is in two places. -/
  nodup : T.members.Nodup
  /-- The nodes are nodes of the tree other than the root. -/
  mem : ∀ n ∈ T.members, n ∈ t ∧ n.chain ≠ []

/-- **The entries partition the nodes of the tree** other than the root. -/
structure Partitions (t : KeptTree α) (T : RunTable α) : Prop extends Sound t T where
  /-- Every node other than the root is in an entry. -/
  complete : ∀ n ∈ t, n.chain ≠ [] → n ∈ T.members

/-- What holds while the runs are cut: the nodes that are not in the table are below the pending
ones, which are apart. -/
structure Cutting (t : KeptTree α) (stack : List (PendingRun α)) (T : RunTable α) : Prop
    extends Sound t T where
  /-- Pending nodes hang below entries. -/
  pending : ∀ x ∈ stack, x.node ∈ t ∧
    ∃ base, Hangs T.entries x.parent x.poff base ∧ x.node.chain = base ++ [x.node.delta]
  /-- Pending nodes are apart. -/
  apart : stack.Pairwise fun x y => Apart x.node.chain y.node.chain
  /-- No node of the table is below a pending one. -/
  above : ∀ n ∈ T.members, ∀ x ∈ stack, ¬ x.node.chain <+: n.chain
  /-- The other nodes are below pending ones. -/
  below : ∀ n ∈ t, n.chain ≠ [] → n ∈ T.members ∨ ∃ x ∈ stack, x.node.chain <+: n.chain

variable {t : KeptTree α} {T : RunTable α}

theorem members_push (T : RunTable α) (e : RunEntry α) :
    (T.push e).members = T.members ++ e.members := by
  simp [members, push]

theorem getElem?_entries_push {e f : RunEntry α} {i : ℕ} : (T.push e).entries[i]? = some f ↔
    T.entries[i]? = some f ∨ i = T.entries.length ∧ e = f := by
  rw [push, List.getElem?_append]
  split_ifs with hi
  · exact ⟨Or.inl, fun h => h.elim id fun h => absurd h.1 (by omega)⟩
  · rw [List.getElem?_eq_none (by omega : T.entries.length ≤ i), List.getElem?_singleton]
    split_ifs with h0
    · simp [show i = T.entries.length by omega]
    · simp [show i ≠ T.entries.length by omega]

@[simp] theorem length_attach (att : List (List ℕ)) (eid : ℕ) (parent : Option ℕ) :
    (attach att eid parent).length = att.length := by
  cases parent with
  | none => rfl
  | some p => rw [attach, List.length_modify]

theorem getElem?_attach (att : List (List ℕ)) (eid : ℕ) (parent : Option ℕ) (p : ℕ) :
    (attach att eid parent)[p]? =
      (att[p]?).map fun l => if parent = some p then l ++ [eid] else l := by
  cases parent with
  | none => simp [attach]
  | some q => simp [attach, List.getElem?_modify]

theorem getElem?_att_push (hlen : T.att.length = T.entries.length) (e : RunEntry α) {p : ℕ}
    {l : List ℕ} : (T.push e).att[p]? = some l ↔
      (∃ l', T.att[p]? = some l' ∧ l = if e.parent = some p then l' ++ [T.entries.length] else l') ∨
        p = T.entries.length ∧ l = [] := by
  rw [push, List.getElem?_append, length_attach]
  by_cases hp : p < T.att.length
  · rw [if_pos hp, getElem?_attach, Option.map_eq_some_iff]
    constructor
    · rintro ⟨l', hl', rfl⟩
      exact Or.inl ⟨l', hl', rfl⟩
    · rintro (⟨l', hl', rfl⟩ | ⟨heq, -⟩)
      · exact ⟨l', hl', rfl⟩
      · omega
  · rw [if_neg hp, List.getElem?_eq_none (by omega : T.att.length ≤ p), List.getElem?_singleton]
    by_cases heq : p = T.entries.length
    · rw [if_pos (by omega)]
      simp [heq, eq_comm]
    · rw [if_neg (by omega)]
      simp [heq]

theorem Sound.parent_lt (h : T.Sound t) {i p : ℕ} {e : RunEntry α} (he : T.entries[i]? = some e)
    (hp : e.parent = some p) : p < i := by
  obtain ⟨base, hh, -⟩ := h.runs i e he
  rw [hp] at hh
  have := hh.lt
  rw [List.length_take] at this
  omega

/-- **Appending a run** of new nodes. -/
theorem Sound.push (h : T.Sound t) {e : RunEntry α} {base : List ℕ}
    (hhangs : Hangs T.entries e.parent e.poff base) (hrun : e.IsRun base)
    (hnodup : e.members.Nodup) (hmem : ∀ n ∈ e.members, n ∈ t ∧ n.chain ≠ [])
    (hnew : ∀ n ∈ e.members, n ∉ T.members) : (T.push e).Sound t where
  runs i f hf := by
    rcases getElem?_entries_push.mp hf with hf | ⟨rfl, rfl⟩
    · obtain ⟨b, hb, hr⟩ := h.runs i f hf
      have hi : i < T.entries.length := (List.getElem?_eq_some_iff.mp hf).1
      refine ⟨b, ?_, hr⟩
      rw [RunTable.push, List.take_append_of_le_length hi.le]
      exact hb
    · refine ⟨base, ?_, hrun⟩
      rw [RunTable.push, List.take_append_of_le_length le_rfl, List.take_length]
      exact hhangs
  att_length := by
    rw [RunTable.push]
    simp [h.att_length]
  att_nodup l hl := by
    obtain ⟨p, hp⟩ := List.mem_iff_getElem?.mp hl
    rcases (getElem?_att_push h.att_length e).mp hp with ⟨l', hl', rfl⟩ | ⟨-, rfl⟩
    · have hold := h.att_nodup l' (List.mem_of_getElem? hl')
      split_ifs
      · refine List.nodup_append.mpr ⟨hold, List.nodup_singleton _, ?_⟩
        rintro i hi j hj rfl
        obtain ⟨f, hf, -⟩ := (h.att_iff p l' hl' i).mp hi
        have := (List.getElem?_eq_some_iff.mp hf).1
        rw [List.mem_singleton.mp hj] at this
        omega
      · exact hold
    · exact List.nodup_nil
  att_iff p l hl i := by
    rcases (getElem?_att_push h.att_length e).mp hl with ⟨l', hl', rfl⟩ | ⟨rfl, rfl⟩
    · have hold := h.att_iff p l' hl' i
      constructor
      · intro hi
        have hcases : i ∈ l' ∨ e.parent = some p ∧ i = T.entries.length := by
          split_ifs at hi with hp
          · rcases List.mem_append.mp hi with hi | hi
            · exact Or.inl hi
            · exact Or.inr ⟨hp, List.mem_singleton.mp hi⟩
          · exact Or.inl hi
        rcases hcases with hi | ⟨hp, hi⟩
        · obtain ⟨f, hf, hfp⟩ := hold.mp hi
          exact ⟨f, getElem?_entries_push.mpr (Or.inl hf), hfp⟩
        · exact ⟨e, getElem?_entries_push.mpr (Or.inr ⟨hi, rfl⟩), hp⟩
      · rintro ⟨f, hf, hfp⟩
        rcases getElem?_entries_push.mp hf with hf | ⟨rfl, rfl⟩
        · have hi := hold.mpr ⟨f, hf, hfp⟩
          split_ifs
          · exact List.mem_append_left _ hi
          · exact hi
        · rw [if_pos hfp]
          exact List.mem_append_right _ (List.mem_singleton_self _)
    · refine ⟨fun hi => absurd hi List.not_mem_nil, ?_⟩
      rintro ⟨f, hf, hfp⟩
      rcases getElem?_entries_push.mp hf with hf | ⟨rfl, rfl⟩
      · have hlt := h.parent_lt hf hfp
        have := (List.getElem?_eq_some_iff.mp hf).1
        omega
      · rw [hfp] at hhangs
        have := hhangs.lt
        omega
  nodup := by
    rw [members_push]
    refine List.nodup_append.mpr ⟨h.nodup, hnodup, ?_⟩
    rintro n hn m hm rfl
    exact hnew n hm hn
  mem n hn := by
    rw [members_push] at hn
    exact (List.mem_append.mp hn).elim (h.mem n) (hmem n)

section Cut

variable {x : PendingRun α} {stack : List (PendingRun α)}

theorem isRun_entryOf {base : List ℕ} (hx : x.node ∈ t)
    (hchain : x.node.chain = base ++ [x.node.delta]) : (entryOf t x).IsRun base where
  pos := by
    obtain ⟨z, hz⟩ := KeptTree.exists_getLast?_run t t.length x.node
    exact List.length_pos_of_mem (List.mem_of_getLast? hz)
  shape j m hm := by
    obtain ⟨-, hmc, hlive⟩ := KeptTree.run_shape hx hm
    refine ⟨?_, hlive⟩
    rw [hmc, hchain, List.append_assoc]
    rfl

theorem mem_pendingBelow {eid : ℕ} {e : RunEntry α} {y : PendingRun α} :
    y ∈ pendingBelow t eid e ↔ ∃ z, e.members.getLast? = some z ∧ ∃ k ∈ t.children z.chain,
      y = { node := k, parent := some eid, poff := e.members.length - 1 } := by
  rw [pendingBelow]
  cases e.members.getLast? with
  | none => simp
  | some z =>
    simp only [List.mem_reverse, List.mem_map, Option.some.injEq, exists_eq_left', eq_comm]

/-- **Cutting a run** leaves what is below the children of its last node. -/
theorem Cutting.step (ht : t.Wf) (h : T.Cutting t (x :: stack)) :
    (T.push (entryOf t x)).Cutting t
      (pendingBelow t T.entries.length (entryOf t x) ++ stack) := by
  obtain ⟨hx, base, hhangs, hchain⟩ := h.pending x List.mem_cons_self
  obtain ⟨z, hz⟩ := KeptTree.exists_getLast?_run t t.length x.node
  have hrun := isRun_entryOf hx hchain
  have hmembers : ∀ m ∈ (entryOf t x).members, m ∈ t ∧ x.node.chain <+: m.chain := fun m hm =>
    KeptTree.prefix_of_mem_run hx hm
  have hzt := hmembers z (List.mem_of_getLast? hz)
  have hchild : ∀ y ∈ pendingBelow t T.entries.length (entryOf t x), y.node ∈ t.children z.chain ∧
      y.parent = some T.entries.length ∧ y.poff + 1 = (entryOf t x).members.length := by
    intro y hy
    obtain ⟨z', hz', k, hk, rfl⟩ := mem_pendingBelow.mp hy
    obtain rfl : z' = z := Option.some.inj (hz'.symm.trans hz)
    have := hrun.pos
    exact ⟨hk, rfl, by simp only; omega⟩
  have hbelow : ∀ y ∈ pendingBelow t T.entries.length (entryOf t x),
      x.node.chain <+: y.node.chain := fun y hy => by
    have hyc := (KeptTree.mem_children.mp (hchild y hy).1).2
    exact hzt.2.trans (hyc ▸ List.prefix_append _ _)
  have hapart := List.pairwise_cons.mp h.apart
  have hsound := h.toSound.push hhangs hrun (KeptTree.nodup_run hx)
    (fun m hm => ⟨(hmembers m hm).1, fun hnil => by
      have := (hmembers m hm).2.length_le
      rw [hnil, hchain] at this
      simp at this⟩)
    fun m hm hT => h.above m hT x List.mem_cons_self (hmembers m hm).2
  refine { hsound with pending := ?_, apart := ?_, above := ?_, below := ?_ }
  · intro y hy
    rcases List.mem_append.mp hy with hy | hy
    · obtain ⟨hk, hparent, hpoff⟩ := hchild y hy
      refine ⟨(KeptTree.mem_children.mp hk).1, z.chain, ?_, (KeptTree.mem_children.mp hk).2⟩
      rw [hparent]
      exact ⟨entryOf t x, z, getElem?_entries_push.mpr (Or.inr ⟨rfl, rfl⟩), hz, hpoff, rfl⟩
    · obtain ⟨hyt, b, hb, hyc⟩ := h.pending y (List.mem_cons_of_mem _ hy)
      exact ⟨hyt, b, hb.append _, hyc⟩
  · refine List.pairwise_append.mpr ⟨?_, hapart.2, fun y hy w hw => ?_⟩
    · -- Children of one node are apart.
      have hnodup : (pendingBelow t T.entries.length (entryOf t x)).Pairwise
          fun y w => y.node ≠ w.node := by
        rw [pendingBelow, show (entryOf t x).members.getLast? = some z from hz,
          List.pairwise_reverse, List.pairwise_map]
        exact (ht.nodup_children z.chain).imp Ne.symm
      exact hnodup.imp_of_mem fun hy hw hne => ht.apart_children (hchild _ hy).1 (hchild _ hw).1 hne
    · exact (hapart.1 w hw).mono (hbelow y hy) (List.prefix_refl _)
  · intro n hn y hy
    rw [members_push, List.mem_append] at hn
    rcases List.mem_append.mp hy with hy | hy <;> rcases hn with hn | hn
    · exact fun hpre => h.above n hn x List.mem_cons_self ((hbelow y hy).trans hpre)
    · intro hpre
      have hnz := KeptTree.prefix_getLast?_run hx hn hz
      have := (hpre.trans hnz).length_le
      rw [(KeptTree.mem_children.mp (hchild y hy).1).2, List.length_append] at this
      simp at this
    · exact h.above n hn y (List.mem_cons_of_mem _ hy)
    · exact fun hpre => ((hapart.1 y hy).mono (hmembers n hn).2 hpre).1 (List.prefix_refl _)
  · intro n hn hne
    rw [members_push]
    rcases h.below n hn hne with hT | ⟨y, hy, hpre⟩
    · exact Or.inl (List.mem_append_left _ hT)
    · rcases List.mem_cons.mp hy with rfl | hy
      · rcases ht.below_run hx hn hpre with hmem | ⟨z', hz', k, hk, hkn⟩
        · exact Or.inl (List.mem_append_right _ hmem)
        · exact Or.inr ⟨_, List.mem_append_left _ (mem_pendingBelow.mpr ⟨z', hz', k, hk, rfl⟩), hkn⟩
      · exact Or.inr ⟨y, List.mem_append_right _ hy, hpre⟩

/-- A table has fewer nodes than the tree, which also has the root. -/
theorem Sound.length_lt (ht : t.Wf) (h : T.Sound t) : T.members.length < t.length := by
  obtain ⟨r, hr, hnil⟩ := List.mem_map.mp ht.root
  have hnodup : (r :: T.members).Nodup :=
    List.nodup_cons.mpr ⟨fun hmem => (h.mem r hmem).2 hnil, h.nodup⟩
  have hsub : r :: T.members ⊆ t := List.cons_subset.mpr ⟨hr, fun n hn => (h.mem n hn).1⟩
  exact (hnodup.subperm hsub).length_le

/-- At the start nothing is in the table, and the nodes below the root are pending. -/
theorem cutting_pendingRoots (ht : t.Wf) : empty.Cutting t (pendingRoots t) where
  runs i e he := by simp [empty] at he
  att_length := rfl
  att_nodup l hl := by simp [empty] at hl
  att_iff p l hl := by simp [empty] at hl
  nodup := List.nodup_nil
  mem n hn := by simp [members, empty] at hn
  pending x hx := by
    simp only [pendingRoots, List.mem_reverse, List.mem_map] at hx
    obtain ⟨c, hc, rfl⟩ := hx
    exact ⟨(KeptTree.mem_children.mp hc).1, [], rfl, (KeptTree.mem_children.mp hc).2⟩
  apart := by
    rw [pendingRoots, List.pairwise_reverse, List.pairwise_map]
    exact (ht.nodup_children []).imp_of_mem fun hc hc' hne =>
      (ht.apart_children hc hc' hne).symm
  above n hn := by simp [members, empty] at hn
  below n hn hne := by
    obtain ⟨k, hk, hkn⟩ := ht.exists_child hn List.nil_prefix hne.symm
    refine Or.inr ⟨{ node := k, parent := none, poff := 0 }, ?_, hkn⟩
    rw [pendingRoots, List.mem_reverse, List.mem_map]
    exact ⟨k, hk, rfl⟩

/-- **Cutting the runs** at all pending nodes partitions the tree. -/
theorem Cutting.cutRuns (ht : t.Wf) {f : ℕ} (h : T.Cutting t stack)
    (hf : t.length ≤ f + T.members.length) : (cutRuns t f stack T).Partitions t := by
  induction f generalizing stack T with
  | zero =>
    have := h.toSound.length_lt ht
    omega
  | succ f ih =>
    cases stack with
    | nil =>
      refine { h.toSound with complete := fun n hn hne => ?_ }
      exact (h.below n hn hne).resolve_right fun ⟨y, hy, _⟩ => List.not_mem_nil hy
    | cons x stack =>
      refine ih (h.step ht) ?_
      obtain ⟨hx, base, -, hchain⟩ := h.pending x List.mem_cons_self
      have := (isRun_entryOf hx hchain).pos
      rw [members_push, List.length_append]
      omega

/-- **Every entry is attached at the last node of its parent.** -/
theorem Sound.interior_eq_false (h : T.Sound t) {e : RunEntry α} (he : e ∈ T.entries) :
    T.interior e = false := by
  obtain ⟨i, hi⟩ := List.mem_iff_getElem?.mp he
  obtain ⟨base, hh, -⟩ := h.runs i e hi
  rw [interior]
  cases hp : e.parent with
  | none => rfl
  | some p =>
    rw [hp] at hh
    obtain ⟨q, z, hq, -, hpoff, -⟩ := hh
    have hq' : T.entries[p]? = some q := by
      rw [List.getElem?_take] at hq
      split_ifs at hq
      exact hq
    rw [Option.any_some, hq', Option.all_some, decide_eq_false_iff_not]
    omega

end Cut

end RunTable

/-- **A placed state has a run table**, which partitions its kept tree. -/
theorem exists_buildRunTable {s : EmbedRGA.State α} (h : EmbedRGA.Placed s) :
    ∃ t T, coordTree s = .ok t ∧ t.Keeps s.entries ∧ buildRunTable s = .ok T ∧ T.Partitions t := by
  obtain ⟨t, ht, hkeeps⟩ := exists_coordTree h
  have hpart := (RunTable.cutting_pendingRoots hkeeps.wf).cutRuns hkeeps.wf (Nat.le_add_right _ _)
  refine ⟨t, _, ht, hkeeps, ?_, hpart⟩
  have hint : ∀ T : RunTable α, T.Partitions t → T.entries.any T.interior = false := fun T hT => by
    rw [List.any_eq_false]
    exact fun e he => by rw [hT.toSound.interior_eq_false he]; exact Bool.false_ne_true
  simp only [buildRunTable, ht, bind, Except.bind, hint _ hpart]
  rfl

end SalRuntime
