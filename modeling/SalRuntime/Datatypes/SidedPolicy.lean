import SalRuntime.Datatypes.LiveGapSided
import SalRuntime.Datatypes.UnifiedSided

/-!
# The production kernel summarizes the full policy kernel

The nodes of the full kernel form a tree: every inserted id has a chain, that of its parent
extended by a step. A state of the production kernel summarizes a state of the full kernel when it
has a record of every live node, with the chain of the successor in its gap, and forgets the
labels. Preparing, applying and merging preserve this, and both states show the same ids.

## Main definitions

* `SidedTree` — chains of inserted ids.
* `PolicyState` — a state of the full kernel over such chains.
* `Summarizes` — a state of the production kernel is the summary of a state of the full kernel.

## Main results

* `Summarizes.prepare`, `Summarizes.apply_ins`, `Summarizes.apply_del`, `Summarizes.merge3` — the
  operations of both kernels agree.
* `Summarizes.readIds_eq` — both kernels show the same ids.
-/

namespace SalRuntime

variable {α : Type}

/-! ### The tree of chains -/

/-- The chain of a parent. -/
def chainAt (χ : ℕ → Chain) : Option ℕ → Chain
  | none => []
  | some p => χ p

/-- Every id of `I` has a chain: that of its parent, extended by a step to the id. -/
def SidedTree (χ : ℕ → Chain) (I : Set ℕ) : Prop :=
  ∀ id ∈ I, ∃ (side : FugueSide) (p : Option ℕ),
    χ id = chainAt χ p ++ [⟨side, id - p.getD 0, id⟩] ∧ p.getD 0 < id ∧ ∀ q, p = some q → q ∈ I

namespace SidedTree

variable {χ : ℕ → Chain} {I J : Set ℕ}

theorem union (h : SidedTree χ I) (h' : SidedTree χ J) : SidedTree χ (I ∪ J) := by
  rintro id (hid | hid)
  · obtain ⟨side, p, hχ, hlt, hp⟩ := h id hid
    exact ⟨side, p, hχ, hlt, fun q hq => Or.inl (hp q hq)⟩
  · obtain ⟨side, p, hχ, hlt, hp⟩ := h' id hid
    exact ⟨side, p, hχ, hlt, fun q hq => Or.inr (hp q hq)⟩

theorem congr {χ' : ℕ → Chain} (h : SidedTree χ I) (heq : ∀ id ∈ I, χ' id = χ id) :
    SidedTree χ' I := by
  intro id hid
  obtain ⟨side, p, hχ, hlt, hp⟩ := h id hid
  refine ⟨side, p, ?_, hlt, hp⟩
  rw [heq id hid, hχ]
  cases p with
  | none => rfl
  | some q => rw [chainAt, chainAt, heq q (hp q rfl)]

/-- A fresh id below the root or an id of the tree. -/
theorem insert (h : SidedTree χ I) {id : ℕ} (hid : id ∉ I) {side : FugueSide} {p : Option ℕ}
    (hp : ∀ q, p = some q → q ∈ I) (hlt : p.getD 0 < id) :
    SidedTree (Function.update χ id (chainAt χ p ++ [⟨side, id - p.getD 0, id⟩]))
      (insert id I) := by
  have hne {i : ℕ} (hi : i ∈ I) : i ≠ id := fun heq => hid (heq ▸ hi)
  intro i hi
  rcases hi with rfl | hi
  · refine ⟨side, p, ?_, hlt, fun q hq => Or.inr (hp q hq)⟩
    rw [Function.update_self]
    cases p with
    | none => rfl
    | some q => rw [chainAt, chainAt, Function.update_of_ne (hne (hp q rfl))]
  · obtain ⟨side', p', hχ, hlt', hp'⟩ := h.congr (fun j hj => Function.update_of_ne (hne hj)
      (chainAt χ p ++ [⟨side, id - p.getD 0, id⟩]) χ) i hi
    exact ⟨side', p', hχ, hlt', fun q hq => Or.inr (hp' q hq)⟩

variable (h : SidedTree χ I)

include h

theorem idOf_eq {id : ℕ} (hid : id ∈ I) : UnifiedSided.idOf (χ id) = some id := by
  obtain ⟨side, p, hχ, -⟩ := h id hid
  rw [hχ, UnifiedSided.idOf, List.getLast?_concat]
  rfl

theorem idOf_chainAt {p : Option ℕ} (hp : ∀ q, p = some q → q ∈ I) :
    UnifiedSided.idOf (chainAt χ p) = p := by
  cases p with
  | none => rfl
  | some q => exact h.idOf_eq (hp q rfl)

theorem chain_ne_nil {id : ℕ} (hid : id ∈ I) : χ id ≠ [] := by
  obtain ⟨side, p, hχ, -⟩ := h id hid
  rw [hχ]
  simp

/-- Nonempty prefixes of chains are chains. -/
theorem exists_of_append {c d : Chain} (hc : c ≠ []) {id : ℕ} (hid : id ∈ I) (hχ : χ id = c ++ d) :
    ∃ j ∈ I, χ j = c := by
  -- Induction on the id: parents are smaller.
  induction id using Nat.strong_induction_on generalizing d with
  | _ id ih =>
    rcases List.eq_nil_or_concat d with rfl | ⟨e, x, rfl⟩
    · exact ⟨id, hid, by simpa using hχ⟩
    · obtain ⟨side, p, hchain, hlt, hp⟩ := h id hid
      rw [hchain, List.concat_eq_append, ← List.append_assoc] at hχ
      have hparent := (List.append_inj' hχ rfl).1
      cases p with
      | none => exact absurd (List.append_eq_nil_iff.mp hparent.symm).1 hc
      | some q => exact ih q hlt (hp q rfl) hparent

theorem injOn : Set.InjOn χ I := by
  intro i hi j hj heq
  have hid := h.idOf_eq hi
  rw [heq, h.idOf_eq hj] at hid
  exact (Option.some.inj hid).symm

/-- **The chains of the ids are a tree** in which a place has one node. -/
theorem spaced : Spaced (χ '' I) where
  closed := by
    rintro c d ⟨id, hid, hχ⟩ hc
    obtain ⟨j, hj, hj'⟩ := h.exists_of_append hc hid hχ
    exact ⟨j, hj, hj'⟩
  pos := by
    rintro c x ⟨id, hid, hχ⟩
    obtain ⟨side, p, hchain, hlt, -⟩ := h id hid
    rw [hchain] at hχ
    obtain ⟨-, hx⟩ := List.append_inj' hχ rfl
    obtain rfl := List.singleton_inj.mp hx
    simp only
    omega
  single := by
    rintro c x y ⟨i, hi, hχ⟩ ⟨j, hj, hχ'⟩ hside hdelta
    obtain ⟨side, p, hchain, hlt, hp⟩ := h i hi
    obtain ⟨side', p', hchain', hlt', hp'⟩ := h j hj
    rw [hchain] at hχ
    rw [hchain'] at hχ'
    obtain ⟨hc, hx⟩ := List.append_inj' hχ rfl
    obtain ⟨hc', hy⟩ := List.append_inj' hχ' rfl
    obtain rfl := List.singleton_inj.mp hx
    obtain rfl := List.singleton_inj.mp hy
    -- The parent is the last id of the chain above.
    have hpp : p = p' := by
      rw [← h.idOf_chainAt hp, ← h.idOf_chainAt hp', hc, hc']
    simp only [hpp] at hside hdelta hlt ⊢
    obtain rfl : i = j := by omega
    rw [hside]

end SidedTree

/-! ### Forgetting the labels -/

/-- A chain without the labels. -/
def unlabel (c : Chain) : Chain := c.map fun x => { x with label := 0 }

@[simp] theorem unlabel_nil : unlabel [] = [] := rfl

@[simp] theorem unlabel_append (c d : Chain) : unlabel (c ++ d) = unlabel c ++ unlabel d :=
  List.map_append

@[simp] theorem coord_unlabel (c : Chain) : coord (unlabel c) = coord c := by
  rw [coord, unlabel, List.flatMap_map, coord]

@[simp] theorem coordKey_unlabel (c : Chain) : coordKey (unlabel c) = coordKey c := by
  rw [coordKey, coord_unlabel, coordKey]

theorem Spaced.unlabel {V : Set Chain} (h : Spaced V) : Spaced (unlabel '' V) where
  closed := by
    rintro c d ⟨e, he, heq⟩ hc
    obtain ⟨c', d', rfl, rfl, rfl⟩ := List.map_eq_append_iff.mp heq
    exact ⟨c', h.closed c' d' he (fun hnil => hc (by rw [hnil]; rfl)), rfl⟩
  pos := by
    rintro c x ⟨e, he, heq⟩
    obtain ⟨c', d', rfl, rfl, hd⟩ := List.map_eq_append_iff.mp heq
    obtain ⟨y, rfl, rfl⟩ := List.map_eq_singleton_iff.mp hd
    exact h.pos c' y he
  single := by
    rintro c x y ⟨e, he, heq⟩ ⟨e', he', heq'⟩ hside hdelta
    obtain ⟨c', d', -, -, hd⟩ := List.map_eq_append_iff.mp heq
    obtain ⟨x', -, rfl⟩ := List.map_eq_singleton_iff.mp hd
    obtain ⟨c'', d'', -, -, hd'⟩ := List.map_eq_append_iff.mp heq'
    obtain ⟨y', -, rfl⟩ := List.map_eq_singleton_iff.mp hd'
    simp only at hside hdelta ⊢
    rw [hside, hdelta]

/-! ### States of the full kernel -/

/-- A node of an id, in a state with the nodes of the ids of `I`. -/
structure NodeOver (χ : ℕ → Chain) (I : Set ℕ) (id : ℕ) (n : UnifiedSided.Node α) : Prop where
  /-- The chain of the node. -/
  chain : n.chain = χ id
  /-- Live nodes have gaps, and deleted nodes have none. -/
  gap : n.gap.isSome = n.el.isSome
  /-- The successor in the gap has a node. -/
  succ : ∀ g i, n.gap = some g → g.succId = some i → i ∈ I

theorem NodeOver.mono {χ : ℕ → Chain} {I J : Set ℕ} {id : ℕ} {n : UnifiedSided.Node α}
    (h : NodeOver χ I id n) (hsub : I ⊆ J) : NodeOver χ J id n :=
  ⟨h.chain, h.gap, fun g i hg hi => hsub (h.succ g i hg hi)⟩

/-- The state of the full kernel has a node of every id of `I`, under its chain. -/
structure PolicyState (χ : ℕ → Chain) (I : Set ℕ) (u : UnifiedSided.State α) : Prop where
  /-- The nodes are those of the ids of `I`. -/
  has_iff : ∀ id, u.nodes.has id = true ↔ id ∈ I
  /-- The nodes. -/
  node : ∀ id n, u.nodes.get? id = some n → NodeOver χ I id n
  /-- The successor in the gap at the root has a node. -/
  rootSucc : ∀ i, u.rootGap.succId = some i → i ∈ I
  /-- No order is cached. -/
  order : u.order = none

/-- The gap of the production kernel. -/
def summaryGap (χ : ℕ → Chain) (g : UnifiedSided.Gap) : LiveGap.Gap :=
  ⟨g.hasR, g.succId, unlabel (chainAt χ g.succId)⟩

/-- The record of a live node in the production kernel. -/
def summaryRec (χ : ℕ → Chain) (n : UnifiedSided.Node α) : Option (LiveGap.Rec α) :=
  n.el.bind fun el => n.gap.map fun g => ⟨unlabel n.chain, el, summaryGap χ g⟩

/-- The state of the production kernel is the summary of the state of the full kernel. -/
structure Summarizes (χ : ℕ → Chain) (u : UnifiedSided.State α) (s : LiveGap.State α) : Prop where
  /-- The records are those of the live nodes. -/
  records : ∀ id, s.records.get? id = (u.nodes.get? id).bind (summaryRec χ)
  /-- The gap at the root. -/
  rootGap : s.rootGap = summaryGap χ u.rootGap
  /-- No order is cached. -/
  order : s.order = none

theorem PolicyState.init {χ : ℕ → Chain} : PolicyState χ ∅ (UnifiedSided.init : UnifiedSided.State α) where
  has_iff id := by simp [UnifiedSided.init]
  node id n hn := by cases hn
  rootSucc i hi := by cases hi
  order := rfl

theorem Summarizes.init {χ : ℕ → Chain} :
    Summarizes χ (UnifiedSided.init : UnifiedSided.State α) LiveGap.init := ⟨fun _ => rfl, rfl, rfl⟩

theorem PolicyState.mem {χ : ℕ → Chain} {I : Set ℕ} {u : UnifiedSided.State α}
    (h : PolicyState χ I u) {id : ℕ} {n : UnifiedSided.Node α} (hn : u.nodes.get? id = some n) :
    id ∈ I := (h.has_iff id).mp (SortedMap.has_iff.mpr ⟨n, hn⟩)

theorem PolicyState.exists_node {χ : ℕ → Chain} {I : Set ℕ} {u : UnifiedSided.State α}
    (h : PolicyState χ I u) {id : ℕ} (hid : id ∈ I) : ∃ n, u.nodes.get? id = some n :=
  SortedMap.has_iff.mp ((h.has_iff id).mpr hid)

theorem PolicyState.chain_eq {χ : ℕ → Chain} {I : Set ℕ} {u : UnifiedSided.State α}
    (h : PolicyState χ I u) {p : Option ℕ} (hp : ∀ q, p = some q → q ∈ I) :
    UnifiedSided.chain u p = some (chainAt χ p) := by
  cases p with
  | none => rfl
  | some q =>
    obtain ⟨n, hn⟩ := h.exists_node (hp q rfl)
    rw [UnifiedSided.chain, hn, Option.map_some, (h.node q n hn).chain, chainAt]

theorem PolicyState.congr {χ χ' : ℕ → Chain} {I : Set ℕ} {u : UnifiedSided.State α}
    (h : PolicyState χ I u) (heq : ∀ id ∈ I, χ' id = χ id) : PolicyState χ' I u where
  has_iff := h.has_iff
  node id n hn := { h.node id n hn with
    chain := (h.node id n hn).chain.trans (heq id (h.mem hn)).symm }
  rootSucc := h.rootSucc
  order := h.order

section Summary

variable {χ : ℕ → Chain} {I : Set ℕ} {u : UnifiedSided.State α} {s : LiveGap.State α}

theorem summaryRec_eq_some_iff {n : UnifiedSided.Node α} {r : LiveGap.Rec α} :
    summaryRec χ n = some r ↔
      ∃ el g, n.el = some el ∧ n.gap = some g ∧ r = ⟨unlabel n.chain, el, summaryGap χ g⟩ := by
  simp only [summaryRec, Option.bind_eq_some_iff, Option.map_eq_some_iff]
  constructor
  · rintro ⟨el, hel, g, hg, rfl⟩
    exact ⟨el, g, hel, hg, rfl⟩
  · rintro ⟨el, g, hel, hg, rfl⟩
    exact ⟨el, hel, g, hg, rfl⟩

theorem summaryGap_congr {χ' : ℕ → Chain} {g : UnifiedSided.Gap}
    (heq : ∀ i, g.succId = some i → χ' i = χ i) : summaryGap χ' g = summaryGap χ g := by
  rw [summaryGap, summaryGap]
  cases hg : g.succId with
  | none => rfl
  | some i => rw [chainAt, chainAt, heq i hg]

theorem Summarizes.congr {χ' : ℕ → Chain} (hu : PolicyState χ I u) (hs : Summarizes χ u s)
    (heq : ∀ id ∈ I, χ' id = χ id) : Summarizes χ' u s where
  records id := by
    rw [hs.records]
    cases hn : u.nodes.get? id with
    | none => rfl
    | some n =>
      rw [Option.bind_some, Option.bind_some, summaryRec, summaryRec]
      cases hg : n.gap with
      | none => rfl
      | some g =>
        simp only [Option.map_some,
          summaryGap_congr fun i hi => heq i ((hu.node id n hn).succ g i hg hi)]
  rootGap := by
    rw [hs.rootGap, summaryGap_congr fun i hi => heq i (hu.rootSucc i hi)]
  order := hs.order

/-- An id has a record when its node is live. -/
theorem Summarizes.has_eq (hu : PolicyState χ I u) (hs : Summarizes χ u s) (id : ℕ) :
    s.records.has id = UnifiedSided.live (u.nodes.get? id) := by
  rw [SortedMap.has, hs.records, UnifiedSided.live]
  cases hn : u.nodes.get? id with
  | none => rfl
  | some n =>
    have hgap := (hu.node id n hn).gap
    rw [Option.bind_some, Option.bind_some, summaryRec]
    cases hel : n.el with
    | none => rfl
    | some el =>
      rw [hel, Option.isSome_some, Option.isSome_iff_exists] at hgap
      obtain ⟨g, hg⟩ := hgap
      rw [hg]
      rfl

/-- Both kernels read the same gap of an anchor. -/
theorem Summarizes.exists_gap (hu : PolicyState χ I u) (hs : Summarizes χ u s) {anchorId : Option ℕ}
    (hanchor : ∀ a, anchorId = some a → s.records.has a = true) :
    ∃ g, UnifiedSided.gap u anchorId = some g ∧
      LiveGap.anchorGap s anchorId = some (summaryGap χ g) ∧ ∀ i, g.succId = some i → i ∈ I := by
  cases anchorId with
  | none => exact ⟨u.rootGap, rfl, congrArg some hs.rootGap, hu.rootSucc⟩
  | some a =>
    obtain ⟨r, hr⟩ := SortedMap.has_iff.mp (hanchor a rfl)
    have hrec := hs.records a
    rw [hr, eq_comm, Option.bind_eq_some_iff] at hrec
    obtain ⟨n, hn, hsum⟩ := hrec
    obtain ⟨el, g, -, hg, rfl⟩ := summaryRec_eq_some_iff.mp hsum
    refine ⟨g, ?_, ?_, fun i => (hu.node a n hn).succ g i hg⟩
    · rw [UnifiedSided.gap, hn, Option.bind_some, hg]
    · rw [LiveGap.anchorGap, hr, Option.map_some]

/-- **Preparing** a fresh insertion after a live anchor: both kernels choose the same place. -/
theorem Summarizes.prepare (hu : PolicyState χ I u) (hs : Summarizes χ u s) {id : ℕ} (el : α)
    {anchorId : Option ℕ} (hid : id ∉ I) (hpos : 0 < id) (hlt : ∀ j ∈ I, j < id)
    (hanchor : ∀ a, anchorId = some a → s.records.has a = true) : ∃ p : Placement id,
      LiveGap.prepare s (.ins id el anchorId none) = .ok (.ins id el anchorId (some p)) ∧
      UnifiedSided.prepare u (.ins id el anchorId none) = .ok (.ins id el anchorId (some p)) ∧
      (∀ q, p.parentId = some q → q ∈ I) ∧ ∃ g, UnifiedSided.gap u anchorId = some g ∧
        p.parentId = mintParent g.succId anchorId p.side := by
  obtain ⟨g, hgu, hgs, hsucc⟩ := hs.exists_gap hu hanchor
  have hmem : ∀ a, anchorId = some a → a ∈ I := by
    intro a ha
    have hhas := hanchor a ha
    rw [hs.has_eq hu, UnifiedSided.live] at hhas
    cases hn : u.nodes.get? a with
    | none => rw [hn] at hhas; cases hhas
    | some n => exact hu.mem hn
  -- The parent is the anchor or the successor, and so it is in the tree.
  have hparent : ∀ q, mintParent g.succId anchorId (mintSide g.hasR g.succId) = some q → q ∈ I := by
    intro q hq
    cases hside : mintSide g.hasR g.succId with
    | L => rw [hside] at hq; exact hsucc q hq
    | R => rw [hside] at hq; exact hmem q hq
  have hdelta : (mintParent g.succId anchorId (mintSide g.hasR g.succId)).getD 0 < id := by
    cases hq : mintParent g.succId anchorId (mintSide g.hasR g.succId) with
    | none => exact hpos
    | some q => exact hlt q (hparent q hq)
  have hhas : u.nodes.has id = false := by
    rw [← Bool.not_eq_true, hu.has_iff]
    exact hid
  have hrec : s.records.has id = false := by
    rw [hs.has_eq hu, SortedMap.has_eq_false_iff.mp hhas]
    rfl
  have hlive : anchorId.any (fun a => !UnifiedSided.live (u.nodes.get? a)) = false := by
    cases anchorId with
    | none => rfl
    | some a => rw [Option.any_some, ← hs.has_eq hu, hanchor a rfl]; rfl
  refine ⟨⟨mintSide g.hasR g.succId, mintParent g.succId anchorId (mintSide g.hasR g.succId),
    hdelta⟩, ?_, ?_, hparent, g, hgu, rfl⟩
  · have hbad : ¬ (id < 1 ∨ s.records.has id = true) := by simp [hrec]; omega
    rw [LiveGap.prepare]
    simp only [hbad, if_false, hgs, summaryGap, hdelta, dif_pos, bind, Except.bind, pure,
      Except.pure]
  · have hbad : ¬ (id < 1 ∨ u.nodes.has id = true) := by simp [hhas]; omega
    rw [UnifiedSided.prepare]
    simp only [hbad, if_false, hlive, hgu, hu.chain_eq hparent, Option.isNone_some, hdelta, dif_pos,
      bind, Except.bind, pure, Except.pure, Bool.false_eq_true]

/-- The production kernel finds the chain of the parent. -/
theorem Summarizes.parentChain_eq (hu : PolicyState χ I u) (hs : Summarizes χ u s)
    {anchorId : Option ℕ} (hanchor : ∀ a, anchorId = some a → s.records.has a = true)
    {g : UnifiedSided.Gap} {side : FugueSide} {p : Option ℕ} (hp : p = mintParent g.succId anchorId side) :
    LiveGap.parentChain s p (summaryGap χ g) = .ok (unlabel (chainAt χ p)) := by
  cases p with
  | none => rfl
  | some q =>
    rw [LiveGap.parentChain]
    cases hr : s.records.get? q with
    | some r =>
      have hrec := hs.records q
      rw [hr, eq_comm, Option.bind_eq_some_iff] at hrec
      obtain ⟨n, hn, hsum⟩ := hrec
      obtain ⟨el, g', -, -, rfl⟩ := summaryRec_eq_some_iff.mp hsum
      simp only [(hu.node q n hn).chain, chainAt]
    | none =>
      -- A parent without a record is the successor in the gap.
      have hsucc : g.succId = some q := by
        cases side with
        | L => exact hp.symm
        | R =>
          have hhas := hanchor q hp.symm
          rw [SortedMap.has_iff] at hhas
          obtain ⟨r, hr'⟩ := hhas
          rw [hr] at hr'
          cases hr'
      simp only [summaryGap, hsucc, if_true]

/-- The full kernel with a new node. -/
theorem PolicyState.linkNode (hu : PolicyState χ I u) {id : ℕ} {el : α} {anchorId : Option ℕ}
    (hanchor : ∀ a, anchorId = some a → UnifiedSided.live (u.nodes.get? a)) {succId : Option ℕ}
    (hsucc : ∀ i, succId = some i → i ∈ I) :
    PolicyState χ (insert id I) (UnifiedSided.linkNode u id el anchorId succId (χ id)) := by
  have hmod : (u.nodes.modifyAt anchorId fun n => { n with gap := some ⟨true, some id⟩ }).has =
      u.nodes.has := by
    funext i
    rw [SortedMap.has, SortedMap.get?_modifyAt, SortedMap.has]
    split_ifs
    · exact Option.isSome_map
    · rfl
  refine ⟨fun i => ?_, fun i n hn => ?_, fun j hj => ?_, rfl⟩
  · rw [UnifiedSided.linkNode, SortedMap.has_insert, hmod, Bool.or_eq_true, decide_eq_true_eq,
      hu.has_iff, Set.mem_insert_iff]
  · rw [UnifiedSided.linkNode, SortedMap.get?_insert, SortedMap.get?_modifyAt] at hn
    split_ifs at hn with hi ha
    · cases hn
      exact ⟨by rw [hi], rfl, fun g j hg hj => Or.inr (hsucc j (by cases hg; exact hj))⟩
    · obtain ⟨m, hm, rfl⟩ := Option.map_eq_some_iff.mp hn
      have hlive := hanchor i ha
      rw [UnifiedSided.live, hm, Option.bind_some] at hlive
      refine ⟨(hu.node i m hm).chain, hlive.symm, fun g j hg hj => ?_⟩
      cases hg
      cases hj
      exact Or.inl rfl
    · exact (hu.node i n hn).mono (Set.subset_insert _ _)
  · rw [UnifiedSided.linkNode] at hj
    dsimp only at hj
    split_ifs at hj
    · cases hj
      exact Or.inl rfl
    · exact Or.inr (hu.rootSucc j hj)

/-- The production kernel with a new record. -/
theorem Summarizes.linkRec (hs : Summarizes χ u s) {id : ℕ} {el : α} {anchorId : Option ℕ}
    (hanchor : ∀ a, anchorId = some a → s.records.has a = true) {g : UnifiedSided.Gap} :
    Summarizes χ (UnifiedSided.linkNode u id el anchorId g.succId (χ id))
      (LiveGap.linkRec s id el anchorId (summaryGap χ g) (unlabel (χ id))) := by
  refine ⟨fun i => ?_, ?_, rfl⟩
  · rw [LiveGap.linkRec, UnifiedSided.linkNode, SortedMap.get?_insert, SortedMap.get?_insert]
    split_ifs with hi
    · rw [Option.bind_some, summaryRec]
      rfl
    · rw [SortedMap.get?_modifyAt, SortedMap.get?_modifyAt]
      split_ifs with ha
      · obtain ⟨r, hr⟩ := SortedMap.has_iff.mp (hanchor i ha)
        have hrec := hs.records i
        rw [hr, eq_comm, Option.bind_eq_some_iff] at hrec
        obtain ⟨n, hn, hsum⟩ := hrec
        obtain ⟨el', g', hel, hg, rfl⟩ := summaryRec_eq_some_iff.mp hsum
        rw [hr, hn, Option.map_some, Option.map_some, Option.bind_some, summaryRec, hel]
        rfl
      · exact hs.records i
  · rw [LiveGap.linkRec, UnifiedSided.linkNode]
    dsimp only
    split_ifs
    · rfl
    · exact hs.rootGap

/-- **Inserting** at the place that was prepared. -/
theorem Summarizes.insertAt (hu : PolicyState χ I u) (hs : Summarizes χ u s) {id : ℕ} (el : α)
    {anchorId : Option ℕ} (hanchor : ∀ a, anchorId = some a → s.records.has a = true)
    {p : Placement id}
    (hp : ∀ q, p.parentId = some q → q ∈ I) (hplace : ∃ g, UnifiedSided.gap u anchorId = some g ∧
      p.parentId = mintParent g.succId anchorId p.side)
    (hχ : χ id = chainAt χ p.parentId ++ [⟨p.side, id - p.parentId.getD 0, id⟩]) :
    ∃ u' s', UnifiedSided.insertAt u id el anchorId p = .ok u' ∧
      LiveGap.insertAt s id el anchorId p = .ok s' ∧
      PolicyState χ (insert id I) u' ∧ Summarizes χ u' s' := by
  obtain ⟨g, hgu, hgs, hsucc⟩ := hs.exists_gap hu hanchor
  obtain ⟨g', hgu', hparent⟩ := hplace
  obtain rfl : g = g' := Option.some.inj (hgu.symm.trans hgu')
  refine ⟨UnifiedSided.linkNode u id el anchorId g.succId (χ id),
    LiveGap.linkRec s id el anchorId (summaryGap χ g) (unlabel (χ id)), ?_, ?_,
    hu.linkNode (fun a ha => ?_) hsucc, hs.linkRec hanchor⟩
  · have hno : ¬ p.parentId ≠ mintParent g.succId anchorId p.side := fun hne => hne hparent
    rw [UnifiedSided.insertAt, hgu]
    simp only [if_neg hno, hu.chain_eq hp, Option.getD_some, ← hχ]
  · have hno : ¬ p.parentId ≠ mintParent (summaryGap χ g).succId anchorId p.side :=
      fun hne => hne hparent
    have hch : unlabel (chainAt χ p.parentId) ++ [⟨p.side, id - p.parentId.getD 0, 0⟩] =
        unlabel (χ id) := by
      rw [hχ, unlabel_append]
      rfl
    rw [LiveGap.insertAt, hgs]
    simp only [if_neg hno, hs.parentChain_eq hu hanchor hparent, hch, bind, Except.bind, pure,
      Except.pure]
  · rw [← hs.has_eq hu, hanchor a ha]

/-- **Deleting** an id. -/
theorem Summarizes.apply_del (hu : PolicyState χ I u) (hs : Summarizes χ u s) (id : ℕ) :
    ∃ u' s', UnifiedSided.apply u (.del id) = .ok u' ∧ LiveGap.apply s (.del id) = .ok s' ∧
      PolicyState χ I u' ∧ Summarizes χ u' s' := by
  have hhas := hs.has_eq hu id
  cases hn : u.nodes.get? id with
  | none =>
    rw [hn] at hhas
    refine ⟨u, s, ?_, ?_, hu, hs⟩
    · simp only [UnifiedSided.apply, UnifiedSided.prepare, hn, pure, Except.pure, bind, Except.bind]
    · rw [LiveGap.apply, hhas]
      rfl
  | some n =>
    cases hel : n.el with
    | none =>
      rw [hn, UnifiedSided.live, Option.bind_some, hel] at hhas
      refine ⟨u, s, ?_, ?_, hu, hs⟩
      · simp only [UnifiedSided.apply, UnifiedSided.prepare, hn, hel, pure, Except.pure, bind,
          Except.bind, Option.isNone_none, if_true]
      · rw [LiveGap.apply, hhas]
        rfl
    | some el =>
      rw [hn, UnifiedSided.live, Option.bind_some, hel] at hhas
      refine ⟨{ u with nodes := u.nodes.insert id { n with el := none, gap := none }
                       order := none },
        { s with records := s.records.erase id, order := none }, ?_, ?_,
        ⟨fun i => ?_, fun i m hm => ?_, hu.rootSucc, rfl⟩, ⟨fun i => ?_, hs.rootGap, rfl⟩⟩
      · simp only [UnifiedSided.apply, UnifiedSided.prepare, hn, hel, pure, Except.pure, bind,
          Except.bind, Option.isNone_some, Bool.false_eq_true, if_false]
      · rw [LiveGap.apply, hhas]
        rfl
      · rw [SortedMap.has_insert, Bool.or_eq_true, decide_eq_true_eq, hu.has_iff]
        exact ⟨fun h => h.elim (fun heq => heq ▸ hu.mem hn) fun h => h, Or.inr⟩
      · rw [SortedMap.get?_insert] at hm
        split_ifs at hm with hi
        · cases hm
          exact ⟨hi ▸ (hu.node id n hn).chain, rfl, fun g j hg => by cases hg⟩
        · exact hu.node i m hm
      · rw [SortedMap.get?_insert, SortedMap.get?_erase]
        split_ifs
        · rfl
        · exact hs.records i

end Summary

/-! ### The merge -/

section Merge

variable {χ : ℕ → Chain} {L A B : Set ℕ} {l a b : UnifiedSided.State α}
  {l' a' b' : LiveGap.State α}

theorem chainIn_eq (ha : PolicyState χ A a) (hb : PolicyState χ B b) {i : ℕ} (hi : i ∈ A ∪ B) :
    UnifiedSided.chainIn a b i = some (χ i) := by
  rw [UnifiedSided.chainIn]
  cases hn : a.nodes.get? i with
  | some n => rw [Option.some_or, Option.map_some, (ha.node i n hn).chain]
  | none =>
    have hnot : i ∉ A := fun hA => by
      obtain ⟨n, hn'⟩ := ha.exists_node hA
      rw [hn] at hn'
      cases hn'
    obtain ⟨n, hn'⟩ := hb.exists_node (hi.resolve_left hnot)
    rw [Option.none_or, hn', Option.map_some, (hb.node i n hn').chain]

theorem mergeGap_none_right (chainOf : ℕ → Option Chain) (g : UnifiedSided.Gap) :
    UnifiedSided.mergeGap chainOf (some g) none = .ok (some g) := by
  obtain ⟨hasR, succId⟩ := g
  cases succId <;>
    simp [UnifiedSided.mergeGap, UnifiedSided.maxSucc, bind, Except.bind, pure, Except.pure]

theorem mergeGap_none_left (chainOf : ℕ → Option Chain) (g : UnifiedSided.Gap) :
    UnifiedSided.mergeGap chainOf none (some g) = .ok (some g) := by
  simp [UnifiedSided.mergeGap, UnifiedSided.maxSucc, bind, Except.bind, pure, Except.pure]

/-- **Merging gaps**: both kernels keep the later successor. -/
theorem mergeGap_summary (ha : PolicyState χ A a) (hb : PolicyState χ B b) {ga gb : UnifiedSided.Gap}
    (hga : ∀ i, ga.succId = some i → i ∈ A) (hgb : ∀ i, gb.succId = some i → i ∈ B) :
    ∃ g, UnifiedSided.mergeGap (UnifiedSided.chainIn a b) (some ga) (some gb) = .ok (some g) ∧
      summaryGap χ g = LiveGap.mergeGap (summaryGap χ ga) (summaryGap χ gb) ∧
      ∀ i, g.succId = some i → i ∈ A ∪ B := by
  have hinj : summaryGap χ ga = summaryGap χ gb ↔ ga = gb := by
    refine ⟨fun heq => ?_, fun heq => by rw [heq]⟩
    obtain ⟨hasR, succId⟩ := ga
    obtain ⟨hasR', succId'⟩ := gb
    rw [summaryGap, summaryGap, LiveGap.Gap.mk.injEq] at heq
    rw [UnifiedSided.Gap.mk.injEq]
    exact ⟨heq.1, heq.2.1⟩
  by_cases heq : ga = gb
  · subst heq
    refine ⟨ga, ?_, ?_, fun i hi => Or.inl (hga i hi)⟩
    · rw [UnifiedSided.mergeGap, if_pos rfl]
      rfl
    · rw [LiveGap.mergeGap, if_pos rfl]
  · obtain ⟨succId, hsucc, hwin, hmem⟩ : ∃ succId,
        UnifiedSided.maxSucc (UnifiedSided.chainIn a b) ga.succId gb.succId = .ok succId ∧
        ((LiveGap.maxSucc (summaryGap χ ga) (summaryGap χ gb)).succId = succId ∧
          (LiveGap.maxSucc (summaryGap χ ga) (summaryGap χ gb)).succChain =
            unlabel (chainAt χ succId)) ∧
        ∀ i, succId = some i → i ∈ A ∪ B := by
      cases hsa : ga.succId with
      | none =>
        refine ⟨gb.succId, rfl, ?_, fun i hi => Or.inr (hgb i hi)⟩
        rw [LiveGap.maxSucc, summaryGap, hsa]
        exact ⟨rfl, rfl⟩
      | some i =>
        cases hsb : gb.succId with
        | none =>
          refine ⟨some i, rfl, ?_, fun j hj => Or.inl (hga j (hsa.trans hj))⟩
          simp [LiveGap.maxSucc, summaryGap, hsa, hsb]
        | some j =>
          refine ⟨some (if coordKey (χ i) < coordKey (χ j) then j else i), ?_, ?_, fun k hk => ?_⟩
          · rw [UnifiedSided.maxSucc, chainIn_eq ha hb (Or.inl (hga i hsa)),
              chainIn_eq ha hb (Or.inr (hgb j hsb))]
          · simp only [LiveGap.maxSucc, summaryGap, hsa, hsb, chainAt, coordKey_unlabel,
              reduceCtorEq, if_false]
            split_ifs
            · exact ⟨rfl, rfl⟩
            · exact ⟨rfl, rfl⟩
          · split_ifs at hk
            · exact Or.inr (hgb k (hsb.trans hk))
            · exact Or.inl (hga k (hsa.trans hk))
    refine ⟨⟨ga.hasR || gb.hasR, succId⟩, ?_, ?_, hmem⟩
    · have hne : ¬ (some ga = some gb) := fun h => heq (Option.some.inj h)
      rw [UnifiedSided.mergeGap, if_neg hne]
      simp only [Option.bind_some, hsucc, Option.any_some, bind, Except.bind, pure, Except.pure]
    · rw [LiveGap.mergeGap, if_neg (fun h => heq (hinj.mp h))]
      dsimp only
      rw [hwin.1, hwin.2]
      rfl

/-- A node that is not live has no record. -/
theorem summaryRec_of_not_live {n : UnifiedSided.Node α} (h : n.el = none) :
    summaryRec χ n = none := by
  rw [summaryRec, h, Option.bind_none]

section Nodes

variable (hL : L ⊆ A) (hl : PolicyState χ L l) (ha : PolicyState χ A a) (hb : PolicyState χ B b)
  (hsl : Summarizes χ l l') (hsa : Summarizes χ a a') (hsb : Summarizes χ b b')

include hl ha hb hsl hsa hsb

/-- The merged node of an id that both sides have. -/
theorem mergeNode_of_both {id : ℕ} {na nb : UnifiedSided.Node α} (hna : a.nodes.get? id = some na)
    (hnb : b.nodes.get? id = some nb) : ∃ n, UnifiedSided.mergeNode l a b id nb = .ok n ∧
      NodeOver χ (A ∪ B) id n ∧ summaryRec χ n = LiveGap.mergeRec l' a' b' id := by
  have hca := ha.node id na hna
  have hcb := hb.node id nb hnb
  have hra := hsa.records id
  have hrb := hsb.records id
  have hrl := hsl.has_eq hl id
  rw [hna, Option.bind_some] at hra
  rw [hnb, Option.bind_some] at hrb
  have hagree : ¬ (na.chain ≠ nb.chain ∧ coord na.chain ≠ coord nb.chain) := by
    rw [hca.chain, hcb.chain]
    simp
  simp only [UnifiedSided.mergeNode, hna, if_neg hagree]
  rw [LiveGap.mergeRec, hra, hrb, hrl, UnifiedSided.staysLive, UnifiedSided.joinNodes]
  generalize UnifiedSided.live (l.nodes.get? id) = liveL
  obtain ⟨chainA, elA, gapA⟩ := na
  obtain ⟨chainB, elB, gapB⟩ := nb
  obtain rfl : chainA = χ id := hca.chain
  obtain rfl : chainB = χ id := hcb.chain
  have hgapA : gapA.isSome = elA.isSome := hca.gap
  have hgapB : gapB.isSome = elB.isSome := hcb.gap
  have hdead {gap : Option UnifiedSided.Gap} (hgap : gap.isSome = (none : Option α).isSome) :
      gap = none := Option.not_isSome_iff_eq_none.mp (by rw [hgap]; simp)
  have hgone : NodeOver (α := α) χ (A ∪ B) id ⟨χ id, none, none⟩ :=
    ⟨rfl, rfl, fun g i hg => by cases hg⟩
  cases elA with
  | some elA =>
    obtain ⟨ga, rfl⟩ := Option.isSome_iff_exists.mp hgapA
    cases elB with
    | some elB =>
      -- Live on both sides: the gaps are merged.
      obtain ⟨gb, rfl⟩ := Option.isSome_iff_exists.mp hgapB
      obtain ⟨g, hg, hsum, hmem⟩ := mergeGap_summary ha hb (fun i => hca.succ ga i rfl)
        fun i => hcb.succ gb i rfl
      refine ⟨⟨χ id, some elA, some g⟩, ?_, ⟨rfl, rfl, fun g' i hg' hi => ?_⟩, ?_⟩
      · simp [UnifiedSided.live, hg, bind, Except.bind, pure, Except.pure]
      · cases hg'
        exact hmem i hi
      · simp [summaryRec, hsum]
    | none =>
      obtain rfl := hdead hgapB
      cases liveL with
      | true => exact ⟨_, rfl, hgone, by simp [summaryRec]⟩
      | false =>
        refine ⟨⟨χ id, some elA, some ga⟩, ?_, hca.mono Set.subset_union_left, by simp [summaryRec]⟩
        simp [UnifiedSided.live, mergeGap_none_right, bind, Except.bind, pure, Except.pure]
  | none =>
    obtain rfl := hdead hgapA
    cases elB with
    | some elB =>
      obtain ⟨gb, rfl⟩ := Option.isSome_iff_exists.mp hgapB
      cases liveL with
      | true => exact ⟨_, rfl, hgone, by simp [summaryRec]⟩
      | false =>
        refine ⟨⟨χ id, some elB, some gb⟩, ?_, hcb.mono Set.subset_union_right,
          by simp [summaryRec]⟩
        simp [UnifiedSided.live, mergeGap_none_left, bind, Except.bind, pure, Except.pure]
    | none => exact ⟨⟨χ id, none, none⟩, by simp [UnifiedSided.live, pure, Except.pure], hgone, by simp [summaryRec]⟩

omit hl ha hb hsl hsa hsb in
theorem settled_of_get?_eq_none {id : ℕ} (hnl : l.nodes.get? id = none) :
    UnifiedSided.settled l a b id = none := by
  simp [UnifiedSided.settled, hnl, UnifiedSided.live]

omit hb in
/-- The node after the merge of an id that the second side lacks. -/
theorem settled_spec {id : ℕ} (hnb : b.nodes.get? id = none) {n : Option (UnifiedSided.Node α)}
    (hn : n = (UnifiedSided.settled l a b id).or (a.nodes.get? id)) :
    n.isSome = a.nodes.has id ∧ (∀ m, n = some m → NodeOver χ (A ∪ B) id m) ∧
      n.bind (summaryRec χ) = LiveGap.mergeRec l' a' b' id := by
  have hrb := hsb.records id
  rw [hnb, Option.bind_none] at hrb
  have hra := hsa.records id
  rw [UnifiedSided.settled, SortedMap.has_eq_false_iff.mpr hnb, if_neg Bool.false_ne_true] at hn
  rw [LiveGap.mergeRec, hra, hrb, hsl.has_eq hl id, SortedMap.has]
  subst hn
  cases hna : a.nodes.get? id with
  | none => simp
  | some na =>
    have hca := ha.node id na hna
    cases hel : na.el with
    | none =>
      have hlive : UnifiedSided.live (some na) = false := by
        rw [UnifiedSided.live, Option.bind_some, hel]
        rfl
      simp only [Option.bind_some, hlive, Bool.and_false, Bool.false_eq_true, if_false,
        Option.none_or, Option.isSome_some, Option.some.injEq, forall_eq',
        summaryRec_of_not_live hel, true_and]
      exact ⟨hca.mono Set.subset_union_left, by simp⟩
    | some el =>
      have hlive : UnifiedSided.live (some na) = true := by
        rw [UnifiedSided.live, Option.bind_some, hel]
        rfl
      cases hll : UnifiedSided.live (l.nodes.get? id) with
      | true =>
        simp only [Option.bind_some, hlive, Bool.and_true, if_true, Option.some_or,
          Option.isSome_some, Option.some.injEq, forall_eq', true_and]
        exact ⟨⟨hca.chain, rfl, fun g i hg => by cases hg⟩, by simp [summaryRec]⟩
      | false =>
        simp only [Option.bind_some, Bool.false_and, Bool.false_eq_true, if_false,
          Option.none_or, Option.isSome_some, Option.some.injEq, forall_eq', true_and]
        exact ⟨hca.mono Set.subset_union_left, by simp⟩

include hL

/-- The merged node of an id of the second side. -/
theorem mergeNode_spec {id : ℕ} {nb : UnifiedSided.Node α} (hnb : b.nodes.get? id = some nb) :
    ∃ n, UnifiedSided.mergeNode l a b id nb = .ok n ∧ NodeOver χ (A ∪ B) id n ∧
      summaryRec χ n = LiveGap.mergeRec l' a' b' id := by
  cases hna : a.nodes.get? id with
  | some na => exact mergeNode_of_both hl ha hb hsl hsa hsb hna hnb
  | none =>
    -- The base does not have the id either.
    have hrl : l'.records.has id = false := by
      have hnot : l.nodes.get? id = none := by
        cases hnl : l.nodes.get? id with
        | none => rfl
        | some nl =>
          obtain ⟨n, hn⟩ := ha.exists_node (hL (hl.mem hnl))
          rw [hna] at hn
          cases hn
      rw [hsl.has_eq hl, hnot]
      rfl
    have hra := hsa.records id
    have hrb := hsb.records id
    rw [hna, Option.bind_none] at hra
    rw [hnb, Option.bind_some] at hrb
    refine ⟨nb, by rw [UnifiedSided.mergeNode, hna]; rfl,
      (hb.node id nb hnb).mono Set.subset_union_right, ?_⟩
    rw [LiveGap.mergeRec, hra, hrb, hrl]
    simp

/-- **Merging**: both kernels agree. -/
theorem Summarizes.merge3 : ∃ m, UnifiedSided.merge3 l a b = .ok m ∧ PolicyState χ (A ∪ B) m ∧
    Summarizes χ m (LiveGap.merge3 l' a' b') := by
  obtain ⟨t, ht, hin, hout⟩ := SortedMap.foldlM_insert_eq_ok
    (f := fun e => UnifiedSided.mergeNode l a b e.1 e.2) (nodup_keys_eachEntry b.nodes)
    (fun e he => by
      obtain ⟨n, hn, -⟩ := mergeNode_spec hL hl ha hb hsl hsa hsb (mem_eachEntry.mp he)
      exact ⟨n, hn⟩) a.nodes
  obtain ⟨g, hg, hsum, hmem⟩ := mergeGap_summary ha hb ha.rootSucc hb.rootSucc
  set nodes := ((eachEntry l.nodes).map Prod.fst).foldl
    (fun t id => t.insertSome id (UnifiedSided.settled l a b id)) t with hnodes
  have hget (id : ℕ) : nodes.get? id = (UnifiedSided.settled l a b id).or (t.get? id) := by
    rw [hnodes, SortedMap.get?_foldl_insertSome]
    split_ifs with hid
    · rfl
    · have hnl : l.nodes.get? id = none := by
        refine Option.eq_none_iff_forall_ne_some.mpr fun n hn => hid ?_
        exact List.mem_map.mpr ⟨(id, n), mem_eachEntry.mpr hn, rfl⟩
      rw [settled_of_get?_eq_none hnl, Option.none_or]
  -- The node of every id after the merge.
  have hnode (id : ℕ) : ((nodes.get? id).isSome = true ↔ id ∈ A ∪ B) ∧
      (∀ m, nodes.get? id = some m → NodeOver χ (A ∪ B) id m) ∧
      (nodes.get? id).bind (summaryRec χ) = LiveGap.mergeRec l' a' b' id := by
    cases hnb : b.nodes.get? id with
    | some nb =>
      obtain ⟨n, hn, hover, hrec⟩ := mergeNode_spec hL hl ha hb hsl hsa hsb hnb
      have hsettled : UnifiedSided.settled l a b id = none := by
        rw [UnifiedSided.settled, SortedMap.has_iff.mpr ⟨nb, hnb⟩, if_pos rfl]
      rw [hget, hsettled, Option.none_or, hin (id, nb) (mem_eachEntry.mpr hnb) n hn]
      refine ⟨⟨fun _ => Or.inr (hb.mem hnb), fun _ => rfl⟩, fun m hm => ?_, hrec⟩
      cases hm
      exact hover
    | none =>
      have hnot : id ∉ (eachEntry b.nodes).map Prod.fst := by
        intro hid
        obtain ⟨e, he, rfl⟩ := List.mem_map.mp hid
        rw [mem_eachEntry, hnb] at he
        cases he
      have hB : id ∉ B := by
        rw [← hb.has_iff, SortedMap.has_eq_false_iff.mpr hnb]
        exact Bool.false_ne_true
      obtain ⟨hsome, hover, hrec⟩ := settled_spec (B := B) hl ha hsl hsa hsb hnb
        ((hget id).trans (by rw [hout id hnot]))
      refine ⟨?_, hover, hrec⟩
      rw [hsome, ha.has_iff, Set.mem_union]
      exact ⟨Or.inl, fun h => h.resolve_right hB⟩
  refine ⟨{ nodes, rootGap := g, order := none }, ?_, ⟨fun id => (hnode id).1,
    fun id => (hnode id).2.1, hmem, rfl⟩, ⟨fun id => ?_, ?_, rfl⟩⟩
  · rw [UnifiedSided.merge3]
    simp only [bind_pure_comp] at ht ⊢
    rw [ht]
    simp only [hg, bind, Except.bind]
    rfl
  · rw [LiveGap.get?_merge3, ← (hnode id).2.2]
  · rw [LiveGap.merge3, hsa.rootGap, hsb.rootGap, hsum]

end Nodes

end Merge

/-! ### The reads -/

section Read

variable {χ : ℕ → Chain} {I : Set ℕ} {u : UnifiedSided.State α} {s : LiveGap.State α}
  (hT : SidedTree χ I) (hu : PolicyState χ I u)

include hu

theorem PolicyState.mem_chains {c : Chain} :
    (∃ id n, u.nodes.get? id = some n ∧ n.chain = c) ↔ c ∈ χ '' I := by
  constructor
  · rintro ⟨id, n, hn, rfl⟩
    exact ⟨id, hu.mem hn, (hu.node id n hn).chain.symm⟩
  · rintro ⟨id, hid, rfl⟩
    obtain ⟨n, hn⟩ := hu.exists_node hid
    exact ⟨id, n, hn, (hu.node id n hn).chain⟩

theorem PolicyState.get?_eq_some (hs : Summarizes χ u s) {id : ℕ} {r : LiveGap.Rec α}
    (hr : s.records.get? id = some r) : id ∈ I ∧ r.chain = unlabel (χ id) ∧
      (r.gap.succChain = [] ∨ r.gap.succChain ∈ unlabel '' (χ '' I)) := by
  have hrec := hs.records id
  rw [hr, eq_comm, Option.bind_eq_some_iff] at hrec
  obtain ⟨n, hn, hsum⟩ := hrec
  obtain ⟨el, g, -, hg, rfl⟩ := summaryRec_eq_some_iff.mp hsum
  have hover := hu.node id n hn
  refine ⟨hu.mem hn, by rw [hover.chain], ?_⟩
  rw [summaryGap]
  cases hsucc : g.succId with
  | none => exact Or.inl rfl
  | some i => exact Or.inr ⟨χ i, ⟨i, hover.succ g i hg hsucc, rfl⟩, rfl⟩

include hT

theorem PolicyState.nodup_chains : ((eachEntry u.nodes).map fun e => e.2.chain).Nodup := by
  have hmap : (eachEntry u.nodes).map (fun e => e.2.chain) =
      ((eachEntry u.nodes).map Prod.fst).map χ := by
    rw [List.map_map]
    exact List.map_congr_left fun e he => (hu.node e.1 e.2 (mem_eachEntry.mp he)).chain
  rw [hmap]
  refine (nodup_keys_eachEntry u.nodes).map_on fun i hi j hj heq => ?_
  obtain ⟨e, he, rfl⟩ := List.mem_map.mp hi
  obtain ⟨f, hf, rfl⟩ := List.mem_map.mp hj
  exact hT.injOn (hu.mem (mem_eachEntry.mp he)) (hu.mem (mem_eachEntry.mp hf)) heq

/-- The children of a node on a side. -/
theorem PolicyState.mem_band {c : Chain} (hc : c = [] ∨ c ∈ χ '' I) (side : FugueSide) {k : Chain} :
    k ∈ UnifiedSided.band u.nodes (UnifiedSided.idOf c) side ↔
      k ∈ χ '' I ∧ ∃ x : Link, x.side = side ∧ k = c ++ [x] := by
  rw [UnifiedSided.mem_band, hu.mem_chains]
  refine and_congr_right fun hk => ?_
  obtain ⟨id, hid, rfl⟩ := hk
  obtain ⟨side', p, hχ, hlt, hp⟩ := hT id hid
  rw [hχ, List.dropLast_concat, List.getLast?_concat, Option.map_some, hT.idOf_chainAt hp,
    Option.some.injEq]
  -- A chain is determined by its last id.
  have hparent : p = UnifiedSided.idOf c ↔ chainAt χ p = c := by
    constructor
    · rintro rfl
      rcases hc with rfl | ⟨j, hj, rfl⟩
      · rfl
      · rw [hT.idOf_eq hj, chainAt]
    · rintro rfl
      exact (hT.idOf_chainAt hp).symm
  rw [hparent]
  constructor
  · rintro ⟨rfl, hside⟩
    exact ⟨_, hside, rfl⟩
  · rintro ⟨x, hside, heq⟩
    obtain ⟨hc', hx⟩ := List.append_inj' heq rfl
    obtain rfl := List.singleton_inj.mp hx
    exact ⟨hc', hside⟩

theorem PolicyState.pairwise_band {c : Chain} (hc : c = [] ∨ c ∈ χ '' I) (side : FugueSide) :
    (UnifiedSided.band u.nodes (UnifiedSided.idOf c) side).Pairwise
      fun k k' => coordKey k' < coordKey k :=
  hT.spaced.pairwise_coordKey
    (fun _ hk => ((hu.mem_band hT hc side).mp hk).imp_right fun ⟨x, _, hx⟩ => ⟨x, hx⟩)
    (UnifiedSided.nodup_band (hu.nodup_chains hT) _ side) (UnifiedSided.pairwise_band ..)

theorem PolicyState.bands : Bands (χ '' I) Link.isLeft coordKey fun c =>
    (UnifiedSided.band u.nodes (UnifiedSided.idOf c) .L,
      UnifiedSided.band u.nodes (UnifiedSided.idOf c) .R) := by
  refine ⟨fun c hc k => ?_, fun c hc k => ?_, fun c hc => hu.pairwise_band hT (Or.inr hc) .L,
    fun c hc => hu.pairwise_band hT (Or.inr hc) .R⟩
  · simp only [Link.isLeft_iff]
    exact hu.mem_band hT (Or.inr hc) .L
  · simp only [Link.isLeft_eq_false_iff]
    exact hu.mem_band hT (Or.inr hc) .R

/-- The roots are listed by descending keys, those on the left first. -/
theorem PolicyState.roots_spec :
    (∀ k, k ∈ UnifiedSided.band u.nodes none .L ++ UnifiedSided.band u.nodes none .R ↔
      k ∈ χ '' I ∧ ∃ x, k = [x]) ∧
    (UnifiedSided.band u.nodes none .L ++ UnifiedSided.band u.nodes none .R).Pairwise
      fun k k' => coordKey k' < coordKey k := by
  have hband (side : FugueSide) (k : Chain) : k ∈ UnifiedSided.band u.nodes none side ↔
      k ∈ χ '' I ∧ ∃ x : Link, x.side = side ∧ k = [x] := hu.mem_band hT (Or.inl rfl) side
  have hsorted (side : FugueSide) : (UnifiedSided.band u.nodes none side).Pairwise
      fun k k' => coordKey k' < coordKey k := hu.pairwise_band hT (Or.inl rfl) side
  constructor
  · intro k
    rw [List.mem_append, hband, hband, ← and_or_left]
    refine and_congr_right fun _ => ⟨?_, ?_⟩
    · rintro (⟨x, -, hx⟩ | ⟨x, -, hx⟩)
      · exact ⟨x, hx⟩
      · exact ⟨x, hx⟩
    · rintro ⟨x, hx⟩
      cases hside : x.side with
      | L => exact Or.inl ⟨x, hside, hx⟩
      | R => exact Or.inr ⟨x, hside, hx⟩
  · refine List.pairwise_append.mpr ⟨hsorted .L, hsorted .R, fun k hk k' hk' => ?_⟩
    obtain ⟨hkV, x, hx, rfl⟩ := (hband .L k).mp hk
    obtain ⟨hkV', y, hy, rfl⟩ := (hband .R k').mp hk'
    exact (hT.spaced.inOrderKey.right [] y [] hkV' (Link.isLeft_eq_false_iff.mpr hy)).trans
      (hT.spaced.inOrderKey.left [] x [] hkV (Link.isLeft_iff.mpr hx))

/-- **The policy order** of the full kernel lists all ids by descending keys. -/
theorem PolicyState.policyOrder_spec :
    ((UnifiedSided.policyOrder u.nodes).Pairwise fun i j => coordKey (χ j) < coordKey (χ i)) ∧
      ∀ id, id ∈ UnifiedSided.policyOrder u.nodes ↔ id ∈ I := by
  have hlist (c : Chain) : c ∈ (eachEntry u.nodes).map (fun e => e.2.chain) ↔ c ∈ χ '' I := by
    rw [← hu.mem_chains]
    simp only [List.mem_map, mem_eachEntry, Prod.exists]
  obtain ⟨S, hS, hmem, hlen⟩ := hT.spaced.exists_sorted hlist (hu.nodup_chains hT)
  have hnil : [] ∉ χ '' I := fun hnil =>
    hnil.elim fun _ hid => hT.chain_ne_nil hid.1 hid.2
  obtain ⟨hroots, hsorted⟩ := hu.roots_spec hT
  have hsize : 2 * S.length ≤ 2 * u.nodes.size := by
    rw [hlen, List.length_map, eachEntry, List.length_insertionSort, SortedMap.size]
  have horder : UnifiedSided.policyOrder u.nodes = S.filterMap UnifiedSided.idOf := by
    rw [UnifiedSided.policyOrder,
      inOrder_eq hT.spaced.inOrderKey (hu.bands hT) hS hmem hroots hsorted hnil hsize]
  have hidOf {c : Chain} (hc : c ∈ S) {i : ℕ} (hi : UnifiedSided.idOf c = some i) :
      i ∈ I ∧ c = χ i := by
    obtain ⟨j, hj, rfl⟩ := (hmem c).mp hc
    rw [hT.idOf_eq hj] at hi
    obtain rfl := Option.some.inj hi
    exact ⟨hj, rfl⟩
  rw [horder]
  refine ⟨List.pairwise_filterMap.mpr (hS.imp_of_mem fun {c d} hc hd hlt i hi j hj => ?_),
    fun id => ?_⟩
  · rw [← (hidOf hc hi).2, ← (hidOf hd hj).2]
    exact hlt
  · rw [List.mem_filterMap]
    constructor
    · rintro ⟨c, hc, hi⟩
      exact (hidOf hc hi).1
    · intro hid
      exact ⟨χ id, (hmem _).mpr ⟨id, hid, rfl⟩, hT.idOf_eq hid⟩

/-- **The read** of the full kernel lists the live ids by descending keys. -/
theorem PolicyState.readIds_spec :
    ((UnifiedSided.readIds u).Pairwise fun i j => coordKey (χ j) < coordKey (χ i)) ∧
      ∀ id, id ∈ UnifiedSided.readIds u ↔ UnifiedSided.live (u.nodes.get? id) = true := by
  obtain ⟨hpair, hmem⟩ := hu.policyOrder_spec hT
  have hread : UnifiedSided.readIds u = (UnifiedSided.policyOrder u.nodes).filter
      fun id => UnifiedSided.live (u.nodes.get? id) := by
    rw [UnifiedSided.readIds, UnifiedSided.readEntries, hu.order, Option.getD_none,
      List.map_filterMap, ← List.filterMap_eq_filter]
    refine List.filterMap_congr fun id _ => ?_
    cases hn : u.nodes.get? id with
    | none => simp [Option.guard, hn, UnifiedSided.live]
    | some n => cases hel : n.el <;> simp [Option.guard, hn, UnifiedSided.live, hel]
  rw [hread]
  refine ⟨hpair.filter _, fun id => ?_⟩
  rw [List.mem_filter, hmem]
  refine and_iff_right_of_imp fun hlive => ?_
  cases hn : u.nodes.get? id with
  | none => rw [hn, UnifiedSided.live] at hlive; cases hlive
  | some n => exact hu.mem hn

variable (hs : Summarizes χ u s)

include hs

/-- The chains of a state of the production kernel are a tree in which a place has one node. -/
theorem Summarizes.spaced : Spaced {c | c ∈ LiveGap.allChains s} := by
  have hV := hT.spaced.unlabel
  have hheld {d : Chain} (hd : LiveGap.Held s d) : d = [] ∨ d ∈ unlabel '' (χ '' I) := by
    rcases hd with rfl | ⟨id, r, hr, rfl | rfl⟩
    · rw [hs.rootGap, summaryGap]
      cases hsucc : u.rootGap.succId with
      | none => exact Or.inl rfl
      | some i => exact Or.inr ⟨χ i, ⟨i, hu.rootSucc i hsucc, rfl⟩, rfl⟩
    · obtain ⟨hid, hchain, -⟩ := hu.get?_eq_some hs hr
      exact Or.inr ⟨χ id, ⟨id, hid, rfl⟩, hchain.symm⟩
    · exact (hu.get?_eq_some hs hr).2.2
  refine hV.subset ?_ fun c d hcd hc => ?_
  · intro c hc
    obtain ⟨hne, d, hd, e, rfl⟩ := LiveGap.mem_allChains.mp hc
    exact hV.closed c e ((hheld hd).resolve_left (by simp [hne])) hne
  · obtain ⟨-, e, he, hpre⟩ := LiveGap.mem_allChains.mp hcd
    exact LiveGap.mem_allChains.mpr ⟨hc, e, he, (List.prefix_append c d).trans hpre⟩

/-- **Both kernels show the same ids.** -/
theorem Summarizes.readIds_eq : LiveGap.readIds s = UnifiedSided.readIds u := by
  have hinj (i : ℕ) (r : LiveGap.Rec α) (j : ℕ) (r' : LiveGap.Rec α)
      (hi : s.records.get? i = some r) (hj : s.records.get? j = some r')
      (heq : r.chain = r'.chain) : i = j := by
    obtain ⟨hiI, hci, -⟩ := hu.get?_eq_some hs hi
    obtain ⟨hjI, hcj, -⟩ := hu.get?_eq_some hs hj
    have hkey : coordKey (χ i) = coordKey (χ j) := by
      rw [← coordKey_unlabel, ← hci, heq, hcj, coordKey_unlabel]
    exact hT.injOn hiI hjI (hT.spaced.eq_of_coordKey_eq (p := []) (Or.inr ⟨i, hiI, rfl⟩)
      (Or.inr ⟨j, hjI, rfl⟩) hkey)
  have hne (i : ℕ) (r : LiveGap.Rec α) (hi : s.records.get? i = some r) : r.chain ≠ [] := by
    obtain ⟨hiI, hci, -⟩ := hu.get?_eq_some hs hi
    rw [hci, unlabel, ne_eq, List.map_eq_nil_iff]
    exact hT.chain_ne_nil hiI
  obtain ⟨hpair, hmem⟩ := LiveGap.policyOrder_spec (hs.spaced hT hu) hne hinj
  obtain ⟨hpair', hmem'⟩ := hu.readIds_spec hT
  have hread : LiveGap.readIds s = (LiveGap.policyOrder s).map Prod.fst := by
    rw [LiveGap.readIds, LiveGap.readEntries, hs.order]
  rw [hread]
  refine eq_of_pairwise_key ?_ hpair' fun id => ?_
  · rw [List.pairwise_map]
    refine hpair.imp_of_mem fun {e f} he hf hlt => ?_
    rwa [(hu.get?_eq_some hs ((hmem e).mp he)).2.1, coordKey_unlabel,
      (hu.get?_eq_some hs ((hmem f).mp hf)).2.1, coordKey_unlabel] at hlt
  · rw [hmem', ← hs.has_eq hu, SortedMap.has_iff]
    simp only [List.mem_map, hmem, Prod.exists, exists_and_right, exists_eq_right]

end Read

end SalRuntime
