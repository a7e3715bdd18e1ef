import SalRuntime.Datatypes.CoordinateOrder
import SalRuntime.Datatypes.TreeRecords

/-!
# States over several epochs

A compaction begins a new epoch: the coordinates of the records no longer spell the ids, and later
insertions extend them by the distance from the anchor. Within an epoch every id has one chain of
deltas, whatever replica holds it. The deltas below a live record stay below the distances that later
insertions take, in whatever epoch: a fresh child of a record sorts above its siblings.

## Main definitions

* `EmbedRGA.EpochReachable` — the states that honest operations, merges and compactions reach.
* `EmbedRGA.Placed` — every record has a chain of its own.
* `EmbedRGA.Grounded` — chains are distinct, and their deltas are bounded by the ids of the history.

## Main results

* `EmbedRGA.Grounded.compact` — compactions keep a state grounded.
* `EmbedRGA.EpochState.grounded` — so do the operations and merges of an epoch.
* `EmbedRGA.EpochReachable.grounded` — reachable states are grounded.
-/

namespace SalRuntime

variable {α : Type}

namespace EmbedRGA

/-! ### Reachable states -/

/-- The insertions of an epoch that begins with the state `s₀`, with the ids `I₀` in its history: ids
are unique and positive, exceed those of the history and those of their anchors, and anchors are
records of the first state or inserted in the epoch. -/
structure EpochOps (s₀ : State α) (I₀ : Set ℕ) (U : Set (SeqOp α)) : Prop where
  /-- An id is inserted once. -/
  unique : ∀ id el a el' a', SeqOp.ins id el a ∈ U → SeqOp.ins id el' a' ∈ U → el = el' ∧ a = a'
  /-- Ids are positive. -/
  pos : ∀ id el a, SeqOp.ins id el a ∈ U → 0 < id
  /-- Ids exceed those of the history. -/
  fresh : ∀ id el a, SeqOp.ins id el a ∈ U → ∀ i ∈ I₀, i < id
  /-- Anchors are records of the first state or inserted in the epoch. -/
  anchored : ∀ id el a, SeqOp.ins id el (some a) ∈ U → a < id ∧ (s₀.has a = true ∨ a ∈ inserted U)

/-- The states of an epoch, and the ids that were inserted in their history. -/
inductive EpochState (s₀ : State α) (I₀ : Set ℕ) (U : Set (SeqOp α)) : Set ℕ → State α → Prop
  | start : EpochState s₀ I₀ U I₀ s₀
  | ins {I s id el a s'} (h : EpochState s₀ I₀ U I s) (hop : SeqOp.ins id el a ∈ U)
      (hs : apply s (.ins id el a) = .ok s') : EpochState s₀ I₀ U (insert id I) s'
  | del {I s s'} (h : EpochState s₀ I₀ U I s) (id : ℕ) (hs : apply s (.del id) = .ok s') :
      EpochState s₀ I₀ U I s'
  | merge {L A B l a b m} (hl : EpochState s₀ I₀ U L l) (ha : EpochState s₀ I₀ U A a)
      (hb : EpochState s₀ I₀ U B b) (hs : merge3 l a b = .ok m) : EpochState s₀ I₀ U (A ∪ B) m

/-- The states that honest operations, merges and compactions reach, and the ids that were inserted
in their history. The branches of a merge are of one epoch. -/
inductive EpochReachable : Set ℕ → State α → Prop
  | init : EpochReachable ∅ init
  | epoch {I₀ s₀ U I s} (h : EpochReachable I₀ s₀) (hU : EpochOps s₀ I₀ U)
      (hs : EpochState s₀ I₀ U I s) : EpochReachable I s
  | compact {I s cut opts res} (h : EpochReachable I s)
      (hres : compactEliasDelta s cut opts = .ok res) : EpochReachable I res.state

/-! ### Grounded states -/

/-- The record of an id has this chain. -/
def HasChain (s : State α) (id : ℕ) (c : List ℕ) : Prop :=
  ∃ rec, s.get? id = some rec ∧ decodeChain rec.coord = .ok c

/-- The root, as the anchor zero, has the empty chain; a record has its own. -/
def AnchorChain (s : State α) (a : ℕ) (c : List ℕ) : Prop := a = 0 ∧ c = [] ∨ HasChain s a c

theorem HasChain.has {s : State α} {id : ℕ} {c : List ℕ} (h : HasChain s id c) :
    s.has id = true := by
  obtain ⟨rec, hid, -⟩ := h
  exact SortedMap.has_iff.mpr ⟨rec, hid⟩

theorem HasChain.eq {s : State α} {id : ℕ} {c c' : List ℕ} (h : HasChain s id c)
    (h' : HasChain s id c') : c = c' := by
  obtain ⟨rec, hid, hc⟩ := h
  obtain ⟨rec', hid', hc'⟩ := h'
  obtain rfl : rec = rec' := Option.some.inj (hid.symm.trans hid')
  exact Except.ok.inj (hc.symm.trans hc')

theorem HasChain.pos {s : State α} {id : ℕ} {c : List ℕ} (h : HasChain s id c) :
    ∀ d ∈ c, 1 ≤ d := by
  obtain ⟨rec, -, hc⟩ := h
  exact (decodeChain_eq_ok_iff.mp hc).1

/-- Every record has a chain of its own, below the root. -/
structure Placed (s : State α) : Prop where
  /-- Coordinates decode. -/
  decodes : ∀ id, s.has id = true → ∃ c, HasChain s id c
  /-- No record is at the root. -/
  ne_nil : ∀ id c, HasChain s id c → c ≠ []
  /-- Chains are distinct. -/
  injective : ∀ id id' c, HasChain s id c → HasChain s id' c → id = id'

/-- The records have distinct chains of deltas, and the deltas below a record are bounded by the
distances from it to the ids of the history. -/
structure Grounded (I : Set ℕ) (s : State α) : Prop where
  /-- Records are in the history. -/
  mem : ∀ id, s.has id = true → id ∈ I
  /-- Coordinates decode. -/
  decodes : ∀ id, s.has id = true → ∃ c, HasChain s id c
  /-- No record is at the root. -/
  ne_nil : ∀ id c, HasChain s id c → c ≠ []
  /-- Chains are distinct. -/
  injective : ∀ id id' c, HasChain s id c → HasChain s id' c → id = id'
  /-- Deltas below a record are bounded. -/
  below : ∀ a ca id d c, AnchorChain s a ca → HasChain s id (ca ++ d :: c) → ∃ i ∈ I, a + d ≤ i

theorem Grounded.placed {I : Set ℕ} {s : State α} (h : Grounded I s) : Placed s :=
  ⟨h.decodes, h.ne_nil, h.injective⟩

theorem grounded_init : Grounded ∅ (init : State α) where
  mem id h := by simp [init] at h
  decodes id h := by simp [init] at h
  ne_nil id c h := by
    obtain ⟨rec, hid, -⟩ := h
    simp [init] at hid
  injective id id' c h := by
    obtain ⟨rec, hid, -⟩ := h
    simp [init] at hid
  below a ca id d c _ h := by
    obtain ⟨rec, hid, -⟩ := h
    simp [init] at hid

/-- The chain of the anchor of an insertion. -/
theorem Grounded.exists_anchor {I : Set ℕ} {s : State α} (h : Grounded I s) {a : Option ℕ} {bits : List Bool}
    (ha : anchorCoord s a = some bits) :
    ∃ ca, AnchorChain s (a.getD 0) ca ∧ (∀ d ∈ ca, 1 ≤ d) ∧ bits = ca.flatMap dEnc := by
  cases a with
  | none =>
    cases ha
    exact ⟨[], Or.inl ⟨rfl, rfl⟩, by simp, rfl⟩
  | some a =>
    obtain ⟨ra, hra, rfl⟩ := Option.map_eq_some_iff.mp ha
    obtain ⟨ca, rec, hrec, hca⟩ := h.decodes a (SortedMap.has_iff.mpr ⟨ra, hra⟩)
    obtain rfl : rec = ra := Option.some.inj (hrec.symm.trans hra)
    have hdecode := decodeChain_eq_ok_iff.mp hca
    exact ⟨ca, Or.inr ⟨rec, hrec, hca⟩, hdecode.1, hdecode.2⟩

/-! ### Compactions -/

open CoordTree

/-- The records of a compacted state are those of the state, under their new chains. -/
theorem exists_of_has {s : State α} {cut : CoordCut} {opts : CompactOpts}
    {res : Compacted (State α) (List Bool → Except Failure (List Bool))} {t : CoordTree}
    (hbuild : CoordTree.build s cut = .ok t)
    (hes : List.Forall₂ (Rewritten t (cut.settledIds.getD []) opts) s.entries res.state.entries)
    {id : ℕ} (hid : res.state.has id = true) :
    ∃ c, HasChain s id c ∧ (t.recordAt c).isSome = true ∧
      HasChain res.state id (t.image (cut.settledIds.getD []) opts c) := by
  obtain ⟨rec', hrec'⟩ := SortedMap.has_iff.mp hid
  obtain ⟨e, he, hid', -, c, hc, hcoord, hcoord'⟩ :=
    exists_left_of_forall₂ hes (SortedMap.mem_entries_iff.mpr hrec')
  rw [newCoord_eq_image] at hcoord'
  refine ⟨c, ⟨e.2, ?_, ?_⟩, hc, rec', hrec', ?_⟩
  · rw [← SortedMap.mem_entries_iff, show id = e.1 from hid']
    exact he
  · rw [hcoord, decodeChain_flatMap ((isTree_build hbuild).pos_of_mem (has_of_recordAt hc))]
  · rw [show rec'.coord = _ from hcoord', decodeChain_flatMap (image_pos c)]

/-- **Compactions** keep a state placed. -/
theorem Placed.compact {s : State α} (h : Placed s) {cut : CoordCut} {opts : CompactOpts}
    {res : Compacted (State α) (List Bool → Except Failure (List Bool))}
    (hres : compactEliasDelta s cut opts = .ok res) : Placed res.state := by
  obtain ⟨t, hbuild, -, -, hes⟩ := compactEliasDelta_rewrites hres
  have htree := isTree_build hbuild
  set settled := cut.settledIds.getD []
  have hnode {c : List ℕ} (hc : (t.recordAt c).isSome = true) :
      t.has c = true ∧ t.visited settled opts c = true :=
    ⟨has_of_recordAt hc, visited_of_recordAt hc⟩
  have hhas {id : ℕ} (hid : res.state.has id = true) : ∃ c, HasChain s id c ∧
      (t.recordAt c).isSome = true ∧ HasChain res.state id (t.image settled opts c) :=
    exists_of_has hbuild hes hid
  refine ⟨fun id hid => ?_, fun id c' hc' => ?_, fun id id' c' hc hc' => ?_⟩
  · obtain ⟨c, -, -, hc⟩ := hhas hid
    exact ⟨_, hc⟩
  · obtain ⟨c, hc, hrec, himage⟩ := hhas hc'.has
    rw [hc'.eq himage]
    intro hnil
    exact h.ne_nil id c hc (image_injective htree (hnode hrec) ⟨htree.hasRoot, visited_nil⟩ hnil)
  · obtain ⟨c₁, hc₁, hrec₁, himage₁⟩ := hhas hc.has
    obtain ⟨c₂, hc₂, hrec₂, himage₂⟩ := hhas hc'.has
    have heq := (himage₁.eq hc).trans (hc'.eq himage₂)
    obtain rfl := image_injective htree (hnode hrec₁) (hnode hrec₂) heq
    exact h.injective id id' c₁ hc₁ hc₂

/-- **Compactions** keep a state grounded. -/
theorem Grounded.compact {I : Set ℕ} {s : State α} (h : Grounded I s) {cut : CoordCut}
    {opts : CompactOpts} {res : Compacted (State α) (List Bool → Except Failure (List Bool))}
    (hres : compactEliasDelta s cut opts = .ok res) : Grounded I res.state := by
  have hplaced := h.placed.compact hres
  obtain ⟨t, hbuild, -, -, hes⟩ := compactEliasDelta_rewrites hres
  have htree := isTree_build hbuild
  set settled := cut.settledIds.getD []
  have hnode {c : List ℕ} (hc : (t.recordAt c).isSome = true) :
      t.has c = true ∧ t.visited settled opts c = true :=
    ⟨has_of_recordAt hc, visited_of_recordAt hc⟩
  have hhas {id : ℕ} (hid : res.state.has id = true) : ∃ c, HasChain s id c ∧
      (t.recordAt c).isSome = true ∧ HasChain res.state id (t.image settled opts c) :=
    exists_of_has hbuild hes hid
  refine ⟨fun id hid => ?_, hplaced.decodes, hplaced.ne_nil, hplaced.injective,
    fun a ca' id d' c' ha hid => ?_⟩
  · obtain ⟨c, hc, -⟩ := hhas hid
    exact h.mem id hc.has
  · obtain ⟨c, hc, hrec, himage⟩ := hhas hid.has
    have heq := hid.eq himage
    obtain ⟨ca, hca, hvisited, rfl⟩ : ∃ ca, AnchorChain s a ca ∧
        (t.has ca = true ∧ t.visited settled opts ca = true) ∧ ca' = t.image settled opts ca := by
      rcases ha with ⟨rfl, rfl⟩ | ha
      · exact ⟨[], Or.inl ⟨rfl, rfl⟩, ⟨htree.hasRoot, visited_nil⟩, rfl⟩
      · obtain ⟨ca, hca, hreca, himage⟩ := hhas ha.has
        exact ⟨ca, Or.inr hca, hnode hreca, ha.eq himage⟩
    obtain ⟨r, rfl⟩ := prefix_of_image htree hvisited (hnode hrec) (heq ▸ List.prefix_append _ _)
    cases r with
    | nil =>
      have hlen := congrArg List.length heq
      simp at hlen
    | cons d r =>
      have hd : t.has (ca ++ [d]) = true := htree.has_above ⟨r, by simp⟩ (hnode hrec).1
      have hpre := image_front settled opts t (⟨r, by simp⟩ : ca ++ [d] <+: ca ++ d :: r)
      rw [← heq, image_concat_of_visited htree hvisited.2 hd, List.prefix_append_right_inj] at hpre
      obtain ⟨hd', -⟩ := List.cons_prefix_cons.mp hpre
      have hle := label_le settled opts htree hd
      obtain ⟨i, hi, hbound⟩ := h.below a ca id d r hca hc
      exact ⟨i, hi, by omega⟩

/-! ### The chains of an epoch -/

/-- The chain of an id in an epoch: that of the first state, or that of its anchor with the distance
from it. -/
inductive EpochChain (s₀ : State α) (U : Set (SeqOp α)) : ℕ → List ℕ → Prop
  | start {id c} (h : HasChain s₀ id c) : EpochChain s₀ U id c
  | root {id el} (h : SeqOp.ins id el none ∈ U) : EpochChain s₀ U id [id]
  | child {id el a c} (h : SeqOp.ins id el (some a) ∈ U) (ha : EpochChain s₀ U a c) :
      EpochChain s₀ U id (c ++ [id - a])

section Epoch

variable {s₀ : State α} {I₀ : Set ℕ} {U : Set (SeqOp α)} (h₀ : Grounded I₀ s₀)
  (hU : EpochOps s₀ I₀ U)

namespace EpochChain

include h₀

theorem ne_nil {id : ℕ} {c : List ℕ} (h : EpochChain s₀ U id c) : c ≠ [] := by
  cases h with
  | start h => exact h₀.ne_nil _ _ h
  | root h => simp
  | child h ha => simp

include hU

omit h₀ in
theorem pos {id : ℕ} {c : List ℕ} (h : EpochChain s₀ U id c) : ∀ d ∈ c, 1 ≤ d := by
  induction h with
  | start h => exact h.pos
  | @root id el h =>
    have := hU.pos id el none h
    intro d hd
    have := List.mem_singleton.mp hd
    omega
  | @child id el a c h _ ih =>
    have hlt := (hU.anchored id el a h).1
    intro d hd
    rcases List.mem_append.mp hd with hd | hd
    · exact ih d hd
    · have := List.mem_singleton.mp hd
      omega

/-- An id of the first state is not inserted in the epoch. -/
theorem not_mem {id : ℕ} (hid : s₀.has id = true) {el : α} {a : Option ℕ} :
    SeqOp.ins id el a ∉ U := fun hmem =>
  lt_irrefl _ (hU.fresh id el a hmem id (h₀.mem id hid))

/-- The chains on the way to a record of the first state are of its records. -/
theorem hasChain_above {a b : ℕ} {ca c₀ : List ℕ} (h : EpochChain s₀ U a ca) (hpre : ca <+: c₀)
    (hb : HasChain s₀ b c₀) : HasChain s₀ a ca := by
  induction h with
  | start h => exact h
  | @root id el h =>
    obtain ⟨r, rfl⟩ := hpre
    obtain ⟨i, hi, hle⟩ := h₀.below 0 [] b id r (Or.inl ⟨rfl, rfl⟩) hb
    have := hU.fresh id el none h i hi
    omega
  | @child id el a c h _ ih =>
    have hlt := (hU.anchored id el a h).1
    have hc := ih ((List.prefix_append c [id - a]).trans hpre)
    obtain ⟨r, rfl⟩ := hpre
    obtain ⟨i, hi, hle⟩ := h₀.below a c b (id - a) r (Or.inr hc) (by simpa using hb)
    have := hU.fresh id el (some a) h i hi
    omega

/-- **Chains are distinct** in an epoch. -/
theorem injective {a b : ℕ} {c : List ℕ} (h : EpochChain s₀ U a c) (h' : EpochChain s₀ U b c) :
    a = b := by
  induction h generalizing b with
  | start h => exact h₀.injective _ _ _ h (h'.hasChain_above h₀ hU List.prefix_rfl h)
  | @root id el h =>
    generalize hc : [id] = c at h'
    cases h' with
    | start h' =>
      exact h₀.injective _ _ _ ((root h).hasChain_above h₀ hU (hc ▸ List.prefix_rfl) h') (hc ▸ h')
    | root h' => exact List.head_eq_of_cons_eq hc
    | @child _ _ x c h' hx =>
      have hlen := congrArg List.length hc
      have hnil : c = [] := List.length_eq_zero_iff.mp (by simpa using hlen.symm)
      exact absurd hnil (hx.ne_nil h₀)
  | @child id el a c h ha ih =>
    generalize hc : c ++ [id - a] = c' at h'
    cases h' with
    | start h' =>
      exact h₀.injective _ _ _ ((child h ha).hasChain_above h₀ hU (hc ▸ List.prefix_rfl) h') (hc ▸ h')
    | root h' =>
      have hlen := congrArg List.length hc
      have hnil : c = [] := List.length_eq_zero_iff.mp (by simpa using hlen)
      exact absurd hnil (ha.ne_nil h₀)
    | @child _ _ x c₂ h' hx =>
      obtain ⟨rfl, hlast⟩ := List.append_inj' hc rfl
      obtain rfl := ih hx
      have hdist := List.head_eq_of_cons_eq hlast
      have hlt := (hU.anchored _ _ _ h).1
      have hlt' := (hU.anchored _ _ _ h').1
      omega

/-- **An id has one chain** in an epoch. -/
theorem eq {id : ℕ} {c c' : List ℕ} (h : EpochChain s₀ U id c) (h' : EpochChain s₀ U id c') :
    c = c' := by
  induction h generalizing c' with
  | start h =>
    cases h' with
    | start h' => exact h.eq h'
    | root h' => exact absurd h' (not_mem h₀ hU h.has)
    | child h' _ => exact absurd h' (not_mem h₀ hU h.has)
  | root h =>
    cases h' with
    | start h' => exact absurd h (not_mem h₀ hU h'.has)
    | root h' => rfl
    | child h' _ => cases (hU.unique _ _ _ _ _ h h').2
  | child h ha ih =>
    cases h' with
    | start h' => exact absurd h (not_mem h₀ hU h'.has)
    | root h' => cases (hU.unique _ _ _ _ _ h h').2
    | child h' ha' =>
      obtain rfl := Option.some.inj (hU.unique _ _ _ _ _ h h').2
      rw [ih ha']

/-- **Deltas are bounded** by the ids of the history and by the id of the chain. -/
theorem bounded {a id d : ℕ} {ca r : List ℕ} (ha : a = 0 ∧ ca = [] ∨ EpochChain s₀ U a ca)
    (h : EpochChain s₀ U id (ca ++ d :: r)) : (∃ i ∈ I₀, a + d ≤ i) ∨ a + d ≤ id := by
  generalize hc : ca ++ d :: r = c at h
  induction h generalizing r with
  | @start id c h =>
    have hanchor : AnchorChain s₀ a ca := by
      rcases ha with ha | ha
      · exact Or.inl ha
      · exact Or.inr (ha.hasChain_above h₀ hU ⟨_, hc⟩ h)
    exact Or.inl (h₀.below a ca id d r hanchor (hc ▸ h))
  | @root id el h =>
    have hlen := congrArg List.length hc
    have hnil : ca = [] := List.length_eq_zero_iff.mp (by simp at hlen; omega)
    rcases ha with ⟨rfl, -⟩ | ha
    · rw [hnil, List.nil_append] at hc
      have hd : d = id := List.head_eq_of_cons_eq hc
      omega
    · exact absurd hnil (ha.ne_nil h₀)
  | @child id el b c h hb ih =>
    have hlt := (hU.anchored id el b h).1
    rcases List.eq_nil_or_concat r with rfl | ⟨r, x, rfl⟩
    · obtain ⟨rfl, hlast⟩ := List.append_inj' hc rfl
      have hd : d = id - b := List.head_eq_of_cons_eq hlast
      rcases ha with ⟨-, hnil⟩ | ha
      · exact absurd hnil (hb.ne_nil h₀)
      · obtain rfl := ha.injective h₀ hU hb
        omega
    · have hassoc : ca ++ d :: (r ++ [x]) = (ca ++ d :: r) ++ [x] := by simp
      rw [List.concat_eq_append, hassoc] at hc
      obtain ⟨rfl, -⟩ := List.append_inj' hc rfl
      rcases ih rfl with hbound | hbound
      · exact Or.inl hbound
      · exact Or.inr (by omega)

end EpochChain

/-! ### The states of an epoch -/

/-- The records of a state of an epoch are in its history, under the chains of the epoch. -/
def InEpoch (s₀ : State α) (I₀ : Set ℕ) (U : Set (SeqOp α)) (I : Set ℕ) (s : State α) : Prop :=
  I₀ ⊆ I ∧ ∀ id rec, s.get? id = some rec →
    id ∈ I ∧ ∃ c, EpochChain s₀ U id c ∧ rec.coord = c.flatMap dEnc

include h₀

theorem EpochState.inEpoch {I : Set ℕ} {s : State α} (h : EpochState s₀ I₀ U I s) :
    InEpoch s₀ I₀ U I s := by
  induction h with
  | start =>
    refine ⟨subset_rfl, fun id rec hid => ?_⟩
    have hhas := SortedMap.has_iff.mpr ⟨rec, hid⟩
    obtain ⟨c, rec', hid', hc⟩ := h₀.decodes id hhas
    obtain rfl : rec = rec' := Option.some.inj (hid.symm.trans hid')
    exact ⟨h₀.mem id hhas, c, .start ⟨rec, hid, hc⟩, (decodeChain_eq_ok_iff.mp hc).2⟩
  | @ins I s id el a s' _ hop hs ih =>
    obtain ⟨r, hr, rfl⟩ := apply_ins_eq_ok_iff.mp hs
    obtain ⟨-, -, bits, hbits, rfl⟩ := insRecord_eq_ok_iff.mp hr
    refine ⟨ih.1.trans (Set.subset_insert id I), fun i rec hi => ?_⟩
    rw [SortedMap.get?_insert] at hi
    split_ifs at hi with heq
    · obtain rfl := Option.some.inj hi
      refine ⟨Or.inl heq, ?_⟩
      rw [heq]
      cases a with
      | none =>
        cases hbits
        exact ⟨[id], .root hop, by simp⟩
      | some a =>
        obtain ⟨ra, hra, rfl⟩ := Option.map_eq_some_iff.mp hbits
        obtain ⟨-, c, hc, hcoord⟩ := ih.2 a ra hra
        exact ⟨c ++ [id - a], .child hop hc, by simp [hcoord]⟩
    · obtain ⟨hmem, hc⟩ := ih.2 i rec hi
      exact ⟨Or.inr hmem, hc⟩
  | @del I s s' _ id hs ih =>
    cases hs
    refine ⟨ih.1, fun i rec hi => ?_⟩
    rw [SortedMap.get?_erase] at hi
    split_ifs at hi
    exact ih.2 i rec hi
  | merge _ _ _ hs _ iha ihb =>
    refine ⟨iha.1.trans Set.subset_union_left, fun id rec hid => ?_⟩
    rcases get?_of_merge3 hs hid with hid | hid
    · obtain ⟨hmem, hc⟩ := iha.2 id rec hid
      exact ⟨Or.inl hmem, hc⟩
    · obtain ⟨hmem, hc⟩ := ihb.2 id rec hid
      exact ⟨Or.inr hmem, hc⟩

include hU

/-- **The states of an epoch** are grounded when its first state is. -/
theorem EpochState.grounded {I : Set ℕ} {s : State α} (h : EpochState s₀ I₀ U I s) :
    Grounded I s := by
  obtain ⟨hsub, hrec⟩ := h.inEpoch h₀
  have hchain {id : ℕ} {c : List ℕ} (hid : HasChain s id c) : EpochChain s₀ U id c := by
    obtain ⟨rec, hget, hc⟩ := hid
    obtain ⟨-, c', hc', hcoord⟩ := hrec id rec hget
    rw [hcoord, decodeChain_flatMap (hc'.pos hU)] at hc
    exact Except.ok.inj hc ▸ hc'
  refine ⟨fun id hid => ?_, fun id hid => ?_, fun id c hid => (hchain hid).ne_nil h₀,
    fun id id' c hid hid' => (hchain hid).injective h₀ hU (hchain hid'),
    fun a ca id d c ha hid => ?_⟩
  · obtain ⟨rec, hget⟩ := SortedMap.has_iff.mp hid
    exact (hrec id rec hget).1
  · obtain ⟨rec, hget⟩ := SortedMap.has_iff.mp hid
    obtain ⟨-, c, hc, hcoord⟩ := hrec id rec hget
    exact ⟨c, rec, hget, by rw [hcoord, decodeChain_flatMap (hc.pos hU)]⟩
  · have hmem : id ∈ I := by
      obtain ⟨rec, hget, -⟩ := hid
      exact (hrec id rec hget).1
    rcases EpochChain.bounded h₀ hU (ha.imp_right hchain) (hchain hid) with ⟨i, hi, hle⟩ | hle
    · exact ⟨i, hsub hi, hle⟩
    · exact ⟨id, hmem, hle⟩

end Epoch

/-- **Reachable states** are grounded. -/
theorem EpochReachable.grounded {I : Set ℕ} {s : State α} (h : EpochReachable I s) :
    Grounded I s := by
  induction h with
  | init => exact grounded_init
  | epoch _ hU hs ih => exact hs.grounded ih hU
  | compact _ hres ih => exact ih.compact hres

/-! ### A reachable state -/

/-- The insertions of three replies, each to the one before. -/
def replyOps : Set (SeqOp Char) :=
  {.ins 1 'a' none, .ins 2 'b' (some 1), .ins 3 'c' (some 2)}

theorem epochOps_replyOps : EpochOps init ∅ replyOps where
  unique id el a el' a' h h' := by
    simp only [replyOps, Set.mem_insert_iff, Set.mem_singleton_iff, SeqOp.ins.injEq] at h h'
    rcases h with ⟨rfl, rfl, rfl⟩ | ⟨rfl, rfl, rfl⟩ | ⟨rfl, rfl, rfl⟩ <;> simpa [eq_comm] using h'
  pos id el a h := by
    simp only [replyOps, Set.mem_insert_iff, Set.mem_singleton_iff, SeqOp.ins.injEq] at h
    omega
  fresh id el a _ i hi := absurd hi (Set.notMem_empty i)
  anchored id el a h := by
    simp only [replyOps, Set.mem_insert_iff, Set.mem_singleton_iff, SeqOp.ins.injEq,
      Option.some.injEq, reduceCtorEq, and_false, false_or] at h
    rcases h with ⟨rfl, -, rfl⟩ | ⟨rfl, -, rfl⟩
    · exact ⟨by decide, Or.inr ⟨'a', none, by simp [replyOps]⟩⟩
    · exact ⟨by decide, Or.inr ⟨'b', some 1, by simp [replyOps]⟩⟩

/-- The state in which the first two replies are deleted, on different branches, and the third
remains. -/
def lastReply : State Char := SortedMap.ofList [(3, { coord := [1, 1, 1].flatMap dEnc, el := 'c' })]

theorem epochReachable_lastReply : EpochReachable ({3, 2, 1} ∪ {2, 1}) lastReply := by
  have hone : EpochState init ∅ replyOps (insert 1 ∅)
      (SortedMap.ofList [(1, { coord := dEnc 1, el := 'a' })]) :=
    .ins .start (show SeqOp.ins 1 'a' none ∈ replyOps by simp [replyOps]) rfl
  have htwo : EpochState init ∅ replyOps (insert 2 (insert 1 ∅))
      (SortedMap.ofList [(1, { coord := dEnc 1, el := 'a' }),
        (2, { coord := [1, 1].flatMap dEnc, el := 'b' })]) :=
    hone.ins (show SeqOp.ins 2 'b' (some 1) ∈ replyOps by simp [replyOps]) rfl
  have hthree : EpochState init ∅ replyOps (insert 3 (insert 2 (insert 1 ∅)))
      (SortedMap.ofList [(1, { coord := dEnc 1, el := 'a' }),
        (2, { coord := [1, 1].flatMap dEnc, el := 'b' }),
        (3, { coord := [1, 1, 1].flatMap dEnc, el := 'c' })]) :=
    htwo.ins (show SeqOp.ins 3 'c' (some 2) ∈ replyOps by simp [replyOps]) rfl
  have hdel : EpochState init ∅ replyOps (insert 2 (insert 1 ∅))
      (SortedMap.ofList [(2, { coord := [1, 1].flatMap dEnc, el := 'b' })]) :=
    htwo.del 1 rfl
  have hmerge : EpochState init ∅ replyOps (insert 3 (insert 2 (insert 1 ∅)) ∪ insert 2 (insert 1 ∅))
      (SortedMap.ofList [(2, { coord := [1, 1].flatMap dEnc, el := 'b' }),
        (3, { coord := [1, 1, 1].flatMap dEnc, el := 'c' })]) :=
    .merge htwo hthree hdel rfl
  have hlast : EpochState init ∅ replyOps (insert 3 (insert 2 (insert 1 ∅)) ∪ insert 2 (insert 1 ∅))
      lastReply := hmerge.del 2 rfl
  simpa using EpochReachable.init.epoch epochOps_replyOps hlast

end EmbedRGA

end SalRuntime
