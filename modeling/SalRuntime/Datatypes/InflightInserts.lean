import SalRuntime.Datatypes.CoordinateOrder
import SalRuntime.Datatypes.Respelling

/-!
# Insertions in flight across a compaction

An insertion that is in flight when a state is compacted arrives with its old coordinate, and the
forward map takes this to the compacted state. The cut declares it: by its coordinate, and the walk
along this marks the node where it leaves the settled nodes, or by its anchor, whose child group is
frozen. Neither a marked nor an unstable child group is renumbered.

The frozen anchors make the nodes above them settled, whether their ids are or not. The walk along a
coordinate stops above an id that is not settled, so a child group below it can be renumbered that
the insertion enters.

## Main definitions

* `CoordTree.Marked` — the child group of a node is kept.
* `EmbedRGA.ingest` — insertions arrive at a state through a map of their coordinates.
* `EmbedRGA.Declares` — a cut with the insertions in flight that it declares.
* `EmbedRGA.Clear` — no frozen anchor is below an id at which the walk along a coordinate stops.

## Main results

* `CoordTree.separates_of_exits` — the deltas of the forward map separate chains that leave the tree
  where the child groups are kept.
* `EmbedRGA.inflight_survives` — the insertions in flight arrive in the same order.
* `EmbedRGA.not_inflight_survives` — a frozen anchor below an unsettled id breaks it.
-/

namespace SalRuntime

variable {α : Type}

namespace CoordTree

variable {t t' : CoordTree} {settled : List ℕ} {opts : CompactOpts} {p q : List ℕ}

/-! ### Marked nodes -/

/-- A coordinate in flight enters the child group of the node. -/
def Marked (t : CoordTree) (p : List ℕ) : Prop := (t.node? p).any CoordNode.inflightChild = true

theorem Marked.has (h : t.Marked p) : t.has p = true := by
  unfold Marked at h
  unfold CoordTree.has
  cases hn : t.node? p with
  | none => simp [hn] at h
  | some n => rfl

theorem Marked.update (h : t.Marked q) {f : CoordNode → CoordNode}
    (hf : ∀ n, n.inflightChild = true → (f n).inflightChild = true) (p : List ℕ) :
    (t.update p f).Marked q := by
  unfold Marked at h ⊢
  rw [Option.any_eq_true] at h ⊢
  obtain ⟨n, hn, hmark⟩ := h
  rw [node?_update, hn]
  split_ifs
  · exact ⟨f n, rfl, hf n hmark⟩
  · exact ⟨n, rfl, hmark⟩

theorem Marked.childOf (h : t.Marked q) (p : List ℕ) (d : ℕ) : (t.childOf p d).Marked q := by
  unfold Marked at h ⊢
  rw [node?_childOf]
  cases hn : t.node? q with
  | none => simp [hn] at h
  | some n =>
    rw [hn] at h
    split_ifs <;> exact h

theorem marked_update (hp : t.has p = true) {f : CoordNode → CoordNode}
    (hf : ∀ n, (f n).inflightChild = true) : (t.update p f).Marked p := by
  obtain ⟨n, hn⟩ := Option.isSome_iff_exists.mp hp
  rw [Marked, node?_update, if_pos rfl, hn]
  exact hf n

theorem Marked.descend (h : t.Marked q) {f : CoordNode → CoordNode}
    (hf : ∀ n, n.inflightChild = true → (f n).inflightChild = true) (p ds : List ℕ) :
    (CoordTree.descend f t p ds).Marked q := by
  induction ds generalizing t p with
  | nil => exact h
  | cons d ds ih => exact ih ((h.childOf p d).update hf _) _

theorem Marked.seedInflight (h : t.Marked q) {total n : ℕ} {p : List ℕ} {bits : List Bool}
    (hseed : seedInflight settled total n t p bits = .ok t') : t'.Marked q := by
  induction n generalizing t p bits with
  | zero =>
    cases bits with
    | nil =>
      cases hseed
      split_ifs
      · exact h
      · refine h.update (fun n hn => ?_) p
        exact hn
    | cons b bits =>
      cases hseed
      exact h
  | succ n ih =>
    cases bits with
    | nil =>
      cases hseed
      split_ifs
      · exact h
      · refine h.update (fun n hn => ?_) p
        exact hn
    | cons b bits =>
      rw [CoordTree.seedInflight] at hseed
      cases hone : decodeOne (total - (b :: bits).length) (b :: bits) with
      | error e =>
        rw [hone] at hseed
        cases hseed
      | ok d =>
        rw [hone] at hseed
        simp only [bind, Except.bind] at hseed
        split_ifs at hseed
        · refine ih ((h.childOf p d.1).update (fun n hn => ?_) _) hseed
          exact hn
        · cases hseed
          exact h.update (fun _ _ => rfl) p

theorem Marked.addInflight (h : t.Marked q) {cs : List (List Bool)}
    (hadd : addInflight settled t cs = .ok t') : t'.Marked q := by
  induction cs generalizing t with
  | nil =>
    cases hadd
    exact h
  | cons c cs ih =>
    rw [CoordTree.addInflight] at hadd
    cases hseed : CoordTree.seedInflight settled c.length c.length t [] c with
    | error e =>
      rw [hseed] at hadd
      cases hadd
    | ok t₁ =>
      rw [hseed] at hadd
      exact ih (h.seedInflight hseed) hadd

theorem Marked.addFrozen (h : t.Marked q) {cs : List (List Bool)} (hadd : t.addFrozen cs = .ok t') :
    t'.Marked q := by
  induction cs generalizing t with
  | nil =>
    cases hadd
    exact h
  | cons c cs ih =>
    rw [CoordTree.addFrozen, freeze] at hadd
    cases hc : decodeChain c with
    | error e =>
      rw [hc] at hadd
      cases hadd
    | ok ds =>
      rw [hc] at hadd
      refine ih ((h.descend (fun n hn => ?_) [] ds).update (fun n hn => ?_) ds) hadd
      · exact hn
      · rfl

/-- **A walk** along a coordinate that is not settled stops above an id that is not, and marks the
node. -/
theorem marked_of_seedInflight {total n : ℕ} {ds : List ℕ}
    (h : seedInflight settled total n t p (ds.flatMap dEnc) = .ok t') (hds : ∀ d ∈ ds, 1 ≤ d)
    (hn : (ds.flatMap dEnc).length ≤ n) (hp : t.has p = true) (hne : ds ≠ [])
    (hout : (p ++ ds).sum ∉ settled) :
    ∃ g v, g ++ [v] <+: p ++ ds ∧ (g ++ [v]).sum ∉ settled ∧ t'.Marked g := by
  induction ds generalizing t p n with
  | nil => exact absurd rfl hne
  | cons d ds ih =>
    have hd := hds d List.mem_cons_self
    obtain ⟨b, bits, hbits⟩ : ∃ b bits, (d :: ds).flatMap dEnc = b :: bits :=
      List.exists_cons_of_ne_nil fun hnil =>
        orderedPrefixCode_dEnc.ne_nil hd (List.append_eq_nil_iff.mp hnil).1
    have hone : decodeOne (total - (b :: bits).length) (b :: bits) = .ok (d, ds.flatMap dEnc) := by
      rw [← hbits, List.flatMap_cons, decodeOne_append _ hd]
    have hlt := decodeOne_length_lt hone
    have hassoc : p ++ [d] ++ ds = p ++ d :: ds := by simp
    rw [hbits] at h hn
    cases n with
    | zero => simp at hn
    | succ n =>
      rw [seedInflight, hone] at h
      simp only [bind, Except.bind] at h
      split_ifs at h with hset
      · have hset : (p ++ [d]).sum ∈ settled := by simpa using hset
        have hne' : ds ≠ [] := by
          rintro rfl
          exact hout hset
        obtain ⟨g, v, hg, hv, hmark⟩ := ih h (fun e he => hds e (List.mem_cons_of_mem _ he))
          (by simp only [List.length_cons] at hn hlt; omega)
          (by rw [has_update, has_childOf]; simp) hne' (by rwa [hassoc])
        exact ⟨g, v, hassoc ▸ hg, hv, hmark⟩
      · cases h
        refine ⟨p, d, ⟨ds, hassoc⟩, by simpa using hset, marked_update hp fun _ => rfl⟩

theorem marked_of_addInflight {cs : List (List Bool)} (h : addInflight settled t cs = .ok t')
    (ht : IsTree t) {ds : List ℕ} (hc : ds.flatMap dEnc ∈ cs) (hds : ∀ d ∈ ds, 1 ≤ d)
    (hne : ds ≠ []) (hout : ds.sum ∉ settled) :
    ∃ g v, g ++ [v] <+: ds ∧ (g ++ [v]).sum ∉ settled ∧ t'.Marked g := by
  induction cs generalizing t with
  | nil => cases hc
  | cons c cs ih =>
    rw [addInflight] at h
    cases hseed : seedInflight settled c.length c.length t [] c with
    | error e =>
      rw [hseed] at h
      cases h
    | ok t₁ =>
      rw [hseed] at h
      rcases List.mem_cons.mp hc with rfl | hc
      · obtain ⟨g, v, hg, hv, hmark⟩ := marked_of_seedInflight hseed hds le_rfl ht.hasRoot hne hout
        exact ⟨g, v, hg, hv, hmark.addInflight h⟩
      · exact ih h (ht.seedInflight ht.hasRoot hseed) hc

theorem marked_of_addFrozen {cs : List (List Bool)} (h : t.addFrozen cs = .ok t') (ht : IsTree t)
    {ds : List ℕ} (hc : ds.flatMap dEnc ∈ cs) (hds : ∀ d ∈ ds, 1 ≤ d) : t'.Marked ds := by
  induction cs generalizing t with
  | nil => cases hc
  | cons c cs ih =>
    rw [addFrozen] at h
    cases hfreeze : t.freeze c with
    | error e =>
      rw [hfreeze] at h
      cases h
    | ok t₁ =>
      rw [hfreeze] at h
      rcases List.mem_cons.mp hc with rfl | hc
      · refine Marked.addFrozen ?_ h
        rw [freeze, decodeChain_flatMap hds] at hfreeze
        cases hfreeze
        refine marked_update ?_ fun _ => rfl
        by_cases hnil : ds = []
        · subst hnil
          exact ht.hasRoot
        · exact covers_descend _ ds ds List.prefix_rfl hnil
      · refine ih h ?_ hc
        rw [freeze] at hfreeze
        cases hchain : decodeChain c with
        | error e =>
          rw [hchain] at hfreeze
          cases hfreeze
        | ok es =>
          rw [hchain] at hfreeze
          cases hfreeze
          exact (ht.descend _ ht.hasRoot (decodeChain_eq_ok_iff.mp hchain).1).update _ _

/-! ### Child groups that are kept -/

/-- A marked child group keeps its deltas. -/
theorem label_of_marked (hp : t.Marked p) (hopts : opts.unguardedRenumber = false) (d : ℕ) :
    t.label settled opts (p ++ [d]) = d := by
  have hfree : t.inflightFree p = false := by
    unfold Marked at hp
    rw [inflightFree]
    cases hn : t.node? p with
    | none => rfl
    | some n =>
      have hn : n.inflightChild = true := by simpa [hn] using hp
      simp [hn]
  have hfused : t.fusedAway settled opts (p ++ [d]) = false := by
    by_contra hcon
    obtain ⟨-, -, ⟨-, hfree'⟩, -⟩ := fusedAway_concat.mp (Bool.not_eq_false _ ▸ hcon)
    rw [hfree] at hfree'
    cases hfree'
  have hrenumber : t.renumber settled opts p = false := by
    unfold Marked at hp
    rw [renumber, hp, hopts]
    simp
  rw [label_concat, hfused, hrenumber, if_neg Bool.false_ne_true, if_neg Bool.false_ne_true]

/-- An unstable child group keeps its deltas. -/
theorem label_of_unstable (h : IsTree t) (hp : t.stable settled p = false) {d : ℕ}
    (hd : t.has (p ++ [d]) = true) : t.label settled opts (p ++ [d]) = d := by
  have hfused : t.fusedAway settled opts (p ++ [d]) = false := by
    by_contra hcon
    obtain ⟨-, -, ⟨hspine, -⟩, -⟩ := fusedAway_concat.mp (Bool.not_eq_false _ ▸ hcon)
    rw [spineMember, hp] at hspine
    simp at hspine
  have hrenumber : t.renumber settled opts p = false := by
    have hkid : t.stable settled (p ++ [d]) = false := by
      by_contra hcon
      have hstable := (stable_iff h).mp (Bool.not_eq_false _ ▸ hcon)
      have hevidence := evidence_above h (List.prefix_append p [d]) (hstable.resolve_left (by simp))
      exact absurd ((stable_iff h).mpr (Or.inr hevidence)) (by rw [hp]; exact Bool.false_ne_true)
    have hall : t.allStable settled p = false := by
      rw [allStable, List.all_eq_false]
      exact ⟨d, mem_kids hd, by rw [hkid]; exact Bool.false_ne_true⟩
    rw [renumber, hall, Bool.false_and]
  rw [label_concat, hfused, hrenumber, if_neg Bool.false_ne_true, if_neg Bool.false_ne_true]

/-- **Chains that leave the tree** are separated when the child groups that they leave it by keep
their deltas. -/
theorem separates_of_exits (h : IsTree t) {X : Set (List ℕ)} (hpos : ∀ c ∈ X, ∀ d ∈ c, 1 ≤ d)
    (hvisited : ∀ c ∈ X, t.has c = true → t.visited settled opts c = true)
    (hexit : ∀ p u r, p ++ u :: r ∈ X → t.has p = true → t.has (p ++ [u]) = false →
      ∀ d, t.has (p ++ [d]) = true → t.label settled opts (p ++ [d]) = d) :
    Separates X (t.mapLabel settled opts) := by
  have hkept {p r : List ℕ} {u d : ℕ} (hu : p ++ u :: r ∈ X) (hout : t.has (p ++ [u]) = false)
      (hd : t.has (p ++ [d]) = true) : t.mapLabel settled opts (p ++ [d]) = d := by
    rw [mapLabel_of_has hd]
    exact hexit p u r hu (h.closed p d hd) hout d hd
  refine ⟨fun p a b x y ha hb hlt => ?_, fun p a x hp ha => ?_⟩
  · have hapos := hpos _ ha a (by simp)
    by_cases hhasa : t.has (p ++ [a]) = true
    · by_cases hhasb : t.has (p ++ [b]) = true
      · rw [mapLabel_of_has hhasa, mapLabel_of_has hhasb]
        exact label_lt h hhasa hhasb hlt
      · have hhasb := Bool.eq_false_iff.mpr hhasb
        rw [hkept hb hhasb hhasa, mapLabel_of_not_has hhasb]
        exact ⟨hapos, hlt⟩
    · have hhasa := Bool.eq_false_iff.mpr hhasa
      have hbeq : t.mapLabel settled opts (p ++ [b]) = b := by
        by_cases hhasb : t.has (p ++ [b]) = true
        · exact hkept ha hhasa hhasb
        · exact mapLabel_of_not_has (Bool.eq_false_iff.mpr hhasb)
      rw [hbeq, mapLabel_of_not_has hhasa]
      exact ⟨hapos, hlt⟩
  · by_cases hhas : t.has (p ++ [a]) = true
    · have hall := List.all_eq_true.mp (hvisited p hp (h.closed p a hhas)) a (mem_kids hhas)
      rw [mapLabel_of_has hhas]
      exact label_pos h hhas (by simpa using hall)
    · rw [mapLabel_of_not_has (Bool.eq_false_iff.mpr hhas)]
      exact hpos _ ha a (by simp)

end CoordTree

namespace EmbedRGA

open CoordTree

/-! ### The deltas of the mint code -/

/-- The deltas along the chain of an id. -/
def deltaChain (χ : ℕ → List ℕ) (id : ℕ) : List ℕ := labelsFrom mintLabel [] (χ id)

/-- The deltas of an increasing chain add up to its last id. -/
theorem sum_labelsFrom_mintLabel {c : List ℕ} (hc : c ∈ increasingChains) :
    (labelsFrom mintLabel [] c).sum = c.getLastD 0 := by
  induction c using List.reverseRecOn with
  | nil => rfl
  | append_singleton c a ih =>
    have hlt := getLastD_lt_of_pairwise hc
    have hinit : c ∈ increasingChains := by
      have hc' : (0 :: (c ++ [a])).Pairwise (· < ·) := hc
      rw [← List.cons_append, List.pairwise_append] at hc'
      exact hc'.1
    rw [labelsFrom_append, List.sum_append, ih hinit, labelsFrom, labelsFrom, List.nil_append,
      mintLabel_concat, List.sum_singleton, List.getLastD_concat]
    omega

theorem spell_eq_deltaChain (χ : ℕ → List ℕ) (id : ℕ) :
    spell dEnc mintLabel (χ id) = (deltaChain χ id).flatMap dEnc := spellFrom_eq_flatMap [] (χ id)

section Deltas

variable {χ : ℕ → List ℕ} {ε : ℕ → α} {U : Set (SeqOp α)} (hU : Births χ ε U)

include hU

theorem deltaChain_pos {id : ℕ} (hid : id ∈ inserted U) : ∀ d ∈ deltaChain χ id, 1 ≤ d :=
  siblingMono_mintLabel.pos_of_mem_labelsFrom (hU.mem_increasingChains hid)

theorem sum_deltaChain {id : ℕ} (hid : id ∈ inserted U) : (deltaChain χ id).sum = id := by
  obtain ⟨p, hp⟩ := hU.chain_eq hid
  rw [deltaChain, sum_labelsFrom_mintLabel (hU.mem_increasingChains hid), hp, List.getLastD_concat]

theorem deltaChain_ne_nil {id : ℕ} (hid : id ∈ inserted U) : deltaChain χ id ≠ [] := by
  intro hnil
  have hsum := sum_deltaChain hU hid
  have hpos := hU.pos hid
  rw [hnil, List.sum_nil] at hsum
  omega

/-- **The prefixes of the deltas** of an id are those of the ids on its chain. -/
theorem exists_of_prefix_deltaChain {id : ℕ} (hid : id ∈ inserted U) {q : List ℕ}
    (hq : q <+: deltaChain χ id) (hne : q ≠ []) :
    ∃ j ∈ χ id, j ∈ inserted U ∧ q = deltaChain χ j := by
  obtain ⟨c, hc, rfl⟩ := exists_of_prefix_labelsFrom hq
  obtain rfl | ⟨p, j, rfl⟩ := List.eq_nil_or_concat c
  · exact absurd rfl hne
  · rw [List.concat_eq_append] at hc ⊢
    obtain ⟨hj, hχ⟩ := hU.prefix_eq hid hc
    exact ⟨j, hc.subset (by simp), hj, by rw [deltaChain, hχ]⟩

/-- An id whose deltas start those of another one is on its chain. -/
theorem mem_of_deltaChain_extends {i id : ℕ} (hi : i ∈ inserted U) (hid : id ∈ inserted U)
    (h : deltaChain χ i <+: deltaChain χ id) : i ∈ χ id := by
  obtain ⟨j, hj, hjU, heq⟩ := exists_of_prefix_deltaChain hU hid h (deltaChain_ne_nil hU hi)
  have hsum := sum_deltaChain hU hi
  rw [heq, sum_deltaChain hU hjU] at hsum
  exact hsum ▸ hj

theorem decodeChain_spell {id : ℕ} (hid : id ∈ inserted U) :
    decodeChain (spell dEnc mintLabel (χ id)) = .ok (deltaChain χ id) := by
  rw [spell_eq_deltaChain]
  exact decodeChain_flatMap (deltaChain_pos hU hid)

end Deltas

/-! ### Arriving insertions -/

/-- Insertions arrive, each at the place that a map of coordinates assigns to it. -/
def ingest (translate : List Bool → Except Failure (List Bool)) (s : State α) :
    List (ℕ × Record α) → Except Failure (State α)
  | [] => .ok s
  | e :: es => do
    ingest translate (s.insert e.1 { coord := ← translate e.2.coord, el := e.2.el }) es

/-- **The forward map** respells the insertions as the compaction does the records. -/
theorem ingest_respell {t : CoordTree} (settled : List ℕ) (opts : CompactOpts) (htree : IsTree t)
    {es : List (ℕ × Record α)} (hes : ∀ e ∈ es, ∃ c, decodeChain e.2.coord = .ok c) (s : State α) :
    ∃ u, ingest .ok s es = .ok u ∧
      ingest (t.translate settled opts) (respell (t.mapLabel settled opts) s) es =
        .ok (respell (t.mapLabel settled opts) u) ∧
      ∀ i, u.has i = true → s.has i = true ∧ (∀ c, HasChain u i c ↔ HasChain s i c) ∨
        ∃ e ∈ es, e.1 = i ∧ ∀ c, HasChain u i c ↔ decodeChain e.2.coord = .ok c := by
  induction es generalizing s with
  | nil => exact ⟨s, rfl, rfl, fun i hi => Or.inl ⟨hi, fun c => Iff.rfl⟩⟩
  | cons e es ih =>
    obtain ⟨c, hc⟩ := hes e List.mem_cons_self
    obtain ⟨hpos, hcoord⟩ := decodeChain_eq_ok_iff.mp hc
    obtain ⟨u, hu, hu', hchains⟩ := ih (fun f hf => hes f (List.mem_cons_of_mem _ hf))
      (s.insert e.1 e.2)
    refine ⟨u, hu, ?_, fun i hi => ?_⟩
    · rw [respell_insert, respellRecord_eq hc] at hu'
      rw [ingest, hcoord, translate_eq htree hpos]
      exact hu'
    · rcases hchains i hi with ⟨hhas, hiff⟩ | ⟨f, hf, hfi, hiff⟩
      · by_cases hie : i = e.1
        · refine Or.inr ⟨e, List.mem_cons_self, hie.symm, fun d => (hiff d).trans ?_⟩
          rw [hasChain_insert hc, hc]
          simp [hie, eq_comm]
        · rw [SortedMap.has_insert, Bool.or_eq_true, decide_eq_true_iff] at hhas
          refine Or.inl ⟨hhas.resolve_left hie, fun d => (hiff d).trans ?_⟩
          rw [hasChain_insert hc]
          simp [hie]
      · exact Or.inr ⟨f, List.mem_cons_of_mem _ hf, hfi, hiff⟩

/-! ### Cuts that declare what is in flight -/

/-- The cut of a state with the history `E`, among the operations `U`: its ids are settled, and its
coordinates in flight are those of insertions that have not arrived. -/
structure Declares (χ : ℕ → List ℕ) (U E : Set (SeqOp α)) (s : State α) (cut : CoordCut) :
    Prop where
  /-- Settled ids have arrived. -/
  delivered : ∀ id ∈ cut.settledIds.getD [], id ∈ inserted E
  /-- Their deletions have arrived. -/
  deletes : ∀ id ∈ cut.settledIds.getD [], id ∈ deleted U → id ∈ deleted E
  /-- Anchors of settled ids are settled. -/
  closed : ∀ id el a, SeqOp.ins id el (some a) ∈ U → id ∈ cut.settledIds.getD [] →
    a ∈ cut.settledIds.getD []
  /-- Coordinates in flight are those of insertions that have not arrived. -/
  inflight : ∀ c ∈ cut.inflight, ∃ id ∈ inserted U, id ∉ inserted E ∧
    c = spell dEnc mintLabel (χ id)
  /-- Frozen anchors are the root or live records. -/
  frozen : ∀ c ∈ cut.frozenAnchorCoords, ∃ a, anchorCoord s a = some c

/-- The cut declares the insertion of an id by its anchor. -/
def FrozenAt (U : Set (SeqOp α)) (s : State α) (cut : CoordCut) (id : ℕ) : Prop :=
  ∃ el a c, SeqOp.ins id el a ∈ U ∧ anchorCoord s a = some c ∧ c ∈ cut.frozenAnchorCoords

/-- The cut declares the insertion of an id, by its coordinate or by its anchor. -/
def Declared (χ : ℕ → List ℕ) (U : Set (SeqOp α)) (s : State α) (cut : CoordCut) (id : ℕ) : Prop :=
  spell dEnc mintLabel (χ id) ∈ cut.inflight ∨ FrozenAt U s cut id

/-- The cut declares the insertion of an id by its anchor, or the ids that it has in common with the
frozen anchors are settled. -/
def Clear (χ : ℕ → List ℕ) (U : Set (SeqOp α)) (s : State α) (cut : CoordCut) (id : ℕ) : Prop :=
  FrozenAt U s cut id ∨ ∀ a c, anchorCoord s (some a) = some c → c ∈ cut.frozenAnchorCoords →
    ∀ i ∈ χ id, i ∈ χ a → i ∈ cut.settledIds.getD []

section Cut

variable {χ : ℕ → List ℕ} {ε : ℕ → α} {U E : Set (SeqOp α)} {s : State α} {cut : CoordCut}
  {t : CoordTree} {opts : CompactOpts}

/-- The settled ids are closed under the chains. -/
theorem Declares.settled_of_mem (h : Declares χ U E s cut) (hU : Births χ ε U) {i id : ℕ}
    (hid : id ∈ inserted U) (hset : id ∈ cut.settledIds.getD []) (hi : i ∈ χ id) :
    i ∈ cut.settledIds.getD [] := by
  induction id using Nat.strong_induction_on with
  | _ id ih =>
    obtain ⟨el, a, hmem⟩ := hid
    rw [hU.chain id el a hmem, List.mem_append, List.mem_singleton] at hi
    rcases hi with hi | rfl
    · cases a with
      | none => simp [anchorChain] at hi
      | some a =>
        exact ih a (hU.anchor_lt hmem) (hU.anchored id el a hmem) (h.closed id el a hmem hset) hi
    · exact hset

section Honest

variable (hU : Births χ ε U) (hE : E ⊆ U) (hclosed : Closed E)
  (hrep : Represents mintLabel χ ε (live E) s)

include hU hE hrep

/-- The records of a state have the deltas of their ids. -/
theorem decodeChain_of_mem {e : ℕ × Record α} (he : e ∈ s.entries) :
    e.1 ∈ inserted E ∧ decodeChain e.2.coord = .ok (deltaChain χ e.1) := by
  obtain ⟨hlive, hrec⟩ := (hrep e.1 e.2).mp (SortedMap.mem_entries_iff.mp he)
  rw [hrec, recordOf]
  exact ⟨hlive.1, decodeChain_spell hU (inserted_mono hE hlive.1)⟩

omit hU hE in
/-- An anchor is the root, or a live record with the deltas of its id. -/
theorem anchor_eq {a : Option ℕ} {c : List Bool} (hc : anchorCoord s a = some c) :
    a = none ∧ c = [] ∨
      ∃ id ∈ live E, a = some id ∧ c = (deltaChain χ id).flatMap dEnc := by
  cases a with
  | none => exact Or.inl ⟨rfl, (Option.some.inj hc).symm⟩
  | some id =>
    obtain ⟨rec, hrec, rfl⟩ := Option.map_eq_some_iff.mp hc
    obtain ⟨hlive, rfl⟩ := (hrep id rec).mp hrec
    exact Or.inr ⟨id, hlive, rfl, spell_eq_deltaChain χ id⟩

include hclosed

/-- **The nodes of the tree** below the root are of ids that have arrived. -/
theorem Declares.exists_of_has (h : Declares χ U E s cut) (hbuild : build s cut = .ok t)
    {q : List ℕ} (hq : t.has q = true) (hne : q ≠ []) :
    ∃ j ∈ inserted E, q = deltaChain χ j := by
  have hwithin {id : ℕ} (hid : id ∈ inserted E) (hpre : q <+: deltaChain χ id) :
      ∃ j ∈ inserted E, q = deltaChain χ j := by
    obtain ⟨j, hj, -, rfl⟩ := exists_of_prefix_deltaChain hU (inserted_mono hE hid) hpre hne
    obtain ⟨l, r, hlr⟩ := List.append_of_mem hj
    exact ⟨j, hclosed.mem_of_prefix hU hE hid (p := l) ⟨r, by simp [hlr]⟩, rfl⟩
  obtain ⟨m, hm⟩ := Option.isSome_iff_exists.mp hq
  rcases node?_build hbuild hm with ⟨c, hc, hwalk⟩ | ⟨c, hc, ds, hds, hqds, -⟩ | ⟨-, hq⟩
  · -- A node that a walk passes through is of a settled id.
    obtain ⟨x, hx, -, rfl⟩ := h.inflight c hc
    obtain ⟨-, -, hbits, hall⟩ := hwalk
    rw [List.flatMap_nil, List.nil_append, spell_eq_deltaChain] at hbits
    have hpre := orderedPrefixCode_dEnc.prefix_of_flatMap ((isTree_build hbuild).pos_of_mem hq)
      (deltaChain_pos hU hx) hbits
    obtain ⟨j, -, hjU, rfl⟩ := exists_of_prefix_deltaChain hU hx hpre hne
    have hset := hall _ List.nil_prefix List.prefix_rfl hne
    rw [sum_deltaChain hU hjU] at hset
    exact ⟨j, h.delivered j hset, rfl⟩
  · obtain ⟨a, ha⟩ := h.frozen c hc
    rcases anchor_eq hrep ha with ⟨-, rfl⟩ | ⟨id, hid, -, rfl⟩
    · cases hds
      exact absurd (List.prefix_nil.mp hqds) hne
    · rw [decodeChain_flatMap (deltaChain_pos hU (inserted_mono hE hid.1))] at hds
      cases hds
      exact hwithin hid.1 hqds
  · rcases hq with rfl | ⟨e, he, c, hc, hqc⟩
    · exact absurd rfl hne
    · obtain ⟨hid, hdecode⟩ := decodeChain_of_mem hU hE hrep he
      obtain rfl := Except.ok.inj (hdecode.symm.trans (chainOf_eq_some_iff.mp hc))
      exact hwithin hid hqc

omit hclosed in
/-- There is no evidence for an id that is not settled, unless a frozen anchor is below it. -/
theorem Declares.not_evidence (h : Declares χ U E s cut) (hbuild : build s cut = .ok t) {i : ℕ}
    (hi : i ∈ inserted U) (hout : i ∉ cut.settledIds.getD [])
    (hclear : ∀ a c, anchorCoord s (some a) = some c → c ∈ cut.frozenAnchorCoords → i ∉ χ a) :
    t.evidence (cut.settledIds.getD []) (deltaChain χ i) = false := by
  have htree := isTree_build hbuild
  have hne := deltaChain_ne_nil hU hi
  by_contra hcon
  obtain ⟨q, n, hpre, hn, hseed | ⟨id, hid, hset⟩⟩ :=
    (evidence_iff htree).mp (Bool.not_eq_false _ ▸ hcon)
  · rcases node?_build hbuild hn with ⟨c, hc, -, -, -, hall⟩ | ⟨c, hc, ds, hds, hqds, -⟩ | ⟨hno, -⟩
    · have hset := hall _ List.nil_prefix hpre hne
      rw [sum_deltaChain hU hi] at hset
      exact hout hset
    · obtain ⟨a, ha⟩ := h.frozen c hc
      rcases anchor_eq hrep ha with ⟨-, rfl⟩ | ⟨b, hb, rfl, rfl⟩
      · cases hds
        exact hne (List.prefix_nil.mp (hpre.trans hqds))
      · have hbU := inserted_mono hE hb.1
        rw [decodeChain_flatMap (deltaChain_pos hU hbU)] at hds
        cases hds
        exact hclear b _ ha hc (mem_of_deltaChain_extends hU hi hbU (hpre.trans hqds))
    · rw [hno] at hseed
      cases hseed
  · -- The record of a settled id is below settled ids only.
    have hrec : t.recordAt q = some id := by rw [recordAt, hn]; exact hid
    rw [recordAt_build hbuild] at hrec
    obtain ⟨e, he, rfl, hc⟩ := exists_of_lastId hrec
    obtain ⟨heE, hdecode⟩ := decodeChain_of_mem hU hE hrep he
    have heU := inserted_mono hE heE
    obtain rfl := Except.ok.inj (hdecode.symm.trans (chainOf_eq_some_iff.mp hc))
    exact hout (h.settled_of_mem hU heU hset (mem_of_deltaChain_extends hU hi heU hpre))

omit hclosed in
/-- **Where an insertion in flight leaves the tree** the child group keeps its deltas. -/
theorem Declares.label_of_exit (h : Declares χ U E s cut) (hbuild : build s cut = .ok t) {x : ℕ}
    (hx : x ∈ inserted U) (hxE : x ∉ inserted E) (hdecl : Declared χ U s cut x)
    (hclear : Clear χ U s cut x) (hopts : opts.unguardedRenumber = false) {p r : List ℕ} {u d : ℕ}
    (hp : deltaChain χ x = p ++ u :: r) (hout : t.has (p ++ [u]) = false)
    (hd : t.has (p ++ [d]) = true) :
    t.label (cut.settledIds.getD []) opts (p ++ [d]) = d := by
  have htree := isTree_build hbuild
  obtain ⟨t₁, t₂, hrecords, hinflight, hfrozen⟩ := build_steps hbuild
  have htree₁ := IsTree.of_root.addRecords hrecords
  have htree₂ := htree₁.addInflight hinflight
  -- The node of the tree that the chain leaves is the last one on it.
  have hlast {g : List ℕ} (hg : t.has g = true) (hpre : g <+: deltaChain χ x) : g <+: p := by
    have hpu : p ++ [u] <+: deltaChain χ x := ⟨r, by simp [hp]⟩
    rcases List.prefix_or_prefix_of_prefix hpre hpu with hle | hle
    · rcases List.prefix_concat_iff.mp hle with rfl | hle
      · rw [hg] at hout
        cases hout
      · exact hle
    · rw [htree.has_above hle hg] at hout
      cases hout
  by_cases hfz : FrozenAt U s cut x
  · obtain ⟨el, a, c, hmem, hc, hcut⟩ := hfz
    -- The anchor is marked, and the id is its child.
    obtain ⟨b, hb, hbc, hchain⟩ : ∃ b, (∀ e ∈ b, 1 ≤ e) ∧ c = b.flatMap dEnc ∧
        ∃ v, deltaChain χ x = b ++ [v] := by
      rcases anchor_eq hrep hc with ⟨rfl, rfl⟩ | ⟨id, hid, rfl, rfl⟩
      · refine ⟨[], by simp, rfl, mintLabel (χ x), ?_⟩
        rw [deltaChain, hU.chain x el _ hmem]
        rfl
      · refine ⟨deltaChain χ id, deltaChain_pos hU (inserted_mono hE hid.1), rfl,
          mintLabel (χ x), ?_⟩
        rw [deltaChain, hU.chain x el _ hmem, labelsFrom_append]
        rfl
    obtain ⟨v, hchain⟩ := hchain
    have hmark := marked_of_addFrozen hfrozen htree₂ (hbc ▸ hcut) hb
    have hbp := hlast hmark.has ⟨[v], hchain.symm⟩
    have hpb : p <+: b := by
      have hpx : p <+: b ++ [v] := ⟨u :: r, by rw [← hp, hchain]⟩
      rcases List.prefix_concat_iff.mp hpx with heq | hle
      · have hlen := congrArg List.length hp
        rw [heq, hchain] at hlen
        simp at hlen
      · exact hle
    obtain rfl := hpb.eq_of_length (le_antisymm hpb.length_le hbp.length_le)
    exact label_of_marked hmark hopts d
  · have hcoord := hdecl.resolve_right hfz
    rw [spell_eq_deltaChain] at hcoord
    have hxs : x ∉ cut.settledIds.getD [] := fun hset => hxE (h.delivered x hset)
    obtain ⟨g, v, hg, hv, hmark⟩ := marked_of_addInflight hinflight htree₁ hcoord
      (deltaChain_pos hU hx) (deltaChain_ne_nil hU hx) (by rwa [sum_deltaChain hU hx])
    have hmark := hmark.addFrozen hfrozen
    have hgp := hlast hmark.has ((List.prefix_append g [v]).trans hg)
    by_cases hgeq : g = p
    · exact label_of_marked (hgeq ▸ hmark) hopts d
    · -- The walk stops above, and nothing below is known to be settled.
      have hgv : g ++ [v] <+: p := by
        rcases List.prefix_or_prefix_of_prefix hg ⟨u :: r, hp.symm⟩ with hle | hle
        · exact hle
        · rcases List.prefix_concat_iff.mp hle with heq | hle
          · exact heq ▸ List.prefix_rfl
          · exact absurd (hgp.eq_of_length (le_antisymm hgp.length_le hle.length_le)) hgeq
      obtain ⟨i, hi, hiU, hgi⟩ := exists_of_prefix_deltaChain hU hx hg (by simp)
      rw [hgi] at hv hgv
      rw [sum_deltaChain hU hiU] at hv
      refine label_of_unstable htree ?_ hd
      by_contra hcon
      have hne : p ≠ [] := by
        rintro rfl
        exact deltaChain_ne_nil hU hiU (List.prefix_nil.mp hgv)
      have hevidence := ((stable_iff htree).mp (Bool.not_eq_false _ ▸ hcon)).resolve_left hne
      have habove := evidence_above htree hgv hevidence
      rw [h.not_evidence hU hE hrep hbuild hiU hv fun a c ha hc hia =>
        hv (hclear.resolve_left hfz a c ha hc i hi hia)] at habove
      cases habove

end Honest

end Cut

/-- The state can be compacted at the cut, and insertions that arrive through the forward map are
displayed in the same order as in the state itself. -/
def Survives (s : State α) (cut : CoordCut) (opts : CompactOpts) (es : List (ℕ × Record α)) :
    Prop :=
  ∃ res u v, compactEliasDelta s cut opts = .ok res ∧ ingest .ok s es = .ok u ∧
    ingest res.translate res.state es = .ok v ∧ readIds v = readIds u

/-- The insertions of some ids. -/
def insertsOf (χ : ℕ → List ℕ) (ε : ℕ → α) (ids : List ℕ) : List (ℕ × Record α) :=
  ids.map fun id => (id, recordOf mintLabel χ ε id)

/-- Two insertions at the root, two replies to the first of them, and a reply to one of these. -/
def branchOps : Set (SeqOp Char) :=
  {.ins 1 'a' none, .ins 2 'b' none, .ins 5 'c' (some 1), .ins 3 'd' (some 1), .ins 6 'e' (some 5)}

/-- The chains of the insertions. -/
def branchChain : ℕ → List ℕ
  | 3 => [1, 3]
  | 5 => [1, 5]
  | 6 => [1, 5, 6]
  | id => [id]

/-- The elements of the insertions. -/
def branchEl : ℕ → Char
  | 1 => 'a'
  | 2 => 'b'
  | 3 => 'd'
  | 5 => 'c'
  | _ => 'e'

/-- The insertions that have arrived. -/
def branchArrived : Set (SeqOp Char) := {.ins 5 'c' (some 1), .ins 2 'b' none, .ins 1 'a' none}

/-- The state in which they have. -/
def branchState : State Char :=
  SortedMap.ofList [(1, { coord := dEnc 1, el := 'a' }), (2, { coord := dEnc 2, el := 'b' }),
    (5, { coord := [1, 4].flatMap dEnc, el := 'c' })]

/-- The cut that declares one reply by its coordinate and the other one by its anchor. -/
def branchCut (settled : List ℕ) : CoordCut where
  settledIds := some settled
  inflight := [[1, 2].flatMap dEnc]
  frozenAnchorCoords := [[1, 4].flatMap dEnc]

theorem births_branch : Births branchChain branchEl branchOps where
  el id el a h := by
    simp only [branchOps, Set.mem_insert_iff, Set.mem_singleton_iff, SeqOp.ins.injEq] at h
    rcases h with ⟨rfl, rfl, -⟩ | ⟨rfl, rfl, -⟩ | ⟨rfl, rfl, -⟩ | ⟨rfl, rfl, -⟩ | ⟨rfl, rfl, -⟩ <;>
      rfl
  chain id el a h := by
    simp only [branchOps, Set.mem_insert_iff, Set.mem_singleton_iff, SeqOp.ins.injEq] at h
    rcases h with ⟨rfl, -, rfl⟩ | ⟨rfl, -, rfl⟩ | ⟨rfl, -, rfl⟩ | ⟨rfl, -, rfl⟩ | ⟨rfl, -, rfl⟩ <;>
      rfl
  anchored id el a h := by
    simp only [branchOps, Set.mem_insert_iff, Set.mem_singleton_iff, SeqOp.ins.injEq,
      Option.some.injEq, reduceCtorEq, and_false, false_or] at h
    rcases h with ⟨-, -, rfl⟩ | ⟨-, -, rfl⟩ | ⟨-, -, rfl⟩
    · exact ⟨'a', none, by simp [branchOps]⟩
    · exact ⟨'a', none, by simp [branchOps]⟩
    · exact ⟨'c', some 1, by simp [branchOps]⟩
  increasing id h := by
    obtain ⟨el, a, h⟩ := h
    simp only [branchOps, Set.mem_insert_iff, Set.mem_singleton_iff, SeqOp.ins.injEq] at h
    rcases h with ⟨rfl, -⟩ | ⟨rfl, -⟩ | ⟨rfl, -⟩ | ⟨rfl, -⟩ | ⟨rfl, -⟩ <;> decide

theorem honestState_branch :
    HonestState (embedRGA Char) (fun op => op) branchOps branchArrived branchState := by
  have hone : HonestState (embedRGA Char) (fun op => op) branchOps (insert (.ins 1 'a' none) ∅)
      (SortedMap.ofList [(1, { coord := dEnc 1, el := 'a' })]) :=
    .apply .init (by simp [branchOps]) (by simp [Applicable, inserted]) rfl
  have htwo : HonestState (embedRGA Char) (fun op => op) branchOps
      (insert (.ins 2 'b' none) (insert (.ins 1 'a' none) ∅))
      (SortedMap.ofList [(1, { coord := dEnc 1, el := 'a' }),
        (2, { coord := dEnc 2, el := 'b' })]) :=
    hone.apply (by simp [branchOps]) (by simp [Applicable, inserted]) rfl
  rw [insert_empty_eq] at htwo
  exact htwo.apply (show SeqOp.ins 5 'c' (some 1) ∈ branchOps by simp [branchOps])
    (by simp [Applicable, inserted, live, deleted]) rfl

theorem inserted_branchArrived {id : ℕ} :
    id ∈ inserted branchArrived ↔ id = 1 ∨ id = 2 ∨ id = 5 := by
  simp only [inserted, branchArrived, Set.mem_ofPred_eq, Set.mem_insert_iff, Set.mem_singleton_iff,
    SeqOp.ins.injEq]
  constructor
  · rintro ⟨el, a, h⟩
    omega
  · rintro (rfl | rfl | rfl)
    · exact ⟨'a', none, by simp⟩
    · exact ⟨'b', none, by simp⟩
    · exact ⟨'c', some 1, by simp⟩

theorem inserted_branchOps {id : ℕ} :
    id ∈ inserted branchOps ↔ id = 1 ∨ id = 2 ∨ id = 5 ∨ id = 3 ∨ id = 6 := by
  simp only [inserted, branchOps, Set.mem_ofPred_eq, Set.mem_insert_iff, Set.mem_singleton_iff,
    SeqOp.ins.injEq]
  constructor
  · rintro ⟨el, a, h⟩
    omega
  · rintro (rfl | rfl | rfl | rfl | rfl)
    · exact ⟨'a', none, by simp⟩
    · exact ⟨'b', none, by simp⟩
    · exact ⟨'c', some 1, by simp⟩
    · exact ⟨'d', some 1, by simp⟩
    · exact ⟨'e', some 5, by simp⟩

/-- The cut may settle the second insertion, with the first or without it. -/
theorem declares_branch {settled : List ℕ} (h : ∀ id ∈ settled, id = 1 ∨ id = 2) :
    Declares branchChain branchOps branchArrived branchState (branchCut settled) where
  delivered id hid := inserted_branchArrived.mpr ((h id hid).imp_right Or.inl)
  deletes id _ hdel := by simp [deleted, branchOps] at hdel
  closed id el a hmem hid := by
    have hid := h id hid
    simp only [branchOps, Set.mem_insert_iff, Set.mem_singleton_iff, SeqOp.ins.injEq, reduceCtorEq,
      and_false, false_or] at hmem
    omega
  inflight c hc := by
    obtain rfl := List.mem_singleton.mp hc
    refine ⟨3, inserted_branchOps.mpr (by simp), ?_, rfl⟩
    rw [inserted_branchArrived]
    omega
  frozen c hc := by
    obtain rfl := List.mem_singleton.mp hc
    exact ⟨some 5, rfl⟩

theorem declared_branch (settled : List ℕ) {id : ℕ} (hid : id ∈ [3, 6]) :
    id ∈ inserted branchOps ∧ id ∉ inserted branchArrived ∧
      Declared branchChain branchOps branchState (branchCut settled) id := by
  rw [inserted_branchOps, inserted_branchArrived]
  simp only [List.mem_cons, List.not_mem_nil, or_false] at hid
  rcases hid with rfl | rfl
  · refine ⟨by omega, by omega, Or.inl ?_⟩
    exact List.mem_singleton.mpr rfl
  · refine ⟨by omega, by omega, Or.inr ⟨'e', some 5, [1, 4].flatMap dEnc, by simp [branchOps], ?_⟩⟩
    exact ⟨rfl, List.mem_singleton_self _⟩

end EmbedRGA

end SalRuntime
