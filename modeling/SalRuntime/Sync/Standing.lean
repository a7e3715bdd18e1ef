import Mathlib.Data.List.Permutation
import SalRuntime.Datatypes.Meanings
import SalRuntime.Sync.Held

/-!
# What the states of a peer stand for

The operations of a content id are those of its ancestry in the common history. The states that a peer
recomputes stand for these operations, whoever sent the commits, as long as operations were applicable
where they were made and the merges had one base.

## Main definitions

* `ContentHash.Valid` — an operation was applicable where it was made, and a merge has one base.
* `KnownIds` — the content ids that all peers together hold.
* `Peer.Stands` — the states of a peer stand for the operations in the ancestry of their commits.

## Main results

* `KnownIds.insert_op`, `KnownIds.insert_merge` — a new operation, and a new merge, become known.
* `Peer.Stands.filed_op`, `Peer.Stands.filed_merge` — a peer that files a known operation or merge
  recomputes a state that stands for it.
-/

namespace SalRuntime

variable {D : Datatype} {γ κ ι : Type} [LinearOrder γ]

/-- The content id of an operation on a parent. -/
abbrev ContentHash.opGid {ω φ γ : Type} (H : ContentHash ω φ γ) (pg : γ) (replica : String) (seq : ℕ)
    (op : ω) : γ := H.digest (.authored [pg] replica seq (.one op))

namespace ContentHash

variable (H : ContentHash D.Op D.Print γ)

omit [LinearOrder γ] in
theorem pastOf_root : H.pastOf (H.digest .root) = ∅ := by
  rw [pastOf, past_eq, made_root, Set.empty_union]
  ext o
  simp [par_digest_iff, Preimage.parents]

omit [LinearOrder γ] in
theorem pastOf_opGid (pg : γ) (replica : String) (seq : ℕ) (op : D.Op) :
    H.pastOf (H.opGid pg replica seq op) = insert op (H.pastOf pg) := by
  rw [pastOf, past_eq, made_authored]
  ext o
  simp [par_digest_iff, Preimage.parents]

theorem pastOf_mergeId (x y : γ) :
    H.pastOf (mergeId H x y) = H.pastOf x ∪ H.pastOf y := by
  have hmade : H.made (mergeId H x y) = ∅ := H.made_merge _
  rw [pastOf, past_eq, hmade, Set.empty_union]
  ext o
  simp only [par_mergeId_iff, Set.mem_ofPred_eq, Set.mem_union]
  constructor
  · rintro ⟨p, rfl | rfl, ho⟩
    · exact Or.inl ho
    · exact Or.inr ho
  · rintro (ho | ho)
    · exact ⟨x, Or.inl rfl, ho⟩
    · exact ⟨y, Or.inr rfl, ho⟩

/-- An operation was applicable to what its author had seen, and the parents of a merge have only one
maximal common ancestor. -/
structure Valid (M : D.replicated.Meaning κ ι) (g : γ) : Prop where
  /-- The operation was applicable. -/
  applicable : ∀ pg replica seq op, H.opGid pg replica seq op = g → M.Applicable (H.pastOf pg) op
  /-- The merge has one base. -/
  base : ∀ x y, mergeId H x y = g → ∃ l, OnlyMca H.Par x y l

end ContentHash

variable {H : ContentHash D.Op D.Print γ} {M : D.replicated.Meaning κ ι}

/-- The content ids `K` that all peers together hold, in the context `c`. -/
structure KnownIds (H : ContentHash D.Op D.Print γ) (M : D.replicated.Meaning κ ι) (c : κ) (K : Set γ) :
    Prop where
  /-- The context fits the operations. -/
  fits : M.Fits c (carried H.made K)
  /-- Every id is created once. -/
  once : ∀ g ∈ K, ∀ g' ∈ K, ∀ o ∈ H.made g, ∀ o' ∈ H.made g', ∀ i ∈ M.creates o, i ∈ M.creates o' →
    g = g'
  /-- Operations were applicable, and merges have one base. -/
  valid : ∀ g ∈ K, H.Valid M g
  /-- The ancestry of a known content id is known. -/
  closed : ∀ g ∈ K, ∀ k, H.Par g k → k ∈ K

/-- The states of a peer stand for the operations in the ancestry of their commits. -/
structure Peer.Stands (H : ContentHash D.Op D.Print γ) (M : D.replicated.Meaning κ ι) (c : κ)
    (K : Set γ) (p : Peer D γ) : Prop where
  /-- The store is indexed. -/
  indexed : Indexed H p
  /-- What is held is known. -/
  known : p.held ⊆ K
  /-- A state stands for the operations in the ancestry of its commit. -/
  rep : ∀ x cm g, p.dag.commits.get? x = some cm → p.gid.get? x = some g →
    M.Rep c (H.pastOf g) cm.state

namespace KnownIds

variable {c : κ} {K : Set γ}

theorem mem_of_reaches (h : KnownIds H M c K) {g k : γ} (hg : g ∈ K) (hr : H.Reaches g k) : k ∈ K := by
  induction hr with
  | refl => exact hg
  | tail _ hpar ih => exact h.closed _ ih _ hpar

/-- What a known content id has in its ancestry is known. -/
theorem pastOf_subset (h : KnownIds H M c K) {g : γ} (hg : g ∈ K) :
    H.pastOf g ⊆ carried H.made K := by
  rintro o ⟨k, hr, ho⟩
  exact ⟨k, h.mem_of_reaches hg hr, ho⟩

omit [LinearOrder γ] in
theorem carried_insert (g : γ) : carried H.made (insert g K) = H.made g ∪ carried H.made K := by
  ext o
  simp [carried]

/-- At the start the root is known. -/
theorem start : ∃ c, KnownIds H M c {H.digest .root} := by
  obtain ⟨c, hc⟩ := M.start
  have hempty : carried H.made {H.digest .root} = ∅ := by
    ext o
    simp [carried, ContentHash.made_root]
  refine ⟨c, hempty ▸ hc, ?_, ?_, ?_⟩
  · rintro g rfl g' rfl _ _ _ _ _ _ _
    rfl
  · rintro g rfl
    refine ⟨fun pg replica seq op heq => ?_, fun x y heq => ?_⟩
    · cases H.injective heq
    · cases H.injective heq
  · rintro g rfl k hpar
    simp [ContentHash.par_digest_iff, Preimage.parents] at hpar

/-- **A new operation becomes known.** -/
theorem insert_op (h : KnownIds H M c K) {pg : γ} (hpg : pg ∈ K) (replica : String) (seq : ℕ) {op : D.Op}
    (happ : M.Applicable (H.pastOf pg) op)
    (hfresh : ∀ i ∈ M.creates op, ∀ o ∈ carried H.made K, i ∉ M.creates o) :
    ∃ c', KnownIds H M c' (insert (H.opGid pg replica seq op) K) ∧
      ∀ {A s}, A ⊆ carried H.made K → M.Rep c A s → M.Rep c' A s := by
  obtain ⟨c', hfits, hkeep⟩ := M.extend h.fits (h.pastOf_subset hpg) happ hfresh
  have hmade := H.made_authored [pg] replica seq op
  refine ⟨c', ⟨?_, ?_, ?_, ?_⟩, hkeep⟩
  · rw [carried_insert, hmade]
    exact hfits
  · -- The new operation shares no id with a known one, itself excepted.
    rintro g (rfl | hg) g' (rfl | hg') o ho o' ho' i hi hi'
    · rfl
    · rw [hmade] at ho
      exact absurd hi' (hfresh i (ho ▸ hi) o' ⟨g', hg', ho'⟩)
    · rw [hmade] at ho'
      exact absurd hi (hfresh i (ho' ▸ hi') o ⟨g, hg, ho⟩)
    · exact h.once g hg g' hg' o ho o' ho' i hi hi'
  · rintro g (rfl | hg)
    · refine ⟨fun pg' replica' seq' op' heq => ?_, fun x y heq => ?_⟩
      · injection H.injective heq with hpar _ _ hop
        injection hop with hop
        rw [List.singleton_inj] at hpar
        rw [hpar, hop]
        exact happ
      · cases H.injective heq
    · exact h.valid g hg
  · rintro g (rfl | hg) k hpar
    · rw [ContentHash.par_digest_iff, Preimage.parents, List.mem_singleton] at hpar
      exact Or.inr (hpar ▸ hpg)
    · exact Or.inr (h.closed g hg k hpar)

/-- **A new merge becomes known.** -/
theorem insert_merge (h : KnownIds H M c K) {x y l : γ} (hx : x ∈ K) (hy : y ∈ K)
    (hl : OnlyMca H.Par x y l) : KnownIds H M c (insert (mergeId H x y) K) := by
  have hmade : H.made (mergeId H x y) = ∅ := H.made_merge _
  refine ⟨?_, ?_, ?_, ?_⟩
  · rw [carried_insert, hmade, Set.empty_union]
    exact h.fits
  · rintro g (rfl | hg) g' (rfl | hg') o ho o' ho' i hi hi'
    · rfl
    · rw [hmade] at ho
      exact ho.elim
    · rw [hmade] at ho'
      exact ho'.elim
    · exact h.once g hg g' hg' o ho o' ho' i hi hi'
  · rintro g (rfl | hg)
    · refine ⟨fun pg replica seq op heq => ?_, fun x' y' heq => ?_⟩
      · cases H.injective heq
      · -- A merge determines its parents up to their order.
        injection H.injective heq with hsort
        have hperm : [x', y'].Perm [x, y] := ((List.perm_insertionSort (· ≤ ·) _).symm.trans
          (List.Perm.of_eq hsort)).trans (List.perm_insertionSort (· ≤ ·) _)
        rcases List.perm_pair.mp hperm with heq | heq
        · cases heq
          exact ⟨l, hl⟩
        · cases heq
          exact ⟨l, hl.symm⟩
    · exact h.valid g hg
  · rintro g (rfl | hg) k hpar
    · rcases H.par_mergeId_iff.mp hpar with rfl | rfl
      · exact Or.inr hx
      · exact Or.inr hy
    · exact Or.inr (h.closed g hg k hpar)

end KnownIds

namespace Peer.Stands

variable {c : κ} {K : Set γ} {p : Peer D γ}

/-- What is known may grow. -/
theorem mono (h : Stands H M c K p) (hK : KnownIds H M c K) {c' : κ} {K' : Set γ} (hsub : K ⊆ K')
    (hkeep : ∀ {A s}, A ⊆ carried H.made K → M.Rep c A s → M.Rep c' A s) : Stands H M c' K' p :=
  ⟨h.indexed, h.known.trans hsub, fun x cm g hcm hg =>
    hkeep (hK.pastOf_subset (h.known ⟨x, hg⟩)) (h.rep x cm g hcm hg)⟩

/-- What is not part of the store does not matter. -/
theorem congr (h : Stands H M c K p) {p' : Peer D γ} (hdag : p'.dag = p.dag) (hgid : p'.gid = p.gid)
    (hbyGid : p'.byGid = p.byGid) (hhead : p.dag.has p'.headId = true) : Stands H M c K p' where
  indexed := h.indexed.congr hdag hgid hbyGid hhead
  known := by
    rw [held, hgid]
    exact h.known
  rep := by
    rw [hdag, hgid]
    exact h.rep

/-- A commit of the store, with its content id. -/
theorem exists_commit (h : Stands H M c K p) {x : ℕ} {g : γ} (hg : p.gid.get? x = some g) :
    ∃ cm, p.dag.commits.get? x = some cm ∧ M.Rep c (H.pastOf g) cm.state := by
  obtain ⟨cm, hcm⟩ := Dag.has_iff.mp (h.indexed.stored x g hg)
  exact ⟨cm, hcm, h.rep x cm g hcm hg⟩

/-- A filed commit whose state stands for its operations. -/
theorem filed (h : Stands H M c K p) {parents : List ℕ} {op : Option (Op (Payload D.Op))}
    {state : D.State} {pre : Preimage D.Op D.Print γ} (hp : ∀ q ∈ parents, p.dag.has q = true)
    (hpre : p.Hashes { id := p.dag.nextId, parents, op, state } pre) (hK : H.digest pre ∈ K)
    (hnew : H.digest pre ∉ p.held) (hrep : M.Rep c (H.pastOf (H.digest pre)) state) :
    Stands H M c K (p.filed parents op state (H.digest pre)) where
  indexed := h.indexed.filed hp hpre hnew
  known := by
    rw [h.indexed.held_filed]
    exact Set.insert_subset hK h.known
  rep x cm g hcm hg := by
    rw [get?_filed] at hcm
    rw [get?_gid_filed] at hg
    split_ifs at hcm hg with hx
    · cases hcm
      cases hg
      exact hrep
    · exact h.rep x cm g hcm hg

/-- **An operation that is known** is applied, and the state stands for it. -/
theorem filed_op (h : Stands H M c K p) (hK : KnownIds H M c K) {q : ℕ} {pg : γ}
    (hpg : p.gid.get? q = some pg) {replica : String} {seq : ℕ} {op : D.Op}
    (hg : H.opGid pg replica seq op ∈ K) (hnew : H.opGid pg replica seq op ∉ p.held) :
    ∃ parent state, p.dag.get q = .ok parent ∧ D.apply parent.state op = .ok state ∧
      p.Hashes { id := p.dag.nextId, parents := [q], op := some ⟨replica, seq, .one op⟩, state }
        (.authored [pg] replica seq (.one op)) ∧
      Stands H M c K (p.filed [q] (some ⟨replica, seq, .one op⟩) state
        (H.opGid pg replica seq op)) := by
  obtain ⟨parent, hparent, hrep⟩ := h.exists_commit hpg
  have happ := (hK.valid _ hg).applicable pg replica seq op rfl
  have hmem : op ∈ carried H.made K := ⟨_, hg, H.made_authored [pg] replica seq op ▸ rfl⟩
  obtain ⟨state, hstate, hrep'⟩ := M.apply hK.fits (hK.pastOf_subset (h.known ⟨q, hpg⟩)) hmem happ
    hrep
  have hpre : p.Hashes
      { id := p.dag.nextId, parents := [q], op := some ⟨replica, seq, .one op⟩, state }
      (.authored [pg] replica seq (.one op)) := .authored rfl hpg rfl
  refine ⟨parent, state, Dag.get_eq_ok.mpr hparent, hstate, hpre, ?_⟩
  refine h.filed (by simpa using h.indexed.stored q pg hpg) hpre hg hnew ?_
  rw [ContentHash.pastOf_opGid]
  exact hrep'

/-- The operations of the store create every id once. -/
theorem unique (h : Stands H M c K p) (hK : KnownIds H M c K) : M.Unique p.opsAt := by
  have hgid {x : ℕ} {o : D.Op} (ho : o ∈ p.opsAt x) : ∃ g, p.gid.get? x = some g ∧ o ∈ H.made g := by
    obtain ⟨replica, seq, hop⟩ := ho
    obtain ⟨cm, hcm, -⟩ := Dag.opOf_eq_some_iff.mp hop
    obtain ⟨g, hg⟩ := h.indexed.exists_gid (Dag.has_iff.mpr ⟨cm, hcm⟩)
    exact ⟨g, hg, h.indexed.opsAt_eq hg ▸ ⟨replica, seq, hop⟩⟩
  intro x y o ho o' ho' i hi hi'
  obtain ⟨g, hg, hog⟩ := hgid ho
  obtain ⟨g', hg', hog'⟩ := hgid ho'
  obtain rfl := hK.once g (h.known ⟨x, hg⟩) g' (h.known ⟨y, hg'⟩) o hog o' hog' i hi hi'
  exact h.indexed.gid_injective hg hg'

/-- **A merge of two held commits** with one base: the gate finds it, and the merged state stands for
the union. -/
theorem merge (h : Stands H M c K p) (hK : KnownIds H M c K) {a b : ℕ} {x y : γ}
    (ha : p.gid.get? a = some x) (hb : p.gid.get? b = some y) {l : γ} (hl : OnlyMca H.Par x y l) :
    ∃ lId base aC bC state, p.dag.lca a b = .ok lId ∧ p.dag.get lId = .ok base ∧
      p.dag.get a = .ok aC ∧ p.dag.get b = .ok bC ∧
      D.merge3 base.state aC.state bC.state = .ok state ∧
      M.Rep c (H.pastOf (mergeId H x y)) state := by
  obtain ⟨lId, hlId⟩ := (h.indexed.labelled.exists_onlyMca_iff ha hb).mpr ⟨l, hl⟩
  obtain ⟨lg, hlg⟩ := h.indexed.labelled.exists_label_of_common ha ((hlId lId).mpr rfl).common
  obtain ⟨base, hbase, hrepl⟩ := h.exists_commit hlg
  obtain ⟨aC, haC, hrepa⟩ := h.exists_commit ha
  obtain ⟨bC, hbC, hrepb⟩ := h.exists_commit hb
  rw [← h.indexed.past_eq hlg] at hrepl
  rw [← h.indexed.past_eq ha] at hrepa
  rw [← h.indexed.past_eq hb] at hrepb
  have hops (v : ℕ) : p.opsAt v ⊆ carried H.made K := by
    rintro o ⟨replica, seq, hop⟩
    obtain ⟨cm, hcm, -⟩ := Dag.opOf_eq_some_iff.mp hop
    obtain ⟨g, hg⟩ := h.indexed.exists_gid (Dag.has_iff.mpr ⟨cm, hcm⟩)
    exact ⟨g, h.known ⟨v, hg⟩, h.indexed.opsAt_eq hg ▸ ⟨replica, seq, hop⟩⟩
  obtain ⟨state, hstate, hrep⟩ := M.merge_past (h.unique hK) hK.fits hops h.indexed.wf.par_lt hlId
    hrepl hrepa hrepb
  rw [h.indexed.past_eq ha, h.indexed.past_eq hb, ← ContentHash.pastOf_mergeId] at hrep
  have hlca := (Dag.lca_eq_ok_iff (h.indexed.stored a x ha) (h.indexed.stored b y hb)
    h.indexed.wf).mpr hlId
  exact ⟨lId, base, aC, bC, state, hlca, Dag.get_eq_ok.mpr hbase, Dag.get_eq_ok.mpr haC,
    Dag.get_eq_ok.mpr hbC, hstate, hrep⟩

/-- **A merge that is known** is recomputed, and the state stands for it. -/
theorem filed_merge (h : Stands H M c K p) {a b : ℕ} {x y : γ} (ha : p.gid.get? a = some x)
    (hb : p.gid.get? b = some y) {state : D.State} (hg : mergeId H x y ∈ K)
    (hnew : mergeId H x y ∉ p.held) (hrep : M.Rep c (H.pastOf (mergeId H x y)) state) :
    p.Hashes { id := p.dag.nextId, parents := [a, b], op := none, state }
        (.merge ([x, y].insertionSort (· ≤ ·))) ∧
      Stands H M c K (p.filed [a, b] none state (mergeId H x y)) := by
  have hpre : p.Hashes { id := p.dag.nextId, parents := [a, b], op := none, state }
      (.merge ([x, y].insertionSort (· ≤ ·))) := .merge rfl ha hb rfl
  exact ⟨hpre, h.filed (by simpa using ⟨h.indexed.stored a x ha, h.indexed.stored b y hb⟩) hpre hg
    hnew hrep⟩

end Peer.Stands

end SalRuntime
