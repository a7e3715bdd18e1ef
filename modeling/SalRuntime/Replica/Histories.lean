import SalRuntime.Datatypes.Meanings
import SalRuntime.Foundations.HonestHistory
import SalRuntime.Foundations.LabelledHistory
import SalRuntime.Replica.Indexed
import SalRuntime.Replica.MergeBases

/-!
# What the states of a replica stand for

The replicas of a network hold copies of parts of one history of content ids. If the history is honest,
then the state of a commit stands for the operations in its ancestry, at every replica that holds it. A
replica may hold several merges under one content id, but it holds every operation once.

Compactions are left out: all commits are coded in the first epoch.

## Main definitions

* `ContentHash.opsOf`, `ContentHash.opsBelow` — the operations of a content id, and those in its
  ancestry.
* `ContentHash.joinId` — the content id of the join of two commits.
* `Replica.opsAt`, `Replica.events` — the operations of a commit, and those that the head has seen.
* `Datatype.Regular` — batches and audits of a datatype fit the meaning of its states.
* `KnownHistory` — an honest history of content ids, without compactions.
* `Replica.Stands` — the states of a replica stand for the operations in the ancestry of their commits.

## Main results

* `Replica.Indexed.opsUnder_eq` — the operations in the ancestry of a commit are those of its content id.
* `KnownHistory.insert_authored`, `KnownHistory.insert_merge` — new operations, and a new merge, become
  known.
* `KnownHistory.exists_applyOps` — known operations are applicable where they were made.
* `Replica.Stands.unique` — every id is created by one stored commit.
-/

namespace SalRuntime

open Ancestry Replicated

variable {D : Datatype} {γ : Type}

namespace ContentHash

variable {ω φ : Type} (H : ContentHash ω φ γ)

open Classical in
/-- What a content id hashes. -/
noncomputable def preimage (g : γ) : Option (Preimage ω φ γ) :=
  if h : ∃ pre, H.digest pre = g then some h.choose else none

theorem preimage_digest (pre : Preimage ω φ γ) : H.preimage (H.digest pre) = some pre := by
  have hex : ∃ pre', H.digest pre' = H.digest pre := ⟨pre, rfl⟩
  rw [preimage, dif_pos hex, H.injective hex.choose_spec]

/-- The operations of a content id. -/
noncomputable def opsOf (g : γ) : List ω := ((H.preimage g).map Preimage.ops).getD []

@[simp] theorem opsOf_digest (pre : Preimage ω φ γ) : H.opsOf (H.digest pre) = pre.ops := by
  rw [opsOf, preimage_digest]
  rfl

/-- The operations in the ancestry of a content id. -/
noncomputable abbrev opsBelow (g : γ) : Set ω := past H.Par (opSet H.opsOf) g

theorem opsBelow_root : H.opsBelow (H.digest .root) = ∅ := by
  rw [opsBelow, past_eq]
  ext o
  simp [par_digest_iff, Preimage.parents, Preimage.ops]

theorem opsBelow_authored (pg : γ) (replica : String) (seq : ℕ) (payload : Payload ω) :
    H.opsBelow (H.digest (.authored [pg] replica seq payload)) =
      H.opsBelow pg ∪ {o | o ∈ payload.ops} := by
  rw [opsBelow, past_eq]
  ext o
  simp only [opsOf_digest, Preimage.ops, par_digest_iff, Preimage.parents, List.mem_singleton,
    Set.mem_union, Set.mem_ofPred_eq, exists_eq_left]
  exact or_comm

end ContentHash

variable [LinearOrder γ] {κ ι : Type}

/-! ### Merges of content ids -/

namespace ContentHash

section

variable (H : ContentHash D.Op D.Print γ)

theorem par_mergeId_iff {x y p : γ} : H.Par (mergeId H x y) p ↔ p = x ∨ p = y := by
  rw [mergeId, par_digest_iff, Preimage.parents, (List.perm_insertionSort (· ≤ ·) [x, y]).mem_iff,
    List.mem_pair]

open Classical in
/-- The content id of the join of two commits. -/
noncomputable def joinId (x y : γ) : γ :=
  if H.Reaches x y then x else if H.Reaches y x then y else mergeId H x y

end

variable {H : ContentHash D.Op D.Print γ}

theorem joinId_of_reaches {x y : γ} (h : H.Reaches x y) : H.joinId x y = x := if_pos h

theorem mergeId_comm (x y : γ) : mergeId H x y = mergeId H y x := by
  have hperm : [x, y].Perm [y, x] := List.Perm.swap y x []
  have hsort : [x, y].insertionSort (· ≤ ·) = [y, x].insertionSort (· ≤ ·) :=
    List.Perm.eq_of_pairwise' (List.pairwise_insertionSort (· ≤ ·) _)
      (List.pairwise_insertionSort (· ≤ ·) _)
      (((List.perm_insertionSort _ _).trans hperm).trans (List.perm_insertionSort _ _).symm)
  rw [mergeId, mergeId, hsort]

theorem joinId_comm {x y : γ} (hanti : H.Reaches x y → H.Reaches y x → x = y) :
    H.joinId x y = H.joinId y x := by
  simp only [joinId]
  split_ifs with hxy hyx hyx
  · exact hanti hxy hyx
  · rfl
  · rfl
  · exact mergeId_comm x y

theorem opsOf_mergeId (x y : γ) : H.opsOf (mergeId H x y) = [] := by simp [mergeId, Preimage.ops]

theorem opsBelow_mergeId (x y : γ) :
    H.opsBelow (mergeId H x y) = H.opsBelow x ∪ H.opsBelow y := by
  rw [opsBelow, past_eq]
  ext o
  simp only [opsOf_mergeId, List.not_mem_nil, par_mergeId_iff, Set.mem_union, Set.mem_ofPred_eq,
    false_or]
  constructor
  · rintro ⟨p, rfl | rfl, ho⟩
    · exact Or.inl ho
    · exact Or.inr ho
  · rintro (ho | ho)
    · exact ⟨x, Or.inl rfl, ho⟩
    · exact ⟨y, Or.inr rfl, ho⟩

/-- `z` joins `x` and `y`: it is one that reaches the other, or their merge. -/
def IsJoin (H : ContentHash D.Op D.Print γ) (x y z : γ) : Prop :=
  z = x ∧ H.Reaches x y ∨ z = y ∧ H.Reaches y x ∨ z = mergeId H x y

/-- **A join** reaches both sides. -/
theorem IsJoin.reaches {x y z : γ} (h : H.IsJoin x y z) : H.Reaches z x ∧ H.Reaches z y := by
  obtain ⟨rfl, hxy⟩ | ⟨rfl, hyx⟩ | rfl := h
  · exact ⟨.refl, hxy⟩
  · exact ⟨hyx, .refl⟩
  · exact ⟨.single (H.par_mergeId_iff.mpr (Or.inl rfl)), .single (H.par_mergeId_iff.mpr (Or.inr rfl))⟩

/-- **A join** has the operations of both sides. -/
theorem IsJoin.opsBelow_eq {x y z : γ} (h : H.IsJoin x y z) :
    H.opsBelow z = H.opsBelow x ∪ H.opsBelow y := by
  obtain ⟨rfl, hxy⟩ | ⟨rfl, hyx⟩ | rfl := h
  · exact (Set.union_eq_self_of_subset_right (past_subset_of_reaches hxy)).symm
  · exact (Set.union_eq_self_of_subset_left (past_subset_of_reaches hyx)).symm
  · exact opsBelow_mergeId x y

theorem isJoin_joinId (x y : γ) : H.IsJoin x y (H.joinId x y) := by
  rw [joinId]
  split_ifs with hxy hyx
  · exact Or.inl ⟨rfl, hxy⟩
  · exact Or.inr (Or.inl ⟨rfl, hyx⟩)
  · exact Or.inr (Or.inr rfl)

/-- The join reaches both sides. -/
theorem reaches_joinId (x y : γ) : H.Reaches (H.joinId x y) x ∧ H.Reaches (H.joinId x y) y :=
  (isJoin_joinId x y).reaches

/-- A content id of the root, of an operation commit or of a merge. -/
def Plain (H : ContentHash D.Op D.Print γ) (g : γ) : Prop :=
  g = H.digest .root ∨
    (∃ pg replica seq payload, g = H.digest (.authored [pg] replica seq payload)) ∨
    ∃ x y, g = mergeId H x y

end ContentHash

/-! ### Copies of the history -/

namespace Replica

/-- The operations of a commit. -/
def opsAt (r : Replica D γ) (x : ℕ) : List D.Op :=
  match r.dag.opOf x with
  | some op => op.payload.ops
  | none => []

/-- The operations in the ancestry of a commit. -/
def opsUnder (r : Replica D γ) (x : ℕ) : Set D.Op := past r.dag.Par (opSet r.opsAt) x

/-- The operations that the head has seen. -/
def events (r : Replica D γ) : Set D.Op := r.opsUnder r.headId

variable {H : ContentHash D.Op D.Print γ} {r : Replica D γ}

namespace Indexed

variable (h : Indexed H r)

include h

/-- The store is a copy of a part of the history of content ids. -/
theorem copyOf : CopyOf r.dag.Par H.Par r.gid.get? where
  forth hp := h.par_gid hp
  back hx hpar := h.exists_par hx hpar

theorem opsAt_eq {x : ℕ} {g : γ} (hg : r.gid.get? x = some g) : r.opsAt x = H.opsOf g := by
  obtain ⟨c, hc⟩ := Dag.has_iff.mp (h.stored x g hg)
  obtain ⟨pre, hpre, hg'⟩ := h.content x c hc
  rw [hg, Option.some.injEq] at hg'
  rw [opsAt, Dag.opOf, hc, hg', ContentHash.opsOf_digest]
  cases hpre with
  | root hp hop => simp only [Option.bind_some, hop, Preimage.ops]
  | authored hp hpg hop => simp only [Option.bind_some, hop, Preimage.ops]
  | compact hp hpg hop => simp only [Option.bind_some, hop, Preimage.ops]
  | merge hp hx hy hop => simp only [Option.bind_some, hop, Preimage.ops]

/-- **The operations in the ancestry of a commit** are those of its content id. -/
theorem opsUnder_eq {x : ℕ} {g : γ} (hg : r.gid.get? x = some g) : r.opsUnder x = H.opsBelow g := by
  have hops {y : ℕ} {k : γ} (hk : r.gid.get? y = some k) : opSet r.opsAt y = opSet H.opsOf k := by
    rw [opSet, h.opsAt_eq hk]
  exact h.copyOf.past_eq hops hg

theorem events_eq : r.events = H.opsBelow r.headGid := h.opsUnder_eq h.gid_head

end Indexed

end Replica

/-! ### Meanings -/

/-- The hooks of a datatype fit the meaning of its states: a batch is applied operation by operation,
and the audit passes what a merge over the operations of common ancestors returns. -/
structure Datatype.Regular (D : Datatype) (M : D.replicated.Meaning κ ι) : Prop where
  /-- Batches. -/
  batch : ∀ {c U E ops s}, M.Fits c U → E ⊆ U → (∀ o ∈ ops, o ∈ U) → M.Admits E ops → M.Rep c E s →
    Replica.applyOps D s (.many ops) = ops.foldlM D.apply s
  /-- Audits. -/
  audit : ∀ {c U L A B l a b m}, M.Fits c U → A ⊆ U → B ⊆ U → L ⊆ A ∩ B → M.Rep c L l →
    M.Rep c A a → M.Rep c B b → M.Rep c (A ∪ B) m → D.merge3 l a b = .ok m →
    Replica.mergeInFrame D l a b = .ok m

/-- Datatypes without an audit, whose batches apply their operations one after the other. -/
theorem Datatype.regular_of_foldlM {M : D.replicated.Meaning κ ι}
    (hbatch : ∀ {c E s} (ops : List D.Op), M.Rep c E s →
      Replica.applyOps D s (.many ops) = ops.foldlM D.apply s)
    (haudit : D.auditMergeCoverage = none) : D.Regular M where
  batch _ _ _ _ hs := hbatch _ hs
  audit _ _ _ _ _ _ _ _ hm := by
    rw [Replica.mergeInFrame, hm]
    simp only [haudit]
    rfl

variable {H : ContentHash D.Op D.Print γ} {M : D.replicated.Meaning κ ι}

/-- **The content ids that all replicas together know**: an honest history without compactions. -/
structure KnownHistory (H : ContentHash D.Op D.Print γ) (M : D.replicated.Meaning κ ι) (c : κ)
    (K : Set γ) : Prop where
  /-- The history is honest. -/
  history : M.History c H.Par H.opsOf K
  /-- There are no compactions. -/
  plain : ∀ g ∈ K, H.Plain g

namespace KnownHistory

variable {c : κ} {K : Set γ}

/-- At the start the root is known. -/
theorem start : ∃ c, KnownHistory H M c {H.digest .root} := by
  have hops : H.opsOf (H.digest .root) = [] := by simp [Preimage.ops]
  have hpar : ∀ p, ¬ H.Par (H.digest .root) p := by
    simp [ContentHash.par_digest_iff, Preimage.parents]
  obtain ⟨c, hc⟩ := Meaning.History.start (M := M) hops hpar
  exact ⟨c, hc, fun g hg => Or.inl hg⟩

/-- What a known content id has in its ancestry is known. -/
theorem opsBelow_subset (h : KnownHistory H M c K) {g : γ} (hg : g ∈ K) :
    H.opsBelow g ⊆ carried (opSet H.opsOf) K := h.history.past_subset hg

/-- **New operations become known.** -/
theorem insert_authored (h : KnownHistory H M c K) {pg : γ} (hpg : pg ∈ K) (replica : String)
    (seq : ℕ) {payload : Payload D.Op} (hadm : M.Admits (H.opsBelow pg) payload.ops)
    (hfresh : M.Fresh (carried (opSet H.opsOf) K) payload.ops) :
    ∃ c', KnownHistory H M c' (insert (H.digest (.authored [pg] replica seq payload)) K) ∧
      ∀ {A s}, A ⊆ carried (opSet H.opsOf) K → M.Rep c A s → M.Rep c' A s := by
  set g := H.digest (.authored [pg] replica seq payload)
  have hpar {p : γ} : H.Par g p ↔ p = pg := by
    rw [ContentHash.par_digest_iff, Preimage.parents, List.mem_singleton]
  have hops : H.opsOf g = payload.ops := H.opsOf_digest _
  obtain ⟨c', hc', hkeep⟩ := h.history.insert (v := g) (fun p hp => hpar.mp hp ▸ hpg)
    (hpar.mpr rfl) (fun p hp => by rwa [hpar.mp hp, hops]) (by rwa [hops])
  refine ⟨c', ⟨hc', ?_⟩, hkeep⟩
  rintro k (rfl | hk)
  · exact Or.inr (Or.inl ⟨pg, replica, seq, payload, rfl⟩)
  · exact h.plain k hk

/-- **A new merge becomes known.** -/
theorem insert_merge (h : KnownHistory H M c K) {x y : γ} (hx : x ∈ K) (hy : y ∈ K) :
    KnownHistory H M c (insert (mergeId H x y) K) := by
  refine ⟨h.history.insert_join (fun p hp => ?_) (ContentHash.opsOf_mergeId x y), ?_⟩
  · rcases H.par_mergeId_iff.mp hp with rfl | rfl
    · exact hx
    · exact hy
  · rintro k (rfl | hk)
    · exact Or.inr (Or.inr ⟨x, y, rfl⟩)
    · exact h.plain k hk

/-- **A known payload** is applied to the state of its parent, and the state stands for it. -/
theorem exists_applyOps (h : KnownHistory H M c K) (hD : D.Regular M) {pg : γ} {replica : String}
    {seq : ℕ} {payload : Payload D.Op} (hg : H.digest (.authored [pg] replica seq payload) ∈ K)
    {s : D.State} (hs : M.Rep c (H.opsBelow pg) s) :
    ∃ t, payload.ops.foldlM D.apply s = .ok t ∧ Replica.applyOps D s payload = .ok t ∧
      M.Rep c (H.opsBelow (H.digest (.authored [pg] replica seq payload))) t := by
  have hpar : H.Par (H.digest (.authored [pg] replica seq payload)) pg := by
    rw [ContentHash.par_digest_iff, Preimage.parents, List.mem_singleton]
  have hadm : M.Admits (H.opsBelow pg) payload.ops := by
    have hmade := h.history.admits _ hg pg hpar
    rwa [ContentHash.opsOf_digest] at hmade
  have hsub := h.opsBelow_subset (h.history.closed _ hg pg hpar)
  have hops : ∀ o ∈ payload.ops, o ∈ carried (opSet H.opsOf) K := fun o ho =>
    ⟨_, hg, show o ∈ H.opsOf _ from (H.opsOf_digest _).symm ▸ ho⟩
  obtain ⟨t, ht, hrep⟩ := hadm.foldlM h.history.fits hsub hops hs
  refine ⟨t, ht, ?_, H.opsBelow_authored pg replica seq payload ▸ hrep⟩
  cases payload with
  | one op =>
    have happly : D.replicated.apply s op = .ok t := by simpa [Payload.ops] using ht
    exact happly
  | many ops => exact (hD.batch h.history.fits hsub hops hadm hs).trans ht

end KnownHistory

/-- The states of a replica stand for the operations in the ancestry of their commits, and all its
commits are coded in the first epoch. An operation commit or the root is stored once; a merge may be
stored several times. -/
structure Replica.Stands (H : ContentHash D.Op D.Print γ) (M : D.replicated.Meaning κ ι) (c : κ)
    (K : Set γ) (r : Replica D γ) : Prop where
  /-- The store is indexed. -/
  indexed : Indexed H r
  /-- What is held is known. -/
  known : ∀ x g, r.gid.get? x = some g → g ∈ K
  /-- A state stands for the operations in the ancestry of its commit. -/
  rep : ∀ x cm g, r.dag.commits.get? x = some cm → r.gid.get? x = some g →
    M.Rep c (H.opsBelow g) cm.state
  /-- Operation commits are stored once. -/
  single : ∀ x y g, r.gid.get? x = some g → r.gid.get? y = some g → H.opsOf g ≠ [] → x = y
  /-- The root is stored once. -/
  root : ∀ x, r.gid.get? x = some (H.digest .root) → x = 0
  /-- All commits are coded in the first epoch. -/
  epoch : ∀ x, r.epochAt x = EPOCH0
  /-- The first epoch is known. -/
  first : r.epochDag.has EPOCH0 = true
  /-- All heads that were fetched are coded in it. -/
  acks : ∀ peer key, r.fetchAcks.get? peer = some key → key = EPOCH0

namespace Replica.Stands

variable {c : κ} {K : Set γ} {r : Replica D γ} (h : r.Stands H M c K)

include h

theorem rep_opsUnder {x : ℕ} {cm : Commit D.State (Payload D.Op)}
    (hcm : r.dag.commits.get? x = some cm) : M.Rep c (r.opsUnder x) cm.state := by
  obtain ⟨g, hg⟩ := h.indexed.exists_gid (Dag.has_iff.mpr ⟨cm, hcm⟩)
  exact h.indexed.opsUnder_eq hg ▸ h.rep x cm g hcm hg

theorem opsAt_subset (x : ℕ) : opSet r.opsAt x ⊆ carried (opSet H.opsOf) K := by
  intro o ho
  have hne : r.dag.opOf x ≠ none := fun hnone => by
    simp [opSet, opsAt, hnone] at ho
  obtain ⟨op, hop⟩ := Option.ne_none_iff_exists'.mp hne
  obtain ⟨cm, hcm, -⟩ := Dag.opOf_eq_some_iff.mp hop
  obtain ⟨g, hg⟩ := h.indexed.exists_gid (Dag.has_iff.mpr ⟨cm, hcm⟩)
  exact ⟨g, h.known x g hg, show o ∈ H.opsOf g from h.indexed.opsAt_eq hg ▸ ho⟩

theorem opsUnder_subset (x : ℕ) : r.opsUnder x ⊆ carried (opSet H.opsOf) K :=
  fun _ ⟨y, _, ho⟩ => h.opsAt_subset y ho

/-- Every commit reaches the first one, which is the root. -/
theorem reaches_zero {x : ℕ} (hx : r.dag.has x = true) : r.dag.Reaches x 0 := by
  obtain ⟨y, hy, hroot⟩ := h.indexed.reaches_root hx
  rw [h.indexed.rootGid] at hroot
  exact h.root y hroot ▸ hy

/-- Every id is created by one stored commit. -/
theorem unique (hK : KnownHistory H M c K) : M.Unique (opSet r.opsAt) := by
  intro x y o ho o' ho' i hi hi'
  have hgid (z : ℕ) {o : D.Op} (ho : o ∈ r.opsAt z) : ∃ g, r.gid.get? z = some g ∧ o ∈ H.opsOf g := by
    have hne : r.dag.opOf z ≠ none := fun hnone => by simp [opsAt, hnone] at ho
    obtain ⟨op, hop⟩ := Option.ne_none_iff_exists'.mp hne
    obtain ⟨cm, hcm, -⟩ := Dag.opOf_eq_some_iff.mp hop
    obtain ⟨g, hg⟩ := h.indexed.exists_gid (Dag.has_iff.mpr ⟨cm, hcm⟩)
    exact ⟨g, hg, h.indexed.opsAt_eq hg ▸ ho⟩
  obtain ⟨g, hg, hog⟩ := hgid x ho
  obtain ⟨g', hg', hog'⟩ := hgid y ho'
  obtain rfl := hK.history.once g (h.known x g hg) g' (h.known y g' hg') o hog o' hog' i hi hi'
  exact h.single x y g hg hg' (List.ne_nil_of_mem hog)

end Replica.Stands

end SalRuntime
