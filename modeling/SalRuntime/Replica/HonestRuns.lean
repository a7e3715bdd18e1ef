import SalRuntime.Foundations.Authorship
import SalRuntime.Replica.HonestDeltas
import SalRuntime.Replica.Resync

/-!
# Honest runs of a network of replicas

Replicas commit operations that are applicable to what they have seen and that create new ids, ship
deltas, ingest what was shipped in any order and any number of times, merge with any commit of their
store, and have rounds. No replica compacts or collects. Then the history of all content ids stays
honest, and every state of every replica stands for the operations in the ancestry of its commit,
through any number of criss-cross merges.

## Main definitions

* `Network.Honest`, `Network.HonestRun` — honest calls and runs.
* `Network.Standing` — the invariant of honest runs.
* `Network.Grown` — new operations are made on top of the heads of their authors.

## Main results

* `Network.Standing.step`, `Network.Standing.run` — honest runs keep the invariant, and heads move up.
* `Network.Standing.commitBatch`, `Network.Standing.mergeWithGid`, `Network.Standing.sync` — what
  honest calls do.
-/

namespace SalRuntime

open Ancestry Replicated

variable {D : Datatype} {γ κ ι : Type} [LinearOrder γ] {H : ContentHash D.Op D.Print γ}
  {M : D.replicated.Meaning κ ι} {N : ℕ}

namespace Network

theorem exec_on_ok {w : Network D γ N} {α : Type} {i : Fin N} {r r' : Replica D γ} {call : Call D γ α}
    {a : α} (hr : w.replicas i = r) (hcall : Effect.exec call r = (.ok a, r')) :
    Effect.exec (on i call) w =
      (.ok a, { w with replicas := Function.update w.replicas i r' }) := by
  rw [exec_on, hr, hcall]

/-- **A round whose calls return** changes its two replicas. -/
theorem exec_syncReplicas_ok {w : Network D γ N} {i j : Fin N} (hij : i ≠ j) {hasA hasB : List γ}
    {toA toB : List (WireCommit D γ)} {A₁ A₂ A₃ B₁ B₂ B₃ : Replica D γ} {nA nB : ℕ} {gA gB : γ}
    {ackA ackB : Bool} (hhasA : (w.replicas i).ancestryGids = .ok hasA)
    (hhasB : (w.replicas j).ancestryGids = .ok hasB)
    (hdeltaB : (w.replicas i).delta H hasB = .ok toB)
    (hdeltaA : (w.replicas j).delta H hasA = .ok toA)
    (hingestB : Effect.exec (Replica.ingest H (overWire toB)) (w.replicas j) = (.ok nB, B₁))
    (hingestA : Effect.exec (Replica.ingest H (overWire toA)) (w.replicas i) = (.ok nA, A₁))
    (hmergeB : Effect.exec (Replica.mergeWithGid H (w.replicas i).headGid) B₁ = (.ok gB, B₂))
    (hmergeA : Effect.exec (Replica.mergeWithGid H (w.replicas j).headGid) A₁ = (.ok gA, A₂))
    (hackA : Effect.exec (Replica.acknowledgeFetch B₂.name B₂.headGid B₂.epochKey) A₂ =
      (.ok ackA, A₃))
    (hackB : Effect.exec (Replica.acknowledgeFetch A₃.name A₃.headGid A₃.epochKey) B₂ =
      (.ok ackB, B₃)) :
    Effect.exec (syncReplicas H i j) w = (.ok ⟨⟩, { w with
      replicas := Function.update (Function.update w.replicas i A₃) j B₃ }) := by
  have hji := hij.symm
  set w₁ : Network D γ N := { w with replicas := Function.update w.replicas j B₁ } with hw₁
  set w₂ : Network D γ N := { w₁ with replicas := Function.update w₁.replicas i A₁ } with hw₂
  set w₃ : Network D γ N := { w₂ with replicas := Function.update w₂.replicas j B₂ } with hw₃
  set w₄ : Network D γ N := { w₃ with replicas := Function.update w₃.replicas i A₂ } with hw₄
  set w₅ : Network D γ N := { w₄ with replicas := Function.update w₄.replicas i A₃ } with hw₅
  have hw₁i : w₁.replicas i = w.replicas i := Function.update_of_ne hij ..
  have hw₂j : w₂.replicas j = B₁ := (Function.update_of_ne hji ..).trans (Function.update_self ..)
  have hw₃i : w₃.replicas i = A₁ := (Function.update_of_ne hij ..).trans (Function.update_self ..)
  have hw₄i : w₄.replicas i = A₂ := Function.update_self ..
  have hw₄j : w₄.replicas j = B₂ := (Function.update_of_ne hji ..).trans (Function.update_self ..)
  have hw₅i : w₅.replicas i = A₃ := Function.update_self ..
  have hw₅j : w₅.replicas j = B₂ := (Function.update_of_ne hji ..).trans hw₄j
  rw [syncReplicas, Effect.exec_bind_ok (Effect.exec_get w), hhasA,
    Effect.exec_bind_ok (Effect.exec_lift (.ok hasA) w), hhasB,
    Effect.exec_bind_ok (Effect.exec_lift (.ok hasB) w), hdeltaB,
    Effect.exec_bind_ok (Effect.exec_lift (.ok toB) w), hdeltaA,
    Effect.exec_bind_ok (Effect.exec_lift (.ok toA) w),
    Effect.exec_bind_ok (exec_on_ok rfl hingestB), Effect.exec_bind_ok (exec_on_ok hw₁i hingestA),
    Effect.exec_bind_ok (exec_on_ok hw₂j hmergeB), Effect.exec_bind_ok (exec_on_ok hw₃i hmergeA),
    Effect.exec_bind_ok (Effect.exec_get w₄), hw₄j,
    Effect.exec_bind_ok (exec_on_ok hw₄i hackA), Effect.exec_bind_ok (Effect.exec_get w₅), hw₅i,
    Effect.exec_bind_ok (exec_on_ok hw₅j hackB)]
  have hsame : Function.update w₅.replicas j B₃ =
      Function.update (Function.update w.replicas i A₃) j B₃ := by
    funext k
    by_cases hkj : k = j
    · rw [hkj, Function.update_self, Function.update_self]
    · rw [Function.update_of_ne hkj, Function.update_of_ne hkj]
      by_cases hki : k = i
      · rw [hki, hw₅i, Function.update_self]
      · simp only [hw₅, hw₄, hw₃, hw₂, hw₁, Function.update_of_ne hki, Function.update_of_ne hkj]
  rw [Effect.exec_pure, hsame]

/-! ### Honest calls -/

/-- The operations that some head has seen. -/
def events (w : Network D γ N) : Set D.Op := {o | ∃ i, o ∈ (w.replicas i).events}

/-- The operations that replica `i` prepares of a list are applicable, one after the other, to what it
has seen, and create ids that nobody has created. -/
def Makes (M : D.replicated.Meaning κ ι) (w : Network D γ N) (i : Fin N) (ops : List D.Op) : Prop :=
  ∀ s ps, (w.replicas i).headState = .ok s → Replica.preparedOps D s ops = .ok ps →
    M.Admits (w.replicas i).events ps ∧ M.Fresh w.events ps

/-- The call is honest: operations are applicable and create new ids, a round is between two settled
replicas, and nothing is compacted or collected. -/
def Honest (H : ContentHash D.Op D.Print γ) (M : D.replicated.Meaning κ ι) (w : Network D γ N) :
    Act D.Op γ N → Prop
  | .commit i op => Makes M w i [op]
  | .commitBatch i ops => Makes M w i ops
  | .send .. => True
  | .deliver .. => True
  | .mergeWithGid .. => True
  | .sync i j => i ≠ j ∧ (w.replicas i).Settled H ∧ (w.replicas j).Settled H
  | .compactStable _ => False
  | .gc _ => False
  | .prune _ => False

/-- All calls of the run are honest. -/
def HonestRun (H : ContentHash D.Op D.Print γ) (M : D.replicated.Meaning κ ι) :
    Network D γ N → List (Act D.Op γ N) → Prop
  | _, [] => True
  | w, act :: acts => Honest H M w act ∧ HonestRun H M (Network.step H w act) acts

/-- The known content id `g` is that of operation number `n` of replica `k`. -/
def Made (H : ContentHash D.Op D.Print γ) (names : Fin N → String) (K : Set γ) (g : γ) (k : Fin N)
    (n : ℕ) : Prop :=
  g ∈ K ∧ ∃ parents payload, g = H.digest (.authored parents (names k) n payload)

/-- **The invariant of honest runs**, in the context `c` and over the content ids `K` that all replicas
together know. -/
structure Standing (H : ContentHash D.Op D.Print γ) (M : D.replicated.Meaning κ ι)
    (names : Fin N → String) (c : κ) (K : Set γ) (w : Network D γ N) : Prop where
  /-- The history is honest. -/
  known : KnownHistory H M c K
  /-- The states of every replica stand for the operations in the ancestry of their commits. -/
  stands : ∀ i, (w.replicas i).Stands H M c K
  /-- What was sent is genuine. -/
  sent : ∀ wc ∈ w.sent, Genuine H K wc
  /-- Replicas keep their names. -/
  name : ∀ i, (w.replicas i).name = names i
  /-- Operations are those of the replicas. -/
  signed : ∀ parents replica seq payload, H.digest (.authored parents replica seq payload) ∈ K →
    ∃ k, names k = replica
  /-- Every replica makes its operations on top of its head, under numbers of its own. -/
  authors : Authorship H.Par (Made H names K) (fun i => (w.replicas i).headGid)
    fun i => (w.replicas i).seq

/-- From `K` to `K'` more becomes known, and new operations are made on top of the heads that their
authors have in `w`. -/
structure Grown (H : ContentHash D.Op D.Print γ) (names : Fin N → String) (w : Network D γ N)
    (K K' : Set γ) : Prop where
  /-- Nothing is forgotten. -/
  subset : K ⊆ K'
  /-- New operations have the head of their author in their ancestry. -/
  above : ∀ {g k n}, Made H names K' g k n → g ∈ K ∨ H.Reaches g (w.replicas k).headGid

namespace Grown

variable {names : Fin N → String} {w w' : Network D γ N} {K K₁ K' : Set γ}

theorem refl : Grown H names w K K := ⟨subset_rfl, fun hmade => Or.inl hmade.1⟩

theorem trans (h : Grown H names w K K₁) (h' : Grown H names w' K₁ K')
    (hup : ∀ k, H.Reaches (w'.replicas k).headGid (w.replicas k).headGid) :
    Grown H names w K K' where
  subset := h.subset.trans h'.subset
  above {g k n} hmade := by
    rcases h'.above hmade with hg | hreach
    · exact h.above ⟨hg, hmade.2⟩
    · exact Or.inr (hreach.trans (hup k))

/-- A merge is no operation. -/
theorem insert_merge (x y : γ) : Grown H names w K (insert (mergeId H x y) K) where
  subset := Set.subset_insert _ _
  above {g k n} hmade := by
    obtain ⟨hg, parents, payload, rfl⟩ := hmade
    refine Or.inl (hg.resolve_left fun heq => ?_)
    cases H.injective heq

end Grown

namespace Standing

variable {names : Fin N → String} {c : κ} {K : Set γ} {w : Network D γ N}

theorem events_replica (h : Standing H M names c K w) (i : Fin N) :
    (w.replicas i).events = H.opsBelow (w.replicas i).headGid := (h.stands i).indexed.events_eq

theorem headGid_known (h : Standing H M names c K w) (i : Fin N) : (w.replicas i).headGid ∈ K :=
  (h.stands i).mem_known (h.stands i).indexed.headGid_mem

/-- **The heads have together seen** what is known. -/
theorem events_eq (h : Standing H M names c K w) : w.events = carried (opSet H.opsOf) K := by
  ext o
  constructor
  · rintro ⟨i, ho⟩
    rw [h.events_replica] at ho
    exact h.known.opsBelow_subset (h.headGid_known i) ho
  · rintro ⟨g, hg, ho⟩
    rcases h.known.plain g hg with rfl | ⟨pg, replica, seq, payload, rfl⟩ | ⟨x, y, rfl⟩
    · simp [Preimage.ops] at ho
    · obtain ⟨k, rfl⟩ := h.signed _ _ _ _ hg
      refine ⟨k, ?_⟩
      rw [h.events_replica]
      exact ⟨_, (h.authors.own ⟨hg, _, _, rfl⟩).1, ho⟩
    · simp [ContentHash.opsOf_mergeId] at ho

/-- The next operation of a replica is not known yet. -/
theorem ownId_not_mem (h : Standing H M names c K w) (i : Fin N) (payload : Payload D.Op) :
    (w.replicas i).ownId H payload ∉ K := by
  intro hmem
  have hown : Made H names K ((w.replicas i).ownId H payload) i (w.replicas i).seq :=
    ⟨hmem, [(w.replicas i).headGid], payload, by rw [← h.name i]; rfl⟩
  exact lt_irrefl _ (h.authors.own hown).2

/-- New replicas. -/
theorem start (names : Fin N → String) : ∃ c,
    Standing H M names c {H.digest .root} (Network.start D H names) := by
  obtain ⟨c, hc⟩ := KnownHistory.start (H := H) (M := M)
  have hnone {parents : List γ} {replica : String} {seq : ℕ} {payload : Payload D.Op} :
      H.digest (.authored parents replica seq payload) ∉ ({H.digest .root} : Set γ) := by
    rw [Set.mem_singleton_iff, H.injective.eq_iff]
    simp
  refine ⟨c, hc, fun i => Replica.stands_create (Set.mem_singleton _) _ _, fun wc hwc => ?_,
    fun i => rfl, fun parents replica seq payload hmem => absurd hmem hnone, ⟨?_, ?_⟩⟩
  · cases hwc
  · rintro g k n ⟨hg, _, _, rfl⟩
    exact absurd hg hnone
  · rintro g g' k n n' ⟨hg, _, _, rfl⟩
    exact absurd hg hnone

/-- **One replica changes**: its head moves up, and a new operation is its head. -/
theorem update (h : Standing H M names c K w) (hnames : Function.Injective names) {i : Fin N}
    {r' : Replica D γ} {c' : κ} {K' : Set γ} (hknown : KnownHistory H M c' K') (hsub : K ⊆ K')
    (hkeep : ∀ {A s}, A ⊆ carried (opSet H.opsOf) K → M.Rep c A s → M.Rep c' A s)
    (hr' : r'.Stands H M c' K') (hname : r'.name = (w.replicas i).name)
    (hup : H.Reaches r'.headGid (w.replicas i).headGid) (hseq : (w.replicas i).seq ≤ r'.seq)
    (hnew : ∀ parents replica n payload, H.digest (.authored parents replica n payload) ∈ K' →
      H.digest (.authored parents replica n payload) ∉ K → replica = (w.replicas i).name ∧
        n = (w.replicas i).seq ∧ n < r'.seq ∧
        H.digest (.authored parents replica n payload) = r'.headGid) :
    Standing H M names c' K' { w with replicas := Function.update w.replicas i r' } := by
  have hother {P : Fin N → Replica D γ → Prop} (hi : P i r') (hk : ∀ k, k ≠ i → P k (w.replicas k))
      (k : Fin N) : P k (Function.update w.replicas i r' k) := by
    by_cases hki : k = i
    · subst hki
      rwa [Function.update_self]
    · rw [Function.update_of_ne hki]
      exact hk k hki
  refine ⟨hknown, ?_, fun wc hwc => (h.sent wc hwc).mono hsub, ?_, ?_, ?_⟩
  · exact hother (P := fun _ r => r.Stands H M c' K') hr' fun k _ =>
      (h.stands k).mono h.known hsub hkeep
  · exact hother (P := fun k r => r.name = names k) (hname.trans (h.name i)) fun k _ => h.name k
  · intro parents replica n payload hmem
    by_cases hold : H.digest (.authored parents replica n payload) ∈ K
    · exact h.signed _ _ _ _ hold
    · exact ⟨i, by rw [(hnew _ _ _ _ hmem hold).1, h.name i]⟩
  · refine h.authors.step id ?_ ?_ ?_
    · exact hother (P := fun k r => H.Reaches r.headGid (w.replicas k).headGid) hup fun k _ => .refl
    · exact hother (P := fun k r => (w.replicas k).seq ≤ r.seq) hseq fun k _ => le_rfl
    · rintro g k n ⟨hg, parents, payload, rfl⟩
      by_cases hold : H.digest (.authored parents (names k) n payload) ∈ K
      · exact Or.inl ⟨hold, parents, payload, rfl⟩
      · obtain ⟨hreplica, hn, hlt, hhead⟩ := hnew _ _ _ _ hg hold
        obtain rfl : k = i := hnames (hreplica.trans (h.name i))
        refine Or.inr ?_
        dsimp only
        rw [Function.update_self]
        exact ⟨hhead, hn, hlt⟩

/-- The replica that has changed. -/
theorem stands_of_update {i : Fin N} {r' : Replica D γ}
    (h : Standing H M names c K { w with replicas := Function.update w.replicas i r' }) :
    r'.Stands H M c K := by
  simpa using h.stands i

/-- A replica that makes no operation changes. -/
theorem update_of_plain (h : Standing H M names c K w) (hnames : Function.Injective names)
    {i : Fin N} {r' : Replica D γ} (hr' : r'.Stands H M c K) (hname : r'.name = (w.replicas i).name)
    (hup : H.Reaches r'.headGid (w.replicas i).headGid) (hseq : (w.replicas i).seq ≤ r'.seq) :
    Standing H M names c K { w with replicas := Function.update w.replicas i r' } :=
  h.update hnames h.known subset_rfl (fun _ hrep => hrep) hr' hname hup hseq
    fun _ _ _ _ hmem hnot => absurd hmem hnot

/-- A merge may become known. -/
theorem insert_merge (h : Standing H M names c K w) {x y : γ} (hx : x ∈ K) (hy : y ∈ K) :
    Standing H M names c (insert (mergeId H x y) K) w := by
  have hold {parents : List γ} {replica : String} {seq : ℕ} {payload : Payload D.Op}
      (hmem : H.digest (.authored parents replica seq payload) ∈ insert (mergeId H x y) K) :
      H.digest (.authored parents replica seq payload) ∈ K := by
    refine hmem.resolve_left fun heq => ?_
    cases H.injective heq
  refine ⟨h.known.insert_merge hx hy, fun i => (h.stands i).mono h.known (Set.subset_insert _ _)
    fun _ hrep => hrep, fun wc hwc => (h.sent wc hwc).mono (Set.subset_insert _ _), h.name,
    fun _ _ _ _ hmem => h.signed _ _ _ _ (hold hmem), ⟨?_, ?_⟩⟩
  · rintro g k n ⟨hg, parents, payload, rfl⟩
    exact h.authors.own ⟨hold hg, parents, payload, rfl⟩
  · rintro g g' k n n' ⟨hg, parents, payload, rfl⟩ ⟨hg', parents', payload', rfl⟩ hle
    exact h.authors.chain ⟨hold hg, parents, payload, rfl⟩ ⟨hold hg', parents', payload', rfl⟩ hle

/-! ### What honest calls do -/

section Calls

variable (h : Standing H M names c K w) (hnames : Function.Injective names) (hD : D.Regular M)

include h hnames hD

/-- **A batch** that can be prepared becomes one commit, and its author has seen it. Otherwise nothing
changes. -/
theorem commitBatch {i : Fin N} {ops : List D.Op} (hmakes : Makes M w i ops) : ∃ x r' c' K',
    Effect.exec (Replica.commitBatch H ops) (w.replicas i) = (x, r') ∧
    Standing H M names c' K' { w with replicas := Function.update w.replicas i r' } ∧
    H.Reaches r'.headGid (w.replicas i).headGid ∧
    Grown H names w K K' ∧ ((w.replicas i).Settled H → r'.Settled H) ∧
    ∀ s, (w.replicas i).headState = .ok s →
      match Replica.preparedOps D s ops with
      | .error e => x = .error e ∧ r' = w.replicas i
      | .ok ps => x = .ok r'.headGid ∧ r'.events = (w.replicas i).events ∪ {o | o ∈ ps} := by
  obtain ⟨s, hs, hrep⟩ := (h.stands i).exists_headState
  have hstate (P : D.State → Prop) : (∀ s', (w.replicas i).headState = .ok s' → P s') ↔ P s := by
    simp [hs]
  have hstay := h.update_of_plain hnames (h.stands i) rfl .refl le_rfl
  simp only [hstate]
  cases hps : Replica.preparedOps D s ops with
  | error e =>
    exact ⟨_, _, c, K, Replica.exec_commitBatch_error hs hps, hstay, .refl, .refl, id, rfl, rfl⟩
  | ok ps =>
    by_cases hne : ops = []
    · subst hne
      cases hps
      exact ⟨_, _, c, K, rfl, hstay, .refl, .refl, id, rfl, by simp⟩
    obtain ⟨hadm, hfresh⟩ := hmakes s ps hs hps
    obtain ⟨payload, rfl, hcommit⟩ := Replica.exists_exec_commitBatch (H := H) hs hne hps
    set r := w.replicas i with hr
    set g := r.ownId H payload with hg
    rw [h.events_replica] at hadm
    rw [h.events_eq] at hfresh
    have hpg := h.headGid_known i
    have hpar : H.Par g r.headGid := by
      rw [hg, Replica.ownId, opId, ContentHash.par_digest_iff, Preimage.parents,
        List.mem_singleton]
    have hnot : g ∉ K := h.ownId_not_mem i payload
    obtain ⟨c', hknown, hkeep⟩ := h.known.insert_authored hpg r.name r.seq hadm hfresh
    have hgK : g ∈ insert g K := Set.mem_insert g K
    obtain ⟨t, hfold, happly, hrep'⟩ := hknown.exists_applyOps hD hgK
      (hkeep (h.known.opsBelow_subset hpg) hrep)
    obtain ⟨r', hexec, hr', hmoved, hdist⟩ := ((h.stands i).mono h.known (Set.subset_insert g K)
      hkeep).exec_author hgK (fun hheld => hnot ((h.stands i).mem_known hheld)) hrep'
    have hup : H.Reaches r'.headGid r.headGid := hmoved.headGid ▸ .single hpar
    have hseq : r.seq < r'.seq := by
      rw [hmoved.seq]
      exact Nat.lt_succ_self _
    refine ⟨_, r', c', insert g K, (hcommit t hfold happly).trans hexec,
      h.update hnames hknown (Set.subset_insert g K) hkeep hr' hmoved.name hup hseq.le ?_, hup,
      ⟨Set.subset_insert g K, ?_⟩, fun hsettled => ⟨hdist hsettled.distinct, ?_⟩, ?_, ?_⟩
    · intro parents replica n payload' hmem hold
      have heq := hmem.resolve_right hold
      injection H.injective heq with _ hreplica hn _
      exact ⟨hreplica, hn, hn ▸ hseq, heq.trans hmoved.headGid.symm⟩
    · rintro v k n ⟨hv, parents, payload', rfl⟩
      rcases hv with heq | hv
      · injection H.injective heq with _ hreplica
        obtain rfl : k = i := hnames (hreplica.trans (h.name i))
        exact Or.inr (heq ▸ .single hpar)
      · exact Or.inl hv
    · intro k hk
      rw [hmoved.held] at hk
      rcases hk with hk | rfl
      · exact hup.trans (hsettled.reached k hk)
      · exact hmoved.headGid ▸ .refl
    · rw [hmoved.headGid]
    · have hevents : r.events = H.opsBelow r.headGid := h.events_replica i
      rw [hr'.indexed.events_eq, hmoved.headGid, hevents, ← ContentHash.opsBelow_authored]
      rfl

/-- **A merge with a held commit** returns, and the head joins both sides. -/
theorem mergeWithGid {i : Fin N} {g : γ} (hg : g ∈ (w.replicas i).held) : ∃ r' K',
    Effect.exec (Replica.mergeWithGid H g) (w.replicas i) = (.ok r'.headGid, r') ∧
    Standing H M names c K' { w with replicas := Function.update w.replicas i r' } ∧
    Grown H names w K K' ∧ Replica.MergedWith H g (w.replicas i) r' := by
  have hK' := h.insert_merge (h.headGid_known i) ((h.stands i).mem_known hg)
  obtain ⟨r', hexec, hr', hmerged⟩ := (hK'.stands i).exec_mergeWithGid hK'.known hD hg
    (Set.mem_insert _ _)
  exact ⟨r', _, hexec, hK'.update_of_plain hnames hr' hmerged.moved.name hmerged.join.reaches.1
    hmerged.moved.seq.ge, .insert_merge _ _, hmerged⟩

/-- **Delivering** what was sent. -/
theorem deliver (i : Fin N) (positions : List ℕ) : ∃ x r',
    Effect.exec (Replica.ingest H (positions.filterMap (w.sent[·]?))) (w.replicas i) = (x, r') ∧
    Standing H M names c K { w with replicas := Function.update w.replicas i r' } ∧
    ∃ G, Replica.Received G (w.replicas i) r' := by
  have hgen : ∀ wc ∈ positions.filterMap (w.sent[·]?), Genuine H K wc := by
    intro wc hwc
    obtain ⟨position, -, hget⟩ := List.mem_filterMap.mp hwc
    exact h.sent wc (List.mem_of_getElem? hget)
  rcases hexec : Effect.exec (Replica.ingest H (positions.filterMap (w.sent[·]?))) (w.replicas i)
    with ⟨x, r'⟩
  have hends := (h.stands i).ends_ingest h.known hD hgen
  rw [Effect.Ends, hexec] at hends
  obtain ⟨hr', G, hreceived⟩ := hends
  exact ⟨x, r', rfl, h.update_of_plain hnames hr' hreceived.moved.name
    (hreceived.moved.headGid ▸ .refl) hreceived.moved.seq.ge, G, hreceived⟩

/-- **A round** between settled replicas returns. Both heads are the join, both are settled, and others
are not touched. -/
theorem sync {i j : Fin N} (hij : i ≠ j) (hi : (w.replicas i).Settled H)
    (hj : (w.replicas j).Settled H) : ∃ w' K', Effect.exec (syncReplicas H i j) w = (.ok ⟨⟩, w') ∧
      Standing H M names c K' w' ∧ Grown H names w K K' ∧ (∀ k, k = i ∨ k = j →
        (w'.replicas k).headGid = H.joinId (w.replicas i).headGid (w.replicas j).headGid ∧
        (w'.replicas k).Settled H) ∧ ∀ k, k ≠ i → k ≠ j → w'.replicas k = w.replicas k := by
  set A := w.replicas i with hA
  set B := w.replicas j with hB
  obtain ⟨hasA, hhasA, hmemA⟩ := (h.stands i).exec_ancestryGids hi
  obtain ⟨hasB, hhasB, hmemB⟩ := (h.stands j).exec_ancestryGids hj
  obtain ⟨toA, nA, A₁, A₂, hdeltaA, hingestA, hmergeA, hA₂, hheadA, hsettledA, hnameA, hseqA⟩ :=
    (h.stands i).exec_pull h.known hD hi (h.stands j) hj hmemA
  obtain ⟨toB, nB, B₁, B₂, hdeltaB, hingestB, hmergeB, hB₂, hheadB, hsettledB, hnameB, hseqB⟩ :=
    (h.stands j).exec_pull h.known hD hj (h.stands i) hi hmemB
  obtain ⟨ackA, acksA, hackA, hA₃⟩ := hA₂.exec_acknowledgeFetch B₂.name B₂.headGid
  set A₃ : Replica D γ := { A₂ with fetchAcks := acksA }
  obtain ⟨ackB, acksB, hackB, hB₃⟩ := hB₂.exec_acknowledgeFetch A₃.name A₃.headGid
  set B₃ : Replica D γ := { B₂ with fetchAcks := acksB }
  have hcomm : H.joinId B.headGid A.headGid = H.joinId A.headGid B.headGid :=
    ContentHash.joinId_comm fun hyx hxy => (h.stands j).reaches_antisymm hj.distinct
      (h.stands j).indexed.headGid_mem hyx hxy
  have hreach := ContentHash.reaches_joinId (H := H) A.headGid B.headGid
  rw [ContentHash.mergeId_comm] at hB₃
  have hh := (h.insert_merge (h.headGid_known i) (h.headGid_known j)).update_of_plain hnames hA₃
    hnameA (hheadA.symm ▸ hreach.1) hseqA.ge
  set w₀ : Network D γ N := { w with replicas := Function.update w.replicas i A₃ }
  have hBj : w₀.replicas j = B := Function.update_of_ne hij.symm ..
  have hupB : H.Reaches B₃.headGid (w₀.replicas j).headGid := by
    rw [hBj]
    exact (hheadB.trans hcomm).symm ▸ hreach.2
  have hh' := hh.update_of_plain hnames hB₃ (by rw [hBj]; exact hnameB) hupB
    (by rw [hBj]; exact hseqB.ge)
  refine ⟨_, _, ?_, hh', .insert_merge _ _, ?_, ?_⟩
  · have hkeyA : A₃.epochKey = EPOCH0 := hA₃.epoch _
    have hkeyB : B₂.epochKey = EPOCH0 := hB₂.epoch _
    exact exec_syncReplicas_ok hij hhasA hhasB hdeltaB hdeltaA hingestB hingestA hmergeB hmergeA
      (hkeyB ▸ hackA) (hkeyA ▸ hackB)
  · rintro k (rfl | rfl)
    · have hk : (Function.update w₀.replicas j B₃) k = A₃ := by
        rw [Function.update_of_ne hij]
        exact Function.update_self ..
      dsimp only
      rw [hk]
      exact ⟨hheadA, hsettledA.distinct, hsettledA.reached⟩
    · dsimp only
      rw [Function.update_self]
      exact ⟨hheadB.trans hcomm, hsettledB.distinct, hsettledB.reached⟩
  · intro k hki hkj
    dsimp only
    rw [Function.update_of_ne hkj]
    exact Function.update_of_ne hki ..

end Calls

/-! ### Runs -/

theorem reaches_update {i : Fin N} {r' : Replica D γ}
    (hup : H.Reaches r'.headGid (w.replicas i).headGid) (k : Fin N) :
    H.Reaches (Function.update w.replicas i r' k).headGid (w.replicas k).headGid := by
  by_cases hki : k = i
  · rw [hki, Function.update_self]
    exact hup
  · rw [Function.update_of_ne hki]

/-- A call of one replica changes this replica. -/
theorem step_eq_on {α : Type} (i : Fin N) (call : Call D γ α) (w : Network D γ N) :
    (Effect.exec (do let _ ← on i call : Effect (Network D γ N) Failure Unit) w).2 =
      { w with
        replicas := Function.update w.replicas i (Effect.exec call (w.replicas i)).2 } := by
  have hon := exec_on i call w
  rcases hexec : Effect.exec call (w.replicas i) with ⟨e | a, r'⟩ <;> rw [hexec] at hon
  · rw [Effect.exec_bind_error hon]
  · rw [Effect.exec_bind_ok hon]
    rfl

section Runs

variable (hnames : Function.Injective names) (hD : D.Regular M)

include hnames hD

/-- **Honest calls** keep the invariant, and heads move up. -/
theorem step (h : Standing H M names c K w) {act : Act D.Op γ N} (hhonest : Honest H M w act) :
    ∃ c' K', Standing H M names c' K' (Network.step H w act) ∧ Grown H names w K K' ∧
      ∀ k, H.Reaches ((Network.step H w act).replicas k).headGid (w.replicas k).headGid := by
  cases act with
  | commit i op =>
    obtain ⟨x, r', c', K', hexec, hw', hup, hgrown, -⟩ := h.commitBatch hnames hD hhonest
    rw [Replica.exec_commitBatch_singleton] at hexec
    rw [Network.step, call, step_eq_on, hexec]
    exact ⟨c', K', hw', hgrown, reaches_update hup⟩
  | commitBatch i ops =>
    obtain ⟨x, r', c', K', hexec, hw', hup, hgrown, -⟩ := h.commitBatch hnames hD hhonest
    rw [Network.step, call, step_eq_on, hexec]
    exact ⟨c', K', hw', hgrown, reaches_update hup⟩
  | send i theirGids =>
    rw [Network.step, call, send, Effect.exec_bind_ok (Effect.exec_get w)]
    cases hdelta : (w.replicas i).delta H theirGids with
    | error e =>
      rw [Effect.exec_bind_error (Effect.exec_lift (.error e) w)]
      exact ⟨c, K, h, .refl, fun k => .refl⟩
    | ok commits =>
      rw [Effect.exec_bind_ok (Effect.exec_lift (.ok commits) w)]
      refine ⟨c, K, ⟨h.known, h.stands, fun wc hwc => ?_, h.name, h.signed, h.authors⟩, .refl,
        fun k => .refl⟩
      rcases List.mem_append.mp hwc with hwc | hwc
      · exact h.sent wc hwc
      · exact (h.stands i).genuine_of_mem_delta h.known hdelta hwc
  | deliver i positions =>
    obtain ⟨x, r', hexec, hw', G, hreceived⟩ := h.deliver hnames hD i positions
    rw [Network.step, call, Network.deliver, Effect.exec_bind_ok (Effect.exec_get w),
      step_eq_on, hexec]
    exact ⟨c, K, hw', .refl, reaches_update (hreceived.moved.headGid ▸ .refl)⟩
  | mergeWithGid i g =>
    by_cases hg : g ∈ (w.replicas i).held
    · obtain ⟨r', K', hexec, hw', hgrown, hmerged⟩ := h.mergeWithGid hnames hD hg
      rw [Network.step, call, step_eq_on, hexec]
      exact ⟨c, K', hw', hgrown, reaches_update hmerged.join.reaches.1⟩
    · obtain ⟨e, hexec⟩ := (h.stands i).exec_mergeWithGid_missing hg
      rw [Network.step, call, step_eq_on, hexec]
      exact ⟨c, K, h.update_of_plain hnames (h.stands i) rfl .refl le_rfl, .refl,
        reaches_update .refl⟩
  | sync i j =>
    obtain ⟨hij, hi, hj⟩ := hhonest
    obtain ⟨w', K', hexec, hw', hgrown, hpair, hother⟩ := h.sync hnames hD hij hi hj
    have hreach := ContentHash.reaches_joinId (H := H) (w.replicas i).headGid (w.replicas j).headGid
    rw [Network.step, call, hexec]
    refine ⟨c, K', hw', hgrown, fun k => ?_⟩
    by_cases hki : k = i
    · subst hki
      exact (hpair k (Or.inl rfl)).1 ▸ hreach.1
    · by_cases hkj : k = j
      · subst hkj
        exact (hpair k (Or.inr rfl)).1 ▸ hreach.2
      · rw [hother k hki hkj]
  | compactStable => exact hhonest.elim
  | gc => exact hhonest.elim
  | prune => exact hhonest.elim

/-- **Honest runs** keep the invariant, and heads move up. -/
theorem run (h : Standing H M names c K w) {acts : List (Act D.Op γ N)}
    (hhonest : HonestRun H M w acts) : ∃ c' K', Standing H M names c' K' (Network.run H w acts) ∧
      Grown H names w K K' ∧ ∀ k, H.Reaches ((Network.run H w acts).replicas k).headGid (w.replicas k).headGid := by
  induction acts generalizing w c K with
  | nil => exact ⟨c, K, h, .refl, fun k => .refl⟩
  | cons act acts ih =>
    obtain ⟨c₁, K₁, h₁, hgrown₁, hup₁⟩ := h.step hnames hD hhonest.1
    obtain ⟨c', K', h', hgrown', hup'⟩ := ih h₁ hhonest.2
    exact ⟨c', K', h', hgrown₁.trans hgrown' hup₁, fun k => (hup' k).trans (hup₁ k)⟩

end Runs

end Standing

/-! ### Runs without messages on the way -/

/-- All replicas are settled. -/
def AllSettled (H : ContentHash D.Op D.Print γ) (w : Network D γ N) : Prop :=
  ∀ i, (w.replicas i).Settled H

/-- An honest commit, or a round between two replicas. -/
def Direct (M : D.replicated.Meaning κ ι) (w : Network D γ N) : Act D.Op γ N → Prop
  | .commit i op => Makes M w i [op]
  | .commitBatch i ops => Makes M w i ops
  | .sync i j => i ≠ j
  | _ => False

/-- All calls of the run are honest commits and rounds. -/
def DirectRun (H : ContentHash D.Op D.Print γ) (M : D.replicated.Meaning κ ι) :
    Network D γ N → List (Act D.Op γ N) → Prop
  | _, [] => True
  | w, act :: acts => Direct M w act ∧ DirectRun H M (Network.step H w act) acts

theorem allSettled_start (names : Fin N → String) : AllSettled H (start D H names) := by
  have hgid (i : Fin N) {x : ℕ} {g : γ} (hx : ((start D H names).replicas i).gid.get? x = some g) :
      x = 0 ∧ g = H.digest .root := by
    simp only [start, Replica.create, SortedMap.get?_insert] at hx
    split_ifs at hx with hzero
    · exact ⟨hzero, (Option.some.inj hx).symm⟩
    · simp at hx
  refine fun i => ⟨fun x y g hx hy => ?_, fun g hg => ?_⟩
  · rw [(hgid i hx).1, (hgid i hy).1]
  · obtain ⟨x, hx⟩ := hg
    rw [(hgid i hx).2]
    exact .refl

namespace Standing

variable {names : Fin N → String} {c : κ} {K : Set γ} {w : Network D γ N}
  (hnames : Function.Injective names) (hD : D.Regular M)

include hnames hD

/-- **Commits and rounds** of settled replicas are honest, and keep all replicas settled. -/
theorem direct_step (h : Standing H M names c K w) (hsettled : AllSettled H w) {act : Act D.Op γ N}
    (hdirect : Direct M w act) : Honest H M w act ∧ AllSettled H (Network.step H w act) := by
  have hcommit {i : Fin N} {ops : List D.Op} (hmakes : Makes M w i ops) :
      AllSettled H ({ w with
        replicas := Function.update w.replicas i
          (Effect.exec (Replica.commitBatch H ops) (w.replicas i)).2 } : Network D γ N) := by
    obtain ⟨x, r', c', K', hexec, -, -, -, hkept, -⟩ := h.commitBatch hnames hD hmakes
    rw [hexec]
    intro k
    by_cases hki : k = i
    · subst hki
      simpa using hkept (hsettled k)
    · simpa [Function.update_of_ne hki] using hsettled k
  cases act with
  | commit i op =>
    refine ⟨hdirect, ?_⟩
    rw [Network.step, call, step_eq_on, ← Replica.exec_commitBatch_singleton]
    exact hcommit hdirect
  | commitBatch i ops =>
    refine ⟨hdirect, ?_⟩
    rw [Network.step, call, step_eq_on]
    exact hcommit hdirect
  | sync i j =>
    obtain ⟨w', K', hexec, -, -, hpair, hother⟩ := h.sync hnames hD hdirect (hsettled i) (hsettled j)
    refine ⟨⟨hdirect, hsettled i, hsettled j⟩, fun k => ?_⟩
    rw [Network.step, call, hexec]
    by_cases hk : k = i ∨ k = j
    · exact (hpair k hk).2
    · rw [not_or] at hk
      rw [hother k hk.1 hk.2]
      exact hsettled k
  | send => exact hdirect.elim
  | deliver => exact hdirect.elim
  | mergeWithGid => exact hdirect.elim
  | compactStable => exact hdirect.elim
  | gc => exact hdirect.elim
  | prune => exact hdirect.elim

theorem direct_run (h : Standing H M names c K w) (hsettled : AllSettled H w)
    {acts : List (Act D.Op γ N)} (hdirect : DirectRun H M w acts) :
    HonestRun H M w acts ∧ AllSettled H (Network.run H w acts) := by
  induction acts generalizing w c K with
  | nil => exact ⟨trivial, hsettled⟩
  | cons act acts ih =>
    obtain ⟨hhonest, hsettled₁⟩ := h.direct_step hnames hD hsettled hdirect.1
    obtain ⟨c₁, K₁, h₁, -⟩ := h.step hnames hD hhonest
    obtain ⟨hrun, hsettled'⟩ := ih h₁ hsettled₁ hdirect.2
    exact ⟨⟨hhonest, hrun⟩, hsettled'⟩

end Standing

end Network

end SalRuntime
