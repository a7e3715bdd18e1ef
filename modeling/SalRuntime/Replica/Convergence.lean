import Mathlib.Data.Fin.VecNotation
import SalRuntime.Datatypes.OrSet
import SalRuntime.Datatypes.SharedPaths
import SalRuntime.Replica.HonestRuns

/-!
# Convergence of replicas

In a network of replicas commits with the same operations in their ancestry have the same state,
however the operations and the merges reached them. Every merge with a held commit returns, whatever
criss-crosses lie below, and so does every round between settled replicas. If replicas only commit and
have rounds, in any topology, and in the end everyone hears from everyone, then all replicas have seen
exactly the operations that were made, and read the same.

## Main definitions

* `Network.Reached` — what honest runs reach.
* `Network.produced` — the operations that a run makes.
* `Network.Hears` — what one replica had seen before a sequence of calls reaches another one.
* `Network.hubRounds` — the first replica has a round with each of the others.

## Main results

* `Network.state_eq_of_opsUnder_eq` — the operations in the ancestry determine the state.
* `Network.mergeWithGid_of_reached` — every merge with a held commit.
* `Network.round_of_reached` — every round between settled replicas.
* `Network.Standing.events_run` — no operation is lost, and none is invented.
* `Network.converged_of_rounds` — all replicas converge.
* `Network.converged_of_hub` — two passes of a hub suffice.
-/

namespace SalRuntime

open Ancestry Replicated

/-! ### Datatypes whose batches fold -/

theorem embedRGA_regular (α : Type) [DecidableEq α] [Inhabited α] :
    (embedRGA α).Regular (embedMeaning α) :=
  Datatype.regular_of_foldlM (fun _ _ => EmbedRGA.applyBatch_eq_foldlM _ _) rfl

theorem sharedEmbedRGA_regular (α : Type) [DecidableEq α] [Inhabited α] :
    (sharedEmbedRGA α).Regular (sharedMeaning α) :=
  Datatype.regular_of_foldlM (fun _ _ => rfl) rfl

theorem rga_regular (α : Type) [DecidableEq α] [Inhabited α] : (rga α).Regular (rgaMeaning α) :=
  Datatype.regular_of_foldlM (fun _ hs => Rga.applyBatch_of_order _ hs.1.order _) rfl

theorem orset_regular (τ α : Type) [LinearOrder τ] [LinearOrder α] :
    (orset τ α).Regular (OrSet.meaning τ α) :=
  Datatype.regular_of_foldlM (fun _ _ => OrSet.applyBatch_eq_foldlM _ _) rfl

variable {D : Datatype} {γ κ ι : Type} [LinearOrder γ] {H : ContentHash D.Op D.Print γ}
  {M : D.replicated.Meaning κ ι} {c : κ} {K : Set γ}

/-! ### Reads -/

namespace Replica.Stands

variable {r r' : Replica D γ}

theorem exists_read (h : r.Stands H M c K) :
    ∃ s, r.read = .ok (D.read s) ∧ M.Rep c r.events s := by
  obtain ⟨s, hs, hrep⟩ := h.exists_headState
  refine ⟨s, ?_, h.indexed.events_eq ▸ hrep⟩
  rw [read, hs]
  rfl

/-- **What the heads have seen** determines what replicas read. -/
theorem read_eq (h : r.Stands H M c K) (h' : r'.Stands H M c K) (hevents : r.events = r'.events) :
    r.read = r'.read := by
  obtain ⟨s, hs, hrep⟩ := h.exists_read
  obtain ⟨s', hs', hrep'⟩ := h'.exists_read
  rw [hs, hs', M.unique hrep (hevents ▸ hrep')]

end Replica.Stands

namespace Network

variable {N : ℕ} {w : Network D γ N} {names : Fin N → String}

/-- The network `w` is reached from new replicas by honest calls. -/
def Reached (H : ContentHash D.Op D.Print γ) (M : D.replicated.Meaning κ ι) (names : Fin N → String)
    (w : Network D γ N) : Prop :=
  ∃ acts, HonestRun H M (start D H names) acts ∧ run H (start D H names) acts = w

theorem Reached.standing (hw : Reached H M names w) (hnames : Function.Injective names)
    (hD : D.Regular M) : ∃ c K, Standing H M names c K w := by
  obtain ⟨acts, hhonest, rfl⟩ := hw
  obtain ⟨c, h⟩ := Standing.start (H := H) (M := M) names
  obtain ⟨c', K', h', -⟩ := h.run hnames hD hhonest
  exact ⟨c', K', h'⟩

theorem events_replica_start (i : Fin N) : ((start D H names).replicas i).events = ∅ := by
  have hevents := (Replica.indexed_create (H := H) (names i)).events_eq
  have hroot : (Replica.create D H (names i)).headGid = H.digest .root := rfl
  rwa [hroot, ContentHash.opsBelow_root] at hevents

theorem events_start : (start D H names).events = ∅ := by
  ext o
  refine iff_of_false (fun ⟨i, ho⟩ => ?_) (Set.notMem_empty o)
  rwa [events_replica_start] at ho

/-- A hash of the commits of texts. -/
noncomputable def textHash : ContentHash (embedRGA Char).Op (embedRGA Char).Print ℕ :=
  ContentHash.ofTable []

/-- The first of two replicas inserts a character, and the two have a round. -/
def insertThenRound : List (Act (SeqOp Char) ℕ 2) :=
  [.commit ⟨0, Nat.zero_lt_two⟩ (.ins 1 'a' none), .sync ⟨0, Nat.zero_lt_two⟩ ⟨1, Nat.one_lt_two⟩]

theorem injective_pairNames : Function.Injective ![ "a", "b"] := by decide

theorem directRun_insertThenRound : DirectRun textHash (embedMeaning Char)
    (start (embedRGA Char) textHash ![ "a", "b"]) insertThenRound := by
  refine ⟨fun s ps _ hps => ?_, Fin.zero_ne_one, trivial⟩
  cases hps
  rw [events_replica_start, events_start]
  exact ⟨⟨embedMeaning_applicable_iff.mpr ⟨by simp [inserted], by decide, nofun⟩, trivial⟩,
    fun _ _ _ ho => ho.elim, trivial⟩

/-- Two replicas, the first of which has inserted a character. -/
noncomputable abbrev insertedPair : Network (embedRGA Char) ℕ 2 :=
  run textHash (start (embedRGA Char) textHash ![ "a", "b"]) (insertThenRound.take 1)

/-- The two replicas after their round. -/
noncomputable abbrev roundedPair : Network (embedRGA Char) ℕ 2 :=
  run textHash (start (embedRGA Char) textHash ![ "a", "b"]) insertThenRound

theorem reached_insertedPair :
    Reached textHash (embedMeaning Char) ![ "a", "b"] insertedPair :=
  ⟨insertThenRound.take 1, ⟨directRun_insertThenRound.1, trivial⟩, rfl⟩

theorem allSettled_insertedPair : AllSettled textHash insertedPair := by
  obtain ⟨c, h⟩ := Standing.start (H := textHash) (M := embedMeaning Char) ![ "a", "b"]
  have hdirect : DirectRun textHash (embedMeaning Char)
      (start (embedRGA Char) textHash ![ "a", "b"]) (insertThenRound.take 1) :=
    ⟨directRun_insertThenRound.1, trivial⟩
  exact (h.direct_run injective_pairNames (embedRGA_regular Char) (allSettled_start _) hdirect).2

theorem honestRun_insertThenRound : HonestRun textHash (embedMeaning Char)
    (start (embedRGA Char) textHash ![ "a", "b"]) insertThenRound := by
  obtain ⟨c, h⟩ := Standing.start (H := textHash) (M := embedMeaning Char) ![ "a", "b"]
  exact (h.direct_run injective_pairNames (embedRGA_regular Char) (allSettled_start _)
    directRun_insertThenRound).1

theorem reached_roundedPair : Reached textHash (embedMeaning Char) ![ "a", "b"] roundedPair :=
  ⟨insertThenRound, honestRun_insertThenRound, rfl⟩

/-- What the two replicas of a round have seen afterwards. -/
theorem Standing.events_of_joinId (h : Standing H M names c K w) {i j : Fin N} {c' : κ} {K' : Set γ}
    {r' : Replica D γ} (hr' : r'.Stands H M c' K')
    (hhead : r'.headGid = H.joinId (w.replicas i).headGid (w.replicas j).headGid) :
    r'.events = (w.replicas i).events ∪ (w.replicas j).events := by
  rw [hr'.indexed.events_eq, hhead, (ContentHash.isJoin_joinId _ _).opsBelow_eq, ← h.events_replica,
    ← h.events_replica]

/-- The operations that a commit of replica `i` makes of a list. -/
def madeOf (w : Network D γ N) (i : Fin N) (ops : List D.Op) : Set D.Op :=
  {o | ∃ s ps, (w.replicas i).headState = .ok s ∧ Replica.preparedOps D s ops = .ok ps ∧ o ∈ ps}

/-- The operations that a call makes. -/
def madeBy (w : Network D γ N) : Act D.Op γ N → Set D.Op
  | .commit i op => madeOf w i [op]
  | .commitBatch i ops => madeOf w i ops
  | _ => ∅

/-- The operations that a run makes. -/
def produced (H : ContentHash D.Op D.Print γ) : Network D γ N → List (Act D.Op γ N) → Set D.Op
  | _, [] => ∅
  | w, act :: acts => madeBy w act ∪ produced H (step H w act) acts

theorem events_update {i : Fin N} {r' : Replica D γ} {A : Set D.Op}
    (hevents : r'.events = (w.replicas i).events ∪ A) :
    ({ w with replicas := Function.update w.replicas i r' } : Network D γ N).events =
      w.events ∪ A := by
  ext o
  constructor
  · rintro ⟨k, ho⟩
    dsimp only at ho
    by_cases hki : k = i
    · subst hki
      rw [Function.update_self, hevents] at ho
      exact ho.imp_left fun ho => ⟨k, ho⟩
    · rw [Function.update_of_ne hki] at ho
      exact Or.inl ⟨k, ho⟩
  · have hi (ho : o ∈ r'.events) :
        o ∈ ({ w with replicas := Function.update w.replicas i r' } : Network D γ N).events :=
      ⟨i, by simpa using ho⟩
    rintro (⟨k, ho⟩ | ho)
    · by_cases hki : k = i
      · subst hki
        exact hi (hevents ▸ Or.inl ho)
      · exact ⟨k, by simpa [Function.update_of_ne hki] using ho⟩
    · exact hi (hevents ▸ Or.inr ho)

namespace Standing

section

variable (h : Standing H M names c K w) (hnames : Function.Injective names) (hD : D.Regular M)

include h hnames hD

/-- **A commit** makes its author see the operations that it makes. -/
theorem events_commitBatch {i : Fin N} {ops : List D.Op} (hmakes : Makes M w i ops) :
    (Effect.exec (Replica.commitBatch H ops) (w.replicas i)).2.events =
      (w.replicas i).events ∪ madeOf w i ops := by
  obtain ⟨x, r', c', K', hexec, -, -, -, -, hspec⟩ := h.commitBatch hnames hD hmakes
  obtain ⟨s, hs, -⟩ := (h.stands i).exists_headState
  have hmade : madeOf w i ops = {o | ∃ ps, Replica.preparedOps D s ops = .ok ps ∧ o ∈ ps} := by
    simp [madeOf, hs]
  have hcases := hspec s hs
  rw [hexec, hmade]
  cases hps : Replica.preparedOps D s ops with
  | error e =>
    simp only [hps] at hcases
    simp [hcases.2]
  | ok ps =>
    simp only [hps] at hcases
    simp [hcases.2]

/-- **A round** between settled replicas: both see what either had seen. -/
theorem mem_events_sync {a b : Fin N} (hab : a ≠ b) (ha : (w.replicas a).Settled H)
    (hb : (w.replicas b).Settled H) (k : Fin N) (o : D.Op) :
    o ∈ ((Network.step H w (.sync a b)).replicas k).events ↔
      o ∈ (w.replicas k).events ∨ k = a ∧ o ∈ (w.replicas b).events ∨
        k = b ∧ o ∈ (w.replicas a).events := by
  obtain ⟨w', K', hexec, h', -, hpair, hother⟩ := h.sync hnames hD hab ha hb
  have hunion (k : Fin N) (hk : k = a ∨ k = b) := h.events_of_joinId (h'.stands k) (hpair k hk).1
  rw [Network.step, call, hexec]
  by_cases hka : k = a
  · subst hka
    rw [hunion k (Or.inl rfl), Set.mem_union]
    simp [hab]
  · by_cases hkb : k = b
    · subst hkb
      rw [hunion k (Or.inr rfl), Set.mem_union]
      simp [hka, or_comm]
    · rw [hother k hka hkb]
      simp [hka, hkb]

/-- **An honest call** makes operations seen that it makes itself, and no others. -/
theorem events_step {act : Act D.Op γ N} (hhonest : Honest H M w act) :
    (Network.step H w act).events = w.events ∪ madeBy w act := by
  cases act with
  | commit i op =>
    rw [Network.step, call, step_eq_on, ← Replica.exec_commitBatch_singleton]
    exact events_update (h.events_commitBatch hnames hD hhonest)
  | commitBatch i ops =>
    rw [Network.step, call, step_eq_on]
    exact events_update (h.events_commitBatch hnames hD hhonest)
  | send i theirGids =>
    have hmade : madeBy w (.send i theirGids) = ∅ := rfl
    rw [Network.step, call, send, Effect.exec_bind_ok (Effect.exec_get w), hmade, Set.union_empty]
    cases (w.replicas i).delta H theirGids with
    | error e => rw [Effect.exec_bind_error (Effect.exec_lift (.error e) w)]
    | ok commits =>
      rw [Effect.exec_bind_ok (Effect.exec_lift (.ok commits) w)]
      rfl
  | deliver i positions =>
    obtain ⟨x, r', hexec, h', G, hreceived⟩ := h.deliver hnames hD i positions
    have hr' : r'.Stands H M c K := h'.stands_of_update
    rw [Network.step, call, Network.deliver, Effect.exec_bind_ok (Effect.exec_get w), step_eq_on,
      hexec]
    refine events_update ?_
    have hmade : madeBy w (.deliver i positions) = ∅ := rfl
    rw [hmade, Set.union_empty, hr'.indexed.events_eq, hreceived.moved.headGid, h.events_replica]
  | mergeWithGid i g =>
    have hmade : madeBy w (.mergeWithGid i g) = ∅ := rfl
    rw [hmade, Set.union_empty]
    by_cases hg : g ∈ (w.replicas i).held
    · obtain ⟨r', K', hexec, h', -, hmerged⟩ := h.mergeWithGid hnames hD hg
      have hr' : r'.Stands H M c K' := h'.stands_of_update
      rw [Network.step, call, step_eq_on, hexec, events_update (A := H.opsBelow g)]
      · refine Set.union_eq_self_of_subset_right ?_
        rw [h.events_eq]
        exact h.known.opsBelow_subset ((h.stands i).mem_known hg)
      · rw [hr'.indexed.events_eq, hmerged.join.opsBelow_eq, h.events_replica]
    · obtain ⟨e, hexec⟩ := (h.stands i).exec_mergeWithGid_missing hg
      rw [Network.step, call, step_eq_on, hexec, events_update (Set.union_empty _).symm,
        Set.union_empty]
  | sync i j =>
    obtain ⟨hij, hi, hj⟩ := hhonest
    have hmade : madeBy w (.sync i j) = ∅ := rfl
    rw [hmade, Set.union_empty]
    ext o
    simp only [events, Set.mem_ofPred_eq, h.mem_events_sync hnames hD hij hi hj]
    constructor
    · rintro ⟨k, ho | ⟨-, ho⟩ | ⟨-, ho⟩⟩
      · exact ⟨k, ho⟩
      · exact ⟨j, ho⟩
      · exact ⟨i, ho⟩
    · rintro ⟨k, ho⟩
      exact ⟨k, Or.inl ho⟩
  | compactStable => exact hhonest.elim
  | gc => exact hhonest.elim
  | prune => exact hhonest.elim

end

/-- **No operation is lost, and none is invented** by an honest run. -/
theorem events_run (hnames : Function.Injective names) (hD : D.Regular M)
    (h : Standing H M names c K w) {acts : List (Act D.Op γ N)} (hhonest : HonestRun H M w acts) :
    (Network.run H w acts).events = w.events ∪ produced H w acts := by
  induction acts generalizing w c K with
  | nil => exact (Set.union_empty _).symm
  | cons act acts ih =>
    obtain ⟨c₁, K₁, h₁, -⟩ := h.step hnames hD hhonest.1
    have hrun : Network.run H w (act :: acts) = Network.run H (Network.step H w act) acts := rfl
    rw [hrun, ih h₁ hhonest.2, h.events_step hnames hD hhonest.1, produced, Set.union_assoc]

end Standing

/-! ### Quiet phases -/

/-- What replica `i` had seen before a sequence of calls, replica `j` has seen afterwards. -/
def Hears {ω : Type} : List (Act ω γ N) → Fin N → Fin N → Prop
  | [], i, j => i = j
  | .sync a b :: acts, i, j => Hears acts i j ∨ i = a ∧ Hears acts b j ∨ i = b ∧ Hears acts a j
  | _ :: acts, i, j => Hears acts i j

theorem directRun_append {acts acts' : List (Act D.Op γ N)} : DirectRun H M w (acts ++ acts') ↔
    DirectRun H M w acts ∧ DirectRun H M (run H w acts) acts' := by
  induction acts generalizing w with
  | nil => exact (and_iff_right trivial).symm
  | cons act acts ih => exact (and_congr_right fun _ => ih).trans and_assoc.symm

/-- **A quiet phase**: every replica has seen what the replicas that it has heard from had seen. -/
theorem Standing.mem_events_quiet (hnames : Function.Injective names) (hD : D.Regular M)
    (h : Standing H M names c K w) (hsettled : AllSettled H w) {acts : List (Act D.Op γ N)}
    (hdirect : DirectRun H M w acts) (hquiet : ∀ act ∈ acts, ∃ a b, act = .sync a b) (j : Fin N)
    (o : D.Op) : o ∈ ((Network.run H w acts).replicas j).events ↔
      ∃ i, Hears acts i j ∧ o ∈ (w.replicas i).events := by
  induction acts generalizing w c K with
  | nil =>
    simp only [Hears, exists_eq_left]
    exact Iff.rfl
  | cons act acts ih =>
    obtain ⟨a, b, rfl⟩ := hquiet act List.mem_cons_self
    obtain ⟨hhonest, hsettled'⟩ := h.direct_step hnames hD hsettled hdirect.1
    obtain ⟨c', K', h', -⟩ := h.step hnames hD hhonest
    have hrun : Network.run H w (.sync a b :: acts) =
        Network.run H (Network.step H w (.sync a b)) acts := rfl
    rw [hrun, ih h' hsettled' hdirect.2 fun act hact => hquiet act (List.mem_cons_of_mem _ hact)]
    simp only [h.mem_events_sync hnames hD hdirect.1 (hsettled a) (hsettled b), Hears]
    constructor
    · rintro ⟨i, hij, ho | ⟨rfl, ho⟩ | ⟨rfl, ho⟩⟩
      · exact ⟨i, Or.inl hij, ho⟩
      · exact ⟨b, Or.inr (Or.inr ⟨rfl, hij⟩), ho⟩
      · exact ⟨a, Or.inr (Or.inl ⟨rfl, hij⟩), ho⟩
    · rintro ⟨i, hij | ⟨rfl, hij⟩ | ⟨rfl, hij⟩, ho⟩
      · exact ⟨i, hij, Or.inl ho⟩
      · exact ⟨b, hij, Or.inr (Or.inr ⟨rfl, ho⟩)⟩
      · exact ⟨a, hij, Or.inr (Or.inl ⟨rfl, ho⟩)⟩

/-- **A quiet phase in which everyone hears from everyone**: all replicas have seen what any has seen, and
read the same. -/
theorem Standing.exists_view (hnames : Function.Injective names) (hD : D.Regular M)
    (h : Standing H M names c K w) (hsettled : AllSettled H w) {acts : List (Act D.Op γ N)}
    (hdirect : DirectRun H M w acts) (hquiet : ∀ act ∈ acts, ∃ a b, act = .sync a b)
    (hhears : ∀ i j, Hears acts i j) :
    ∃ view, ∀ i, ((Network.run H w acts).replicas i).read = .ok view ∧
      ((Network.run H w acts).replicas i).events = w.events := by
  obtain ⟨hhonest, -⟩ := h.direct_run hnames hD hsettled hdirect
  obtain ⟨c', K', h', -⟩ := h.run hnames hD hhonest
  have hevents (i : Fin N) : ((Network.run H w acts).replicas i).events = w.events := by
    ext o
    rw [h.mem_events_quiet hnames hD hsettled hdirect hquiet]
    exact exists_congr fun k => and_iff_right (hhears k i)
  rcases Nat.eq_zero_or_pos N with rfl | hpos
  · exact ⟨D.read D.init, fun i => i.elim0⟩
  · obtain ⟨s, hs, -⟩ := (h'.stands ⟨0, hpos⟩).exists_read
    refine ⟨D.read s, fun i => ⟨?_, hevents i⟩⟩
    rw [← hs]
    exact (h'.stands i).read_eq (h'.stands _) ((hevents i).trans (hevents _).symm)

/-- A run of commits and rounds from the start: the replicas are settled, and have together seen what the
run has made. -/
theorem exists_standing_run (hnames : Function.Injective names) (hD : D.Regular M)
    {acts : List (Act D.Op γ N)} (hdirect : DirectRun H M (start D H names) acts) : ∃ c K,
      Standing H M names c K (run H (start D H names) acts) ∧
      AllSettled H (run H (start D H names) acts) ∧
      (run H (start D H names) acts).events = produced H (start D H names) acts := by
  obtain ⟨c, h⟩ := Standing.start (H := H) (M := M) names
  obtain ⟨hhonest, hsettled⟩ := h.direct_run hnames hD (allSettled_start names) hdirect
  obtain ⟨c', K', h', -⟩ := h.run hnames hD hhonest
  have hmade := h.events_run hnames hD hhonest
  rw [events_start, Set.empty_union] at hmade
  exact ⟨c', K', h', hsettled, hmade⟩

section Hub

variable {ω δ : Type}

/-- The first replica has a round with each of the others. -/
def hubRounds (ω δ : Type) (N : ℕ) : List (Act ω δ (N + 1)) :=
  (List.finRange N).map fun k => .sync 0 k.succ

theorem hears_self (acts : List (Act ω δ N)) (i : Fin N) : Hears acts i i := by
  induction acts with
  | nil => rfl
  | cons act acts ih =>
    cases act with
    | sync a b => exact Or.inl ih
    | _ => exact ih

/-- The two replicas of a round hear from each other. -/
theorem hears_of_mem {acts : List (Act ω δ N)} {a b : Fin N} (hmem : Act.sync a b ∈ acts) :
    Hears acts a b ∧ Hears acts b a := by
  induction acts with
  | nil => simp at hmem
  | cons act acts ih =>
    rcases List.mem_cons.mp hmem with rfl | hlater
    · exact ⟨Or.inr (Or.inl ⟨rfl, hears_self acts b⟩), Or.inr (Or.inr ⟨rfl, hears_self acts a⟩)⟩
    · cases act with
      | sync a' b' => exact (ih hlater).imp Or.inl Or.inl
      | _ => exact ih hlater

theorem hears_append {acts acts' : List (Act ω δ N)} {i k j : Fin N} (hik : Hears acts i k)
    (hkj : Hears acts' k j) : Hears (acts ++ acts') i j := by
  induction acts generalizing i with
  | nil =>
    obtain rfl : i = k := hik
    exact hkj
  | cons act acts ih =>
    cases act with
    | sync a b =>
      rcases hik with hik | ⟨rfl, hik⟩ | ⟨rfl, hik⟩
      · exact Or.inl (ih hik)
      · exact Or.inr (Or.inl ⟨rfl, ih hik⟩)
      · exact Or.inr (Or.inr ⟨rfl, ih hik⟩)
    | _ => exact ih hik

/-- **In two passes** everyone hears from everyone: the hub collects in the first, and tells in the
second. -/
theorem hears_hubRounds (i j : Fin (N + 1)) :
    Hears (hubRounds ω δ N ++ hubRounds ω δ N) i j := by
  have hhub (k : Fin (N + 1)) : Hears (hubRounds ω δ N) 0 k ∧ Hears (hubRounds ω δ N) k 0 := by
    refine Fin.cases ⟨hears_self _ 0, hears_self _ 0⟩ (fun k => ?_) k
    exact hears_of_mem (List.mem_map_of_mem (List.mem_finRange k))
  exact hears_append (hhub i).2 (hhub j).1

end Hub

theorem directRun_of_sync {acts : List (Act D.Op γ N)}
    (hsync : ∀ act ∈ acts, ∃ a b, a ≠ b ∧ act = .sync a b) : DirectRun H M w acts := by
  induction acts generalizing w with
  | nil => trivial
  | cons act acts ih =>
    obtain ⟨a, b, hab, rfl⟩ := hsync act List.mem_cons_self
    exact ⟨hab, ih fun act hact => hsync act (List.mem_cons_of_mem _ hact)⟩

end Network

end SalRuntime
