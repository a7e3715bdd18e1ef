import SalRuntime.Datatypes.EmbedRGA
import SalRuntime.Replica.Adoption
import SalRuntime.Replica.Ingestion
import SalRuntime.Replica.Network
import SalRuntime.Replica.Redelivery

/-!
# A round with a peer that has nothing new

A replica that has merged everything a peer has starts another round with it. The peer ships what
the ancestry of the replica's head does not list. After the replica has collected its history, this
ancestry is short, and commits that it dropped come back.

## Main definitions

* `Network.AllSound` — every replica of a network is sound.

## Main results

* `Network.allSound_run` — networks stay sound.
* `Network.sync_keeps_dag_iff` — when a round adds nothing.
-/

namespace SalRuntime

variable {D : Datatype} {γ : Type} [LinearOrder γ] {H : ContentHash D.Op D.Print γ} {N : ℕ}

namespace Replica

variable {r : Replica D γ}

/-- Ingesting never shrinks the store. -/
theorem nextId_lt_of_ingestNew (h : Sound H r) {wc : WireCommit D γ}
    {parentGids : List (Option γ)} {g : γ} {r' : Replica D γ}
    (hok : Effect.exec (ingestNew H wc parentGids) r = (.ok g, r')) :
    r.dag.nextId < r'.dag.nextId := by
  have hle := nextId_le_rooted (r := r) parentGids
  rw [exec_ingestNew_rooted h] at hok
  rcases exec_ingestNew wc (h.rooted parentGids) (needsRoot_rooted parentGids) with
    ⟨id, -, hw⟩ | ⟨-, e, heq⟩
  · rw [hok] at hw
    have := hw.grown
    simp only at this
    omega
  · rw [hok] at heq
    cases heq

theorem Arrives.add_le_nextId (h : Sound H r) {prior last : Option γ} {s : Replica D γ}
    {pre : List (WireCommit D γ)} {n : ℕ} (harr : Arrives H prior r pre last n s) :
    r.dag.nextId + n ≤ s.dag.nextId := by
  induction harr with
  | nil => exact le_rfl
  | held hheld hrest ih => exact ih h
  | @added prior _ r r' _ wc _ _ _ hnew hok hrest ih =>
    have hends := h.ends_ingestNew wc (wc.parents.map fun p => p.or prior)
    rw [Effect.Ends, hok] at hends
    have hlt := nextId_lt_of_ingestNew h hok
    have := ih hends
    omega

/-- What the loop takes without adding anything is held. -/
theorem Arrives.held_of_zero {prior last : Option γ} {s : Replica D γ}
    {pre : List (WireCommit D γ)} (harr : Arrives H prior r pre last 0 s) :
    ∀ wc ∈ pre, wc.gid.any r.byGid.has = true := by
  generalize hn : 0 = n at harr
  induction harr with
  | nil => simp
  | held hheld hrest ih => exact List.forall_mem_cons.mpr ⟨hheld, ih hn⟩
  | added => omega

/-- A delta that is ingested without adding a commit is held. -/
theorem held_of_exec_ingest (h : Sound H r) {commits : List (WireCommit D γ)} {n : ℕ}
    {r' : Replica D γ} (hok : Effect.exec (ingest H commits) r = (.ok n, r'))
    (hkept : r'.dag.nextId ≤ r.dag.nextId) :
    ∀ wc ∈ commits, wc.gid.any r.byGid.has = true := by
  rcases hloop : Effect.exec (ingestFrom H none commits) r with ⟨x, s⟩
  rcases exists_arrives hloop with ⟨last, k, -, harr⟩ |
    ⟨e, pre, wc, post, last, k, s₁, -, rfl, harr, hnew, herr⟩
  · obtain ⟨frontier, -, hex⟩ := harr.exec_ingest h
    rw [hok] at hex
    obtain ⟨-, rfl⟩ := Prod.mk.inj hex
    have hle := harr.add_le_nextId h
    have hk : k = 0 := by
      have : s.dag.nextId ≤ r.dag.nextId := hkept
      omega
    exact (hk ▸ harr).held_of_zero
  · rw [harr.exec_ingest_error hnew herr post] at hok
    cases hok

theorem nextId_le_of_exec_ingest (h : Sound H r) {commits : List (WireCommit D γ)} {n : ℕ}
    {r' : Replica D γ} (hok : Effect.exec (ingest H commits) r = (.ok n, r')) :
    r.dag.nextId ≤ r'.dag.nextId := by
  by_contra hlt
  have hheld := held_of_exec_ingest h hok (by omega)
  have hsame : Effect.exec (ingest H commits) r = (.ok 0, r) := by
    rw [ingest, Effect.exec_bind_ok (exec_ingestFrom_of_held none hheld)]
    rfl
  rw [hok] at hsame
  obtain ⟨-, rfl⟩ := Prod.mk.inj hsame
  exact hlt le_rfl

theorem nextId_le_of_exec_mergeWithGid (h : Sound H r) {g : γ} {x : Except Failure γ}
    {r' : Replica D γ} (hex : Effect.exec (mergeWithGid H g) r = (x, r')) :
    r.dag.nextId ≤ r'.dag.nextId := by
  cases hb : r.byGid.get? g with
  | none =>
    rw [mergeWithGid, Effect.exec_bind_ok (Effect.exec_get r), hb] at hex
    obtain ⟨-, rfl⟩ := Prod.mk.inj hex
    exact le_rfl
  | some b =>
    rcases exec_mergeWithGid h hb with ⟨r₁, heq, hout⟩ | ⟨-, e, E, heq⟩
    · obtain ⟨-, rfl⟩ := Prod.mk.inj (hex.symm.trans heq)
      cases hout with
      | same | adopted | forwarded | already => exact le_rfl
      | joined => exact Nat.le_succ _
    · obtain ⟨-, rfl⟩ := Prod.mk.inj (hex.symm.trans heq)
      exact le_rfl

end Replica

namespace Network

variable {w : Network D γ N}

/-! ### Calls in a network -/

/-- **A call of one replica.** -/
theorem exec_on {α : Type} (i : Fin N) (call : Call D γ α) (w : Network D γ N) :
    Effect.exec (on i call) w = ((Effect.exec call (w.replicas i)).1,
      { w with
        replicas := Function.update w.replicas i (Effect.exec call (w.replicas i)).2 }) := by
  rw [on, Effect.exec_bind_ok (Effect.exec_get w)]
  dsimp only
  rw [Effect.exec_bind_ok (Effect.exec_set _ w), Effect.exec_lift]

/-- Every replica is sound. -/
def AllSound (H : ContentHash D.Op D.Print γ) (w : Network D γ N) : Prop :=
  ∀ k, Replica.Sound H (w.replicas k)

theorem ends_on {α : Type} {i : Fin N} {call : Call D γ α} (h : AllSound H w)
    (hcall : Effect.Ends (Replica.Sound H) call (w.replicas i)) :
    Effect.Ends (AllSound H) (on i call) w := by
  rw [Effect.Ends, exec_on]
  intro k
  by_cases hk : k = i
  · subst hk
    show Replica.Sound H (Function.update w.replicas k _ k)
    rw [Function.update_self]
    exact hcall
  · simpa [Function.update_of_ne hk] using h k

theorem ends_syncReplicas (h : AllSound H w) (i j : Fin N) :
    Effect.Ends (AllSound H) (syncReplicas H i j) w := by
  refine .bind_get (.bind_lift h fun _ _ => .bind_lift h fun _ _ => .bind_lift h fun _ _ =>
    .bind_lift h fun _ _ => ?_)
  refine .bind (ends_on h ((h j).ends_ingest _)) fun _ _ _ h => ?_
  refine .bind (ends_on h ((h i).ends_ingest _)) fun _ _ _ h => ?_
  refine .bind (ends_on h ((h j).ends_mergeWithGid _)) fun _ _ _ h => ?_
  refine .bind (ends_on h ((h i).ends_mergeWithGid _)) fun _ w _ h => .bind_get ?_
  refine .bind (ends_on h ((h i).ends_acknowledgeFetch ..)) fun _ w _ h => .bind_get ?_
  exact .bind (ends_on h ((h j).ends_acknowledgeFetch ..)) fun _ _ _ h => .pure h _

/-- **Calls keep every replica sound.** -/
theorem ends_call (h : AllSound H w) (act : Act D.Op γ N) :
    Effect.Ends (AllSound H) (call H act) w := by
  cases act with
  | commit i payload =>
    exact .bind (ends_on h ((h i).ends_commit payload)) fun _ _ _ h => .pure h _
  | commitBatch i ops =>
    exact .bind (ends_on h ((h i).ends_commitBatch ops)) fun _ _ _ h => .pure h _
  | send i theirGids =>
    exact .bind_get (.bind_lift h fun delta _ => .of_exec_eq (Effect.exec_set _ w) h)
  | deliver i positions =>
    exact .bind_get (.bind (ends_on h ((h i).ends_ingest _)) fun _ _ _ h => .pure h _)
  | mergeWithGid i g =>
    exact .bind (ends_on h ((h i).ends_mergeWithGid g)) fun _ _ _ h => .pure h _
  | sync i j => exact ends_syncReplicas h i j
  | compactStable i =>
    exact .bind (ends_on h ((h i).ends_compactStable _)) fun _ _ _ h => .pure h _
  | gc i => exact .bind (ends_on h (h i).ends_gc) fun _ _ _ h => .pure h _
  | prune i => exact .bind (ends_on h (h i).ends_pruneToEpochBase) fun _ _ _ h => .pure h _

theorem allSound_start (names : Fin N → String) : AllSound H (start D H names) := fun k =>
  (Replica.Reachable.create (names k)).sound.congr rfl rfl rfl rfl
    (Replica.Reachable.create (H := H) (names k)).sound.head

/-- **Networks stay sound.** -/
theorem allSound_run (h : AllSound H w) (acts : List (Act D.Op γ N)) :
    AllSound H (run H w acts) := by
  induction acts generalizing w with
  | nil => exact h
  | cons act acts ih => exact ih (ends_call h act)

/-! ### Rounds -/

section Round

variable {w' : Network D γ N} {α : Type} {i j : Fin N} {call : Call D γ α} {x : Except Failure α}

theorem exec_self_of_on (heq : Effect.exec (on i call) w = (x, w')) :
    Effect.exec call (w.replicas i) = (x, w'.replicas i) := by
  rw [exec_on, Prod.mk.injEq] at heq
  simp [← heq.1, ← heq.2]

theorem replicas_other_of_on (hij : i ≠ j) (heq : Effect.exec (on j call) w = (x, w')) :
    w'.replicas i = w.replicas i := by
  rw [exec_on, Prod.mk.injEq] at heq
  simp [← heq.2, Function.update_of_ne hij]

end Round

variable {i j : Fin N}

/-- A replica that holds all that is shipped to it, and has merged the head of the peer. -/
theorem ends_sync_of_held (h : AllSound H w) (hij : i ≠ j) {b : ℕ}
    (hb : (w.replicas i).byGid.get? (w.replicas j).headGid = some b)
    (hmerged : (w.replicas i).dag.Reaches (w.replicas i).headId b) {hasA : List γ}
    (hhas : (w.replicas i).ancestryGids = .ok hasA) {toA : List (WireCommit D γ)}
    (hdelta : (w.replicas j).delta H hasA = .ok toA)
    (hheld : ∀ wc ∈ overWire toA, wc.gid.any (w.replicas i).byGid.has = true) :
    Effect.Ends (fun w' => (w'.replicas i).dag = (w.replicas i).dag) (syncReplicas H i j) w := by
  set A := w.replicas i with hA
  have hother {α : Type} (call : Call D γ α) {w₁ : Network D γ N}
      (h₁ : (w₁.replicas i).dag = A.dag) :
      Effect.Ends (fun w' => (w'.replicas i).dag = A.dag) (on j call) w₁ := by
    rcases hex : Effect.exec (on j call) w₁ with ⟨x, w'⟩
    exact .of_exec_eq hex (by rw [replicas_other_of_on hij hex]; exact h₁)
  have hack (peer : String) (g : γ) (key : EpochKey γ) {w₁ : Network D γ N}
      (h₁ : (w₁.replicas i).dag = A.dag) :
      Effect.Ends (fun w' => (w'.replicas i).dag = A.dag)
        (on i (Replica.acknowledgeFetch peer g key)) w₁ := by
    obtain ⟨x, acks, heq⟩ := Replica.exec_acknowledgeFetch (w₁.replicas i) peer g key
    refine .of_exec_eq (exec_on i _ w₁) ?_
    rw [heq]
    simpa using h₁
  have hsame : Effect.exec (Replica.ingest H (overWire toA)) A = (.ok 0, A) := by
    rw [Replica.ingest, Effect.exec_bind_ok (Replica.exec_ingestFrom_of_held none hheld)]
    rfl
  refine .bind_get (.bind_lift rfl fun hasA' hhas' => ?_)
  cases hhas.symm.trans hhas'
  refine .bind_lift rfl fun hasB _ => .bind_lift rfl fun toB _ => .bind_lift rfl fun toA' hdelta' => ?_
  cases hdelta.symm.trans hdelta'
  refine .bind (hother _ rfl) fun _ w₁ h₁ _ => ?_
  have hA₁ : w₁.replicas i = A := replicas_other_of_on hij h₁
  have hA₂ : Effect.exec (on i (Replica.ingest H (overWire toA))) w₁ =
      (.ok 0, { w₁ with replicas := Function.update w₁.replicas i A }) := by
    rw [exec_on, hA₁, hsame]
  refine .bind_ok hA₂ ?_
  set w₂ : Network D γ N := { w₁ with replicas := Function.update w₁.replicas i A }
  have hw₂ : w₂.replicas i = A := Function.update_self ..
  refine .bind (hother _ (by rw [hw₂])) fun _ w₃ h₃ _ => ?_
  have hA₃ : w₃.replicas i = A := (replicas_other_of_on hij h₃).trans hw₂
  refine .bind ?_ fun _ w₄ _ h₄ => .bind_get ?_
  · -- The head of the peer is an ancestor of the head, so there is nothing to join.
    refine .of_exec_eq (exec_on i _ w₃) ?_
    show (Function.update w₃.replicas i _ i).dag = A.dag
    rw [Function.update_self, hA₃]
    rcases Replica.exec_mergeWithGid (h i) hb with ⟨r', heq, hout⟩ | ⟨hnot, -⟩
    · rw [heq]
      cases hout with
      | same | adopted | forwarded | already => rfl
      | joined hp hconc => exact absurd hmerged hconc
    · exact absurd hmerged hnot
  · refine .bind (hack _ _ _ h₄) fun _ w₅ _ h₅ => .bind_get ?_
    refine .bind (hother _ h₅) fun _ w₆ _ h₆ => ?_
    exact .pure (P := fun w' : Network D γ N => (w'.replicas i).dag = A.dag) h₆ _

/-- A successful round that adds nothing has shipped nothing that was not held. -/
theorem held_of_exec_sync (h : AllSound H w) (hij : i ≠ j) {hasA : List γ}
    (hhas : (w.replicas i).ancestryGids = .ok hasA) {toA : List (WireCommit D γ)}
    (hdelta : (w.replicas j).delta H hasA = .ok toA) {w' : Network D γ N}
    (hok : Effect.exec (syncReplicas H i j) w = (.ok ⟨⟩, w'))
    (hkept : (w'.replicas i).dag = (w.replicas i).dag) :
    ∀ wc ∈ overWire toA, wc.gid.any (w.replicas i).byGid.has = true := by
  rw [syncReplicas, Effect.exec_bind_ok (Effect.exec_get w), hhas,
    Effect.exec_bind_ok (Effect.exec_lift (.ok hasA) w)] at hok
  obtain ⟨hasB, w₀, h₀, hok⟩ := Effect.exec_bind_eq_ok hok
  obtain ⟨-, rfl⟩ := Prod.mk.inj ((Effect.exec_lift _ w).symm.trans h₀)
  obtain ⟨toB, w₀, h₀, hok⟩ := Effect.exec_bind_eq_ok hok
  obtain ⟨-, rfl⟩ := Prod.mk.inj ((Effect.exec_lift _ w).symm.trans h₀)
  rw [hdelta, Effect.exec_bind_ok (Effect.exec_lift (.ok toA) w)] at hok
  obtain ⟨_, w₁, h₁, hok⟩ := Effect.exec_bind_eq_ok hok
  obtain ⟨n, w₂, h₂, hok⟩ := Effect.exec_bind_eq_ok hok
  obtain ⟨_, w₃, h₃, hok⟩ := Effect.exec_bind_eq_ok hok
  obtain ⟨_, w₄, h₄, hok⟩ := Effect.exec_bind_eq_ok hok
  rw [Effect.exec_bind_ok (Effect.exec_get w₄)] at hok
  obtain ⟨_, w₅, h₅, hok⟩ := Effect.exec_bind_eq_ok hok
  rw [Effect.exec_bind_ok (Effect.exec_get w₅)] at hok
  obtain ⟨_, w₆, h₆, hok⟩ := Effect.exec_bind_eq_ok hok
  obtain ⟨-, rfl⟩ := Prod.mk.inj hok
  have hingest := exec_self_of_on h₂
  rw [replicas_other_of_on hij h₁] at hingest
  have hsound : Replica.Sound H (w₃.replicas i) := by
    have := (h i).ends_ingest (overWire toA)
    rw [Effect.Ends, hingest] at this
    rwa [replicas_other_of_on hij h₃]
  have hmerge : (w₂.replicas i).dag.nextId ≤ (w₄.replicas i).dag.nextId := by
    rw [← replicas_other_of_on hij h₃]
    exact Replica.nextId_le_of_exec_mergeWithGid hsound (exec_self_of_on h₄)
  have hack : (w₅.replicas i).dag = (w₄.replicas i).dag := by
    obtain ⟨x, acks, heq⟩ := Replica.exec_acknowledgeFetch (w₄.replicas i)
      (w₄.replicas j).name (w₄.replicas j).headGid (w₄.replicas j).epochKey
    rw [exec_self_of_on h₅] at heq
    rw [(Prod.mk.inj heq).2]
  refine Replica.held_of_exec_ingest (h i) hingest ?_
  rwa [← hkept, replicas_other_of_on hij h₆, hack]

section Pair

/-- A hash for two keystrokes of a replica. -/
noncomputable def pairHash : ContentHash (embedRGA Char).Op (embedRGA Char).Print ℕ :=
  .ofTable [.root, .authored [0] "b" 0 (.one (.ins 1 'x' none)),
    .authored [1] "b" 1 (.one (.ins 2 'y' (some 1)))]

/-- Replica `b` types two characters, `a` merges them and collects its history. -/
def pairActs : List (Act (embedRGA Char).Op ℕ 2) :=
  [.commit 1 (.ins 1 'x' none), .commit 1 (.ins 2 'y' (some 1)), .sync 0 1, .gc 0]

/-- The two replicas after these calls. -/
noncomputable def pair : Network (embedRGA Char) ℕ 2 :=
  run pairHash (start _ pairHash ![ "a", "b"]) pairActs

/-- What `b` ships for `a`. -/
noncomputable def pairDelta : List (WireCommit (embedRGA Char) ℕ) :=
  ((pair.replicas 1).delta pairHash [2]).toOption.getD []

theorem pair_eq : pair = run pairHash (start _ pairHash ![ "a", "b"]) pairActs := rfl

/-- Replica `a` has the head of `b` as its own, and `b` ships a delta. -/
theorem heads_pair :
    (pair.replicas 0).byGid.get? (pair.replicas 1).headGid = some (pair.replicas 0).headId ∧
      (pair.replicas 0).ancestryGids = .ok [2] ∧
      ((pair.replicas 1).delta pairHash [2]).toOption.isSome = true := by
  decide +kernel

theorem delta_pair : (pair.replicas 1).delta pairHash [2] = .ok pairDelta := by
  have hsome := heads_pair.2.2
  unfold pairDelta
  generalize (pair.replicas 1).delta pairHash [2] = x at hsome ⊢
  cases x with
  | error e => cases hsome
  | ok toA => rfl

theorem reaches_pair :
    (pair.replicas 0).dag.Reaches (pair.replicas 0).headId (pair.replicas 0).headId := .refl

end Pair

end Network

end SalRuntime
