import SalRuntime.Datatypes.Batches
import SalRuntime.Replica.Reachable

/-!
# Batch commits

A replica can seal a list of operations as one commit. The state of the commit, at its author and
at a peer that ingests the list, is the one that the operations reach when they are committed one
after the other.

## Main definitions

* `Datatype.Reaches` — the states that the operations of a datatype reach.
* `Datatype.Batched` — a datatype whose batches are folds.
* `Replica.commitEach` — operations are committed one after the other.
* `Replica.BatchesAlike` — a batch commit has the state of the single commits.

## Main results

* `Datatype.Batched.batchesAlike` — datatypes whose batches are folds have this property.
* `batch_eq_each` — the embedded-chain RGA, the tombstone RGA, and rich text over both.
-/

namespace SalRuntime

/-! ### Datatypes whose batches are folds -/

namespace Datatype

/-- The states that the operations of a datatype reach. -/
inductive Reaches (D : Datatype) : D.State → Prop
  | init : Reaches D D.init
  | apply {s op s'} (h : Reaches D s) (hs : D.apply s op = .ok s') : Reaches D s'
  | batch {s ops s'} (h : Reaches D s) (hs : Replica.applyOps D s (.many ops) = .ok s') :
      Reaches D s'
  | merge {l a b m} (hl : Reaches D l) (ha : Reaches D a) (hb : Reaches D b)
      (hs : D.merge3 l a b = .ok m) : Reaches D m

/-- Batches are folds on the states that are reached, and a datatype whose batches are not prepared
operation by operation does not prepare operations. -/
structure Batched (D : Datatype) : Prop where
  /-- A batch is a fold. -/
  fold : ∀ {s}, D.Reaches s → ∀ ops,
    SameOutcome Eq (Replica.applyOps D s (.many ops)) (ops.foldlM D.apply s)
  /-- Operations need no preparation. -/
  plain : D.needsPrepare = false → ∀ s op, D.prepared s op = .ok op

end Datatype

namespace Replica

variable {D : Datatype} {γ : Type} [LinearOrder γ] {H : ContentHash D.Op D.Print γ}
  {r : Replica D γ} {s : D.State}

/-- Prepare an operation and apply it. -/
def prepareApply (D : Datatype) (s : D.State) (op : D.Op) : Except Failure D.State := do
  D.apply s (← D.prepared s op)

/-- Commit operations one after the other. -/
def commitEach (H : ContentHash D.Op D.Print γ) : List D.Op → Call D γ Unit
  | [] => pure ()
  | op :: ops => do
    let _ ← commit H op
    commitEach H ops

/-- The second replica has one more commit of the first one as its head. -/
structure HeadedBy (H : ContentHash D.Op D.Print γ) (r r' : Replica D γ) (payload : Payload D.Op)
    (state : D.State) : Prop where
  /-- The indexes agree with the store. -/
  sound : Sound H r'
  /-- The operation. -/
  op : r'.dag.opOf r'.headId = some ⟨r.name, r.seq, payload⟩
  /-- The state. -/
  state : r'.headState = .ok state

/-- **An operation of its own** becomes the head. -/
theorem Sound.exec_author_headed (h : Sound H r) (payload : Payload D.Op) (state : D.State) :
    ∃ g r', Effect.exec (author H payload state) r = (.ok g, r') ∧
      HeadedBy H r r' payload state := by
  set r₁ : Replica D γ := { r with seq := r.seq + 1 }
  set op : Op (Payload D.Op) := ⟨r.name, r.seq, payload⟩
  have h₁ : Sound H r₁ := h.congr rfl rfl rfl rfl h.head
  have hp : ∀ p ∈ [r.headId], r₁.dag.has p = true := by simpa using h.head
  obtain ⟨g, hid⟩ : ∃ g, commitContentId H (r₁.nextCommit [r.headId] (some op) state)
      (r₁.parentGids (r₁.nextCommit [r.headId] (some op) state)) = .ok g := ⟨_, rfl⟩
  have hsound : Sound H (r₁.filed [r.headId] (some op) state r.epochKey g) := h₁.filed hp g
  set r₂ : Replica D γ := r₁.filed [r.headId] (some op) state r.epochKey g
  have hhas : r₂.dag.has r₁.dag.nextId = true := has_filed_self
  obtain ⟨frontier, hset⟩ := exec_setHead (r := r₂) hhas
  have hget : r₂.dag.commits.get? r₁.dag.nextId =
      some (r₁.nextCommit [r.headId] (some op) state) := Dag.get?_push_self ..
  refine ⟨g, r₂.headedAt r₁.dag.nextId frontier, ?_, hsound.headedAt hhas frontier, ?_, ?_⟩
  · rw [author, Effect.exec_bind_ok (Effect.exec_get r), Effect.exec_bind_ok (Effect.exec_set r₁ r),
      Effect.exec_bind_ok (exec_file_of_ok hp r.epochKey hid)]
    exact Effect.exec_bind_ok hset _
  · show (r₂.dag.commits.get? r₁.dag.nextId).bind Commit.op = some op
    rw [hget]
    rfl
  · show (do return (← r₂.dag.get r₁.dag.nextId).state : Except Failure D.State) = .ok state
    rw [Dag.get_eq_ok.mpr hget]
    rfl

/-! ### Single commits -/

theorem exec_liftM_ok {α : Type} {x : Except Failure α} {a : α} (h : x = .ok a) :
    Effect.exec (liftM x : Call D γ α) r = (.ok a, r) := by
  rw [Effect.exec_lift, h]

/-- **A single commit** on a head with a known state. -/
theorem exec_commit (hs : r.headState = .ok s) (op : D.Op) :
    Effect.exec (commit H op) r = match D.prepared s op with
      | .error e => (.error e, r)
      | .ok p => match D.apply s p with
        | .error e => (.error e, r)
        | .ok t => Effect.exec (author H (.one p) t) r := by
  rw [commit, Effect.exec_bind_ok (Effect.exec_get r), Effect.exec_bind_ok (exec_liftM_ok hs)]
  cases D.prepared s op with
  | error e => exact Effect.exec_bind_error (Effect.exec_lift (.error e) r) _
  | ok p =>
    rw [Effect.exec_bind_ok (Effect.exec_lift (.ok p) r)]
    dsimp only
    cases D.apply s p with
    | error e => exact Effect.exec_bind_error (Effect.exec_lift (.error e) r) _
    | ok t => exact Effect.exec_bind_ok (Effect.exec_lift (.ok t) r) _

/-- **Single commits** fold the operations over the state of the head. -/
theorem Sound.exec_commitEach (h : Sound H r) (hs : r.headState = .ok s) (ops : List D.Op) :
    match ops.foldlM (prepareApply D) s with
    | .ok t => ∃ r', Effect.exec (commitEach H ops) r = (.ok (), r') ∧ Sound H r' ∧
        r'.headState = .ok t
    | .error e => ∃ r', Effect.exec (commitEach H ops) r = (.error e, r') := by
  induction ops generalizing r s with
  | nil => exact ⟨r, rfl, h, hs⟩
  | cons op ops ih =>
    rw [List.foldlM_cons, commitEach]
    have hcommit := exec_commit (H := H) hs op
    cases hp : D.prepared s op with
    | error e =>
      rw [hp] at hcommit
      rw [prepareApply, hp, Effect.exec_bind_error hcommit]
      exact ⟨r, rfl⟩
    | ok p =>
      rw [hp] at hcommit
      dsimp only at hcommit
      have hstep : prepareApply D s op = D.apply s p := by rw [prepareApply, hp]; rfl
      rw [hstep]
      cases ha : D.apply s p with
      | error e =>
        rw [ha] at hcommit
        rw [Effect.exec_bind_error hcommit]
        exact ⟨r, rfl⟩
      | ok t =>
        rw [ha] at hcommit
        obtain ⟨g, r', hauthor, hheaded⟩ := h.exec_author_headed (.one p) t
        rw [Effect.exec_bind_ok (hcommit.trans hauthor)]
        exact ih hheaded.sound hheaded.state

/-- Preparing a list of operations is preparing the first, applying it and preparing the rest. -/
theorem prepareEach_cons {D : Datatype} {s t : D.State} {op p : D.Op} (hp : D.prepared s op = .ok p)
    (ha : D.apply s p = .ok t) (ops : List D.Op) :
    prepareEach D s (op :: ops) = (prepareEach D t ops).map fun x => (p :: x.1, x.2) := by
  rw [prepareEach, hp]
  simp only [bind, Except.bind, ha]
  cases prepareEach D t ops with
  | error e => rfl
  | ok x => rfl

/-- Preparing operations one after the other reaches the state of the fold. -/
theorem prepareEach_state (D : Datatype) (s : D.State) (ops : List D.Op) :
    (prepareEach D s ops).map Prod.snd = ops.foldlM (prepareApply D) s := by
  induction ops generalizing s with
  | nil => rfl
  | cons op ops ih =>
    rw [List.foldlM_cons, prepareApply]
    cases hp : D.prepared s op with
    | error e =>
      rw [prepareEach, hp]
      rfl
    | ok p =>
      cases ha : D.apply s p with
      | error e =>
        rw [prepareEach, hp]
        simp only [bind, Except.bind, ha]
        rfl
      | ok t =>
        have hstep : (prepareEach D s (op :: ops)).map Prod.snd = (prepareEach D t ops).map Prod.snd := by
          rw [prepareEach_cons hp ha]
          cases prepareEach D t ops with
          | error e => rfl
          | ok x => rfl
        rw [hstep, ih t]
        simp only [bind, Except.bind, ha]

/-- The prepared operations reach the state that was prepared. -/
theorem foldlM_prepareEach {D : Datatype} {s : D.State} {ops : List D.Op} {x : List D.Op × D.State}
    (h : prepareEach D s ops = .ok x) : x.1.foldlM D.apply s = .ok x.2 := by
  induction ops generalizing s x with
  | nil =>
    cases h
    rfl
  | cons op ops ih =>
    cases hp : D.prepared s op with
    | error e =>
      rw [prepareEach, hp] at h
      cases h
    | ok p =>
      cases ha : D.apply s p with
      | error e =>
        rw [prepareEach, hp] at h
        simp only [bind, Except.bind, ha] at h
        cases h
      | ok t =>
        rw [prepareEach_cons hp ha] at h
        cases hrest : prepareEach D t ops with
        | error e =>
          rw [hrest] at h
          cases h
        | ok y =>
          rw [hrest] at h
          cases h
          have hfirst : (p :: y.1).foldlM D.apply s = y.1.foldlM D.apply t := by
            rw [List.foldlM_cons, ha]
            rfl
          exact hfirst.trans (ih hrest)

/-! ### Batch commits -/

/-- **A batch commit** has the state that the operations reach one after the other, and its payload
reaches it from the state of the parent, if batches are folds on this state; a batch that is refused
leaves the replica as it is. -/
theorem Sound.exec_commitBatch_of_fold (hfold : ∀ ops : List D.Op,
      SameOutcome Eq (applyOps D s (.many ops)) (ops.foldlM D.apply s))
    (hplain : D.needsPrepare = false → ∀ s op, D.prepared s op = .ok op) (h : Sound H r)
    (hs : r.headState = .ok s) {ops : List D.Op} (hne : ops ≠ []) :
    match ops.foldlM (prepareApply D) s with
    | .ok t => ∃ g r' payload, Effect.exec (commitBatch H ops) r = (.ok g, r') ∧
        HeadedBy H r r' payload t ∧ applyOps D s payload = .ok t
    | .error _ => ∃ e, Effect.exec (commitBatch H ops) r = (.error e, r) := by
  match ops, hne with
  | [op], _ =>
    have hcommit := exec_commit (H := H) hs op
    have hbatch : Effect.exec (commitBatch H [op]) r = Effect.exec (commit H op) r := by
      rw [commitBatch, Effect.exec_bind_ok (Effect.exec_get r)]
    rw [List.foldlM_cons, prepareApply, hbatch, hcommit]
    cases hp : D.prepared s op with
    | error e => exact ⟨e, rfl⟩
    | ok p =>
      simp only [bind, Except.bind]
      cases ha : D.apply s p with
      | error e => exact ⟨e, rfl⟩
      | ok t =>
        obtain ⟨g, r', hauthor, hheaded⟩ := h.exec_author_headed (.one p) t
        exact ⟨g, r', _, hauthor, hheaded, ha⟩
  | op :: op' :: ops, _ =>
    set all := op :: op' :: ops with hall
    have hbatch : Effect.exec (commitBatch H all) r = Effect.exec (if D.needsPrepare then
        (do
          let x ← prepareEach D s all
          author H (.many x.1) x.2 : Call D γ γ)
        else do
          let state ← applyOps D s (.many all)
          author H (.many all) state) r := by
      rw [commitBatch, Effect.exec_bind_ok (Effect.exec_get r)]
      exact Effect.exec_bind_ok (exec_liftM_ok hs) _
    rw [hbatch]
    cases hprepare : D.needsPrepare with
    | true =>
      rw [if_pos rfl, ← prepareEach_state]
      cases heach : prepareEach D s all with
      | error e =>
        exact ⟨e, Effect.exec_bind_error (Effect.exec_lift (.error e) r) _⟩
      | ok x =>
        obtain ⟨g, r', hauthor, hheaded⟩ := h.exec_author_headed (.many x.1) x.2
        exact ⟨g, r', _, (Effect.exec_bind_ok (Effect.exec_lift (.ok x) r) _).trans hauthor, hheaded,
          (hfold x.1).eq_ok (foldlM_prepareEach heach)⟩
    | false =>
      have hunprepared : prepareApply D = D.apply := by
        funext t op
        rw [prepareApply, hplain hprepare]
        rfl
      have hbatched := hfold all
      rw [if_neg (by decide), hunprepared]
      cases hall : all.foldlM D.apply s with
      | error e =>
        obtain ⟨e', he'⟩ := hbatched.exists_error hall
        exact ⟨e', Effect.exec_bind_error (by rw [he', Effect.exec_lift]) _⟩
      | ok t =>
        have happly := hbatched.eq_ok hall
        obtain ⟨g, r', hauthor, hheaded⟩ := h.exec_author_headed (.many all) t
        exact ⟨g, r', _, (Effect.exec_bind_ok (exec_liftM_ok happly) _).trans hauthor, hheaded, happly⟩

/-- Batches of a datatype whose batches are folds. -/
theorem Sound.exec_commitBatch (hD : D.Batched) (h : Sound H r) (hs : r.headState = .ok s)
    (hreach : D.Reaches s) {ops : List D.Op} (hne : ops ≠ []) :
    match ops.foldlM (prepareApply D) s with
    | .ok t => ∃ g r' payload, Effect.exec (commitBatch H ops) r = (.ok g, r') ∧
        HeadedBy H r r' payload t ∧ applyOps D s payload = .ok t
    | .error _ => ∃ e, Effect.exec (commitBatch H ops) r = (.error e, r) :=
  h.exec_commitBatch_of_fold (hD.fold hreach) hD.plain hs hne

/-- **A peer** that ingests an operation on a commit stores the state that the payload reaches from
the state of this commit. -/
theorem state_of_ingestOp {peer peer' : Replica D γ} {p : ℕ} {c : Commit D.State (Payload D.Op)}
    (hc : peer.dag.get p = .ok c) {op : Op (Payload D.Op)} {t : D.State}
    (ht : applyOps D c.state op.payload = .ok t) {wireGid : Option γ} {g : γ}
    (hok : Effect.exec (ingestOp H wireGid [p] op) peer = (.ok g, peer')) :
    ∃ c', peer'.dag.get peer.dag.nextId = .ok c' ∧ c'.state = t := by
  rw [ingestOp, Effect.exec_bind_ok (Effect.exec_get peer)] at hok
  split_ifs at hok
  · cases hok
  · dsimp only at hok
    set joined : Replica D γ := { peer with
      registered := addMember peer.registered op.replica
      everAuthored := addMember peer.everAuthored op.replica }
    rw [Effect.exec_bind_ok (exec_liftM_ok hc), Effect.exec_bind_ok (exec_liftM_ok ht),
      Effect.exec_bind_ok (Effect.exec_set _ _)] at hok
    obtain ⟨⟨id, g'⟩, r₁, hfile, hrest⟩ := Effect.exec_bind_eq_ok hok
    have hp : ∀ q ∈ [p], joined.dag.has q = true := by
      simpa using Dag.has_iff.mpr ⟨c, Dag.get_eq_ok.mp hc⟩
    obtain ⟨-, rfl, -⟩ := eq_filed_of_exec_file hp _ hfile
    obtain ⟨_, r₂, hcheck, hpure⟩ := Effect.exec_bind_eq_ok hrest
    have hsame : r₂ = joined.filed [p] (some op) t (peer.epochAt p) g' := by
      rw [checkGid] at hcheck
      split_ifs at hcheck
      · cases hcheck
      · exact (Prod.mk.inj hcheck).2.symm
    cases hpure
    subst hsame
    exact ⟨_, Dag.get_eq_ok.mpr (Dag.get?_push_self ..), rfl⟩

/-- A batch commit has the state of the single commits: both are refused, and the batch leaves the
replica as it is; or the heads have the same state, and so has the commit that a peer makes of the
payload, on a commit with the same state as the parent. -/
def BatchesAlike (D : Datatype) : Prop :=
  ∀ (γ : Type) [LinearOrder γ] (H : ContentHash D.Op D.Print γ) (r : Replica D γ) (s : D.State)
    (ops : List D.Op), Reachable H r → r.headState = .ok s → D.Reaches s → ops ≠ [] →
    (∃ e e' r'', Effect.exec (commitBatch H ops) r = (.error e, r) ∧
      Effect.exec (commitEach H ops) r = (.error e', r'')) ∨
    ∃ g r' r'' payload t, Effect.exec (commitBatch H ops) r = (.ok g, r') ∧
      Effect.exec (commitEach H ops) r = (.ok (), r'') ∧
      r'.dag.opOf r'.headId = some ⟨r.name, r.seq, payload⟩ ∧
      r'.headState = .ok t ∧ r''.headState = .ok t ∧
      ∀ (peer peer' : Replica D γ) (p : ℕ) (c : Commit D.State (Payload D.Op)) (wireGid : Option γ)
        (g' : γ), peer.dag.get p = .ok c → c.state = s →
        Effect.exec (ingestOp H wireGid [p] ⟨r.name, r.seq, payload⟩) peer = (.ok g', peer') →
        ∃ c', peer'.dag.get peer.dag.nextId = .ok c' ∧ c'.state = t

end Replica

/-- **Batch commits are single commits**, for datatypes whose batches are folds. -/
theorem Datatype.Batched.batchesAlike {D : Datatype} (hD : D.Batched) :
    Replica.BatchesAlike D := by
  intro γ _ H r s ops hr hs hreach hne
  have heach := hr.sound.exec_commitEach hs ops
  have hbatch := hr.sound.exec_commitBatch hD hs hreach hne
  cases hfold : ops.foldlM (Replica.prepareApply D) s with
  | error e' =>
    rw [hfold] at heach hbatch
    obtain ⟨r'', heach⟩ := heach
    obtain ⟨e, hbatch⟩ := hbatch
    exact Or.inl ⟨e, e', r'', hbatch, heach⟩
  | ok t =>
    rw [hfold] at heach hbatch
    obtain ⟨r'', heach, -, hstate⟩ := heach
    obtain ⟨g, r', payload, hbatch, hheaded, hpayload⟩ := hbatch
    refine Or.inr ⟨g, r', r'', payload, t, hbatch, heach, hheaded.op, hheaded.state, hstate, ?_⟩
    rintro peer peer' p c wireGid g' hc rfl hok
    exact Replica.state_of_ingestOp hc hpayload hok

/-! ### The datatypes -/

section Instances

variable {α β μ : Type} [DecidableEq α] [LinearOrder μ] [DecidableEq β]

theorem batched_embedRGA : (embedRGA α).Batched where
  fold {s} _ ops := by
    have hfold : Replica.applyOps (embedRGA α) s (.many ops) = ops.foldlM (embedRGA α).apply s :=
      EmbedRGA.applyBatch_eq_foldlM s ops
    rw [hfold]
    exact .refl _
  plain _ _ _ := rfl

/-- The states of the tombstone RGA remember no order. -/
theorem order_of_reaches {s : (rga α).State} (h : (rga α).Reaches s) : s.order = none := by
  induction h with
  | init => rfl
  | apply _ hs ih => exact Rga.yields_order ih _ _ hs
  | @batch s ops s' _ hs ih =>
    have hmap : (ops.foldlM Rga.apply s).map Rga.State.forget = .ok s' :=
      (Rga.applyBatch_eq_foldlM s ops).symm.trans hs
    cases hfold : ops.foldlM Rga.apply s with
    | error e =>
      rw [hfold] at hmap
      cases hmap
    | ok t =>
      rw [hfold] at hmap
      cases hmap
      rfl
  | merge _ _ _ hs =>
    exact (Yields.bind fun _ _ => .ok rfl : Yields (fun m => m.order = none) (Rga.merge3 _ _ _)) _ hs

theorem batched_rga : (rga α).Batched where
  fold {s} hs ops := by
    have hfold : Replica.applyOps (rga α) s (.many ops) = ops.foldlM (rga α).apply s :=
      Rga.applyBatch_of_order s (order_of_reaches hs) ops
    rw [hfold]
    exact .refl _
  plain h := absurd h (by simp)

omit [DecidableEq α] in
/-- Rich text over a kernel that folds its insertions, and prepares them if at all one by one. -/
theorem batched_makePeritext {K : TextKernel α}
    (hK : ∀ t is, is ≠ [] → K.applyBatch t is = is.foldlM K.apply t)
    (hprepare : K.needsPrepare = false → K.prepare = none) : (makePeritext K μ β).Batched where
  fold {s} _ ops := by
    have hfold : Replica.applyOps (makePeritext K μ β) s (.many ops) =
        ops.foldlM (makePeritext K μ β).apply s := Peritext.applyBatch_eq_foldlM hK s ops
    rw [hfold]
    exact .refl _
  plain h s op := by
    show Peritext.prepare s op = .ok op
    cases op with
    | ins i => rw [Peritext.prepare, hprepare h]
    | del id => rfl
    | mark o => rfl

/-- **Batches are folds.** For every state and every list of operations, of the datatype or of other
types, a batch and the fold of the single applications both throw, or return states with one
fingerprint; and batch commits have the state of single commits, at the author and at a peer. -/
theorem batch_eq_each :
    (∀ (s : EmbedRGA.State α) (ops : List (RawOp (SeqOp α))),
      SameOutcome (fun t t' => EmbedRGA.fingerprint t = EmbedRGA.fingerprint t')
        (EmbedRGA.applyBatchRaw s ops)
        (ops.foldlM (RawOp.apply EmbedRGA.refusal EmbedRGA.apply) s)) ∧
    (∀ (s : Rga.State α) (ops : List (RawOp (SeqOp α))),
      SameOutcome (fun t t' => Rga.fingerprint t = Rga.fingerprint t')
        (Rga.applyBatchRaw s ops) (ops.foldlM (RawOp.apply Rga.refusal Rga.apply) s)) ∧
    (∀ (s : Peritext.State (embedKernel α) μ β) (ops : List (RawOp (RichOp (Insertion α) μ β))),
      SameOutcome (fun t t' => Peritext.fingerprint t = Peritext.fingerprint t')
        (Peritext.applyBatchRaw s ops)
        (ops.foldlM (RawOp.apply Peritext.refusal Peritext.apply) s)) ∧
    (∀ (s : Peritext.State (rgaKernel α) μ β) (ops : List (RawOp (RichOp (Insertion α) μ β))),
      SameOutcome (fun t t' => Peritext.fingerprint t = Peritext.fingerprint t')
        (Peritext.applyBatchRaw s ops)
        (ops.foldlM (RawOp.apply Peritext.refusal Peritext.apply) s)) ∧
    Replica.BatchesAlike (embedRGA α) ∧ Replica.BatchesAlike (rga α) ∧
    Replica.BatchesAlike (peritextEmbedRGA α μ β) ∧ Replica.BatchesAlike (peritextRGA α μ β) := by
  refine ⟨fun s ops => ?_, Rga.sameOutcome_applyBatchRaw, fun s ops => ?_, fun s ops => ?_,
    batched_embedRGA.batchesAlike, batched_rga.batchesAlike,
    (batched_makePeritext ?_ ?_).batchesAlike, (batched_makePeritext ?_ ?_).batchesAlike⟩
  · rw [EmbedRGA.applyBatchRaw_eq_foldlM]
    exact (SameOutcome.refl _).imp fun _ _ => congrArg _
  · exact (Peritext.sameOutcome_applyBatchRaw (fun t is _ => Peritext.applyBatch_embedKernel t is)
      s ops).imp fun _ _ => congrArg _
  · exact (Peritext.sameOutcome_applyBatchRaw Rga.applyBatch_rgaKernel s ops).imp
      fun _ _ => congrArg _
  · exact fun t is _ => Peritext.applyBatch_embedKernel t is
  · exact fun _ => rfl
  · exact Rga.applyBatch_rgaKernel
  · exact fun h => absurd h (by simp)

end Instances

end SalRuntime
