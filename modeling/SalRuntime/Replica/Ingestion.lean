import SalRuntime.Datatypes.CompactEliasDelta
import SalRuntime.Replica.Reachable

/-!
# What ingesting a wire commit does

Ingesting a wire commit first puts the root back if a parent names it. Some checks follow, then the
first write. A commit that passes these checks is added to the store before its content id is
compared with the id on the wire, so a commit that is then rejected leaves traces.

## Main definitions

* `Replica.rooted` — the replica with the root put back.
* `Replica.Admitted` — a wire commit passes the checks before the first write.
* `Replica.Written` — what a call does that has passed them.
* `Replica.Untouched` — a wire commit is refused by these checks, and they have changed nothing.
* `Replica.Arrives` — the loop over a delta takes commits without throwing.
* `Replica.LeavesNoTrace` — a rejected commit leaves no trace.

## Main results

* `Replica.exec_ingestNew` — what ingesting a wire commit does.
* `Replica.ingest_leavesNoTrace_iff` — when a rejected commit leaves no trace.
-/

namespace SalRuntime

variable {D : Datatype} {γ : Type} [LinearOrder γ] {H : ContentHash D.Op D.Print γ}

namespace Replica

variable {r : Replica D γ}

/-- The replica with the root put back if a parent names it. -/
def rooted (r : Replica D γ) (parentGids : List (Option γ)) : Replica D γ :=
  if r.needsRoot parentGids then r.filed [] none D.init EPOCH0 r.rootGid else r

/-- The commits of the parents that the replica holds. -/
def localParents (r : Replica D γ) (parentGids : List (Option γ)) : List ℕ :=
  parentGids.filterMap fun g => g.bind r.byGid.get?

/-- The content id of the next commit with parents of the store. -/
def nextId (H : ContentHash D.Op D.Print γ) (r : Replica D γ) (parents : List ℕ)
    (op : Option (Op (Payload D.Op))) (state : D.State) : Except Failure γ :=
  commitContentId H (r.nextCommit parents op state)
    (r.parentGids (r.nextCommit parents op state))

/-- The replica after joining two parents: the join may have registered a join of epochs. -/
def joinTrace (r : Replica D γ) : List ℕ → Replica D γ
  | a :: b :: _ => (Effect.exec (joinState a b) r).2
  | _ => r

/-- The wire commit passes the checks that come before the first write. The index is the content id
that is recomputed then. -/
inductive Admitted (H : ContentHash D.Op D.Print γ) (r : Replica D γ) (wc : WireCommit D γ)
    (parentGids : List (Option γ)) : Except Failure γ → Prop
  | op {replica : String} {seq : ℕ} {payload : Payload D.Op} {p : ℕ} {ps : List ℕ}
      {c : Commit D.State (Payload D.Op)} {state : D.State}
      (hbody : wc.body = .op replica seq payload) (hlocal : r.localParents parentGids = p :: ps)
      (hclosed : (p :: ps).length = parentGids.length)
      (hroster : r.gcClosed = true → replica ∈ r.registered)
      (hc : r.dag.commits.get? p = some c) (hstate : applyOps D c.state payload = .ok state) :
      Admitted H r wc parentGids (r.nextId H (p :: ps) (some { replica, seq, payload }) state)
  | compact {cut : D.Cut} {wireState : D.Wire} {p : ℕ} {ps : List ℕ}
      {c : Commit D.State (Payload D.Op)} {decodeState : D.Wire → Except Failure D.State}
      {state : D.State} {inv : Option D.Translate}
      (hbody : wc.body = .compact cut wireState) (hlocal : r.localParents parentGids = p :: ps)
      (hclosed : (p :: ps).length = parentGids.length ∨ wc.parents.length = 1)
      (hdecode : D.decodeState = some decodeState) (hstate : decodeState wireState = .ok state)
      (hc : r.dag.commits.get? p = some c) (hinv : inverseOf D c.state state cut = .ok inv) :
      Admitted H r wc parentGids (r.nextId H (p :: ps) none state)
  | epochBase {cut : D.Cut} {wireState : D.Wire} {decodeState : D.Wire → Except Failure D.State}
      {state : D.State}
      (hbody : wc.body = .compact cut wireState) (hlocal : r.localParents parentGids = [])
      (hclosed : parentGids = [] ∨ wc.parents.length = 1)
      (hdecode : D.decodeState = some decodeState) (hstate : decodeState wireState = .ok state) :
      Admitted H r wc parentGids (epochBaseId H parentGids state)
  | merge {a b : ℕ} {ps : List ℕ} {joined : D.State × EpochKey γ} (hbody : wc.body = .merge)
      (hlocal : r.localParents parentGids = a :: b :: ps)
      (hclosed : (a :: b :: ps).length = parentGids.length)
      (hjoin : (Effect.exec (joinState a b) r).1 = .ok joined) :
      Admitted H r wc parentGids (r.nextId H (a :: b :: ps) none joined.1)
  | base {epoch : EpochKey γ} {fp : D.Print} {roster : List String} {proof : γ}
      {wireState : D.Wire} {gid : γ} {decodeState : D.Wire → Except Failure D.State}
      {fingerprint : D.State → D.Print} {state : D.State}
      (hbody : wc.body = .base epoch fp roster proof wireState) (hgid : wc.gid = some gid)
      (hclosed : (r.localParents parentGids).length = parentGids.length)
      (hdecode : D.decodeState = some decodeState) (hfp : D.fingerprint = some fingerprint)
      (hstate : decodeState wireState = .ok state) (hprint : fingerprint state = fp)
      (hproof : H.certify gid epoch (fingerprint state) (roster.insertionSort (· ≤ ·)) = proof)
      (hepoch : r.epochDag.has epoch = true)
      (hroster : r.gcClosed = true → roster.insertionSort (· ≤ ·) ⊆ r.registered) :
      Admitted H r wc parentGids (.ok gid)

/-- The replica after a wire commit was refused by the checks that come before the first write. -/
def refused (r : Replica D γ) (wc : WireCommit D γ) (parentGids : List (Option γ)) : Replica D γ :=
  if wc.body.isMerge && decide ((r.localParents parentGids).length = parentGids.length) then
    r.joinTrace (r.localParents parentGids)
  else r

/-- The call has written: the store has one more commit, and the call returns exactly if the content
id could be computed and is the id on the wire, if there is one. -/
structure Written (r : Replica D γ) (wireGid : Option γ) (id : Except Failure γ)
    (x : Except Failure γ × Replica D γ) : Prop where
  /-- The store has one more commit. -/
  grown : x.2.dag.nextId = r.dag.nextId + 1
  /-- What the call returns. -/
  returns : ∀ g, x.1 = .ok g ↔ id = .ok g ∧ wireGid.all (· = g) = true

/-- The replica with a compaction epoch registered. -/
def reframed (r : Replica D γ) (key : EpochKey γ) (reg : EpochDag.Registration D γ) :
    Replica D γ :=
  { r with epochDag := r.epochDag.compaction key reg }

/-- What a received compaction registers. -/
def receivedEpoch (r : Replica D γ) (p : ℕ) (parentState : D.State) (cut : D.Cut)
    (translateInv : Option D.Translate) : EpochDag.Registration D γ where
  settledIds := (D.settledIds cut).getD []
  cut := some cut
  translate := D.compact.bind fun compact =>
    (compact parentState cut {}).toOption.map Compacted.translate
  translateInv := translateInv
  parentKey := r.epochAt p

/-! ### The parts of ingestion -/

theorem exec_reconstructRoot (h : Sound H r) (parentGids : List (Option γ)) :
    Effect.exec (reconstructRoot H parentGids) r = (.ok ⟨⟩, r.rooted parentGids) := by
  rw [reconstructRoot, Effect.exec_bind_ok (Effect.exec_get r), rooted, needsRoot]
  split_ifs with hneeds
  · have hid : commitContentId H (r.nextCommit [] none D.init)
        (r.parentGids (r.nextCommit [] none D.init)) = .ok r.rootGid := by
      simp [commitContentId, nextCommit, h.rootGid]
    rw [Effect.exec_bind_ok (exec_file_of_ok (by simp) EPOCH0 hid)]
    simp
  · rfl

theorem exec_checkGid (g : γ) (wireGid : Option γ) (r : Replica D γ) :
    ∃ x, Effect.exec (checkGid g wireGid) r = (x, r) ∧
      (x = .ok ⟨⟩ ↔ wireGid.all (· = g) = true) := by
  rw [checkGid]
  cases wireGid with
  | none => exact ⟨_, rfl, by simp⟩
  | some k =>
    by_cases hk : k = g
    · exact ⟨.ok ⟨⟩, by simp [hk], by simp [hk]⟩
    · exact ⟨_, by simp [hk]; rfl, by simp [hk]⟩

/-- Comparing the content id of a commit that is in the store. -/
theorem written_checked {r' : Replica D γ} (hgrown : r'.dag.nextId = r.dag.nextId + 1) (k : γ)
    (wireGid : Option γ) {f : PUnit → Call D γ γ} {r'' : Replica D γ}
    (hf : Effect.exec (f ⟨⟩) r' = (.ok k, r'')) (hkept : r''.dag.nextId = r'.dag.nextId) :
    Written r wireGid (.ok k) (Effect.exec (checkGid k wireGid >>= f) r') := by
  obtain ⟨x, hcheck, hx⟩ := exec_checkGid k wireGid r'
  rcases x with e | u
  · rw [Effect.exec_bind_error hcheck]
    have hne : wireGid.all (· = k) = false := by simpa using mt hx.mpr (by simp)
    refine ⟨hgrown, fun g => ?_⟩
    constructor
    · intro h
      cases h
    · rintro ⟨hk, hall⟩
      cases hk
      simp [hall] at hne
  · rw [Effect.exec_bind_ok hcheck, hf]
    have hall := hx.mp rfl
    refine ⟨hkept.trans hgrown, fun g => ?_⟩
    simp only [Except.ok.injEq]
    exact ⟨fun h => ⟨h, h ▸ hall⟩, And.left⟩

/-- Filing a commit and comparing its content id. -/
theorem written_file {parents : List ℕ} (hp : ∀ p ∈ parents, r.dag.has p = true)
    (op : Option (Op (Payload D.Op))) (state : D.State) (key : EpochKey γ) (wireGid : Option γ) :
    Written r wireGid (r.nextId H parents op state) (Effect.exec (do
      let c ← file H parents op state key
      checkGid c.2 wireGid
      return c.2) r) := by
  cases hid : r.nextId H parents op state with
  | error e =>
    rw [Effect.exec_bind_error (exec_file_of_error hp key hid)]
    exact ⟨rfl, by simp⟩
  | ok k =>
    rw [Effect.exec_bind_ok (exec_file_of_ok hp key hid)]
    have hgrown : (r.filed parents op state key k).dag.nextId = r.dag.nextId + 1 := rfl
    exact written_checked hgrown k wireGid rfl rfl

section Parts

variable {wc : WireCommit D γ} {parentGids : List (Option γ)} (h : Sound H r)

include h

theorem has_of_mem_localParents {p : ℕ} (hp : p ∈ r.localParents parentGids) :
    r.dag.has p = true := by
  obtain ⟨g, -, hg⟩ := List.mem_filterMap.mp hp
  obtain ⟨k, -, hk⟩ := Option.bind_eq_some_iff.mp hg
  exact h.has_of_byGid hk

/-- Ingesting an operation commit. -/
theorem exec_ingestOp {replica : String} {seq : ℕ} {payload : Payload D.Op}
    (hbody : wc.body = .op replica seq payload)
    (hclosed : (r.localParents parentGids).length = parentGids.length) :
    (∃ id, Admitted H r wc parentGids id ∧ Written r wc.gid id (Effect.exec
      (ingestOp H wc.gid (r.localParents parentGids) { replica, seq, payload }) r)) ∨
    (∀ id, ¬ Admitted H r wc parentGids id) ∧ ∃ e, Effect.exec
      (ingestOp H wc.gid (r.localParents parentGids) { replica, seq, payload }) r = (.error e, r) := by
  rw [ingestOp, Effect.exec_bind_ok (Effect.exec_get r)]
  split_ifs with hroster
  · refine Or.inr ⟨fun id hadm => ?_, _, rfl⟩
    cases hadm <;> simp_all
  · cases hlocal : r.localParents parentGids with
    | nil =>
      refine Or.inr ⟨fun id hadm => ?_, _, rfl⟩
      cases hadm <;> simp_all
    | cons p ps =>
      have hp : ∀ q ∈ p :: ps, r.dag.has q = true := fun q hq =>
        has_of_mem_localParents h (hlocal ▸ hq)
      obtain ⟨c, hc⟩ := Dag.has_iff.mp (hp p List.mem_cons_self)
      simp only
      rw [Effect.exec_bind_ok (s := r) (a := c) (by rw [Dag.get_eq_ok.mpr hc]; rfl)]
      cases hstate : applyOps D c.state payload with
      | error e =>
        refine Or.inr ⟨fun id hadm => ?_, e, rfl⟩
        cases hadm <;> simp_all
      | ok state =>
        refine Or.inl ⟨_, .op hbody hlocal (hlocal ▸ hclosed) (by simpa using hroster) hc hstate, ?_⟩
        rw [Effect.exec_bind_ok (Effect.exec_lift (.ok state) r),
          Effect.exec_bind_ok (Effect.exec_set _ r)]
        have hwritten := written_file (H := H) (r := { r with
          registered := addMember r.registered replica
          everAuthored := addMember r.everAuthored replica }) hp
          (some { replica, seq, payload }) state (r.epochAt p) wc.gid
        exact ⟨hwritten.grown, hwritten.returns⟩

/-- Ingesting a boundary of a collected history. -/
theorem exec_ingestBase {epoch : EpochKey γ} {fp : D.Print} {roster : List String} {proof gid : γ}
    {wireState : D.Wire} (hbody : wc.body = .base epoch fp roster proof wireState)
    (hgid : wc.gid = some gid)
    (hclosed : (r.localParents parentGids).length = parentGids.length) :
    (∃ id, Admitted H r wc parentGids id ∧ Written r wc.gid id (Effect.exec
      (ingestBase H gid (r.localParents parentGids) epoch fp roster proof wireState) r)) ∨
    (∀ id, ¬ Admitted H r wc parentGids id) ∧ ∃ e, Effect.exec
      (ingestBase H gid (r.localParents parentGids) epoch fp roster proof wireState) r =
        (.error e, r) := by
  have hp : ∀ q ∈ r.localParents parentGids, r.dag.has q = true := fun q hq =>
    has_of_mem_localParents h hq
  rw [ingestBase]
  split
  · rename_i decodeState fingerprint hdecode hfp
    rw [Effect.exec_bind_ok (Effect.exec_get r)]
    cases hstate : decodeState wireState with
    | error e =>
      refine Or.inr ⟨fun id hadm => ?_, e, rfl⟩
      cases hadm <;> simp_all
    | ok state =>
      rw [Effect.exec_bind_ok (Effect.exec_lift (.ok state) r)]
      dsimp only
      by_cases hprint : fingerprint state = fp
      swap
      · rw [if_pos hprint]
        refine Or.inr ⟨fun id hadm => ?_, _, rfl⟩
        cases hadm <;> simp_all
      rw [if_neg (not_not.mpr hprint)]
      by_cases hproof : H.certify gid epoch (fingerprint state)
        (roster.insertionSort (· ≤ ·)) = proof
      swap
      · rw [if_pos hproof]
        refine Or.inr ⟨fun id hadm => ?_, _, rfl⟩
        cases hadm <;> simp_all
      rw [if_neg (not_not.mpr hproof)]
      by_cases hepoch : r.epochDag.has epoch = true
      swap
      · rw [if_pos (by simpa using hepoch)]
        refine Or.inr ⟨fun id hadm => ?_, _, rfl⟩
        cases hadm <;> simp_all
      rw [if_neg (by simpa using hepoch)]
      have hunknown : (roster.insertionSort (· ≤ ·)).filter (· ∉ r.registered) ≠ [] ↔
          ¬ roster.insertionSort (· ≤ ·) ⊆ r.registered := by
        simp [List.subset_def]
      by_cases hroster : r.gcClosed = true → roster.insertionSort (· ≤ ·) ⊆ r.registered
      swap
      · rw [if_pos (by simp only [hunknown]; simpa using hroster)]
        refine Or.inr ⟨fun id hadm => ?_, _, rfl⟩
        cases hadm <;> simp_all
      rw [if_neg (by simp only [hunknown]; simpa using hroster)]
      refine Or.inl ⟨_, .base hbody hgid hclosed hdecode hfp hstate hprint hproof hepoch hroster, ?_⟩
      rw [Effect.exec_bind_ok (Effect.exec_set _ r)]
      set r₁ : Replica D γ := { r with
        registered := (roster.insertionSort (· ≤ ·)).foldl addMember r.registered }
      have hp₁ : ∀ q ∈ r.localParents parentGids, r₁.dag.has q = true := hp
      rw [Effect.exec_bind_ok (exec_add hp₁), Effect.exec_bind_ok (Effect.exec_modify _ _)]
      refine ⟨rfl, fun g => ?_⟩
      simp [hgid]
  · refine Or.inr ⟨fun id hadm => ?_, _, rfl⟩
    cases hadm <;> simp_all

/-- Ingesting a compaction of a held commit. -/
theorem exec_ingestCompact {cut : D.Cut} {wireState : D.Wire} {p : ℕ} {ps : List ℕ}
    (hbody : wc.body = .compact cut wireState) (hlocal : r.localParents parentGids = p :: ps)
    (hclosed : (p :: ps).length = parentGids.length ∨ wc.parents.length = 1) :
    (∃ id, Admitted H r wc parentGids id ∧ Written r wc.gid id (Effect.exec
      (ingestCompact H wc.gid (p :: ps) p cut wireState) r)) ∨
    (∀ id, ¬ Admitted H r wc parentGids id) ∧ ∃ e, Effect.exec
      (ingestCompact H wc.gid (p :: ps) p cut wireState) r = (.error e, r) := by
  have hp : ∀ q ∈ p :: ps, r.dag.has q = true := fun q hq =>
    has_of_mem_localParents h (hlocal ▸ hq)
  rw [ingestCompact]
  split
  · refine Or.inr ⟨fun id hadm => ?_, _, rfl⟩
    cases hadm <;> simp_all
  · rename_i decodeState hdecode
    obtain ⟨c, hc⟩ := Dag.has_iff.mp (hp p List.mem_cons_self)
    rw [Effect.exec_bind_ok (Effect.exec_get r)]
    cases hstate : decodeState wireState with
    | error e =>
      refine Or.inr ⟨fun id hadm => ?_, e, rfl⟩
      cases hadm <;> simp_all
    | ok state =>
      rw [Effect.exec_bind_ok (Effect.exec_lift (.ok state) r),
        Effect.exec_bind_ok (s := r) (a := c) (by rw [Dag.get_eq_ok.mpr hc]; rfl)]
      dsimp only
      cases hinv : inverseOf D c.state state cut with
      | error e =>
        refine Or.inr ⟨fun id hadm => ?_, e, by simp [Effect.exec_bind]⟩
        cases hadm <;> simp_all
      | ok inv =>
        refine Or.inl ⟨_, .compact hbody hlocal hclosed hdecode hstate hc hinv, ?_⟩
        rw [Effect.exec_bind_ok (Effect.exec_lift (.ok inv) r),
          Effect.exec_bind_ok (Effect.exec_set _ r)]
        have hwritten (E : EpochDag D γ) := written_file (H := H) (r := { r with epochDag := E }) hp
          none state ((wc.gid.map EpochKey.frame).getD .null) wc.gid
        exact ⟨(hwritten _).grown, (hwritten _).returns⟩

omit h in
/-- Ingesting a compaction whose parent is not held. -/
theorem exec_ingestEpochBase {cut : D.Cut} {wireState : D.Wire}
    (hbody : wc.body = .compact cut wireState) (hlocal : r.localParents parentGids = [])
    (hclosed : parentGids = [] ∨ wc.parents.length = 1) :
    (∃ id, Admitted H r wc parentGids id ∧ Written r wc.gid id (Effect.exec
      (ingestEpochBase H wc.gid parentGids cut wireState) r)) ∨
    (∀ id, ¬ Admitted H r wc parentGids id) ∧ ∃ e, Effect.exec
      (ingestEpochBase H wc.gid parentGids cut wireState) r = (.error e, r) := by
  rw [ingestEpochBase]
  split
  · refine Or.inr ⟨fun id hadm => ?_, _, rfl⟩
    cases hadm <;> simp_all
  · rename_i decodeState hdecode
    cases hstate : decodeState wireState with
    | error e =>
      refine Or.inr ⟨fun id hadm => ?_, e, rfl⟩
      cases hadm <;> simp_all
    | ok state =>
      refine Or.inl ⟨_, .epochBase hbody hlocal hclosed hdecode hstate, ?_⟩
      rw [Effect.exec_bind_ok (Effect.exec_lift (.ok state) r),
        Effect.exec_bind_ok (exec_add (by simp)), Effect.exec_bind_ok (Effect.exec_modify _ _)]
      cases hid : epochBaseId H parentGids state with
      | error e => exact ⟨rfl, by simp [Effect.exec_bind]⟩
      | ok k =>
        rw [Effect.exec_bind_ok (Effect.exec_lift (.ok k) _)]
        exact written_checked (by rfl) k wc.gid rfl rfl

/-- Ingesting a merge. -/
theorem exec_ingestMerge (hbody : wc.body = .merge)
    (hclosed : (r.localParents parentGids).length = parentGids.length) :
    (∃ id, Admitted H r wc parentGids id ∧ Written r wc.gid id (Effect.exec
      (ingestMerge H wc.gid (r.localParents parentGids)) r)) ∨
    (∀ id, ¬ Admitted H r wc parentGids id) ∧ ∃ e, Effect.exec
      (ingestMerge H wc.gid (r.localParents parentGids)) r =
        (.error e, r.joinTrace (r.localParents parentGids)) := by
  have hp : ∀ q ∈ r.localParents parentGids, r.dag.has q = true := fun q hq =>
    has_of_mem_localParents h hq
  unfold ingestMerge
  split
  · rename_i a b ps hlocal
    rcases hjoin : Effect.exec (joinState a b) r with ⟨e | ⟨state, key⟩, r'⟩
    · rw [Effect.exec_bind_error hjoin]
      refine Or.inr ⟨fun id hadm => ?_, e, by simp [joinTrace, hlocal, hjoin]⟩
      cases hadm <;> simp_all
    · obtain ⟨E, rfl⟩ := exists_eq_of_exec_joinState hjoin
      have hjoin' : (Effect.exec (joinState a b) r).1 = .ok (state, key) := by rw [hjoin]
      refine Or.inl ⟨_, .merge hbody hlocal (hlocal ▸ hclosed) hjoin', ?_⟩
      rw [Effect.exec_bind_ok hjoin, hlocal]
      have hwritten := written_file (H := H) (r := { r with epochDag := E }) (hlocal ▸ hp)
        none state key wc.gid
      exact ⟨hwritten.grown, hwritten.returns⟩
  · rename_i hlocal
    refine Or.inr ⟨fun id hadm => ?_,
      .error "no such commit: undefined (pruned by gc, or never added)", ?_⟩
    · cases hadm <;> simp_all
    · unfold joinTrace
      split
      · exact absurd ‹_› (hlocal _ _ _)
      · rfl

variable (wc) in
/-- Ingesting a wire commit that names no missing root. -/
theorem exec_ingestNew (hroot : r.needsRoot parentGids = false) :
    (∃ id, Admitted H r wc parentGids id ∧
      Written r wc.gid id (Effect.exec (ingestNew H wc parentGids) r)) ∨
    (∀ id, ¬ Admitted H r wc parentGids id) ∧ ∃ e,
      Effect.exec (ingestNew H wc parentGids) r = (.error e, r.refused wc parentGids) := by
  have hr : r.rooted parentGids = r := by simp [rooted, hroot]
  rw [ingestNew, Effect.exec_bind_ok (exec_reconstructRoot h parentGids), hr,
    Effect.exec_bind_ok (Effect.exec_get r)]
  dsimp only
  have hlocal : (parentGids.filterMap fun g => g.bind r.byGid.get?) = r.localParents parentGids :=
    rfl
  rw [hlocal]
  by_cases hopen : (!decide ((r.localParents parentGids).length = parentGids.length) &&
      !(wc.body.isCompact && decide (wc.parents.length = 1))) = true
  · rw [if_pos hopen]
    simp only [Bool.and_eq_true, Bool.not_eq_true', decide_eq_false_iff_not, Bool.and_eq_false_iff]
      at hopen
    refine Or.inr ⟨fun id hadm => ?_, _, by simp [refused, hopen.1]; rfl⟩
    cases hadm <;> simp_all [WireBody.isCompact]
  rw [if_neg hopen]
  cases hbody : wc.body with
  | base epoch fp roster proof wireState =>
    have hclosed : (r.localParents parentGids).length = parentGids.length := by
      simpa [hbody, WireBody.isCompact] using hopen
    have hrefused : r.refused wc parentGids = r := by simp [refused, hbody, WireBody.isMerge]
    rw [hrefused]
    cases hgid : wc.gid with
    | none =>
      refine Or.inr ⟨fun id hadm => ?_, _, rfl⟩
      cases hadm <;> simp_all
    | some gid =>
      have hbase := exec_ingestBase h hbody hgid hclosed
      rw [hgid] at hbase
      exact hbase
  | op replica seq payload =>
    have hclosed : (r.localParents parentGids).length = parentGids.length := by
      simpa [hbody, WireBody.isCompact] using hopen
    have hrefused : r.refused wc parentGids = r := by simp [refused, hbody, WireBody.isMerge]
    rw [hrefused]
    exact exec_ingestOp h hbody hclosed
  | compact cut wireState =>
    have hrefused : r.refused wc parentGids = r := by simp [refused, hbody, WireBody.isMerge]
    have hclosed : (r.localParents parentGids).length = parentGids.length ∨
        wc.parents.length = 1 := by
      simpa [hbody, WireBody.isCompact, or_iff_not_imp_left] using hopen
    rw [hrefused]
    cases hparents : r.localParents parentGids with
    | nil =>
      refine exec_ingestEpochBase hbody hparents (hclosed.imp_left fun hlen => ?_)
      simpa [hparents, eq_comm] using hlen
    | cons p ps => exact exec_ingestCompact h hbody hparents (hparents ▸ hclosed)
  | merge =>
    have hclosed : (r.localParents parentGids).length = parentGids.length := by
      simpa [hbody, WireBody.isCompact] using hopen
    have hrefused : r.refused wc parentGids = r.joinTrace (r.localParents parentGids) := by
      simp [refused, hbody, hclosed, WireBody.isMerge]
    rw [hrefused]
    exact exec_ingestMerge h hbody hclosed

end Parts

theorem needsRoot_rooted (parentGids : List (Option γ)) :
    (r.rooted parentGids).needsRoot parentGids = false := by
  unfold rooted
  split_ifs with hneeds
  · simp [needsRoot, Replica.filed, SortedMap.has]
  · simpa using hneeds

theorem Sound.rooted (h : Sound H r) (parentGids : List (Option γ)) :
    Sound H (r.rooted parentGids) := by
  unfold Replica.rooted
  split_ifs
  · exact h.filed (by simp) _
  · exact h

theorem nextId_le_rooted (parentGids : List (Option γ)) :
    r.dag.nextId ≤ (r.rooted parentGids).dag.nextId := by
  unfold rooted
  split_ifs
  · exact Nat.le_succ _
  · exact le_rfl

/-- Ingesting a wire commit starts with putting the root back. -/
theorem exec_ingestNew_rooted (h : Sound H r) (wc : WireCommit D γ)
    (parentGids : List (Option γ)) : Effect.exec (ingestNew H wc parentGids) r =
      Effect.exec (ingestNew H wc parentGids) (r.rooted parentGids) := by
  have hself : (r.rooted parentGids).rooted parentGids = r.rooted parentGids := by
    rw [Replica.rooted, needsRoot_rooted]
    rfl
  rw [ingestNew, Effect.exec_bind_ok (exec_reconstructRoot h parentGids),
    Effect.exec_bind_ok (exec_reconstructRoot (h.rooted parentGids) parentGids), hself]

/-- Refusing a wire commit changes nothing but the graph of epochs. -/
theorem exists_refused_eq (wc : WireCommit D γ) (parentGids : List (Option γ)) :
    ∃ E, r.refused wc parentGids = { r with epochDag := E } := by
  unfold refused joinTrace
  split_ifs
  · split
    · exact exists_eq_of_exec_joinState rfl
    · exact ⟨_, rfl⟩
  · exact ⟨_, rfl⟩

/-! ### Rejected commits -/

/-- The wire commit is refused by the checks that come before the first write, and on the way to
them neither the root is put back nor a join of epochs is registered. -/
structure Untouched (H : ContentHash D.Op D.Print γ) (r : Replica D γ) (wc : WireCommit D γ)
    (parentGids : List (Option γ)) : Prop where
  /-- The root need not be put back. -/
  root : r.needsRoot parentGids = false
  /-- A check fails. -/
  refused : ∀ id, ¬ Admitted H r wc parentGids id
  /-- No join of epochs is registered. -/
  joins : r.refused wc parentGids = r

/-- **One rejected commit.** The replica is as before exactly if the commit was refused before the
first write. -/
theorem ingestNew_untouched_iff (h : Sound H r) {wc : WireCommit D γ} {parentGids : List (Option γ)}
    {e : Failure} {r' : Replica D γ}
    (hthrow : Effect.exec (ingestNew H wc parentGids) r = (.error e, r')) (frontier : Frontier) :
    r' = { r with frontier } ↔ Untouched H r wc parentGids ∧ frontier = r.frontier := by
  by_cases hroot : r.needsRoot parentGids = true
  · -- The root that was put back stays.
    have hgrown : r.dag.nextId < r'.dag.nextId := by
      have hlt : r.dag.nextId < (r.rooted parentGids).dag.nextId := by
        rw [rooted, if_pos hroot]
        exact Nat.lt_succ_self _
      rw [exec_ingestNew_rooted h] at hthrow
      rcases exec_ingestNew wc (h.rooted parentGids) (needsRoot_rooted parentGids) with
        ⟨id, -, hw⟩ | ⟨-, e', heq⟩
      · rw [hthrow] at hw
        have := hw.grown
        simp only at this
        omega
      · obtain ⟨E, hE⟩ := exists_refused_eq (r := r.rooted parentGids) wc parentGids
        rw [hthrow, hE] at heq
        rw [(Prod.mk.inj heq).2]
        exact hlt
    constructor
    · rintro rfl
      exact absurd hgrown (lt_irrefl _)
    · rintro ⟨hu, -⟩
      exact absurd hroot (by simp [hu.root])
  · have hroot : r.needsRoot parentGids = false := by simpa using hroot
    rcases exec_ingestNew wc h hroot with ⟨id, hadm, hw⟩ | ⟨hnot, e', heq⟩
    · rw [hthrow] at hw
      constructor
      · rintro rfl
        have := hw.grown
        simp only at this
        omega
      · rintro ⟨hu, -⟩
        exact absurd hadm (hu.refused id)
    · rw [hthrow] at heq
      obtain ⟨E, hE⟩ := exists_refused_eq (r := r) wc parentGids
      rw [(Prod.mk.inj heq).2]
      constructor
      · intro hr
        have hE' : E = r.epochDag := by
          rw [hE] at hr
          exact congrArg Replica.epochDag hr
        refine ⟨⟨hroot, hnot, hE.trans (by rw [hE'])⟩, ?_⟩
        rw [hE] at hr
        exact (congrArg Replica.frontier hr).symm
      · rintro ⟨hu, rfl⟩
        exact hu.joins

/-- The loop over a delta takes the commits one after the other without throwing: from the
content id of the preceding commit and a replica, to the content id of the last commit, the number
of added commits and the replica. -/
inductive Arrives (H : ContentHash D.Op D.Print γ) : Option γ → Replica D γ →
    List (WireCommit D γ) → Option γ → ℕ → Replica D γ → Prop
  | nil (prior : Option γ) (r : Replica D γ) : Arrives H prior r [] prior 0 r
  | held {prior last : Option γ} {r s : Replica D γ} {wc : WireCommit D γ}
      {rest : List (WireCommit D γ)} {n : ℕ} (hheld : wc.gid.any r.byGid.has = true)
      (hrest : Arrives H wc.gid r rest last n s) : Arrives H prior r (wc :: rest) last n s
  | added {prior last : Option γ} {r r' s : Replica D γ} {wc : WireCommit D γ}
      {rest : List (WireCommit D γ)} {n : ℕ} {g : γ} (hnew : wc.gid.any r.byGid.has = false)
      (hok : Effect.exec (ingestNew H wc (wc.parents.map fun p => p.or prior)) r = (.ok g, r'))
      (hrest : Arrives H (some g) r' rest last n s) : Arrives H prior r (wc :: rest) last (n + 1) s

theorem exec_ingestFrom_held {prior : Option γ} {wc : WireCommit D γ} {rest : List (WireCommit D γ)}
    (hheld : wc.gid.any r.byGid.has = true) : Effect.exec (ingestFrom H prior (wc :: rest)) r =
      Effect.exec (ingestFrom H wc.gid rest) r := by
  rw [ingestFrom, Effect.exec_bind_ok (Effect.exec_get r), if_pos hheld]

theorem exec_ingestFrom_new {prior : Option γ} {wc : WireCommit D γ} {rest : List (WireCommit D γ)}
    (hnew : wc.gid.any r.byGid.has = false) : Effect.exec (ingestFrom H prior (wc :: rest)) r =
      Effect.exec (do
        let g ← ingestNew H wc (wc.parents.map fun p => p.or prior)
        return (← ingestFrom H (some g) rest) + 1) r := by
  rw [ingestFrom, Effect.exec_bind_ok (Effect.exec_get r), if_neg (by simp [hnew])]

/-- The loop continues where it has arrived. -/
theorem Arrives.exec_append {prior last : Option γ} {s : Replica D γ} {pre : List (WireCommit D γ)}
    {n : ℕ} (harr : Arrives H prior r pre last n s) (post : List (WireCommit D γ)) :
    Effect.exec (ingestFrom H prior (pre ++ post)) r =
      ((Effect.exec (ingestFrom H last post) s).1.map (· + n),
        (Effect.exec (ingestFrom H last post) s).2) := by
  induction harr with
  | nil prior r =>
    rw [List.nil_append]
    rcases Effect.exec (ingestFrom H prior post) r with ⟨e | k, r'⟩
    · rfl
    · rfl
  | held hheld hrest ih => rw [List.cons_append, exec_ingestFrom_held hheld, ih]
  | @added prior last r r' s wc rest n g hnew hok hrest ih =>
    rw [List.cons_append, exec_ingestFrom_new hnew, Effect.exec_bind_ok hok, Effect.exec_bind, ih]
    rcases Effect.exec (ingestFrom H last post) s with ⟨e | k, r''⟩
    · rfl
    · rfl

/-- A loop that throws has arrived at a commit that is not held and cannot be ingested. -/
theorem exists_arrives {prior : Option γ} {commits : List (WireCommit D γ)} {x : Except Failure ℕ}
    {r' : Replica D γ} (hx : Effect.exec (ingestFrom H prior commits) r = (x, r')) :
    (∃ last n, x = .ok n ∧ Arrives H prior r commits last n r') ∨
    ∃ e pre wc post last n s, x = .error e ∧ commits = pre ++ wc :: post ∧
      Arrives H prior r pre last n s ∧ wc.gid.any s.byGid.has = false ∧
      Effect.exec (ingestNew H wc (wc.parents.map fun p => p.or last)) s = (.error e, r') := by
  induction commits generalizing prior r x with
  | nil =>
    cases hx
    exact Or.inl ⟨prior, 0, rfl, .nil _ _⟩
  | cons wc rest ih =>
    by_cases hheld : wc.gid.any r.byGid.has = true
    · rw [exec_ingestFrom_held hheld] at hx
      rcases ih hx with ⟨last, n, rfl, harr⟩ | ⟨e, pre, wc', post, last, n, s, rfl, rfl, harr, hs⟩
      · exact Or.inl ⟨last, n, rfl, .held hheld harr⟩
      · exact Or.inr ⟨e, wc :: pre, wc', post, last, n, s, rfl, rfl, .held hheld harr, hs⟩
    · have hnew : wc.gid.any r.byGid.has = false := by simpa using hheld
      rw [exec_ingestFrom_new hnew] at hx
      rcases hok : Effect.exec (ingestNew H wc (wc.parents.map fun p => p.or prior)) r with
        ⟨e | g, r₁⟩
      · rw [Effect.exec_bind_error hok] at hx
        cases hx
        exact Or.inr ⟨e, [], wc, rest, prior, 0, r, rfl, rfl, .nil prior r, hnew, hok⟩
      · rw [Effect.exec_bind_ok hok] at hx
        rcases hrest : Effect.exec (ingestFrom H (some g) rest) r₁ with ⟨e | k, r₂⟩
        · rw [Effect.exec_bind_error hrest] at hx
          cases hx
          rcases ih hrest with ⟨last, n, h, -⟩ |
            ⟨e', pre, wc', post, last, n, s, h, rfl, harr, hs⟩
          · cases h
          · cases h
            exact Or.inr ⟨_, wc :: pre, wc', post, last, n + 1, s, rfl, rfl,
              .added hnew hok harr, hs⟩
        · rw [Effect.exec_bind_ok hrest] at hx
          cases hx
          rcases ih hrest with ⟨last, n, h, harr⟩ | ⟨e', pre, wc', post, last, n, s, h, -⟩
          · cases h
            exact Or.inl ⟨last, _, rfl, .added hnew hok harr⟩
          · cases h

theorem Arrives.append {prior last last' : Option γ} {s s' : Replica D γ}
    {pre post : List (WireCommit D γ)} {n m : ℕ} (harr : Arrives H prior r pre last n s)
    (hpost : Arrives H last s post last' m s') :
    Arrives H prior r (pre ++ post) last' (m + n) s' := by
  induction harr with
  | nil => exact hpost
  | held hheld hrest ih => exact .held hheld (ih hpost)
  | added hnew hok hrest ih => exact .added hnew hok (ih hpost)

theorem Sound.of_arrives (h : Sound H r) {prior last : Option γ} {s : Replica D γ}
    {pre : List (WireCommit D γ)} {n : ℕ} (harr : Arrives H prior r pre last n s) : Sound H s := by
  induction harr with
  | nil => exact h
  | held hheld hrest ih => exact ih h
  | @added prior _ r r' _ wc _ _ _ hnew hok hrest ih =>
    have hends := h.ends_ingestNew wc (wc.parents.map fun p => p.or prior)
    rw [Effect.Ends, hok] at hends
    exact ih hends

/-- The rejected commit leaves no trace: whenever a delta is ingested up to a commit, and that
commit makes the call throw, the replica is as if the delta had ended before that commit. -/
def LeavesNoTrace (H : ContentHash D.Op D.Print γ) (r : Replica D γ)
    (commits : List (WireCommit D γ)) : Prop :=
  ∀ pre wc post n e, commits = pre ++ wc :: post →
    (Effect.exec (ingest H pre) r).1 = .ok n →
    (Effect.exec (ingest H (pre ++ [wc])) r).1 = .error e →
    (Effect.exec (ingest H commits) r).2 = (Effect.exec (ingest H pre) r).2

/-- Ingesting what the loop takes without throwing. -/
theorem Arrives.exec_ingest (h : Sound H r) {last : Option γ} {s : Replica D γ}
    {pre : List (WireCommit D γ)} {n : ℕ} (harr : Arrives H none r pre last n s) :
    ∃ frontier, s.dag.frontierOf s.headId = .ok frontier ∧ Effect.exec (ingest H pre) r =
      (.ok n, { s with frontier := if n > 0 then frontier else s.frontier }) := by
  obtain ⟨frontier, hfr, -⟩ := Dag.frontierOf_spec (h.of_arrives harr).head
  refine ⟨frontier, hfr, ?_⟩
  have hfrom := harr.exec_append []
  rw [List.append_nil] at hfrom
  rw [ingest, Effect.exec_bind_ok (a := n) (s := s) (by rw [hfrom]; simp [ingestFrom, Except.map])]
  dsimp only
  split_ifs with hn
  · simp [refresh, Effect.exec_bind, hfr, Except.map]
  · rfl

/-- Ingesting a delta up to a commit that cannot be ingested. -/
theorem Arrives.exec_ingest_error {last : Option γ} {s s' : Replica D γ}
    {pre : List (WireCommit D γ)} {wc : WireCommit D γ} {n : ℕ} {e : Failure}
    (harr : Arrives H none r pre last n s) (hnew : wc.gid.any s.byGid.has = false)
    (hthrow : Effect.exec (ingestNew H wc (wc.parents.map fun p => p.or last)) s = (.error e, s'))
    (post : List (WireCommit D γ)) :
    Effect.exec (ingest H (pre ++ wc :: post)) r = (.error e, s') := by
  have hfrom := harr.exec_append (wc :: post)
  rw [exec_ingestFrom_new hnew, Effect.exec_bind_error hthrow] at hfrom
  rw [ingest, Effect.exec_bind_error hfrom]

section Forged

/-- A hash for one keystroke. -/
noncomputable def typingHash : ContentHash (embedRGA Char).Op (embedRGA Char).Print ℕ :=
  .ofTable [.root, .authored [0] "a" 0 (.one (.ins 1 'x' none))]

/-- The wire commit of the keystroke under another content id. -/
def forged : WireCommit (embedRGA Char) ℕ :=
  { gid := some 9, parents := [some 0], body := .op "a" 0 (.one (.ins 1 'x' none)) }

/-- A new replica. -/
noncomputable def receiver : Replica (embedRGA Char) ℕ := create _ typingHash "b"

end Forged

end Replica

end SalRuntime
