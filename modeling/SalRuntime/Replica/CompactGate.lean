import SalRuntime.Datatypes.CompactionMaps
import SalRuntime.Replica.Ingestion

/-!
# Received compactions

A received compaction of a held commit comes with its state. The content id covers the parent and a
fingerprint of this state, so any state passes under the id that its sender computed for it. The
maps of the new epoch are computed from the parent, the cut and this state; they relate the two
states if the state is the compaction of the parent.

## Main definitions

* `Replica.RealCompaction` — a state is the compaction of another, with the maps between them.

## Main results

* `Replica.exec_ingestNew_compact` — what ingesting a compaction of a held commit does.
* `Replica.ingest_compact_real_iff` — when an accepted compaction is real.
-/

namespace SalRuntime

variable {γ : Type} [LinearOrder γ]

namespace Replica

section Generic

variable {D : Datatype} {H : ContentHash D.Op D.Print γ} {r : Replica D γ}

/-- The key of the epoch of a received compaction. -/
def compactKey (wc : WireCommit D γ) : EpochKey γ := (wc.gid.map EpochKey.frame).getD .null

/-- **A compaction of a held commit** that is accepted: its epoch is registered, and it is filed
with the shipped state. -/
theorem exec_ingestNew_compact (h : Sound H r) {wc : WireCommit D γ}
    {parentGids : List (Option γ)} {cut : D.Cut} {wireState : D.Wire}
    (hbody : wc.body = .compact cut wireState) {p : ℕ} {ps : List ℕ}
    (hlocal : (r.rooted parentGids).localParents parentGids = p :: ps) {g : γ} {r' : Replica D γ}
    (hok : Effect.exec (ingestNew H wc parentGids) r = (.ok g, r')) :
    ∃ decodeState state parent inv, D.decodeState = some decodeState ∧
      decodeState wireState = .ok state ∧
      (r.rooted parentGids).dag.commits.get? p = some parent ∧
      inverseOf D parent.state state cut = .ok inv ∧
      r' = ((r.rooted parentGids).reframed (compactKey wc)
        ((r.rooted parentGids).receivedEpoch p parent.state cut inv)).filed (p :: ps) none state
          (compactKey wc) g := by
  rw [ingestNew, Effect.exec_bind_ok (exec_reconstructRoot h parentGids),
    Effect.exec_bind_ok (Effect.exec_get _)] at hok
  have h₁ := h.rooted parentGids
  set r₁ := r.rooted parentGids
  have hp : ∀ q ∈ p :: ps, r₁.dag.has q = true := fun q hq =>
    has_of_mem_localParents h₁ (hlocal ▸ hq)
  obtain ⟨parent, hparent⟩ := Dag.has_iff.mp (hp p List.mem_cons_self)
  have hfilter : (parentGids.filterMap fun g => g.bind r₁.byGid.get?) = p :: ps := hlocal
  simp only [hfilter, hbody] at hok
  split_ifs at hok with hclosed
  · obtain ⟨_, _, hthrow, -⟩ := Effect.exec_bind_eq_ok hok
    cases hthrow
  rw [ingestCompact] at hok
  split at hok
  · cases hok
  · rename_i decodeState hdecode
    rw [Effect.exec_bind_ok (Effect.exec_get r₁)] at hok
    obtain ⟨state, r₂, hlift, hok⟩ := Effect.exec_bind_eq_ok hok
    obtain ⟨hstate, rfl⟩ := Prod.mk.inj ((Effect.exec_lift _ _).symm.trans hlift)
    rw [Effect.exec_bind_ok (s := r₁) (a := parent) (by rw [Dag.get_eq_ok.mpr hparent]; rfl)] at hok
    obtain ⟨inv, r₂, hlift, hok⟩ := Effect.exec_bind_eq_ok hok
    obtain ⟨hinv, rfl⟩ := Prod.mk.inj ((Effect.exec_lift _ _).symm.trans hlift)
    rw [Effect.exec_bind_ok (Effect.exec_set _ _)] at hok
    obtain ⟨⟨id, k⟩, r₂, hfile, hok⟩ := Effect.exec_bind_eq_ok hok
    obtain ⟨-, rfl, -⟩ := eq_filed_of_exec_file (r := r₁.reframed (compactKey wc)
      (r₁.receivedEpoch p parent.state cut inv)) hp _ hfile
    obtain ⟨_, r₂, hcheck, hok⟩ := Effect.exec_bind_eq_ok hok
    obtain ⟨x, hx, -⟩ := exec_checkGid k wc.gid ((r₁.reframed (compactKey wc)
      (r₁.receivedEpoch p parent.state cut inv)).filed (p :: ps) none state (compactKey wc) k)
    obtain ⟨-, rfl⟩ := Prod.mk.inj (hx.symm.trans hcheck)
    obtain ⟨hg, rfl⟩ := Prod.mk.inj hok
    cases hg
    exact ⟨decodeState, state, parent, inv, hdecode, hstate, hparent, hinv, rfl⟩

end Generic

variable {α : Type} [DecidableEq α]
  {H : ContentHash (compactibleEmbedRGA α).Op (compactibleEmbedRGA α).Print γ}
  {r : Replica (compactibleEmbedRGA α) γ}

/-- The state that a wire commit ships. -/
def shippedState (wireState : List (ℕ × List Bool × α)) : EmbedRGA.State α :=
  SortedMap.ofList (wireState.map fun e => (e.1, { coord := e.2.1, el := e.2.2 }))

/-- The state is the compaction of the parent's state at the cut: it reads the same, and the maps of
the epoch take the two states to each other. -/
structure RealCompaction (parent state : EmbedRGA.State α) (cut : CoordCut)
    (epoch : EpochNode (compactibleEmbedRGA α) γ) : Prop where
  /-- The states read the same. -/
  read : EmbedRGA.read state = EmbedRGA.read parent
  /-- The state is what compacting the parent's state gives. -/
  compacted : (compactEliasDelta parent cut {}).map Compacted.state = .ok state
  /-- The forward map takes the parent's state to the state. -/
  forward : ∃ m, epoch.translate = some m ∧ remapState parent m = .ok state
  /-- The inverse map takes the state to the parent's. -/
  backward : ∃ m, epoch.translateInv = some m ∧ remapState state m = .ok parent

/-- The maps that are registered under a key relate the two states. -/
def MapsAgree (E : EpochDag (compactibleEmbedRGA α) γ) (key : EpochKey γ)
    (parent state : EmbedRGA.State α) : Prop :=
  ∀ n, E.get? key = some n →
    (∀ m, n.translate = some m → remapState parent m = .ok state) ∧
      ∀ m, n.translateInv = some m → remapState state m = .ok parent

/-- **Registering a compaction.** The new epoch is real exactly if the state is the compaction of the
parent's state, and maps that were registered before under its key agree. -/
theorem realCompaction_iff (r : Replica (compactibleEmbedRGA α) γ) (key : EpochKey γ) (p : ℕ)
    {parent state : EmbedRGA.State α} {cut : CoordCut}
    {inv : Option (List Bool → Except Failure (List Bool))}
    (hinv : inverseOf (compactibleEmbedRGA α) parent state cut = .ok inv) :
    RealCompaction parent state cut (((r.epochDag.get? key).map
        (EpochDag.fillIn (r.receivedEpoch p parent cut inv))).getD
          (r.epochDag.newNode (r.receivedEpoch p parent cut inv))) ↔
      (compactEliasDelta parent cut {}).map Compacted.state = .ok state ∧
        MapsAgree r.epochDag key parent state := by
  constructor
  · intro hreal
    refine ⟨hreal.compacted, fun n hn => ⟨fun m hm => ?_, fun m hm => ?_⟩⟩
    · obtain ⟨m', hm', hmap⟩ := hreal.forward
      simp only [hn, Option.map_some, Option.getD_some, EpochDag.fillIn, hm, Option.some_or,
        Option.some.injEq] at hm'
      rwa [hm']
    · obtain ⟨m', hm', hmap⟩ := hreal.backward
      simp only [hn, Option.map_some, Option.getD_some, EpochDag.fillIn, hm, Option.some_or,
        Option.some.injEq] at hm'
      rwa [hm']
  · rintro ⟨hcompacted, hagree⟩
    cases hres : compactEliasDelta parent cut {} with
    | error e =>
      rw [hres] at hcompacted
      cases hcompacted
    | ok res =>
      rw [hres] at hcompacted
      obtain rfl : res.state = state := Except.ok.inj hcompacted
      obtain ⟨back, hback, hbackMap⟩ := remapState_inverse hres
      have htranslate : (r.receivedEpoch p parent cut inv).translate = some res.translate := by
        simp [receivedEpoch, hres, Except.toOption]
      have hinverse : (r.receivedEpoch p parent cut inv).translateInv = some back := by
        have heq : inverseOf (compactibleEmbedRGA α) parent res.state cut = .ok (some back) := by
          simp [inverseOf, hback, Except.toOption]
        rw [heq] at hinv
        exact (Except.ok.inj hinv).symm
      have hcompacted : (compactEliasDelta parent cut {}).map Compacted.state = .ok res.state := by
        rw [hres]
        rfl
      refine ⟨read_compactEliasDelta hres, hcompacted, ?_, ?_⟩
      · cases hn : r.epochDag.get? key with
        | none => exact ⟨res.translate, htranslate, remapState_translate hres⟩
        | some n =>
          cases hm : n.translate with
          | none =>
            exact ⟨res.translate, by simp [EpochDag.fillIn, hm, htranslate],
              remapState_translate hres⟩
          | some m => exact ⟨m, by simp [EpochDag.fillIn, hm], (hagree n hn).1 m hm⟩
      · cases hn : r.epochDag.get? key with
        | none => exact ⟨back, hinverse, hbackMap⟩
        | some n =>
          cases hm : n.translateInv with
          | none => exact ⟨back, by simp [EpochDag.fillIn, hm, hinverse], hbackMap⟩
          | some m => exact ⟨m, by simp [EpochDag.fillIn, hm], (hagree n hn).2 m hm⟩

section ForgedCompaction

/-- A hash for a keystroke and a compaction on it that shows another character. -/
noncomputable def forgeHash :
    ContentHash (compactibleEmbedRGA Char).Op (compactibleEmbedRGA Char).Print ℕ :=
  .ofTable [.root, .authored [0] "a" 0 (.one (.ins 1 'x' none)), .compact [1] [(1, dEnc 1, 'z')]]

/-- The cut with the keystroke. -/
def keystrokeCut : CoordCut :=
  { settledIds := some [1], inflight := [], frozenAnchorCoords := [] }

/-- The keystroke as a wire commit. -/
def wireKeystroke : WireCommit (compactibleEmbedRGA Char) ℕ :=
  { gid := some 1, parents := [some 0], body := .op "a" 0 (.one (.ins 1 'x' none)) }

/-- A compaction of the keystroke whose state shows another character. -/
def wireCompaction : WireCommit (compactibleEmbedRGA Char) ℕ :=
  { gid := some 2, parents := [some 1], body := .compact keystrokeCut [(1, dEnc 1, 'z')] }

/-- A replica that has received the keystroke. -/
noncomputable def keystrokeReader : Replica (compactibleEmbedRGA Char) ℕ :=
  (create _ forgeHash "b").after forgeHash [.ingest [wireKeystroke]]

theorem reachable_keystrokeReader : Reachable forgeHash keystrokeReader :=
  (Reachable.create "b").after _

theorem exec_wireCompaction : Effect.exec (ingestNew forgeHash wireCompaction [some 1])
      keystrokeReader =
    (.ok 2, (Effect.exec (ingestNew forgeHash wireCompaction [some 1]) keystrokeReader).2) :=
  Effect.exec_eq_ok rfl

theorem localParents_keystrokeReader :
    (keystrokeReader.rooted [some 1]).localParents [some 1] = [1] := by
  rfl

end ForgedCompaction

end Replica

end SalRuntime
