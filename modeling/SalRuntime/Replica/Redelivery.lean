import Mathlib.Data.List.Chain
import SalRuntime.Datatypes.EmbedRGA
import SalRuntime.Replica.Replica

/-!
# Delivering a delta again

A store that holds the commits of a delta recognises them by their content ids. The wire framing
leaves out the id of an operation commit that is followed by a commit whose only parent it is, so
such a commit is not recognised, and is added again.

## Main definitions

* `Spelled` — the framing leaves out no content id of a delta.

## Main results

* `Replica.ingest_held_iff` — ingesting the commits of a delta again changes nothing exactly when
  the framing leaves out no content id.
-/

namespace SalRuntime

variable {D : Datatype} {γ : Type} [LinearOrder γ] {H : ContentHash D.Op D.Print γ}

/-- No operation commit is directly followed by a commit whose only parent it is. -/
def Spelled (commits : List (WireCommit D γ)) : Prop :=
  commits.IsChain fun wc next => ¬ (wc.body.isOp = true ∧ next.parents = [wc.gid])

theorem spelled_cons_iff {wc : WireCommit D γ} {rest : List (WireCommit D γ)} :
    Spelled (wc :: rest) ↔ omitGid wc rest = false ∧ Spelled rest := by
  cases rest with
  | nil => simp [Spelled, omitGid]
  | cons next rest => simp [Spelled, omitGid, ← Bool.not_eq_true]

/-- The framing keeps the content ids of a delta exactly when none is left out. -/
theorem forall_gid_overWireFrom_iff {commits : List (WireCommit D γ)}
    (hsome : ∀ wc ∈ commits, wc.gid.isSome = true) (previous decoded : Option γ) :
    (∀ wc ∈ overWireFrom previous decoded commits, wc.gid.isSome = true) ↔ Spelled commits := by
  induction commits generalizing previous decoded with
  | nil => simp [overWireFrom, Spelled]
  | cons wc rest ih =>
    have hwc := hsome wc List.mem_cons_self
    have hrest := ih (fun w hw => hsome w (List.mem_cons_of_mem _ hw)) wc.gid
      (if omitGid wc rest = true then none else wc.gid)
    rw [overWireFrom, List.forall_mem_cons, hrest, spelled_cons_iff]
    cases omitGid wc rest <;> simp [hwc]

/-- Content ids that are framed are those of the delta. -/
theorem exists_mem_of_mem_overWireFrom {commits : List (WireCommit D γ)} {wc : WireCommit D γ}
    {previous decoded : Option γ} (hwc : wc ∈ overWireFrom previous decoded commits) :
    ∃ w ∈ commits, wc.gid = none ∨ wc.gid = w.gid := by
  induction commits generalizing previous decoded with
  | nil => simp [overWireFrom] at hwc
  | cons w rest ih =>
    rw [overWireFrom] at hwc
    rcases List.mem_cons.mp hwc with rfl | hwc
    · refine ⟨w, List.mem_cons_self, ?_⟩
      cases omitGid w rest <;> simp
    · obtain ⟨w', hw', h⟩ := ih hwc
      exact ⟨w', List.mem_cons_of_mem _ hw', h⟩

namespace Replica

variable {r : Replica D γ}

/-- Commits that are held under their ids are skipped. -/
theorem exec_ingestFrom_of_held {commits : List (WireCommit D γ)} (prior : Option γ)
    (hheld : ∀ wc ∈ commits, wc.gid.any r.byGid.has = true) :
    Effect.exec (ingestFrom H prior commits) r = (.ok 0, r) := by
  induction commits generalizing prior with
  | nil => rfl
  | cons wc rest ih =>
    rw [ingestFrom, Effect.exec_bind_ok (Effect.exec_get r), if_pos (hheld wc List.mem_cons_self)]
    exact ih wc.gid fun w hw => hheld w (List.mem_cons_of_mem _ hw)

/-- A commit that comes without an id is added, or refused. -/
theorem exec_ingestFrom_ne_zero {commits : List (WireCommit D γ)} (prior : Option γ)
    (hnone : ∃ wc ∈ commits, wc.gid = none) (r' : Replica D γ) :
    Effect.exec (ingestFrom H prior commits) r ≠ (.ok 0, r') := by
  induction commits generalizing prior with
  | nil => simp at hnone
  | cons wc rest ih =>
    rw [ingestFrom, Effect.exec_bind_ok (Effect.exec_get r)]
    by_cases hheld : wc.gid.any r.byGid.has = true
    · rw [if_pos hheld]
      refine ih wc.gid ?_
      obtain ⟨w, hw, hgid⟩ := hnone
      rcases List.mem_cons.mp hw with rfl | hw
      · simp [hgid] at hheld
      · exact ⟨w, hw, hgid⟩
    · rw [if_neg hheld]
      intro h
      -- The count of a call that adds a commit is a successor.
      obtain ⟨g, s, -, h⟩ := Effect.exec_bind_eq_ok h
      obtain ⟨n, s', -, h⟩ := Effect.exec_bind_eq_ok h
      simp at h

/-- **Delivering the commits of a delta again** to a replica that holds them returns zero and
changes nothing exactly when no operation commit of the delta is directly followed by a commit whose
only parent it is. -/
theorem ingest_held_iff {commits : List (WireCommit D γ)}
    (hheld : ∀ wc ∈ commits, wc.gid.any r.byGid.has = true) :
    Effect.exec (ingest H (overWire commits)) r = (.ok 0, r) ↔ Spelled commits := by
  have hsome : ∀ wc ∈ commits, wc.gid.isSome = true := fun wc hwc => by
    have := hheld wc hwc
    cases hgid : wc.gid <;> simp_all
  rw [← forall_gid_overWireFrom_iff hsome none none]
  constructor
  · intro h wc hwc
    by_contra hnone
    rw [Bool.not_eq_true, Option.isSome_eq_false_iff, Option.isNone_iff_eq_none] at hnone
    obtain ⟨n, s, hfrom, h⟩ := Effect.exec_bind_eq_ok h
    have hn : n = 0 := by
      split_ifs at h with hpos
      · obtain ⟨_, s', -, h⟩ := Effect.exec_bind_eq_ok h
        exact Except.ok.inj (congrArg Prod.fst h)
      · exact Except.ok.inj (congrArg Prod.fst h)
    exact exec_ingestFrom_ne_zero none ⟨wc, hwc, hnone⟩ s (hn ▸ hfrom)
  · intro hall
    have hfrom : Effect.exec (ingestFrom H none (overWire commits)) r = (.ok 0, r) := by
      refine exec_ingestFrom_of_held none fun wc hwc => ?_
      obtain ⟨w, hw, hnone | heq⟩ := exists_mem_of_mem_overWireFrom hwc
      · have := hall wc hwc
        simp [hnone] at this
      · rw [heq]
        exact hheld w hw
    rw [ingest, Effect.exec_bind_ok hfrom]
    rfl

section TwoKeystrokes

/-- A hash for two keystrokes of a replica. -/
noncomputable def keystrokeHash : ContentHash (embedRGA Char).Op (embedRGA Char).Print ℕ :=
  .ofTable [.root, .authored [0] "a" 0 (.one (.ins 1 'x' none)),
    .authored [1] "a" 1 (.one (.ins 2 'y' (some 1)))]

/-- A replica that typed two characters. -/
noncomputable def typed : Replica (embedRGA Char) ℕ :=
  (Effect.exec (do
    let _ ← commit keystrokeHash (.ins 1 'x' none)
    let _ ← commit keystrokeHash (.ins 2 'y' (some 1))) (create _ keystrokeHash "a")).2

/-- The delta of the two keystrokes for a new replica. -/
noncomputable def typedDelta : List (WireCommit (embedRGA Char) ℕ) :=
  (typed.delta keystrokeHash [0]).toOption.getD []

/-- A replica that has received the delta once. -/
noncomputable def typedPeer : Replica (embedRGA Char) ℕ :=
  (Effect.exec (ingest keystrokeHash (overWire typedDelta)) (create _ keystrokeHash "b")).2

/-- The delta of the first keystroke, received again. -/
theorem ingest_held_iff_first :
    Effect.exec (ingest keystrokeHash (overWire (typedDelta.take 1))) typedPeer =
      (.ok 0, typedPeer) ↔ Spelled (typedDelta.take 1) :=
  ingest_held_iff (by decide +kernel)

/-- Received a second time, the delta adds its first keystroke again, although both are held. -/
theorem ingest_held_adds : (typed.delta keystrokeHash [0]).toOption.isSome = true ∧
    (∀ wc ∈ typedDelta, wc.gid.any typedPeer.byGid.has = true) ∧
    (Effect.exec (ingest keystrokeHash (overWire typedDelta)) typedPeer).1.toOption = some 1 ∧
    (Effect.exec (ingest keystrokeHash (overWire typedDelta)) typedPeer).2.dag.size ≠
      typedPeer.dag.size := by
  decide +kernel

end TwoKeystrokes

end Replica

end SalRuntime
