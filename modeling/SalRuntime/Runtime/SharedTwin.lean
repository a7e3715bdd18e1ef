import SalRuntime.Datatypes.SharedPaths
import SalRuntime.Runtime.SequenceTwin

/-!
# Sharing path nodes is a change of the representation only

The same run of the shared-store runtime is executed with the embedded-chain RGA and with the
prefix-sharing kernel. Both implement event sets, so the two stores have the same shape, and the states of
a head stand for the same operations: the nodes of the one spell the coordinates of the other.

## Main results

* `Runtime.sharedToAbsolute_eq_embedRGA` — both executions hold the same records and show the same ids and
  elements at every replica.
-/

namespace SalRuntime.Runtime

variable {N : ℕ} {α : Type} [DecidableEq α]

/-- The two executions, with the embedded-chain RGA and with the prefix-sharing kernel. -/
abbrev SharedExecutions (R : Runtime (embedRGA α) N) (S : Runtime (sharedEmbedRGA α) N) : Prop :=
  Executions (fun op => op) (fun op => op)
    (fun χ ε E s => EmbedRGA.Represents mintLabel χ ε (live E) s) SharedRep R S

namespace SharedExecutions

variable {R : Runtime (embedRGA α) N} {S : Runtime (sharedEmbedRGA α) N}

/-- **Honest runs** keep the two executions alike. -/
theorem run (h : SharedExecutions R S) {acts : List (Act (SeqOp α) N)} (hacts : HonestSeqRun R acts) :
    SharedExecutions (R.run acts) (S.run acts) := by
  induction acts generalizing R S with
  | nil => exact h
  | cons act acts ih =>
    cases act with
    | commit i op =>
      obtain ⟨hop, hrest⟩ := hacts
      obtain ⟨χ, ε, hR⟩ := h.left
      obtain ⟨happ, hfresh⟩ := hop.applicable hR fun hrep id => hrep.has_iff
      exact ih (h.commit implementsSeq_embedRGA implementsSeq_sharedEmbedRGA i rfl happ hfresh) hrest
    | sync i j => exact ih (h.sync implementsSeq_embedRGA implementsSeq_sharedEmbedRGA i j) hacts
    | gc => exact hacts.elim
    | compactStable i => exact hacts.elim

/-- New runtimes are alike. -/
theorem start [Nonempty α] (names : Fin N → String) :
    SharedExecutions (Runtime.start (embedRGA α) names) (Runtime.start (sharedEmbedRGA α) names) := by
  have ε : ℕ → α := fun _ => Classical.arbitrary α
  exact ⟨SameShape.start names, ⟨_, ε, EventStore.start implementsSeq_embedRGA names⟩,
    ⟨_, ε, EventStore.start implementsSeq_sharedEmbedRGA names⟩⟩

/-- Heads of executions that are alike hold the same records, and the walk of the nodes shows them as
sorting the coordinates does. -/
theorem head_eq (h : SharedExecutions R S) (i : Fin N) :
    SharedEmbedRGA.sharedToAbsolute (S.replicas i).head.state = (R.replicas i).head.state ∧
      SharedEmbedRGA.Woven (S.replicas i).head.state := by
  obtain ⟨χ, ε, hR⟩ := h.left
  obtain ⟨χ', ε', hS⟩ := h.right
  obtain ⟨hbirths, hrepS⟩ := hS.rep_head i
  have hrepR := hR.rep_head i
  rw [h.shape.headId, h.shape.eventsAt_eq] at hrepR
  set E := eventsAt (fun op => op) S.dag (S.headId i) with hE
  -- The chains and elements of the two executions agree.
  have heq (id : ℕ) (hid : id ∈ inserted E) : χ' id = χ id ∧ ε' id = ε id := by
    have hbirths' := hR.births
    rw [h.shape.allOps_eq] at hbirths'
    exact hS.births.unique hbirths' (inserted_mono (EventStore.eventsAt_subset _ _) hid)
  refine ⟨(hrepS.absolute.congr fun id hid => ?_).eq hrepR, hrepS.woven hbirths fun id hid => hid.1⟩
  obtain ⟨hχ, hε⟩ := heq id hid.1
  rw [EmbedRGA.recordOf, EmbedRGA.recordOf, hχ, hε]

end SharedExecutions

omit [DecidableEq α] in
/-- Without elements there is no record. -/
theorem head_eq_of_isEmpty [IsEmpty α] (s : SharedEmbedRGA.State α) (t : EmbedRGA.State α) :
    SharedEmbedRGA.sharedToAbsolute s = t ∧ SharedEmbedRGA.Woven s := by
  have hnone (id : ℕ) (r : SharedEmbedRGA.Rec α) : s.get? id ≠ some r := isEmptyElim r.el
  have hnode (n : PathNode) : ¬ SharedEmbedRGA.Retained s n := fun ⟨id, r, hr, _⟩ => hnone id r hr
  refine ⟨SortedMap.ext_get? fun id => Option.ext fun r => isEmptyElim r.el, ?_⟩
  exact ⟨fun id r hr => absurd hr (hnone id r), fun id r hr => absurd hr (hnone id r),
    fun m _ hm => absurd hm (hnode m), fun m _ hm => absurd hm (hnode m),
    fun n hn => absurd hn (hnode n)⟩

end SalRuntime.Runtime
