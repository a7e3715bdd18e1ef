import SalRuntime.Persistence.Records
import SalRuntime.Replica.BatchCommits
import SalRuntime.Replica.Linked

/-!
# Properties of every stored state

A property of states that every operation, every merge and every decoder of a datatype keeps holds of
every state of a store, whatever the replica performs or ingests, and also after it was rebuilt from
records, forged ones included.

## Main definitions

* `Datatype.Keeps` — whatever is applied, merged or decoded has the property.
* `Replica.Keeping` — a sound replica whose states have the property.

## Main results

* `Replica.Keeping.ends_perform` — every call keeps the property.
* `Replica.Keeping.rebuildNode` — rebuilt replicas have it.
-/

namespace SalRuntime

variable {D : Datatype} {γ : Type} [LinearOrder γ] {H : ContentHash D.Op D.Print γ}
  {P : D.State → Prop}

/-- Merging, translating and compacting keep the property, every operation keeps it, and what is decoded
has it. -/
structure Datatype.Keeps (D : Datatype) (P : D.State → Prop) : Prop where
  /-- Merging, translating and compacting. -/
  closed : D.Closed P
  /-- Operations. -/
  apply : ∀ {s} op, P s → Yields P (D.apply s op)
  /-- Batches. -/
  applyBatch : ∀ {applyBatch}, D.applyBatch = some applyBatch → ∀ {s} ops, P s →
    Yields P (applyBatch s ops)
  /-- Decoding. -/
  decode : ∀ {decodeState}, D.decodeState = some decodeState → ∀ w, Yields P (decodeState w)

theorem Datatype.Keeps.applyOps (hP : D.Keeps P) {s : D.State} (hs : P s) (payload : Payload D.Op) :
    Yields P (Replica.applyOps D s payload) := by
  cases payload with
  | one op => exact hP.apply op hs
  | many ops =>
    rw [Replica.applyOps]
    split
    · rename_i applyBatch hbatch
      exact hP.applyBatch hbatch ops hs
    · exact Yields.foldlM (p := fun _ => True) (fun _ _ ht => hP.apply _ ht) (fun _ _ => trivial) hs

namespace Replica

/-- The indexes agree with the store, and every state of the store has the property. -/
def Keeping (H : ContentHash D.Op D.Print γ) (P : D.State → Prop) (r : Replica D γ) : Prop :=
  Sound H r ∧ r.Holds P

namespace Keeping

variable {r : Replica D γ}

theorem stable (hP : D.Keeps P) :
    Stable H P (fun _ _ => True) (Keeping H P : Replica D γ → Prop) :=
  Holds.stable hP.closed fun _ hs => hP.applyOps hs _

theorem create (hP : D.Keeps P) (name : String) : Keeping H P (create D H name) := by
  refine ⟨(indexed_create name).sound, fun x c hc => ?_⟩
  simp only [Replica.create, Dag.get?_push] at hc
  split_ifs at hc
  · cases hc
    exact hP.closed.init
  · cases hc

omit [LinearOrder γ] in
/-- Wire commits that carry what can be decoded are accepted. -/
theorem accepts (hP : D.Keeps P) (wc : WireCommit D γ) (parentGids : List (Option γ)) :
    Accepts H P (fun _ _ => True) wc parentGids :=
  ⟨fun _ _ _ _ => trivial, fun _ hdecode state _ => hP.decode hdecode state⟩

theorem headState (h : Keeping H P r) : Yields P r.headState :=
  .bind fun _ hc => .ok (h.2.of_get hc)

/-- **An operation of its own** keeps the property, if its state has it. -/
theorem ends_author (h : Keeping H P r) (payload : Payload D.Op) {state : D.State}
    (hstate : P state) : Effect.Ends (Keeping H P) (author H payload state) r := by
  refine .bind_get (.bind_ok (Effect.exec_set _ r) ?_)
  set r₁ : Replica D γ := { r with seq := r.seq + 1 } with hr₁
  have h₁ : Sound H r₁ := h.1.congr rfl rfl rfl rfl h.1.head
  have hp : ∀ p ∈ [r.headId], r₁.dag.has p = true := by simpa using h.1.head
  obtain ⟨g, hid⟩ : ∃ g, commitContentId H (r₁.nextCommit [r.headId]
      (some ⟨r.name, r.seq, payload⟩) state) (r₁.parentGids (r₁.nextCommit [r.headId]
      (some ⟨r.name, r.seq, payload⟩) state)) = .ok g := ⟨_, rfl⟩
  refine .bind_ok (exec_file_of_ok hp r.epochKey hid) ?_
  have h₂ : Keeping H P (r₁.filed [r.headId] (some ⟨r.name, r.seq, payload⟩) state r.epochKey g) :=
    ⟨h₁.filed hp g, h.2.push hstate⟩
  obtain ⟨frontier, hset⟩ := exec_setHead
    (r := r₁.filed [r.headId] (some ⟨r.name, r.seq, payload⟩) state r.epochKey g) has_filed_self
  exact .bind_ok hset (.pure ⟨h₂.1.headedAt has_filed_self frontier, h₂.2⟩ _)

theorem ends_commit (hP : D.Keeps P) (h : Keeping H P r) (op : D.Op) :
    Effect.Ends (Keeping H P) (commit H op) r :=
  .bind_get (.bind_lift h fun head hhead => .bind_lift h fun prepared _ =>
    .bind_lift h fun state hstate =>
      h.ends_author _ (hP.apply prepared (h.headState head hhead) state hstate))

theorem ends_commitBatch (hP : D.Keeps P) (h : Keeping H P r) (ops : List D.Op) :
    Effect.Ends (Keeping H P) (commitBatch H ops) r := by
  refine .bind_get ?_
  split
  · exact .pure h _
  · exact h.ends_commit hP _
  · refine .bind_lift h fun head hhead => ?_
    have hs : P head := h.headState head hhead
    split_ifs
    · refine .bind_lift h fun x hx => h.ends_author _ ?_
      exact Yields.foldlM (p := fun _ => True) (fun _ _ ht => hP.apply _ ht) (fun _ _ => trivial) hs
        x.2 (foldlM_prepareEach hx)
    · exact .bind_lift h fun state hstate => h.ends_author _ (hP.applyOps hs _ state hstate)

/-- **Every call** keeps the property. -/
theorem ends_perform (hP : D.Keeps P) (h : Keeping H P r) (request : Request D γ) :
    Effect.Ends (Keeping H P) (perform H request) r := by
  have hQ := stable (H := H) hP
  cases request with
  | register name => exact hQ.ends_register h name
  | commit payload => exact .bind (h.ends_commit hP payload) fun _ _ _ h' => .pure h' _
  | commitBatch ops => exact .bind (h.ends_commitBatch hP ops) fun _ _ _ h' => .pure h' _
  | ingest wireCommits =>
    exact .bind (hQ.ends_ingest h fun wc _ _ => accepts hP wc _) fun _ _ _ h' => .pure h' _
  | mergeWithGid g => exact .bind (hQ.ends_mergeWithGid h g) fun _ _ _ h' => .pure h' _
  | acknowledgeFetch peer headGid epochKey =>
    exact .bind (hQ.ends_acknowledgeFetch h peer headGid epochKey) fun _ _ _ h' => .pure h' _
  | compactStable opts => exact .bind (hQ.ends_compactStable h opts) fun _ _ _ h' => .pure h' _
  | gc =>
    refine .bind (ends_gc_of h fun dag stats hcollected => ⟨h.1.collected hcollected, ?_⟩)
      fun _ _ _ h' => .pure h' _
    exact (shrinks_collected hcollected).holds h.2
  | pruneToEpochBase =>
    refine .bind (ends_pruneToEpochBase_of h (fun h' _ =>
      ⟨h'.1.congr rfl rfl rfl rfl h'.1.head, h'.2⟩) fun hclosure hk hp hbelow hdag => ?_)
      fun _ _ _ h' => .pure h' _
    exact ⟨h.1.pruned hclosure hk hp hbelow hdag _, (shrinks_pruned hdag _ _).holds h.2⟩

/-- **Rebuilt replicas** have the property. -/
theorem rebuildNode (hP : D.Keeps P) {records : List (CommitRecord D γ)} {heads : Heads γ}
    {name : Option String} (hr : SalRuntime.rebuildNode H records heads name = .ok r) :
    Keeping H P r := by
  have hQ := stable (H := H) hP
  have hends : Effect.Ends (Keeping H P) (restore H records heads)
      (Replica.create D H (name.getD heads.replica)) :=
    hQ.ends_restore_of (fun h => hQ.ends_ingest h fun wc _ _ => accepts hP wc _) (create hP _) heads
  rw [Effect.Ends] at hends
  rw [SalRuntime.rebuildNode] at hr
  rcases hexec : Effect.exec (restore H records heads)
      (Replica.create D H (name.getD heads.replica)) with ⟨e | u, r'⟩
  · rw [hexec] at hr
    cases hr
  · rw [hexec] at hr hends
    dsimp only at hr hends
    split_ifs at hr
    · cases hr
      exact ⟨hends.1.congr rfl rfl rfl rfl hends.1.head, hends.2⟩
    · cases hr
      exact hends

end Keeping

end Replica

end SalRuntime
