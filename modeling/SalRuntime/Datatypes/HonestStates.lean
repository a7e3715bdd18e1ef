import SalRuntime.Datatypes.SeqSpec

/-!
# States that honest authors reach

An honest author inserts under a fresh id, after the root or a smaller live id, and deletes live
ids. The states of a sequence datatype that are reached by such operations and by merges stand for
the operations in their history.

## Main definitions

* `HonestState` — the states reached, with the operations in their history.
* `Closed` — a set of operations with the insertions of its anchors and of its deletions.

## Main results

* `HonestState.closed` — histories are closed.
* `HonestState.rep` — a state stands for its history.
-/

namespace SalRuntime

variable {α : Type}

/-- The states that honest authors reach with the operations of `U`, and the operations in their
history. -/
inductive HonestState (D : Datatype) (toSeq : D.Op → SeqOp α) (U : Set (SeqOp α)) :
    Set (SeqOp α) → D.State → Prop
  | init : HonestState D toSeq U ∅ D.init
  | apply {E s op s'} (h : HonestState D toSeq U E s) (hop : toSeq op ∈ U)
      (happ : Applicable E (toSeq op)) (hs : D.apply s op = .ok s') :
      HonestState D toSeq U (insert (toSeq op) E) s'
  | merge {L A B l a b m} (hl : HonestState D toSeq U L l) (ha : HonestState D toSeq U A a)
      (hb : HonestState D toSeq U B b) (hm : Mergeable L A B) (hs : D.merge3 l a b = .ok m) :
      HonestState D toSeq U (A ∪ B) m

/-- The operations have the insertions of their anchors and of the ids that they delete. -/
structure Closed (E : Set (SeqOp α)) : Prop where
  /-- Anchors are inserted. -/
  anchored : ∀ id el a, SeqOp.ins id el (some a) ∈ E → a ∈ inserted E
  /-- Deleted ids are inserted. -/
  deleted : deleted E ⊆ inserted E

namespace Closed

variable {E E' : Set (SeqOp α)}

theorem empty : Closed (∅ : Set (SeqOp α)) := ⟨by simp, by simp [SalRuntime.deleted]⟩

theorem union (h : Closed E) (h' : Closed E') : Closed (E ∪ E') := by
  refine ⟨fun id el a hmem => ?_, ?_⟩
  · rw [inserted_union]
    rcases hmem with hmem | hmem
    · exact Or.inl (h.anchored id el a hmem)
    · exact Or.inr (h'.anchored id el a hmem)
  · rw [inserted_union, deleted_union]
    exact Set.union_subset_union h.deleted h'.deleted

/-- **Applicable operations** keep the history closed. -/
theorem insert (h : Closed E) {op : SeqOp α} (happ : Applicable E op) : Closed (insert op E) := by
  have hsub : inserted E ⊆ inserted (Insert.insert op E) := inserted_mono (Set.subset_insert _ _)
  refine ⟨fun id el a hmem => ?_, ?_⟩
  · rcases hmem with rfl | hmem
    · exact hsub ((happ.2.2 a rfl).1).1
    · exact hsub (h.anchored id el a hmem)
  · cases op with
    | ins id el a =>
      rw [deleted_insert_ins]
      exact h.deleted.trans hsub
    | del id =>
      rw [deleted_insert_del]
      exact Set.insert_subset (hsub happ.1) (h.deleted.trans hsub)

/-- The ids along the chain of an inserted id are inserted. -/
theorem mem_of_prefix (h : Closed E) {χ : ℕ → List ℕ} {ε : ℕ → α} {U : Set (SeqOp α)}
    (hU : Births χ ε U) (hE : E ⊆ U) {id : ℕ} (hid : id ∈ inserted E) {p : List ℕ} {a : ℕ}
    (hp : p ++ [a] <+: χ id) : a ∈ inserted E := by
  have hbirths : Births χ ε E := ⟨fun i e b hmem => hU.el i e b (hE hmem),
    fun i e b hmem => hU.chain i e b (hE hmem), h.anchored,
    fun i hi => hU.increasing i (inserted_mono hE hi)⟩
  exact (hbirths.prefix_eq hid hp).1

end Closed

namespace HonestState

variable {D : Datatype} {toSeq : D.Op → SeqOp α} {U E : Set (SeqOp α)} {s : D.State}

theorem subset (h : HonestState D toSeq U E s) : E ⊆ U := by
  induction h with
  | init => exact Set.empty_subset _
  | apply _ hop _ _ ih => exact Set.insert_subset hop ih
  | merge _ _ _ _ _ _ iha ihb => exact Set.union_subset iha ihb

theorem closed (h : HonestState D toSeq U E s) : Closed E := by
  induction h with
  | init => exact Closed.empty
  | apply _ _ happ _ ih => exact ih.insert happ
  | merge _ _ _ _ _ _ iha ihb => exact iha.union ihb

/-- **Honest states stand for their histories.** -/
theorem rep {Rep : (ℕ → List ℕ) → (ℕ → α) → Set (SeqOp α) → D.State → Prop}
    (hD : ImplementsSeq D toSeq Rep) {χ : ℕ → List ℕ} {ε : ℕ → α} (hU : Births χ ε U)
    (h : HonestState D toSeq U E s) : Rep χ ε E s := by
  induction h with
  | init => exact hD.init
  | apply h hop happ hs ih =>
    obtain ⟨s'', -, hs', hrep⟩ := hD.apply hU h.subset h.closed.deleted hop happ ih
    exact Except.ok.inj (hs'.symm.trans hs) ▸ hrep
  | merge _ _ _ hm hs ihl iha ihb =>
    obtain ⟨m', hm', hrep⟩ := hD.merge hm ihl iha ihb
    exact Except.ok.inj (hm'.symm.trans hs) ▸ hrep

end HonestState

end SalRuntime
