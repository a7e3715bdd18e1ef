import SalRuntime.Datatypes.RgaFold

/-!
# One order of all elements

The chains of all inserted ids order the elements once and for all: every state of the embedded-chain
RGA reads its live elements in this order. An id above all ids that its author has seen lands right
after its anchor.

## Main results

* `Births.above_total` — the chains order all inserted ids.
* `Births.pairwise_readIds` — a state reads its live elements in this order.
* `Births.readIds_insert_ins` — where an insertion lands.
-/

namespace SalRuntime.Births

variable {α : Type} {χ : ℕ → List ℕ} {ε : ℕ → α} {U : Set (SeqOp α)}

/-- Chains and elements of more insertions. -/
theorem of_subset (h : Births χ ε U) {χ' : ℕ → List ℕ} {ε' : ℕ → α} {U' : Set (SeqOp α)}
    (h' : Births χ' ε' U') (hU : U' ⊆ U) : Births χ ε U' where
  el id el a hmem := h.el id el a (hU hmem)
  chain id el a hmem := h.chain id el a (hU hmem)
  anchored := h'.anchored
  increasing id hid := h.increasing id (inserted_mono hU hid)

variable (h : Births χ ε U)

include h

/-- Ids increase along chains. -/
theorem le_of_mem_chain {id k : ℕ} (hid : id ∈ inserted U) (hk : k ∈ χ id) : k ≤ id := by
  obtain ⟨p, hp⟩ := h.chain_eq hid
  have hinc := (List.pairwise_cons.mp (h.increasing id hid)).2
  rw [hp, List.pairwise_append] at hinc
  rw [hp, List.mem_append, List.mem_singleton] at hk
  rcases hk with hk | rfl
  · exact (hinc.2.2 k hk id (List.mem_singleton_self id)).le
  · exact le_rfl

/-- **The chains order** all inserted ids. -/
theorem above_total {i j : ℕ} (hi : i ∈ inserted U) (hj : j ∈ inserted U) :
    Above (χ i) (χ j) ∨ i = j ∨ Above (χ j) (χ i) :=
  (above_trichotomy (χ i) (χ j)).imp_right fun hor => hor.imp_left fun heq => h.injOn hi hj heq

variable {E : Set (SeqOp α)} {s s' : EmbedRGA.State α}

/-- **A state reads its live elements** in the order of their chains. -/
theorem pairwise_readIds (hE : E ⊆ U) (hrep : EmbedRGA.Represents mintLabel χ ε (live E) s) :
    (EmbedRGA.readIds s).Pairwise (fun i j => Above (χ i) (χ j)) ∧
      ∀ id, id ∈ EmbedRGA.readIds s ↔ id ∈ live E :=
  hrep.pairwise_readIds siblingMono_mintLabel
    (fun _ hid => h.mem_increasingChains (inserted_mono hE hid.1))
    (h.injOn.mono fun _ hid => inserted_mono hE hid.1)

/-- **Where an insertion lands**: an id above all ids that its author has seen comes right after its
anchor, and without an anchor in front. -/
theorem readIds_insert_ins {id : ℕ} {el : α} {anchorId : Option ℕ}
    (hE : insert (SeqOp.ins id el anchorId) E ⊆ U) (hdel : deleted E ⊆ inserted E)
    (hlt : ∀ j ∈ inserted E, j < id) (hlive : ∀ a, anchorId = some a → a ∈ live E)
    (hrep : EmbedRGA.Represents mintLabel χ ε (live E) s)
    (hrep' : EmbedRGA.Represents mintLabel χ ε (live (insert (SeqOp.ins id el anchorId) E)) s') :
    EmbedRGA.readIds s' = Rga.insertAfter id anchorId (EmbedRGA.readIds s) := by
  have hsub : E ⊆ U := (Set.subset_insert _ _).trans hE
  have hid : id ∉ inserted E := fun hmem => lt_irrefl _ (hlt id hmem)
  obtain ⟨hsorted, hmem⟩ := h.pairwise_readIds hsub hrep
  obtain ⟨hsorted', hmem'⟩ := h.pairwise_readIds hE hrep'
  have hanchor (a : ℕ) (ha : anchorId = some a) : a ∈ EmbedRGA.readIds s := (hmem a).mpr (hlive a ha)
  have hchain := h.chain id el anchorId (hE (Set.mem_insert _ _))
  -- Everything that the anchor comes before, the new id comes before as well.
  have hins : (Rga.insertAfter id anchorId (EmbedRGA.readIds s)).Pairwise
      fun j k => Above (χ j) (χ k) := by
    refine Rga.pairwise_insertAfter (R := fun j k => Above (χ j) (χ k)) (fun _ _ _ => Above.trans)
      hsorted hanchor (fun a ha => ?_) fun j hj hbelow => ?_
    · rw [hchain, ha, anchorChain]
      exact above_append_of_ne_nil _ (by simp)
    · have hj' : j ∈ inserted E := ((hmem j).mp hj).1
      have hsmall : ∀ k ∈ χ j, k < id := fun k hk =>
        (h.le_of_mem_chain (inserted_mono hsub hj') hk).trans_lt (hlt j hj')
      rw [hchain]
      cases anchorId with
      | none =>
        cases hχ : χ j with
        | nil =>
          obtain ⟨p, hp⟩ := h.chain_eq (inserted_mono hsub hj')
          simp [hχ] at hp
        | cons x r => exact List.Lex.rel (hsmall x (hχ ▸ List.mem_cons_self))
      | some a => exact Rga.above_concat_left (hbelow a rfl) hsmall
  refine eq_of_pairwise_above hsorted' hins fun j => ?_
  rw [hmem', live_insert_ins hdel hid, Rga.mem_insertAfter hanchor, hmem, Set.mem_insert_iff]

end SalRuntime.Births
