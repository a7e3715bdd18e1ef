import SalRuntime.Datatypes.RichConvergence
import SalRuntime.Foundations.EventSets

/-!
# The meanings of the text datatypes

The states of the sequence datatypes and of the rich text stand for sets of operations, so what holds of
every replicated object whose states have such a meaning holds of them.

## Main definitions

* `Datatype.replicated` — a datatype as a replicated object.
* `ImplementsSeq.meaning` — the meaning of a sequence datatype.
* `embedMeaning`, `rgaMeaning` — those of the two sequence datatypes.
* `Peritext.meaning` — the meaning of the rich text over the embedded-chain RGA.
-/

namespace SalRuntime

/-- A datatype as a replicated object. -/
def Datatype.replicated (D : Datatype) : Replicated D.State D.Op Failure where
  init := D.init
  apply := D.apply
  merge3 := D.merge3

/-! ### Sequences -/

section Seq

variable {D : Datatype} {α : Type} {toSeq : D.Op → SeqOp α}
  {Rep : (ℕ → List ℕ) → (ℕ → α) → Set (SeqOp α) → D.State → Prop}

theorem mem_inserted_image {U : Set D.Op} {id : ℕ} :
    id ∈ inserted (toSeq '' U) ↔ ∃ o ∈ U, id ∈ inserted {toSeq o} := by
  constructor
  · rintro ⟨el, a, o, ho, heq⟩
    exact ⟨o, ho, el, a, heq.symm⟩
  · rintro ⟨o, ho, el, a, heq⟩
    exact ⟨el, a, o, ho, heq.symm⟩

/-- An operation of an author that has seen `E` extends the chains and elements. -/
theorem Births.extend {χ : ℕ → List ℕ} {ε : ℕ → α} {U E : Set (SeqOp α)} (h : Births χ ε U)
    (hE : E ⊆ U) {op : SeqOp α} (happ : Applicable E op)
    (hfresh : ∀ id ∈ inserted {op}, id ∉ inserted U) : ∃ χ' ε', Births χ' ε' (insert op U) ∧
      ∀ id ∈ inserted U, χ id = χ' id ∧ ε id = ε' id := by
  cases op with
  | ins id el anchorId =>
    have hid : id ∉ inserted U := hfresh id ⟨el, anchorId, rfl⟩
    refine ⟨_, _, h.insert_ins hid happ.2.1 fun a ha => ?_, fun j hj => ?_⟩
    · exact ⟨inserted_mono hE (happ.2.2 a ha).1.1, (happ.2.2 a ha).2⟩
    · have hne : j ≠ id := fun heq => hid (heq ▸ hj)
      rw [Function.update_of_ne hne, Function.update_of_ne hne]
      exact ⟨rfl, rfl⟩
  | del id => exact ⟨χ, ε, h.insert_del id, fun _ _ => ⟨rfl, rfl⟩⟩

/-- Applicable deletions are of inserted ids. -/
theorem Applicable.deleted_subset {E : Set (SeqOp α)} {op : SeqOp α} (happ : Applicable E op)
    (hE : deleted E ⊆ inserted E) : deleted (insert op E) ⊆ inserted (insert op E) := by
  cases op with
  | ins id el anchorId =>
    rw [deleted_insert_ins, inserted_insert_ins]
    exact hE.trans (Set.subset_insert _ _)
  | del id =>
    rw [deleted_insert_del, inserted_insert_del]
    exact Set.insert_subset happ.1 hE

/-- **The meaning of a sequence datatype.** Its context is the chains and elements of the inserted ids. -/
def ImplementsSeq.meaning [Inhabited α] (h : ImplementsSeq D toSeq Rep)
    (hunique : ∀ {χ ε E s s'}, Rep χ ε E s → Rep χ ε E s' → s = s') :
    D.replicated.Meaning ((ℕ → List ℕ) × (ℕ → α)) ℕ where
  creates op := inserted {toSeq op}
  Fits c U := Births c.1 c.2 (toSeq '' U)
  Rep c E s := Rep c.1 c.2 (toSeq '' E) s ∧ deleted (toSeq '' E) ⊆ inserted (toSeq '' E)
  Applicable E op := Applicable (toSeq '' E) (toSeq op)
  start := ⟨(fun _ => [], fun _ => default), by rw [Set.image_empty]; exact Births.empty⟩
  init := by
    intro c
    rw [Set.image_empty]
    exact ⟨h.init, fun id hid => hid.elim⟩
  extend := by
    intro c U E op hU hE happ hfresh
    have hfresh' : ∀ id ∈ inserted {toSeq op}, id ∉ inserted (toSeq '' U) := by
      intro id hid hmem
      obtain ⟨o, ho, hid'⟩ := mem_inserted_image.mp hmem
      exact hfresh id hid o ho hid'
    obtain ⟨χ', ε', hbirths, hkeep⟩ := hU.extend (Set.image_mono hE) happ hfresh'
    refine ⟨(χ', ε'), by rwa [Set.image_insert_eq], fun {A s} hA ⟨hrep, hdel⟩ => ⟨?_, hdel⟩⟩
    exact h.congr (fun id hid => hkeep id (inserted_mono (Set.image_mono hA) hid)) hrep
  apply := by
    intro c U E op s hU hE hop happ ⟨hrep, hdel⟩
    obtain ⟨s', -, hs', hrep'⟩ :=
      h.apply hU (Set.image_mono hE) hdel (Set.mem_image_of_mem _ hop) happ hrep
    rw [Set.image_insert_eq]
    exact ⟨s', hs', hrep', happ.deleted_subset hdel⟩
  merge := by
    intro c U L A B l a b _ _ _ hL hcommon ⟨hl, _⟩ ⟨ha, hdelA⟩ ⟨hb, hdelB⟩
    have hLA : toSeq '' L ⊆ toSeq '' A := Set.image_mono (hL.trans Set.inter_subset_left)
    have hLB : toSeq '' L ⊆ toSeq '' B := Set.image_mono (hL.trans Set.inter_subset_right)
    have hm : Mergeable (toSeq '' L) (toSeq '' A) (toSeq '' B) := by
      refine ⟨Set.Subset.antisymm (Set.subset_inter (inserted_mono hLA) (inserted_mono hLB)) ?_,
        Set.subset_inter (deleted_mono hLA) (deleted_mono hLB), hdelA, hdelB⟩
      rintro id ⟨hidA, hidB⟩
      obtain ⟨o, ho, hid⟩ := mem_inserted_image.mp hidA
      obtain ⟨o', ho', hid'⟩ := mem_inserted_image.mp hidB
      exact mem_inserted_image.mpr ⟨o, hcommon o ho o' ho' id hid hid', hid⟩
    obtain ⟨m, hmerge, hrep⟩ := h.merge hm hl ha hb
    rw [Set.image_union]
    refine ⟨m, hmerge, hrep, ?_⟩
    rw [deleted_union, inserted_union]
    exact Set.union_subset_union hdelA hdelB
  unique := by
    rintro c E s s' ⟨hs, _⟩ ⟨hs', _⟩
    exact hunique hs hs'

end Seq

/-- The state of the tombstone RGA is determined by what it represents. -/
theorem Rga.Represents.eq {α : Type} {χ : ℕ → List ℕ} {ε : ℕ → α} {I G : Set ℕ} {s s' : Rga.State α}
    (h : Represents χ ε I G s) (h' : Represents χ ε I G s') : s = s' := by
  have hadds : s.adds = s'.adds := SortedMap.ext_get? fun id => by
    ext r
    rw [h.adds, h'.adds]
  have hgrave : s.grave = s'.grave := SortedMap.ext_get? fun id => by
    have hiff : s.grave.has id = s'.grave.has id := by rw [Bool.eq_iff_iff, h.grave, h'.grave]
    rw [SortedMap.has, SortedMap.has] at hiff
    cases hget : s.grave.get? id <;> cases hget' : s'.grave.get? id <;> simp_all
  cases s
  cases s'
  simp only [Rga.State.mk.injEq]
  exact ⟨hadds, hgrave, h.order.trans h'.order.symm⟩

/-- The meaning of the embedded-chain RGA. -/
def embedMeaning (α : Type) [DecidableEq α] [Inhabited α] :
    (embedRGA α).replicated.Meaning ((ℕ → List ℕ) × (ℕ → α)) ℕ :=
  implementsSeq_embedRGA.meaning EmbedRGA.Represents.eq

theorem embedMeaning_applicable_iff {α : Type} [DecidableEq α] [Inhabited α] {E : Set (SeqOp α)}
    {op : SeqOp α} : (embedMeaning α).Applicable E op ↔ Applicable E op := by
  have himage : (embedMeaning α).Applicable E op ↔ Applicable ((fun o => o) '' E) op := Iff.rfl
  rw [himage, Set.image_id']

/-- The meaning of the tombstone RGA. -/
def rgaMeaning (α : Type) [DecidableEq α] [Inhabited α] :
    (rga α).replicated.Meaning ((ℕ → List ℕ) × (ℕ → α)) ℕ :=
  implementsSeq_rga.meaning Rga.Represents.eq

/-! ### Rich text -/

namespace Peritext

variable {α β μ : Type}

/-- The ids that an operation creates: those of an insertion, and those of a mark. -/
def creates : EmbedOp α μ β → Set (ℕ ⊕ ℕ)
  | .ins i => {.inl i.id}
  | .del _ => ∅
  | .mark m => {.inr m.mid}

/-- An operation that an author may make on the operations it has seen. -/
def MayMake (E : Set (EmbedOp α μ β)) : EmbedOp α μ β → Prop
  | .ins i => i.id ∉ inserted (births E) ∧ 0 < i.id ∧
      ∀ a, i.anchorId = some a → a ∈ inserted (births E) ∧ a < i.id
  | .del _ => True
  | .mark _ => True

theorem mem_inserted_births {U : Set (EmbedOp α μ β)} {id : ℕ} :
    id ∈ inserted (births U) ↔ ∃ o ∈ U, Sum.inl id ∈ creates o := by
  constructor
  · rintro ⟨el, a, i, hi, heq⟩
    refine ⟨.ins i, hi, ?_⟩
    rw [Insertion.op, SeqOp.ins.injEq] at heq
    simp [creates, heq.1]
  · rintro ⟨o, ho, hid⟩
    cases o with
    | ins i =>
      simp only [creates, Set.mem_singleton_iff, Sum.inl.injEq] at hid
      exact ⟨i.el, i.anchorId, i, ho, hid ▸ rfl⟩
    | del id => exact hid.elim
    | mark m => simp [creates] at hid

/-- Honest operations stay honest with an operation that creates fresh ids. -/
theorem HonestOps.extend {U E : Set (EmbedOp α μ β)} (h : HonestOps U) (hE : E ⊆ U)
    {op : EmbedOp α μ β} (hmay : MayMake E op)
    (hfresh : ∀ i ∈ creates op, ∀ o ∈ U, i ∉ creates o) : HonestOps (insert op U) := by
  cases op with
  | ins i =>
    obtain ⟨-, hpos, hanchor⟩ := hmay
    have hid : i.id ∉ inserted (births U) := fun hmem => by
      obtain ⟨o, ho, hid⟩ := mem_inserted_births.mp hmem
      exact hfresh _ rfl o ho hid
    have hmem : inserted (births (insert (.ins i) U)) = insert i.id (inserted (births U)) := by
      rw [births_insert_ins, Insertion.op, inserted_insert_ins]
    refine ⟨⟨fun id el a el' a' h₁ h₂ => ?_, fun id el a h₁ => ?_, fun id h₁ => ?_⟩,
      fun m m' h₁ h₂ => ?_⟩
    · rw [births_insert_ins] at h₁ h₂
      rcases h₁ with h₁ | h₁ <;> rcases h₂ with h₂ | h₂
      · rw [Insertion.op, SeqOp.ins.injEq] at h₁ h₂
        exact ⟨h₁.2.1.trans h₂.2.1.symm, h₁.2.2.trans h₂.2.2.symm⟩
      · rw [Insertion.op, SeqOp.ins.injEq] at h₁
        exact absurd ⟨el', a', h₁.1 ▸ h₂⟩ hid
      · rw [Insertion.op, SeqOp.ins.injEq] at h₂
        exact absurd ⟨el, a, h₂.1 ▸ h₁⟩ hid
      · exact h.inserts.unique id el a el' a' h₁ h₂
    · rw [hmem]
      rw [births_insert_ins] at h₁
      rcases h₁ with h₁ | h₁
      · rw [Insertion.op, SeqOp.ins.injEq] at h₁
        obtain ⟨ha, hlt⟩ := hanchor a h₁.2.2.symm
        exact ⟨Or.inr (inserted_mono (births_mono hE) ha), h₁.1 ▸ hlt⟩
      · exact (h.inserts.anchored id el a h₁).imp_left Or.inr
    · rw [hmem] at h₁
      rcases h₁ with rfl | h₁
      · exact hpos
      · exact h.inserts.pos id h₁
    · exact h.marks m m' (by simpa using h₁) (by simpa using h₂)
  | del id =>
    have hbirths : births (insert (.del id) U) = births U := births_insert_of_ne (by simp)
    refine ⟨hbirths ▸ h.inserts, fun m m' h₁ h₂ => ?_⟩
    exact h.marks m m' (by simpa using h₁) (by simpa using h₂)
  | mark m₀ =>
    have hbirths : births (insert (.mark m₀) U) = births U := births_insert_of_ne (by simp)
    have hnew {m : MarkOp μ β} (hm : RichOp.mark m ∈ U) : m.mid ≠ m₀.mid := fun heq =>
      hfresh (.inr m₀.mid) rfl _ hm (by rw [creates, heq]; rfl)
    refine ⟨hbirths ▸ h.inserts, fun m m' h₁ h₂ hmid => ?_⟩
    rcases h₁ with h₁ | h₁ <;> rcases h₂ with h₂ | h₂
    · cases h₁
      cases h₂
      rfl
    · cases h₁
      exact absurd hmid.symm (hnew h₂)
    · cases h₂
      exact absurd hmid (hnew h₁)
    · exact h.marks m m' h₁ h₂ hmid

/-- **The meaning of the rich text** over the embedded-chain RGA. -/
def meaning (α μ β : Type) [DecidableEq α] [Inhabited α] [LinearOrder μ] [DecidableEq β] :
    (peritextEmbedRGA α μ β).replicated.Meaning ((ℕ → List ℕ) × (ℕ → α)) (ℕ ⊕ ℕ) where
  creates := creates
  Fits c U := Births c.1 c.2 (births U) ∧ HonestOps U
  Rep c E s := Represents c.1 c.2 E s
  Applicable E op := MayMake E op
  start := by
    have hempty : births (∅ : Set (EmbedOp α μ β)) = ∅ := by
      ext o
      simp [births]
    refine ⟨(fun _ => [], fun _ => default), hempty ▸ Births.empty, ⟨hempty ▸ ?_, by simp⟩⟩
    exact ⟨by simp, by simp, by simp [inserted]⟩
  init := Represents.init
  extend := by
    intro c U E op hU hE hmay hfresh
    have hhonest := hU.2.extend hE hmay hfresh
    obtain ⟨⟨χ', ε'⟩, hbirths, hkeep⟩ : ∃ c' : (ℕ → List ℕ) × (ℕ → α),
        Births c'.1 c'.2 (births (insert op U)) ∧
        ∀ id ∈ inserted (births U), c.1 id = c'.1 id ∧ c.2 id = c'.2 id := by
      cases op with
      | ins i =>
        obtain ⟨-, hpos, hanchor⟩ := hmay
        have hid : i.id ∉ inserted (births U) := fun hmem => by
          obtain ⟨o, ho, hid⟩ := mem_inserted_births.mp hmem
          exact hfresh _ rfl o ho hid
        rw [births_insert_ins]
        refine ⟨(Function.update c.1 i.id (anchorChain c.1 i.anchorId ++ [i.id]),
          Function.update c.2 i.id i.el), hU.1.insert_ins hid hpos fun a ha => ?_, fun j hj => ?_⟩
        · exact (hanchor a ha).imp_left fun h => inserted_mono (births_mono hE) h
        · have hne : j ≠ i.id := fun heq => hid (heq ▸ hj)
          dsimp only
          rw [Function.update_of_ne hne, Function.update_of_ne hne]
          exact ⟨rfl, rfl⟩
      | del id => exact ⟨c, by rw [births_insert_of_ne (by simp)]; exact hU.1, fun _ _ => ⟨rfl, rfl⟩⟩
      | mark m => exact ⟨c, by rw [births_insert_of_ne (by simp)]; exact hU.1, fun _ _ => ⟨rfl, rfl⟩⟩
    refine ⟨(χ', ε'), ⟨hbirths, hhonest⟩, fun {A s} hA hrep => ⟨?_, hrep.deleted, hrep.marks⟩⟩
    refine hrep.shadow.congr fun id hid => ?_
    have hmem := hkeep id (inserted_mono (births_mono hA) hid)
    rw [EmbedRGA.recordOf, EmbedRGA.recordOf, hmem.1, hmem.2]
  apply := by
    intro c U E op s hU hE hop hmay hrep
    refine hrep.apply hU.1 hU.2 hE ⟨hop, fun i hi => ?_⟩
    subst hi
    exact ⟨hmay.1, fun a ha => (hmay.2.2 a ha).1⟩
  merge := by
    intro c U L A B l a b hU hA hB hL _ hl ha hb
    exact Represents.merge3 hU.2 hl ha hb hA hB hL
  unique := Represents.eq

end Peritext

end SalRuntime
