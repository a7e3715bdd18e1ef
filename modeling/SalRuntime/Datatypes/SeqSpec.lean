import SalRuntime.Datatypes.EmbedRGA
import SalRuntime.Datatypes.Rga

/-!
# Sequence datatypes as implementations of event sets

The specification of a sequence datatype: a state stands for a set of operations. Applying an
applicable operation adds it to the set, and a three-way merge over the common operations of two
sides stands for their union. Both sequence datatypes meet this specification.

## Main definitions

* `Applicable` — an operation that an author may make on a set of operations it has seen.
* `Mergeable` — three sets of operations that a three-way merge is specified for.
* `ImplementsSeq` — the specification.
* `opsOn`, `UniqueInserts` — the operations on a set of commits.

## Main results

* `implementsSeq_embedRGA`, `implementsSeq_rga` — both datatypes meet the specification.
* `mergeable_opsOn` — the operations on two sets of commits are mergeable over those on their
  intersection.
-/

namespace SalRuntime

variable {α : Type}

/-- An operation that an author may make on the operations `E` it has seen: an insertion under a
fresh id, after the root or a smaller live id, or the deletion of a live id. -/
def Applicable (E : Set (SeqOp α)) : SeqOp α → Prop
  | .ins id _ anchorId =>
    id ∉ inserted E ∧ 0 < id ∧ ∀ a, anchorId = some a → a ∈ live E ∧ a < id
  | .del id => id ∈ live E

/-- Three sets of operations a merge is specified for: the base has the common insertions, and only
common deletions; deletions are of inserted ids. -/
structure Mergeable (L A B : Set (SeqOp α)) : Prop where
  /-- The base has exactly the common insertions. -/
  inserted_eq : inserted L = inserted A ∩ inserted B
  /-- The base has only common deletions. -/
  deleted_subset : deleted L ⊆ deleted A ∩ deleted B
  /-- Deletions of the first side are of inserted ids. -/
  left : deleted A ⊆ inserted A
  /-- Deletions of the second side are of inserted ids. -/
  right : deleted B ⊆ inserted B

/-- The datatype `D`, whose operations are read as sequence operations by `toSeq`, implements event
sets: `Rep χ ε E s` says that the state `s` stands for the operations `E`, where `χ` and `ε` are
the chains and elements of the inserted ids. -/
structure ImplementsSeq (D : Datatype) (toSeq : D.Op → SeqOp α)
    (Rep : (ℕ → List ℕ) → (ℕ → α) → Set (SeqOp α) → D.State → Prop) : Prop where
  /-- Only the chains and elements of inserted ids matter. -/
  congr : ∀ {χ ε χ' ε' E s}, (∀ id ∈ inserted E, χ id = χ' id ∧ ε id = ε' id) → Rep χ ε E s →
    Rep χ' ε' E s
  /-- The initial state stands for no operation. -/
  init : ∀ {χ ε}, Rep χ ε ∅ D.init
  /-- Applying an applicable operation adds it. -/
  apply : ∀ {χ ε U E s op}, Births χ ε U → E ⊆ U → deleted E ⊆ inserted E → toSeq op ∈ U →
    Applicable E (toSeq op) → Rep χ ε E s → ∃ s', D.prepared s op = .ok op ∧
      D.apply s op = .ok s' ∧ Rep χ ε (insert (toSeq op) E) s'
  /-- Merging stands for the union. -/
  merge : ∀ {χ ε L A B l a b}, Mergeable L A B → Rep χ ε L l → Rep χ ε A a → Rep χ ε B b →
    ∃ m, D.merge3 l a b = .ok m ∧ Rep χ ε (A ∪ B) m

/-! ### The two datatypes -/

theorem live_insert_ins {E : Set (SeqOp α)} (hdel : deleted E ⊆ inserted E) {id : ℕ} {el : α}
    {anchorId : Option ℕ} (hid : id ∉ inserted E) :
    live (insert (.ins id el anchorId) E) = insert id (live E) := by
  rw [live, live, inserted_insert_ins, deleted_insert_ins]
  ext i
  simp only [Set.mem_sdiff, Set.mem_insert_iff]
  constructor
  · rintro ⟨rfl | hi, hd⟩
    · exact Or.inl rfl
    · exact Or.inr ⟨hi, hd⟩
  · rintro (rfl | ⟨hi, hd⟩)
    · exact ⟨Or.inl rfl, fun hd => hid (hdel hd)⟩
    · exact ⟨Or.inr hi, hd⟩

theorem live_insert_del {E : Set (SeqOp α)} {id : ℕ} :
    live (insert (.del id) E) = live E \ {id} := by
  rw [live, live, inserted_insert_del, deleted_insert_del]
  ext i
  simp only [Set.mem_sdiff, Set.mem_insert_iff, Set.mem_singleton_iff]
  tauto

/-- The label of a new chain in the mint code is the distance from the anchor. -/
theorem Births.mintLabel_eq {χ : ℕ → List ℕ} {ε : ℕ → α} {U : Set (SeqOp α)} (hU : Births χ ε U)
    {id : ℕ} {el : α} {anchorId : Option ℕ} (hmem : SeqOp.ins id el anchorId ∈ U) :
    mintLabel (χ id) = id - anchorId.getD 0 := by
  rw [hU.chain id el anchorId hmem, mintLabel_concat]
  cases anchorId with
  | none => rfl
  | some a =>
    obtain ⟨p, hp⟩ := hU.chain_eq (hU.anchored id el a hmem)
    rw [anchorChain, hp, List.getLastD_concat, Option.getD_some]

/-- **The embedded-chain RGA implements event sets**: its state holds the live ids. -/
theorem implementsSeq_embedRGA [DecidableEq α] : ImplementsSeq (embedRGA α) (fun op => op)
    (fun χ ε E s => EmbedRGA.Represents mintLabel χ ε (live E) s) where
  congr h hrep := hrep.congr fun id hid => by
    rw [EmbedRGA.recordOf, EmbedRGA.recordOf, (h id hid.1).1, (h id hid.1).2]
  init := EmbedRGA.Represents.init.of_eq (by simp [live, inserted])
  apply := by
    intro χ ε U E s op hU hE hdel hop happ hrep
    cases op with
    | ins id el anchorId =>
      obtain ⟨hid, hpos, hanchor⟩ := happ
      obtain ⟨s', hs', hrep'⟩ := hrep.apply_ins (fun h => hid h.1) hanchor hpos
        (hU.chain id el anchorId hop) (hU.el id el anchorId hop) (hU.mintLabel_eq hop)
      exact ⟨s', rfl, hs', hrep'.of_eq (live_insert_ins hdel hid).symm⟩
    | del id =>
      obtain ⟨s', hs', hrep'⟩ := hrep.apply_del id
      exact ⟨s', rfl, hs', hrep'.of_eq live_insert_del.symm⟩
  merge := by
    intro χ ε L A B l a b hm hl ha hb
    obtain ⟨m, hmerge, hrep⟩ := EmbedRGA.Represents.merge3 (fun id => hl.has_iff) ha hb
    exact ⟨m, hmerge, hrep.of_eq
      (live_eq_mergeLive hm.inserted_eq hm.deleted_subset hm.left hm.right)⟩

/-- **The tombstone RGA implements event sets**: its state holds the insertions and the graves. -/
theorem implementsSeq_rga [DecidableEq α] : ImplementsSeq (rga α) (fun op => op)
    (fun χ ε E s => Rga.Represents χ ε (inserted E) (deleted E) s) where
  congr h hrep := hrep.congr (fun id hid => (h id hid).1) fun id hid => (h id hid).2
  init := by
    have hins : inserted (∅ : Set (SeqOp α)) = ∅ := by simp [inserted]
    have hdel : deleted (∅ : Set (SeqOp α)) = ∅ := by simp [deleted]
    intro χ ε
    rw [hins, hdel]
    exact Rga.Represents.init
  apply := by
    intro χ ε U E s op hU hE hdel hop happ hrep
    cases op with
    | ins id el anchorId =>
      obtain ⟨hid, hpos, hanchor⟩ := happ
      have hχ : Rga.anchorOf χ id = anchorId := by
        rw [Rga.anchorOf, hU.chain id el anchorId hop, List.dropLast_concat]
        cases anchorId with
        | none => rfl
        | some a =>
          obtain ⟨p, hp⟩ := hU.chain_eq (hU.anchored id el a hop)
          rw [anchorChain, hp, List.getLast?_concat]
      obtain ⟨hprep, s', hs', hrep'⟩ := hrep.apply_ins hid (fun h => hid (hdel h)) hanchor hpos hχ
        (hU.el id el anchorId hop)
      rw [inserted_insert_ins, deleted_insert_ins]
      exact ⟨s', hprep, hs', hrep'⟩
    | del id =>
      obtain ⟨hprep, s', hs', hrep'⟩ := hrep.apply_del happ
      rw [inserted_insert_del, deleted_insert_del]
      exact ⟨s', hprep, hs', hrep'⟩
  merge := by
    intro χ ε L A B l a b _ _ ha hb
    obtain ⟨m, hmerge, hrep⟩ := ha.merge3 hb (l := l)
    rw [inserted_union, deleted_union]
    exact ⟨m, hmerge, hrep⟩

/-! ### Operations on sets of commits -/

section OpsOn

variable {ι : Type*} {ops : ι → Set (SeqOp α)}

/-- The operations carried by the commits of a set. -/
def opsOn (ops : ι → Set (SeqOp α)) (Z : Set ι) : Set (SeqOp α) := {o | ∃ y ∈ Z, o ∈ ops y}

/-- Every id is inserted by one commit only. -/
def UniqueInserts (ops : ι → Set (SeqOp α)) : Prop :=
  ∀ x y id, id ∈ inserted (ops x) → id ∈ inserted (ops y) → x = y

theorem opsOn_mono {Z Z' : Set ι} (h : Z ⊆ Z') : opsOn ops Z ⊆ opsOn ops Z' :=
  fun _ ⟨y, hy, ho⟩ => ⟨y, h hy, ho⟩

theorem opsOn_union (Z Z' : Set ι) : opsOn ops (Z ∪ Z') = opsOn ops Z ∪ opsOn ops Z' := by
  ext o
  simp only [opsOn, Set.mem_union, or_and_right, exists_or, Set.mem_ofPred_eq]

theorem mem_inserted_opsOn {Z : Set ι} {id : ℕ} :
    id ∈ inserted (opsOn ops Z) ↔ ∃ y ∈ Z, id ∈ inserted (ops y) := by
  constructor
  · rintro ⟨el, a, y, hy, ho⟩
    exact ⟨y, hy, el, a, ho⟩
  · rintro ⟨y, hy, el, a, ho⟩
    exact ⟨el, a, y, hy, ho⟩

/-- **The operations of two sets of commits are mergeable over those of their intersection.** -/
theorem mergeable_opsOn (huniq : UniqueInserts ops) {Z Z' : Set ι}
    (hZ : deleted (opsOn ops Z) ⊆ inserted (opsOn ops Z))
    (hZ' : deleted (opsOn ops Z') ⊆ inserted (opsOn ops Z')) :
    Mergeable (opsOn ops (Z ∩ Z')) (opsOn ops Z) (opsOn ops Z') where
  inserted_eq := by
    ext id
    simp only [Set.mem_inter_iff, mem_inserted_opsOn]
    constructor
    · rintro ⟨y, ⟨hy, hy'⟩, hid⟩
      exact ⟨⟨y, hy, hid⟩, y, hy', hid⟩
    · rintro ⟨⟨y, hy, hid⟩, y', hy', hid'⟩
      exact ⟨y, ⟨hy, huniq y' y id hid' hid ▸ hy'⟩, hid⟩
  deleted_subset := Set.subset_inter (deleted_mono (opsOn_mono Set.inter_subset_left))
    (deleted_mono (opsOn_mono Set.inter_subset_right))
  left := hZ
  right := hZ'

end OpsOn

end SalRuntime
