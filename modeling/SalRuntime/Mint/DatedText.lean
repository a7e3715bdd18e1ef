import SalRuntime.Datatypes.CompactionMaps
import SalRuntime.Datatypes.Peritext
import SalRuntime.Mint.Dated

/-!
# The ids of the text datatypes

The states of the embedded-chain sequence, with and without compaction, and of the rich text over it
hold only ids that insertions and mark operations gave.

## Main definitions

* `datedEmbedRGA`, `datedCompactibleEmbedRGA` — the sequence.
* `datedPeritext` — the rich text.
-/

namespace SalRuntime

variable {α μ β : Type}

/-- The insertion with another id. -/
def SeqOp.withId (id : ℕ) : SeqOp α → SeqOp α
  | .ins _ el anchorId => .ins id el anchorId
  | .del i => .del i

namespace EmbedRGA

theorem yields_apply (s : State α) (op : SeqOp α) :
    Yields (fun s' => ∀ i ∈ s'.keys, i ∈ s.keys ∨ op.insId = some i) (apply s op) := by
  cases op with
  | ins id el anchorId =>
    refine .bind fun rec _ => .ok fun i hi => ?_
    rcases SortedMap.mem_keys_insert hi with rfl | hi
    · exact Or.inr rfl
    · exact Or.inl hi
  | del id => exact .ok fun i hi => Or.inl (SortedMap.mem_keys_of_erase hi)

theorem yields_applyBatch (s : State α) (ops : List (SeqOp α)) :
    Yields (fun s' => ∀ i ∈ s'.keys, i ∈ s.keys ∨ ∃ op ∈ ops, op.insId = some i)
      (applyBatch s ops) := by
  have hstep {op : SeqOp α} (hop : op ∈ ops) {t : State α}
      (ht : ∀ i ∈ t.keys, i ∈ s.keys ∨ ∃ op ∈ ops, op.insId = some i) :
      Yields (fun s' => ∀ i ∈ s'.keys, i ∈ s.keys ∨ ∃ op ∈ ops, op.insId = some i)
        (apply t op) := by
    intro t' ht' i hi
    rcases yields_apply t op t' ht' i hi with hi | hi
    · exact ht i hi
    · exact Or.inr ⟨op, hop, hi⟩
  rw [applyBatch_eq_foldlM]
  exact .foldlM hstep (fun _ => id) fun i hi => Or.inl hi

theorem mem_keys_of_mergeRemove {l a b : State α} {i : ℕ} (hi : i ∈ (mergeRemove l a b).keys) :
    i ∈ a.keys := by
  obtain ⟨rec, hrec⟩ := SortedMap.mem_keys_iff.mp hi
  rw [get?_mergeRemove] at hrec
  split_ifs at hrec
  exact SortedMap.mem_keys_iff.mpr ⟨rec, hrec⟩

theorem yields_mergeAdd (l a : State α) (es : List (ℕ × Record α)) (t : State α) :
    Yields (fun s => ∀ i ∈ s.keys, i ∈ t.keys ∨ i ∈ es.map Prod.fst) (mergeAdd l a es t) := by
  induction es generalizing t with
  | nil => exact .ok fun i hi => Or.inl hi
  | cons e es ih =>
    obtain ⟨id, rb⟩ := e
    rw [mergeAdd]
    split
    · split_ifs
      · exact .error _
      · intro s hs i hi
        exact (ih t s hs i hi).imp_right (List.mem_cons_of_mem _)
    · intro s hs i hi
      rcases ih _ s hs i hi with hi | hi
      · split_ifs at hi
        · exact Or.inl hi
        · rcases SortedMap.mem_keys_insert hi with rfl | hi
          · exact Or.inr List.mem_cons_self
          · exact Or.inl hi
      · exact Or.inr (List.mem_cons_of_mem _ hi)

theorem yields_merge3 (l a b : State α) :
    Yields (fun s => ∀ i ∈ s.keys, i ∈ a.keys ∨ i ∈ b.keys) (merge3 l a b) := by
  intro s hs i hi
  exact (yields_mergeAdd l a b.entries _ s hs i hi).imp_left mem_keys_of_mergeRemove

theorem yields_mapRecords (s : State α) (f : Record α → Except Failure (Record α)) :
    Yields (fun s' => s'.keys ⊆ s.keys) (mapRecords s f) := by
  intro s' hs'
  have hkeys := map_fst_of_forall₂ ((mapRecords_eq_ok_iff.mp hs').imp fun _ _ he => he.1)
  exact (show s'.keys = s.keys from hkeys) ▸ List.Subset.refl _

end EmbedRGA

section Sequence

variable [DecidableEq α]

/-- The ids of the embedded-chain sequence. -/
def datedEmbedRGA (α : Type) [DecidableEq α] : Dated (embedRGA α) where
  opId := SeqOp.insId
  withId := SeqOp.withId
  ids := SortedMap.keys
  opId_withId {op id} h := by
    cases op with
    | ins i el anchorId => rfl
    | del i => cases h
  init := rfl
  apply := EmbedRGA.yields_apply
  applyBatch h s ops := by
    cases h
    exact EmbedRGA.yields_applyBatch s ops
  prepare h := by cases h
  merge3 l a b s hs i hi := Or.inr (EmbedRGA.yields_merge3 l a b s hs i hi)
  remapState h := by cases h
  compact h := by cases h

/-- The ids of the sequence with compaction, which keeps them. -/
def datedCompactibleEmbedRGA (α : Type) [DecidableEq α] : Dated (compactibleEmbedRGA α) where
  opId := SeqOp.insId
  withId := SeqOp.withId
  ids := SortedMap.keys
  opId_withId := (datedEmbedRGA α).opId_withId
  init := rfl
  apply := EmbedRGA.yields_apply
  applyBatch h s ops := (datedEmbedRGA α).applyBatch h s ops
  prepare h := by cases h
  merge3 := (datedEmbedRGA α).merge3
  remapState h s m := by
    cases h
    exact EmbedRGA.yields_mapRecords s _
  compact h s cut opts := by
    cases h
    exact .bind fun t _ => .bind fun state hstate => .ok (EmbedRGA.yields_mapRecords s _ _ hstate)

end Sequence

/-! ### Rich text -/

/-- The rich-text operation with another id. -/
def RichOp.withId (id : ℕ) : RichOp (Insertion α) μ β → RichOp (Insertion α) μ β
  | .ins op => .ins { op with id }
  | .del i => .del i
  | .mark op => .mark { op with mid := id, ts := some id }

/-- The id that an insertion or a mark operation gives. -/
def RichOp.opId : RichOp (Insertion α) μ β → Option ℕ
  | .ins op => some op.id
  | .del _ => none
  | .mark op => some op.mid

namespace Peritext

variable [DecidableEq α] {m m' : SortedMap ℕ (Mark μ β)} {i : ℕ}

/-- The ids of the characters and of the marks. -/
def ids (s : State (embedKernel α) μ β) : List ℕ := s.shadow.keys ++ s.marks.keys

theorem mem_keys_of_unionMarks (h : i ∈ (unionMarks m m').keys) : i ∈ m.keys ∨ i ∈ m'.keys := by
  have hfold (es : List (ℕ × Mark μ β)) (t : SortedMap ℕ (Mark μ β))
      (hi : i ∈ (es.foldl (fun t e => if t.has e.1 then t else t.insert e.1 e.2) t).keys) :
      i ∈ t.keys ∨ i ∈ es.map Prod.fst := by
    induction es generalizing t with
    | nil => exact Or.inl hi
    | cons e es ih =>
      rcases ih _ hi with hi | hi
      · dsimp only at hi
        split_ifs at hi
        · exact Or.inl hi
        · rcases SortedMap.mem_keys_insert hi with rfl | hi
          · exact Or.inr List.mem_cons_self
          · exact Or.inl hi
      · exact Or.inr (List.mem_cons_of_mem _ hi)
  exact hfold m'.entries m h

theorem yields_apply (s : State (embedKernel α) μ β) (op : RichOp (Insertion α) μ β) :
    Yields (fun s' => ∀ i ∈ ids s', i ∈ ids s ∨ op.opId = some i) (apply s op) := by
  cases op with
  | ins op =>
    refine .bind fun shadow hshadow => .ok fun i hi => ?_
    rcases List.mem_append.mp hi with hi | hi
    · exact (EmbedRGA.yields_apply s.shadow op.op shadow hshadow i hi).imp_left
        (List.mem_append_left _)
    · exact Or.inl (List.mem_append_right _ hi)
  | del id => exact .ok fun i hi => Or.inl hi
  | mark op =>
    refine .ok fun i hi => ?_
    rcases List.mem_append.mp hi with hi | hi
    · exact Or.inl (List.mem_append_left _ hi)
    · rcases SortedMap.mem_keys_insert hi with rfl | hi
      · exact Or.inr rfl
      · exact Or.inl (List.mem_append_right _ hi)

/-- The components of a batch hold what its operations give. -/
theorem mem_of_foldl_batchStep (ops : List (RichOp (Insertion α) μ β))
    (acc : List (Insertion α) × SortedMap ℕ Unit × SortedMap ℕ (Mark μ β)) :
    (∀ op ∈ (ops.foldl (batchStep (K := embedKernel α)) acc).1,
      op ∈ acc.1 ∨ RichOp.ins op ∈ ops) ∧
    ∀ i ∈ (ops.foldl (batchStep (K := embedKernel α)) acc).2.2.keys,
      i ∈ acc.2.2.keys ∨ ∃ op ∈ ops, op.opId = some i := by
  induction ops generalizing acc with
  | nil => exact ⟨fun _ => Or.inl, fun _ => Or.inl⟩
  | cons op ops ih =>
    obtain ⟨hins, hmarks⟩ := ih (batchStep (K := embedKernel α) acc op)
    refine ⟨fun o ho => ?_, fun i hi => ?_⟩
    · rcases hins o ho with ho | ho
      · cases op with
        | ins op =>
          rcases List.mem_append.mp ho with ho | ho
          · exact Or.inl ho
          · exact Or.inr (List.mem_singleton.mp ho ▸ List.mem_cons_self)
        | del id => exact Or.inl ho
        | mark op => exact Or.inl ho
      · exact Or.inr (List.mem_cons_of_mem _ ho)
    · rcases hmarks i hi with hi | ⟨o, ho, hoi⟩
      · cases op with
        | ins op => exact Or.inl hi
        | del id => exact Or.inl hi
        | mark op =>
          rcases SortedMap.mem_keys_insert hi with rfl | hi
          · exact Or.inr ⟨_, List.mem_cons_self, rfl⟩
          · exact Or.inl hi
      · exact Or.inr ⟨o, List.mem_cons_of_mem _ ho, hoi⟩

theorem yields_applyBatch (s : State (embedKernel α) μ β)
    (ops : List (RichOp (Insertion α) μ β)) :
    Yields (fun s' => ∀ i ∈ ids s', i ∈ ids s ∨ ∃ op ∈ ops, op.opId = some i)
      (applyBatch s ops) := by
  obtain ⟨hins, hmarks⟩ := mem_of_foldl_batchStep ops ([], s.deleted, s.marks)
  set acc := ops.foldl (batchStep (K := embedKernel α)) ([], s.deleted, s.marks)
  have happly : applyBatch s ops = if acc.1.length ≠ 0 then
      EmbedRGA.applyBatch s.shadow (acc.1.map Insertion.op) >>= fun shadow =>
        .ok ⟨shadow, acc.2.1, acc.2.2⟩
    else .ok ⟨s.shadow, acc.2.1, acc.2.2⟩ := rfl
  have hresult {shadow : EmbedRGA.State α}
      (hshadow : ∀ i ∈ shadow.keys, i ∈ s.shadow.keys ∨ ∃ o ∈ acc.1, o.id = i) :
      ∀ i ∈ ids (⟨shadow, acc.2.1, acc.2.2⟩ : State (embedKernel α) μ β),
        i ∈ ids s ∨ ∃ op ∈ ops, op.opId = some i := by
    intro i hi
    rcases List.mem_append.mp hi with hi | hi
    · rcases hshadow i hi with hi | ⟨o, ho, rfl⟩
      · exact Or.inl (List.mem_append_left _ hi)
      · exact Or.inr ⟨_, (hins o ho).resolve_left List.not_mem_nil, rfl⟩
    · exact (hmarks i hi).imp_left (List.mem_append_right _)
  rw [happly]
  split_ifs
  · refine .bind fun shadow hshadow => .ok (hresult fun i hi => ?_)
    rcases EmbedRGA.yields_applyBatch s.shadow _ shadow hshadow i hi with hi | ⟨o, ho, hoi⟩
    · exact Or.inl hi
    · obtain ⟨o', ho', rfl⟩ := List.mem_map.mp ho
      exact Or.inr ⟨o', ho', Option.some.inj hoi⟩
  · exact .ok (hresult fun i => Or.inl)

theorem yields_merge3 (l a b : State (embedKernel α) μ β) :
    Yields (fun s => ∀ i ∈ ids s, i ∈ ids l ∨ i ∈ ids a ∨ i ∈ ids b) (merge3 l a b) := by
  refine .bind fun shadow hshadow => .ok fun i hi => ?_
  rcases List.mem_append.mp hi with hi | hi
  · exact Or.inr ((EmbedRGA.yields_merge3 _ _ _ shadow hshadow i hi).imp
      (List.mem_append_left _) (List.mem_append_left _))
  · rcases mem_keys_of_unionMarks hi with hi | hi
    · rcases mem_keys_of_unionMarks hi with hi | hi
      · exact Or.inr (Or.inl (List.mem_append_right _ hi))
      · exact Or.inl (List.mem_append_right _ hi)
    · exact Or.inr (Or.inr (List.mem_append_right _ hi))

end Peritext

/-- The ids of the rich text. -/
def datedPeritext (α μ β : Type) [DecidableEq α] [LinearOrder μ] [DecidableEq β] :
    Dated (peritextEmbedRGA α μ β) where
  opId := RichOp.opId
  withId := RichOp.withId
  ids := Peritext.ids
  opId_withId {op id} h := by
    cases op with
    | ins op => rfl
    | del i => cases h
    | mark op => rfl
  init := rfl
  apply := Peritext.yields_apply
  applyBatch h s ops := by
    cases h
    exact Peritext.yields_applyBatch s ops
  prepare h s op := by
    cases h
    cases op with
    | ins op => exact .ok rfl
    | del i => exact .ok rfl
    | mark op => exact .ok rfl
  merge3 := Peritext.yields_merge3
  remapState h := by cases h
  compact h := by cases h

end SalRuntime
