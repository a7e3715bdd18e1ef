import Mathlib.Data.String.Basic
import SalRuntime.Datatypes.Peritext
import SalRuntime.Datatypes.SeqSpec

/-!
# Convergence of rich text

A version of a rich text is reached from the initial state by honest operations, one by one or in
batches, and by three-way merges over common causal ancestors. Its state is determined by the set
of operations it has seen: the births by the chains of the inserted ids, the deletions and the
marks by the operations themselves.

## Main definitions

* `Peritext.HonestOps` — the operations of all authors.
* `Peritext.Version` — the versions and the operations they have seen.
* `Peritext.Represents` — the state of a set of operations.

## Main results

* `Peritext.Represents.eq` — a set of operations has one state.
* `Peritext.Version.represents` — every version has the state of its operations.
* `Peritext.converges` — fingerprints and reads depend on the operations only; merges are
  commutative, associative and idempotent.
-/

namespace SalRuntime.Peritext

variable {α β μ : Type}

/-- Operations of the rich text over the embedded-chain RGA. -/
abbrev EmbedOp (α μ β : Type) := RichOp (Insertion α) μ β

/-- States of the rich text over the embedded-chain RGA. -/
abbrev EmbedState (α μ β : Type) [DecidableEq α] := State (embedKernel α) μ β

/-- The insertions among the operations. -/
def births (E : Set (EmbedOp α μ β)) : Set (SeqOp α) := {o | ∃ i, RichOp.ins i ∈ E ∧ i.op = o}

/-- The operations of all authors: insertions are honest, and mark ids are globally unique. -/
structure HonestOps (U : Set (EmbedOp α μ β)) : Prop where
  /-- Insertions are honest. -/
  inserts : HonestInserts (births U)
  /-- A mark id names one operation. -/
  marks : ∀ m m', RichOp.mark m ∈ U → RichOp.mark m' ∈ U → m.mid = m'.mid → m = m'

/-- An honest operation of an author that has seen `E`: an insertion is fresh and its anchor has
been seen. -/
def HonestAt (U E : Set (EmbedOp α μ β)) (op : EmbedOp α μ β) : Prop :=
  op ∈ U ∧ ∀ i, op = .ins i → i.id ∉ inserted (births E) ∧
    ∀ a, i.anchorId = some a → a ∈ inserted (births E)

/-- Operations of a batch, each honest after those before it. -/
def HonestBatch (U : Set (EmbedOp α μ β)) :
    Set (EmbedOp α μ β) → List (EmbedOp α μ β) → Prop
  | _, [] => True
  | E, op :: ops => HonestAt U E op ∧ HonestBatch U (insert op E) ops

/-! ### Births -/

section Births

variable {E E' : Set (EmbedOp α μ β)}

theorem births_mono (h : E ⊆ E') : births E ⊆ births E' := by
  rintro o ⟨i, hi, rfl⟩
  exact ⟨i, h hi, rfl⟩

theorem births_union (E E' : Set (EmbedOp α μ β)) : births (E ∪ E') = births E ∪ births E' := by
  ext o
  simp only [births, Set.mem_union, or_and_right, exists_or, Set.mem_ofPred_eq]

theorem births_insert_ins (i : Insertion α) :
    births (insert (.ins i) E) = insert i.op (births E) := by
  ext o
  simp only [births, Set.mem_insert_iff, RichOp.ins.injEq, Set.mem_ofPred_eq]
  constructor
  · rintro ⟨j, rfl | hj, rfl⟩
    · exact Or.inl rfl
    · exact Or.inr ⟨j, hj, rfl⟩
  · rintro (rfl | ⟨j, hj, rfl⟩)
    · exact ⟨i, Or.inl rfl, rfl⟩
    · exact ⟨j, Or.inr hj, rfl⟩

theorem births_insert_of_ne {op : EmbedOp α μ β} (h : ∀ i, op ≠ .ins i) :
    births (insert op E) = births E := by
  ext o
  simp only [births, Set.mem_insert_iff, Set.mem_ofPred_eq]
  exact exists_congr fun i => and_congr_left fun _ => or_iff_right fun heq => h i heq.symm

end Births

/-! ### The state of a set of operations -/

section Represents

variable [DecidableEq α]

/-- The state `s` has exactly the births, deletions and marks of `E`, under the chains `χ` and
elements `ε`. -/
structure Represents (χ : ℕ → List ℕ) (ε : ℕ → α) (E : Set (EmbedOp α μ β))
    (s : EmbedState α μ β) : Prop where
  /-- Every inserted id has its record. -/
  shadow : EmbedRGA.Represents mintLabel χ ε (inserted (births E)) s.shadow
  /-- The deletions. -/
  deleted : ∀ id, s.deleted.has id = true ↔ RichOp.del id ∈ E
  /-- The marks. -/
  marks : ∀ mid m, s.marks.get? mid = some m ↔
    ∃ o, RichOp.mark o ∈ E ∧ o.mid = mid ∧ frozenMark o = m

variable {χ : ℕ → List ℕ} {ε : ℕ → α} {U E E' : Set (EmbedOp α μ β)} {s s' : EmbedState α μ β}

/-- **A set of operations has one state.** -/
theorem Represents.eq (h : Represents χ ε E s) (h' : Represents χ ε E s') : s = s' := by
  have hdeleted : s.deleted = s'.deleted := SortedMap.ext_get? fun id => by
    have hiff : s.deleted.has id = s'.deleted.has id := by
      rw [Bool.eq_iff_iff, h.deleted, h'.deleted]
    rw [SortedMap.has, SortedMap.has] at hiff
    cases hget : s.deleted.get? id <;> cases hget' : s'.deleted.get? id <;> simp_all
  have hmarks : s.marks = s'.marks := SortedMap.ext_get? fun mid => by
    ext m
    rw [h.marks, h'.marks]
  have hshadow := h.shadow.eq h'.shadow
  cases s
  cases s'
  simp_all

theorem Represents.init : Represents χ ε (∅ : Set (EmbedOp α μ β)) Peritext.init where
  shadow := EmbedRGA.Represents.init.of_eq (by simp [births, inserted])
  deleted id := by simp [Peritext.init]
  marks mid m := by simp [Peritext.init]

/-- **Applying** an honest operation. -/
theorem Represents.apply (hχ : Births χ ε (births U)) (hU : HonestOps U) (h : Represents χ ε E s)
    (hE : E ⊆ U) {op : EmbedOp α μ β} (hop : HonestAt U E op) :
    ∃ s', Peritext.apply s op = .ok s' ∧ Represents χ ε (insert op E) s' := by
  cases op with
  | ins i =>
    obtain ⟨hid, hanchor⟩ := hop.2 i rfl
    have hmem : SeqOp.ins i.id i.el i.anchorId ∈ births U := ⟨i, hop.1, rfl⟩
    obtain ⟨t, ht, hrep⟩ := h.shadow.apply_ins hid
      (fun a ha => ⟨hanchor a ha, hχ.anchor_lt (ha ▸ hmem)⟩) (hχ.pos ⟨i.el, i.anchorId, hmem⟩)
      (hχ.chain _ _ _ hmem) (hχ.el _ _ _ hmem) (hχ.mintLabel_eq hmem)
    refine ⟨{ s with shadow := t }, ?_, ?_, fun id => ?_, fun mid m => ?_⟩
    · change (EmbedRGA.apply s.shadow i.op >>= fun _ => _) = _
      rw [Insertion.op, ht]
      rfl
    · rw [births_insert_ins, Insertion.op, inserted_insert_ins]
      exact hrep
    · simp [h.deleted]
    · simp [h.marks]
  | del id =>
    refine ⟨_, rfl, ?_, fun j => ?_, fun mid m => ?_⟩
    · rw [births_insert_of_ne (by simp)]
      exact h.shadow
    · rw [SortedMap.has_insert, Bool.or_eq_true, decide_eq_true_eq, h.deleted]
      simp
    · simp [h.marks]
  | mark o =>
    refine ⟨_, rfl, ?_, fun id => ?_, fun mid m => ?_⟩
    · rw [births_insert_of_ne (by simp)]
      exact h.shadow
    · simp [h.deleted]
    · rw [SortedMap.get?_insert]
      constructor
      · intro hget
        split_ifs at hget with hmid
        · cases hget
          exact ⟨o, Set.mem_insert _ _, hmid.symm, rfl⟩
        · obtain ⟨o', ho', hrest⟩ := (h.marks mid m).mp hget
          exact ⟨o', Set.mem_insert_of_mem _ ho', hrest⟩
      · rintro ⟨o', ho', rfl, rfl⟩
        rcases ho' with heq | ho'
        · cases heq
          simp
        · by_cases hmid : o'.mid = o.mid
          · -- The mark id was seen before: it named the same operation.
            rw [hU.marks o' o (hE ho') hop.1 hmid]
            simp
          · rw [if_neg hmid]
            exact (h.marks _ _).mpr ⟨o', ho', rfl, rfl⟩

omit [DecidableEq α] in
theorem has_unionIds (d d' : SortedMap ℕ Unit) (id : ℕ) :
    (unionIds d d').has id = true ↔ d.has id = true ∨ d'.has id = true := by
  have hfold (l : List ℕ) (t : SortedMap ℕ Unit) :
      (l.foldl (fun t x => t.insert x ()) t).has id = true ↔ t.has id = true ∨ id ∈ l := by
    induction l generalizing t with
    | nil => simp
    | cons x l ih =>
      rw [List.foldl_cons, ih, SortedMap.has_insert, Bool.or_eq_true, decide_eq_true_eq,
        List.mem_cons, or_comm (a := id = x), or_assoc]
  rw [unionIds, hfold, SortedMap.mem_keys_iff, SortedMap.has_iff (m := d')]

omit [DecidableEq α] in
theorem get?_unionMarks (m m' : SortedMap ℕ (Mark μ β)) (mid : ℕ) :
    (unionMarks m m').get? mid = (m.get? mid).or (m'.get? mid) := by
  have hfold (l : List (ℕ × Mark μ β)) (hl : l.Pairwise fun a b => a.1 < b.1)
      (t : SortedMap ℕ (Mark μ β)) :
      (l.foldl (fun t e => if t.has e.1 then t else t.insert e.1 e.2) t).get? mid =
        (t.get? mid).or ((l.find? fun e => e.1 = mid).map Prod.snd) := by
    induction l generalizing t with
    | nil => simp
    | cons e l ih =>
      obtain ⟨he, hl⟩ := List.pairwise_cons.mp hl
      rw [List.foldl_cons, ih hl, List.find?_cons]
      by_cases hmid : e.1 = mid
      · subst hmid
        cases hget : t.get? e.1 with
        | none => simp [SortedMap.has, hget]
        | some v => simp [SortedMap.has, hget]
      · rw [decide_eq_false hmid]
        congr 1
        split_ifs
        · rfl
        · exact SortedMap.get?_insert_of_ne _ _ (Ne.symm hmid)
  exact hfold m'.entries m'.sorted m

/-- **Merging** over a common causal ancestor. -/
theorem Represents.merge3 {L : Set (EmbedOp α μ β)} {l a b : EmbedState α μ β}
    (hU : HonestOps U) (hl : Represents χ ε L l) (ha : Represents χ ε E a)
    (hb : Represents χ ε E' b) (hEU : E ⊆ U) (hEU' : E' ⊆ U) (hL : L ⊆ E ∩ E') :
    ∃ m, Peritext.merge3 l a b = .ok m ∧ Represents χ ε (E ∪ E') m := by
  -- Births are merged over the empty base, so that none is taken for deleted.
  obtain ⟨t, ht, hrep⟩ := EmbedRGA.Represents.merge3
    (l := (EmbedRGA.init : EmbedRGA.State α)) (L := ∅) (by simp [EmbedRGA.init]) ha.shadow hb.shadow
  refine ⟨⟨t, unionIds (unionIds a.deleted l.deleted) b.deleted,
    unionMarks (unionMarks a.marks l.marks) b.marks⟩, ?_, hrep.of_eq ?_, fun id => ?_,
    fun mid m => ?_⟩
  · change (EmbedRGA.merge3 EmbedRGA.init a.shadow b.shadow >>= fun _ => _) = _
    rw [ht]
    rfl
  · rw [births_union, inserted_union]
    ext id
    simp only [mergeLive, Set.mem_union, Set.mem_inter_iff, Set.mem_sdiff,
      Set.mem_empty_iff_false, not_false_eq_true, and_true]
    grind
  · rw [has_unionIds, has_unionIds, ha.deleted, hl.deleted, hb.deleted]
    constructor
    · rintro ((h | h) | h)
      · exact Or.inl h
      · exact Or.inl (hL h).1
      · exact Or.inr h
    · rintro (h | h)
      · exact Or.inl (Or.inl h)
      · exact Or.inr h
  · rw [get?_unionMarks, get?_unionMarks]
    -- A mark id names one operation, so whichever side has it gives the same mark.
    have hside {F : Set (EmbedOp α μ β)} {x : EmbedState α μ β} (hx : Represents χ ε F x)
        (hF : F ⊆ U) {m'} (hget : x.marks.get? mid = some m') {o : MarkOp μ β}
        (ho : RichOp.mark o ∈ U) (hmid : o.mid = mid) : frozenMark o = m' := by
      obtain ⟨o', ho', hmid', rfl⟩ := (hx.marks mid m').mp hget
      rw [hU.marks o o' ho (hF ho') (hmid.trans hmid'.symm)]
    constructor
    · intro hget
      rw [Option.or_eq_some_iff, Option.or_eq_some_iff, Option.or_eq_none_iff] at hget
      rcases hget with (hget | ⟨-, hget⟩) | ⟨-, hget⟩
      · obtain ⟨o, ho, hrest⟩ := (ha.marks mid m).mp hget
        exact ⟨o, Or.inl ho, hrest⟩
      · obtain ⟨o, ho, hrest⟩ := (hl.marks mid m).mp hget
        exact ⟨o, Or.inl (hL ho).1, hrest⟩
      · obtain ⟨o, ho, hrest⟩ := (hb.marks mid m).mp hget
        exact ⟨o, Or.inr ho, hrest⟩
    · rintro ⟨o, ho, hmid, rfl⟩
      have hoU : RichOp.mark o ∈ U := ho.elim (fun h => hEU h) fun h => hEU' h
      cases hga : a.marks.get? mid with
      | some m' => simp [hside ha hEU hga hoU hmid]
      | none =>
        cases hgl : l.marks.get? mid with
        | some m' => simp [hside hl (hL.trans Set.inter_subset_left |>.trans hEU) hgl hoU hmid]
        | none =>
          have hob : RichOp.mark o ∈ E' := ho.resolve_left fun hoa => by
            rw [(ha.marks mid _).mpr ⟨o, hoa, hmid, rfl⟩] at hga
            cases hga
          simpa using (hb.marks mid _).mpr ⟨o, hob, hmid, rfl⟩

end Represents

/-! ### Batches -/

section Batch

variable {K : TextKernel α}

/-- The components that a batch has sorted its operations into, put together. -/
def batchResult (s : State K μ β)
    (acc : List K.Ins × SortedMap ℕ Unit × SortedMap ℕ (Mark μ β)) :
    Except Failure (State K μ β) := do
  return ⟨← acc.1.foldlM K.apply s.shadow, acc.2.1, acc.2.2⟩

/-- **A batch** over a kernel that folds its insertions is the fold of its operations. -/
theorem applyBatch_eq_foldlM (hK : ∀ t is, is ≠ [] → K.applyBatch t is = is.foldlM K.apply t)
    (s : State K μ β) (ops : List (RichOp K.Ins μ β)) :
    applyBatch s ops = ops.foldlM apply s := by
  -- A step of the sorting applies the operation to the result so far.
  have hstep (acc) (op : RichOp K.Ins μ β) :
      batchResult s (batchStep acc op) = batchResult s acc >>= fun t => apply t op := by
    cases op with
    | ins i =>
      simp only [batchResult, batchStep, List.foldlM_append, List.foldlM_cons, List.foldlM_nil,
        bind_assoc, pure_bind, bind_pure]
      rfl
    | del id => simp only [batchResult, batchStep, bind_assoc, pure_bind, apply]; rfl
    | mark o => simp only [batchResult, batchStep, bind_assoc, pure_bind, apply]; rfl
  have hfold (acc) : batchResult s (ops.foldl batchStep acc) =
      batchResult s acc >>= fun t => ops.foldlM apply t := by
    induction ops generalizing acc with
    | nil => exact (bind_pure _).symm
    | cons op ops ih => rw [List.foldl_cons, ih, hstep, bind_assoc]; rfl
  have hstart : batchResult s ([], s.deleted, s.marks) = .ok s := rfl
  have hresult := hfold ([], s.deleted, s.marks)
  rw [hstart] at hresult
  refine Eq.trans ?_ hresult
  rw [applyBatch, batchResult]
  rcases ops.foldl batchStep ([], s.deleted, s.marks) with ⟨insOps, deleted, marks⟩
  simp only [ne_eq, List.length_eq_zero_iff, ite_not]
  split_ifs with hnil
  · rw [hnil]
    rfl
  · rw [hK _ _ hnil]

/-- The embedded-chain kernel folds its insertions. -/
theorem applyBatch_embedKernel [DecidableEq α] (t : (embedKernel α).State)
    (is : List (embedKernel α).Ins) :
    (embedKernel α).applyBatch t is = is.foldlM (embedKernel α).apply t :=
  (EmbedRGA.applyBatch_eq_foldlM _ _).trans (List.foldlM_map ..)

end Batch

/-! ### Versions -/

section Version

variable [DecidableEq α]

/-- The versions of a rich text, with the operations they have seen: the initial state, the results
of honest operations and batches, and the merges of two versions over a common causal ancestor. -/
inductive Version (U : Set (EmbedOp α μ β)) : Set (EmbedOp α μ β) → EmbedState α μ β → Prop
  | init : Version U ∅ Peritext.init
  | apply {E s op s'} (h : Version U E s) (hop : HonestAt U E op)
      (hs : Peritext.apply s op = .ok s') : Version U (insert op E) s'
  | applyBatch {E s ops s'} (h : Version U E s) (hops : HonestBatch U E ops)
      (hs : Peritext.applyBatch s ops = .ok s') : Version U (E ∪ {op | op ∈ ops}) s'
  | merge3 {L A B l a b m} (hl : Version U L l) (ha : Version U A a) (hb : Version U B b)
      (hL : L ⊆ A ∩ B) (hm : Peritext.merge3 l a b = .ok m) : Version U (A ∪ B) m

variable {χ : ℕ → List ℕ} {ε : ℕ → α} {U E : Set (EmbedOp α μ β)} {s s' : EmbedState α μ β}

/-- **Applying** an honest batch. -/
theorem Represents.applyBatch (hχ : Births χ ε (births U)) (hU : HonestOps U)
    (h : Represents χ ε E s) (hE : E ⊆ U) {ops : List (EmbedOp α μ β)}
    (hops : HonestBatch U E ops) :
    (∃ s', Peritext.applyBatch s ops = .ok s' ∧ Represents χ ε (E ∪ {op | op ∈ ops}) s') ∧
      E ∪ {op | op ∈ ops} ⊆ U := by
  rw [applyBatch_eq_foldlM fun t is _ => applyBatch_embedKernel t is]
  induction ops generalizing E s with
  | nil => simpa using ⟨⟨s, rfl, h⟩, hE⟩
  | cons op ops ih =>
    obtain ⟨hop, hrest⟩ := hops
    obtain ⟨t, ht, hrep⟩ := h.apply hχ hU hE hop
    have hunion : insert op E ∪ {o | o ∈ ops} = E ∪ {o | o ∈ op :: ops} := by
      ext o
      simp only [Set.mem_union, Set.mem_insert_iff, Set.mem_ofPred_eq, List.mem_cons]
      grind
    have hrec := ih hrep (Set.insert_subset hop.1 hE) hrest
    rw [hunion] at hrec
    rw [List.foldlM_cons, ht]
    exact hrec

/-- **Every version has the state of its operations.** -/
theorem Version.represents (hχ : Births χ ε (births U)) (hU : HonestOps U) (h : Version U E s) :
    Represents χ ε E s ∧ E ⊆ U := by
  induction h with
  | init => exact ⟨Represents.init, Set.empty_subset _⟩
  | apply _ hop hs ih =>
    obtain ⟨t, ht, hrep⟩ := ih.1.apply hχ hU ih.2 hop
    cases ht.symm.trans hs
    exact ⟨hrep, Set.insert_subset hop.1 ih.2⟩
  | applyBatch _ hops hs ih =>
    obtain ⟨⟨t, ht, hrep⟩, hsub⟩ := ih.1.applyBatch hχ hU ih.2 hops
    cases ht.symm.trans hs
    exact ⟨hrep, hsub⟩
  | merge3 _ _ _ hL hm ihl iha ihb =>
    obtain ⟨t, ht, hrep⟩ := Represents.merge3 hU ihl.1 iha.1 ihb.1 iha.2 ihb.2 hL
    cases ht.symm.trans hm
    exact ⟨hrep, Set.union_subset iha.2 ihb.2⟩

/-- Honest operations, batches, and merges over common causal ancestors do not throw. -/
theorem Version.total [Inhabited α] (hU : HonestOps U) (h : Version U E s) :
    (∀ op, HonestAt U E op → ∃ s', Peritext.apply s op = .ok s') ∧
      (∀ ops, HonestBatch U E ops → ∃ s', Peritext.applyBatch s ops = .ok s') ∧
      ∀ L B l b, Version U L l → Version U B b → L ⊆ E ∩ B →
        ∃ m, Peritext.merge3 l s b = .ok m := by
  obtain ⟨χ, ε, hχ⟩ := hU.inserts.exists_births
  obtain ⟨hrep, hE⟩ := h.represents hχ hU
  refine ⟨fun op hop => ?_, fun ops hops => ?_, fun L B l b hl hb hL => ?_⟩
  · obtain ⟨s', hs', -⟩ := hrep.apply hχ hU hE hop
    exact ⟨s', hs'⟩
  · obtain ⟨⟨s', hs', -⟩, -⟩ := hrep.applyBatch hχ hU hE hops
    exact ⟨s', hs'⟩
  · obtain ⟨hrepb, hB⟩ := hb.represents hχ hU
    obtain ⟨m, hm, -⟩ := Represents.merge3 hU (hl.represents hχ hU).1 hrep hrepb hE hB hL
    exact ⟨m, hm⟩

/-- Versions that have seen the same operations have the same state. -/
theorem Version.eq [Inhabited α] (hU : HonestOps U) (h : Version U E s) (h' : Version U E s') :
    s = s' := by
  obtain ⟨χ, ε, hχ⟩ := hU.inserts.exists_births
  exact (h.represents hχ hU).1.eq (h'.represents hχ hU).1

/-- The result of a merge of versions over a common causal ancestor. -/
theorem Version.exists_merge3 [Inhabited α] (hU : HonestOps U) {L A B : Set (EmbedOp α μ β)}
    {l a b : EmbedState α μ β} (hl : Version U L l) (ha : Version U A a) (hb : Version U B b)
    (hL : L ⊆ A ∩ B) : ∃ m, Peritext.merge3 l a b = .ok m ∧ Version U (A ∪ B) m := by
  obtain ⟨m, hm⟩ := (ha.total hU).2.2 L B l b hl hb hL
  exact ⟨m, hm, .merge3 hl ha hb hL hm⟩

variable [LinearOrder μ]

/-- Two states that show alike: the same fingerprint and the same read. -/
def Alike (s s' : EmbedState α μ β) : Prop :=
  fingerprint s = fingerprint s' ∧ renderDoc s = renderDoc s'

theorem Version.alike [Inhabited α] (hU : HonestOps U) (h : Version U E s) (h' : Version U E s') :
    Alike s s' := by
  rw [h.eq hU h']
  exact ⟨rfl, rfl⟩

/-- **Rich text converges.** Honest operations, batches, and merges over common causal ancestors
do not throw; fingerprint and read of a version depend on the operations it has seen only; and so
merges are commutative, associative and idempotent, whatever common causal ancestors serve as
bases. -/
theorem converges [Inhabited α] {U : Set (EmbedOp α μ β)} (hU : HonestOps U) :
    (∀ E s, Version U E s → (∀ op, HonestAt U E op → ∃ s', Peritext.apply s op = .ok s') ∧
      ∀ ops, HonestBatch U E ops → ∃ s', Peritext.applyBatch s ops = .ok s') ∧
    (∀ E s s', Version U E s → Version U E s' → Alike s s') ∧
    (∀ L A B l a b, Version U L l → Version U A a → Version U B b → L ⊆ A ∩ B →
      ∃ m m', merge3 l a b = .ok m ∧ merge3 l b a = .ok m' ∧ Alike m m') ∧
    (∀ A B C a b c, Version U A a → Version U B b → Version U C c →
      ∀ L₁ L₂ L₃ L₄ l₁ l₂ l₃ l₄, Version U L₁ l₁ → Version U L₂ l₂ → Version U L₃ l₃ →
        Version U L₄ l₄ → L₁ ⊆ A ∩ B → L₂ ⊆ (A ∪ B) ∩ C → L₃ ⊆ B ∩ C → L₄ ⊆ A ∩ (B ∪ C) →
        ∃ ab m bc m', merge3 l₁ a b = .ok ab ∧ merge3 l₂ ab c = .ok m ∧ merge3 l₃ b c = .ok bc ∧
          merge3 l₄ a bc = .ok m' ∧ Alike m m') ∧
    ∀ L A l a, Version U L l → Version U A a → L ⊆ A →
      ∃ m, merge3 l a a = .ok m ∧ Alike m a := by
  refine ⟨fun E s h => ⟨(h.total hU).1, (h.total hU).2.1⟩, fun E s s' h h' => h.alike hU h', ?_, ?_,
    ?_⟩
  · intro L A B l a b hl ha hb hL
    obtain ⟨m, hm, hver⟩ := Version.exists_merge3 hU hl ha hb hL
    obtain ⟨m', hm', hver'⟩ := Version.exists_merge3 hU hl hb ha (by rwa [Set.inter_comm])
    rw [Set.union_comm] at hver'
    exact ⟨m, m', hm, hm', hver.alike hU hver'⟩
  · intro A B C a b c ha hb hc L₁ L₂ L₃ L₄ l₁ l₂ l₃ l₄ h₁ h₂ h₃ h₄ hL₁ hL₂ hL₃ hL₄
    obtain ⟨ab, hab, hverab⟩ := Version.exists_merge3 hU h₁ ha hb hL₁
    obtain ⟨m, hm, hver⟩ := Version.exists_merge3 hU h₂ hverab hc hL₂
    obtain ⟨bc, hbc, hverbc⟩ := Version.exists_merge3 hU h₃ hb hc hL₃
    obtain ⟨m', hm', hver'⟩ := Version.exists_merge3 hU h₄ ha hverbc hL₄
    rw [← Set.union_assoc] at hver'
    exact ⟨ab, m, bc, m', hab, hm, hbc, hm', hver.alike hU hver'⟩
  · intro L A l a hl ha hL
    obtain ⟨m, hm, hver⟩ := Version.exists_merge3 hU hl ha ha (by rwa [Set.inter_self])
    rw [Set.union_self] at hver
    exact ⟨m, hm, hver.alike hU ha⟩

/-- The insertion of a character. -/
def insX : EmbedOp Char String String := .ins { id := 1, el := 'x', anchorId := none }

/-- A mark on the character. -/
def boldX : EmbedOp Char String String :=
  .mark { removed := false, mid := 2, mtype := "bold", startId := 1, endId := 1 }

/-- The deletion of the character and the mark on it commute. -/
theorem converges_boldX : ∃ l a b m m' : EmbedState Char String String,
    apply init insX = .ok l ∧ apply l (.del 1) = .ok a ∧ apply l boldX = .ok b ∧
      merge3 l a b = .ok m ∧ merge3 l b a = .ok m' ∧ Alike m m' := by
  have hU : HonestOps {insX, .del 1, boldX} := by
    refine ⟨⟨?_, ?_, ?_⟩, ?_⟩ <;> simp [insX, boldX, births, inserted, Insertion.op]
    grind
  have hins : HonestAt {insX, .del 1, boldX} ∅ insX :=
    ⟨Or.inl rfl, by simp [insX, births, inserted]⟩
  have hdel : HonestAt {insX, .del 1, boldX} (insert insX ∅) (.del 1) :=
    ⟨Or.inr (Or.inl rfl), by simp⟩
  have hbold : HonestAt {insX, .del 1, boldX} (insert insX ∅) boldX :=
    ⟨Or.inr (Or.inr rfl), by simp [boldX]⟩
  have hl := Version.apply .init hins rfl
  obtain ⟨m, m', hm⟩ := (converges hU).2.2.1 _ _ _ _ _ _ hl (hl.apply hdel rfl) (hl.apply hbold rfl)
    (Set.subset_inter (Set.subset_insert _ _) (Set.subset_insert _ _))
  exact ⟨_, _, _, m, m', rfl, rfl, rfl, hm⟩

end Version

end SalRuntime.Peritext
