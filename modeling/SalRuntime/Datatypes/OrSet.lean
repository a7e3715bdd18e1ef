import SalRuntime.Datatypes.Meanings

/-!
# The observed-remove set

The set of `src/datatypes/orset.js`: an addition puts an element under a fresh tag, a removal deletes
the tags its author has observed, and a merge keeps the tags that both sides have and those that either
side has added since the base. The plain JavaScript maps of older states are left out, and the text of
the tag in the message of a failure.

## Main definitions

* `OrOp`, `OrSet.State` — operations and states, over arbitrary tags and elements.
* `OrSet.apply`, `OrSet.applyBatch`, `OrSet.merge3`, `OrSet.read`, `OrSet.observe` — the operations.
* `orset` — the datatype.
* `OrSet.Represents`, `OrSet.meaning` — the state of a set of operations.

## Main results

* `OrSet.applyBatch_eq_foldlM` — a batch is the fold of its operations.
* `OrSet.Represents.merge3` — a merge stands for the union.
* `OrSet.Represents.mem_read_iff` — what the read shows.
-/

namespace SalRuntime

/-- An operation of the observed-remove set. -/
inductive OrOp (τ α : Type)
  /-- `add`: an element under a tag. -/
  | add (tag : τ) (el : α)
  /-- `rm`: the tags to delete. -/
  | rm (tags : List τ)
  deriving DecidableEq, Repr, Countable

namespace OrSet

variable {τ α : Type} [LinearOrder τ]

/-- A state: the elements of the live tags. -/
abbrev State (τ α : Type) [LinearOrder τ] := SortedMap τ α

/-- The initial state. -/
def init : State τ α := SortedMap.empty

/-- Check that a tag is fresh. -/
def addTag (s : State τ α) (tag : τ) : Except Failure Unit :=
  if s.has tag then .error (.error "duplicate instance tag") else .ok ()

/-- Apply an operation. -/
def apply (s : State τ α) : OrOp τ α → Except Failure (State τ α)
  | .add tag el => do
    addTag s tag
    return s.insert tag el
  | .rm tags => .ok (tags.foldl SortedMap.erase s)

/-- Apply a batch on a transient copy. -/
def applyBatch (t : State τ α) : List (OrOp τ α) → Except Failure (State τ α)
  | [] => .ok t
  | .add tag el :: ops => do
    addTag t tag
    applyBatch (t.insert tag el) ops
  | .rm tags :: ops => applyBatch (tags.foldl SortedMap.erase t) ops

/-- The elements with a live tag, each once, ascending. -/
def read [LinearOrder α] (s : State τ α) : List α := s.values.dedup.insertionSort (· ≤ ·)

/-- The tags that carry an element. -/
def observe [DecidableEq α] (s : State τ α) (el : α) : List τ :=
  (s.entries.filter fun e => e.2 = el).map Prod.fst

/-- Three-way merge, from the first side: delete the tags of the base that the second side lacks, and
add those that only the second side has. -/
def merge3 (l a b : State τ α) : Except Failure (State τ α) :=
  let s := (l.keys.filter fun t => !b.has t).foldl SortedMap.erase a
  .ok ((b.entries.filter fun e => !a.has e.1 && !l.has e.1).foldl (fun s e => s.insert e.1 e.2) s)

/-- The canonical fingerprint. -/
def fingerprint (s : State τ α) : List (τ × α) := s.entries

end OrSet

/-- The observed-remove set. -/
@[reducible] def orset (τ α : Type) [LinearOrder τ] [LinearOrder α] : Datatype where
  State := OrSet.State τ α
  Op := OrOp τ α
  View := List α
  Print := List (τ × α)
  printDecEq := inferInstance
  Wire := Unit
  Cut := Unit
  Translate := Unit
  init := OrSet.init
  prepare := none
  needsPrepare := false
  apply := OrSet.apply
  applyBatch := some OrSet.applyBatch
  merge3 := OrSet.merge3
  read := OrSet.read
  insId := fun _ => none
  headOnlyMerge := false
  auditMergeCoverage := none
  fingerprint := some OrSet.fingerprint
  encodeState := none
  decodeState := none
  compact := none
  remapState := none
  settledCut := fun _ => ()
  emptyCut := ()
  settledIds := fun _ => none
  cutFromMeet := none
  inverseTranslate := none
  coordInverse := fun _ _ => .ok ()

namespace OrSet

variable {τ α : Type} [LinearOrder τ] {s : State τ α}

/-- **A batch** is the fold of its operations. -/
theorem applyBatch_eq_foldlM (s : State τ α) (ops : List (OrOp τ α)) :
    applyBatch s ops = ops.foldlM apply s := by
  induction ops generalizing s with
  | nil => rfl
  | cons op ops ih =>
    rw [List.foldlM_cons]
    cases op with
    | add tag el =>
      rw [applyBatch, apply, bind_assoc]
      simp only [pure_bind, ih]
    | rm tags => exact ih _

theorem mem_read_iff [LinearOrder α] {el : α} : el ∈ read s ↔ ∃ t, s.get? t = some el := by
  rw [read, (List.perm_insertionSort _ _).mem_iff, List.mem_dedup, SortedMap.values, List.mem_map]
  constructor
  · rintro ⟨⟨t, e⟩, hmem, rfl⟩
    exact ⟨t, SortedMap.mem_entries_iff.mp hmem⟩
  · rintro ⟨t, ht⟩
    exact ⟨(t, el), SortedMap.mem_entries_iff.mpr ht, rfl⟩

/-- The read is ascending, without repetition. -/
theorem pairwise_read [LinearOrder α] (s : State τ α) : (read s).Pairwise (· < ·) := by
  have hle : (read s).Pairwise (· ≤ ·) := List.pairwise_insertionSort (· ≤ ·) _
  have hnodup : (read s).Nodup :=
    (List.perm_insertionSort _ _).nodup_iff.mpr (List.nodup_dedup _)
  exact (hle.and hnodup).imp fun ⟨hxy, hne⟩ => lt_of_le_of_ne hxy hne

theorem mem_observe_iff [DecidableEq α] {el : α} {t : τ} : t ∈ observe s el ↔ s.get? t = some el := by
  simp only [observe, List.mem_map, List.mem_filter, decide_eq_true_eq]
  constructor
  · rintro ⟨⟨t', e⟩, ⟨hmem, rfl⟩, rfl⟩
    exact SortedMap.mem_entries_iff.mp hmem
  · exact fun ht => ⟨(t, el), ⟨SortedMap.mem_entries_iff.mpr ht, rfl⟩, rfl⟩

/-! ### The state of a set of operations -/

/-- A tag is live in a set of operations: it was added, and no removal names it. -/
def LiveTag (E : Set (OrOp τ α)) (t : τ) (el : α) : Prop :=
  OrOp.add t el ∈ E ∧ ∀ tags, OrOp.rm tags ∈ E → t ∉ tags

/-- The state `s` holds the live tags of `E`, in which removals name added tags. -/
structure Represents (E : Set (OrOp τ α)) (s : State τ α) : Prop where
  /-- The live tags. -/
  live : ∀ t el, s.get? t = some el ↔ LiveTag E t el
  /-- Removals name added tags. -/
  observed : ∀ tags, OrOp.rm tags ∈ E → ∀ t ∈ tags, ∃ el, OrOp.add t el ∈ E

/-- A tag names one addition. -/
def UniqueTags (U : Set (OrOp τ α)) : Prop :=
  ∀ t el el', OrOp.add t el ∈ U → OrOp.add t el' ∈ U → el = el'

/-- An operation that an author may make on the operations it has seen: an addition under a fresh tag, or
the removal of added tags. -/
def MayMake (E : Set (OrOp τ α)) : OrOp τ α → Prop
  | .add t _ => ∀ el, OrOp.add t el ∉ E
  | .rm tags => ∀ t ∈ tags, ∃ el, OrOp.add t el ∈ E

/-- The tag that an operation creates. -/
def creates : OrOp τ α → Set τ
  | .add t _ => {t}
  | .rm _ => ∅

namespace Represents

variable {E L A B U : Set (OrOp τ α)} {s' l a b : State τ α}

theorem has_iff (h : Represents E s) {t : τ} : s.has t = true ↔ ∃ el, LiveTag E t el := by
  rw [SortedMap.has_iff]
  exact exists_congr fun el => h.live t el

theorem init : Represents (∅ : Set (OrOp τ α)) OrSet.init :=
  ⟨fun t el => by simp [OrSet.init, LiveTag], fun tags h => h.elim⟩

/-- **A set of operations has one state.** -/
theorem eq (h : Represents E s) (h' : Represents E s') : s = s' := SortedMap.ext_get? fun t => by
  ext el
  rw [h.live, h'.live]

/-- **Applying** an operation. -/
theorem apply (h : Represents E s) {op : OrOp τ α} (hop : MayMake E op) :
    ∃ s', OrSet.apply s op = .ok s' ∧ Represents (insert op E) s' := by
  cases op with
  | add tag el =>
    have hfresh : s.has tag = false := by
      rw [← Bool.not_eq_true, h.has_iff]
      rintro ⟨e, he, -⟩
      exact hop e he
    refine ⟨s.insert tag el, by simp [OrSet.apply, addTag, hfresh, bind, Except.bind, pure,
      Except.pure], fun t e => ?_, fun tags htags t ht => ?_⟩
    · simp only [SortedMap.get?_insert, LiveTag, Set.mem_insert_iff, OrOp.add.injEq, reduceCtorEq,
        false_or]
      split_ifs with heq
      · subst heq
        -- No removal has seen the new tag.
        have hnone : ∀ tags, OrOp.rm tags ∈ E → t ∉ tags := fun tags htags ht => by
          obtain ⟨e', he'⟩ := h.observed tags htags t ht
          exact hop e' he'
        simp only [Option.some.injEq, true_and, hop e, or_false, eq_comm (a := el)]
        exact ⟨fun he => ⟨he, hnone⟩, fun he => he.1⟩
      · rw [h.live, LiveTag]
        simp [heq]
    · obtain ⟨e, he⟩ := h.observed tags (by simpa using htags) t ht
      exact ⟨e, Or.inr he⟩
  | rm tags =>
    refine ⟨_, rfl, fun t e => ?_, fun tags' htags t ht => ?_⟩
    · rw [SortedMap.get?_foldl_erase]
      simp only [LiveTag, Set.mem_insert_iff, reduceCtorEq, OrOp.rm.injEq, false_or]
      split_ifs with hmem
      · simp only [false_iff, not_and, not_forall]
        exact fun _ => ⟨tags, Or.inl rfl, fun hnot => hnot hmem⟩
      · rw [h.live, LiveTag]
        refine and_congr_right fun _ => ⟨fun hall tags' htags => ?_, fun hall tags' htags =>
          hall tags' (Or.inr htags)⟩
        rcases htags with rfl | htags
        · exact hmem
        · exact hall tags' htags
    · rcases htags with heq | htags
      · rw [OrOp.rm.injEq] at heq
        obtain ⟨e, he⟩ := hop t (heq ▸ ht)
        exact ⟨e, Or.inr he⟩
      · obtain ⟨e, he⟩ := h.observed tags' htags t ht
        exact ⟨e, Or.inr he⟩

/-- What the merge holds: what only the second side has, and what the first side has, less the tags of
the base that the second side lacks. -/
theorem get?_merge3 {l a b m : State τ α} (hm : OrSet.merge3 l a b = .ok m) {t : τ} {el : α} :
    m.get? t = some el ↔ b.get? t = some el ∧ a.has t = false ∧ l.has t = false ∨
      a.get? t = some el ∧ (l.has t = true → b.has t = true) := by
  obtain rfl : _ = m := Except.ok.inj hm
  have hnodup : ((b.entries.filter fun e => !a.has e.1 && !l.has e.1).map Prod.fst).Nodup :=
    (SortedMap.nodup_keys b).sublist (List.filter_sublist.map Prod.fst)
  have hmem (e : τ × α) : e ∈ (b.entries.filter fun e => !a.has e.1 && !l.has e.1) ↔
      b.get? e.1 = some e.2 ∧ a.has e.1 = false ∧ l.has e.1 = false := by
    rw [List.mem_filter, SortedMap.mem_entries_iff, Bool.and_eq_true, Bool.not_eq_true',
      Bool.not_eq_true']
  obtain ⟨hin, hout⟩ := SortedMap.get?_foldl_insert Prod.snd hnodup
    ((l.keys.filter fun t => !b.has t).foldl SortedMap.erase a)
  by_cases hadd : ∃ e, b.get? t = some e ∧ a.has t = false ∧ l.has t = false
  · obtain ⟨e, hb, ha, hl⟩ := hadd
    have hget := hin (t, e) ((hmem _).mpr ⟨hb, ha, hl⟩)
    simp only at hget
    rw [hget, hb, SortedMap.has_eq_false_iff.mp ha]
    simp [ha, hl]
  · have hnot : t ∉ (b.entries.filter fun e => !a.has e.1 && !l.has e.1).map Prod.fst := by
      intro ht
      obtain ⟨⟨t', e⟩, he, rfl⟩ := List.mem_map.mp ht
      exact hadd ⟨e, (hmem _).mp he⟩
    have hgone : t ∈ (l.keys.filter fun t => !b.has t) ↔ l.has t = true ∧ b.has t = false := by
      rw [List.mem_filter, SortedMap.mem_keys_iff_has, Bool.not_eq_true']
    rw [hout t hnot, SortedMap.get?_foldl_erase]
    have hb : ¬(b.get? t = some el ∧ a.has t = false ∧ l.has t = false) := fun h => hadd ⟨el, h⟩
    simp only [hgone, hb, false_or]
    split_ifs with h
    · simp [h]
    · rw [not_and, Bool.not_eq_false] at h
      exact ⟨fun ha => ⟨ha, h⟩, fun ha => ha.1⟩

/-- **Merging** over the common additions. -/
theorem merge3 (hU : UniqueTags U) (hA : A ⊆ U) (hB : B ⊆ U) (hL : L ⊆ A ∩ B)
    (hcommon : ∀ t el, OrOp.add t el ∈ A → OrOp.add t el ∈ B → OrOp.add t el ∈ L)
    (hl : Represents L l) (ha : Represents A a) (hb : Represents B b) :
    ∃ m, OrSet.merge3 l a b = .ok m ∧ Represents (A ∪ B) m := by
  have hsame {t : τ} {el el' : α} (h : OrOp.add t el ∈ A) (h' : OrOp.add t el' ∈ B) :
      el = el' := hU t el el' (hA h) (hB h')
  refine ⟨_, rfl, fun t el => ?_, fun tags htags t ht => ?_⟩
  · rw [get?_merge3 rfl, ha.live, hb.live]
    constructor
    · rintro (⟨⟨hadd, hkeep⟩, -, hlt⟩ | ⟨⟨hadd, hkeep⟩, hlb⟩)
      · -- A removal that only the first side knows names a tag that it has seen added.
        refine ⟨Or.inr hadd, fun tags htags => htags.elim (fun htags ht => ?_) (hkeep tags)⟩
        obtain ⟨el', hadd'⟩ := ha.observed tags htags t ht
        obtain rfl := hsame hadd' hadd
        have hdead : ¬LiveTag L t el' := fun hlive => by
          rw [hl.has_iff.mpr ⟨el', hlive⟩] at hlt
          exact absurd hlt (by simp)
        exact hdead ⟨hcommon t el' hadd' hadd, fun r hr => hkeep r (hL hr).2⟩
      · -- A removal that only the second side knows is of a live tag of the base.
        refine ⟨Or.inl hadd, fun tags htags => htags.elim (hkeep tags) (fun htags ht => ?_)⟩
        obtain ⟨el', hadd'⟩ := hb.observed tags htags t ht
        obtain rfl := hsame hadd hadd'
        have hlive : LiveTag L t el :=
          ⟨hcommon t el hadd hadd', fun r hr => hkeep r (hL hr).1⟩
        obtain ⟨-, -, hkeep'⟩ := hb.has_iff.mp (hlb (hl.has_iff.mpr ⟨el, hlive⟩))
        exact hkeep' tags htags ht
    · rintro ⟨hadd, hkeep⟩
      have hkeepA : ∀ r, OrOp.rm r ∈ A → t ∉ r := fun r hr => hkeep r (Or.inl hr)
      have hkeepB : ∀ r, OrOp.rm r ∈ B → t ∉ r := fun r hr => hkeep r (Or.inr hr)
      by_cases haddA : OrOp.add t el ∈ A
      · refine Or.inr ⟨⟨haddA, hkeepA⟩, fun hlt => ?_⟩
        obtain ⟨el', hadd', -⟩ := hl.has_iff.mp hlt
        exact hb.has_iff.mpr ⟨el', (hL hadd').2, hkeepB⟩
      · have haddB : OrOp.add t el ∈ B := hadd.resolve_left haddA
        have hnone (el' : α) : OrOp.add t el' ∉ A := fun hadd' => haddA (hsame hadd' haddB ▸ hadd')
        refine Or.inl ⟨⟨haddB, hkeepB⟩, ?_, ?_⟩
        · rw [← Bool.not_eq_true, ha.has_iff]
          rintro ⟨el', hadd', -⟩
          exact hnone el' hadd'
        · rw [← Bool.not_eq_true, hl.has_iff]
          rintro ⟨el', hadd', -⟩
          exact hnone el' (hL hadd').1
  · rcases htags with htags | htags
    · obtain ⟨e, he⟩ := ha.observed tags htags t ht
      exact ⟨e, Or.inl he⟩
    · obtain ⟨e, he⟩ := hb.observed tags htags t ht
      exact ⟨e, Or.inr he⟩

/-- **What the read shows**: the elements with a live tag. -/
theorem mem_read_iff [LinearOrder α] (h : Represents E s) {el : α} :
    el ∈ read s ↔ ∃ t, LiveTag E t el := by
  rw [OrSet.mem_read_iff]
  exact exists_congr fun t => h.live t el

end Represents

/-- **The meaning of the observed-remove set.** -/
def meaning (τ α : Type) [LinearOrder τ] [LinearOrder α] :
    (orset τ α).replicated.Meaning Unit τ where
  creates := creates
  Fits _ U := UniqueTags U
  Rep _ E s := Represents E s
  Applicable E op := MayMake E op
  start := ⟨(), fun t el el' h => h.elim⟩
  init := Represents.init
  extend := by
    intro c U E op hU hE hmay hfresh
    refine ⟨(), fun t el el' h h' => ?_, fun _ hrep => hrep⟩
    have hnew {o : OrOp τ α} (ho : o ∈ U) (hop : t ∈ creates op) : t ∉ creates o :=
      hfresh t hop o ho
    rcases h with rfl | h <;> rcases h' with h' | h'
    · exact (OrOp.add.inj h').2.symm
    · exact absurd rfl (hnew h' rfl)
    · subst h'
      exact absurd rfl (hnew h rfl)
    · exact hU t el el' h h'
  apply := by
    intro c U E op s hU hE hop hmay hrep
    exact hrep.apply hmay
  merge := by
    intro c U L A B l a b hU hA hB hL hcommon hl ha hb
    exact Represents.merge3 hU hA hB hL (fun t el h h' => hcommon _ h _ h' t rfl rfl) hl ha hb
  unique := Represents.eq

end OrSet

end SalRuntime
