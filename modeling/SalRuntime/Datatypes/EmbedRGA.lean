import Mathlib.Data.Countable.Basic
import Mathlib.Logic.Equiv.List
import SalRuntime.Datatypes.EliasDelta
import SalRuntime.Datatypes.Mrdt
import SalRuntime.Datatypes.SeqOp
import SalRuntime.Foundations.SortedMap

/-!
# The embedded-chain RGA

The tombstone-free sequence of `src/datatypes/embedRGA.js`. Every live record carries a
coordinate, the codewords of the distances along its chain of anchors; deletion removes the
record. A state is a finite map from ids to records: the persistent map of `src/pmap.js` is taken
at its meaning.

## Main definitions

* `EmbedRGA.apply`, `EmbedRGA.applyBatch`, `EmbedRGA.merge3`, `EmbedRGA.readEntries` — the
  operations.
* `embedRGA` — the datatype over the flipped Elias-delta code.
* `EmbedRGA.Represents` — a state holds exactly the given live ids, under their chains.

## Main results

* `EmbedRGA.Represents.apply_ins`, `EmbedRGA.Represents.apply_del`,
  `EmbedRGA.Represents.merge3` — the operations on represented states.
* `EmbedRGA.Represents.readIds_eq` — a state displays its live ids in the display order of their
  chains, whatever the labels of its coordinates.
-/

namespace SalRuntime

variable {α : Type}

/-- A record: the coordinate and the element. -/
structure Record (α : Type) where
  /-- The coordinate. -/
  coord : List Bool
  /-- The element. -/
  el : α
  deriving DecidableEq, Repr

namespace EmbedRGA

/-- States: the live records, by id. -/
abbrev State (α : Type) := SortedMap ℕ (Record α)

/-- The codeword of a delta, which must be positive. -/
def enc (d : ℤ) : Except Failure (List Bool) :=
  if d < 1 then
    .error (.error s!"delta must be a positive integer (id > anchorId), got {d}")
  else .ok (dEnc d.toNat)

/-- The record that an insertion mints. -/
def insRecord (s : State α) (id : ℕ) (el : α) (anchorId : Option ℕ) :
    Except Failure (Record α) := do
  if s.has id then throw (.error s!"duplicate insert id {id}")
  match anchorId with
  | none => return { coord := ← enc id, el }
  | some a =>
    match s.get? a with
    | none => throw (.error (s!"anchor {a} not live: honest inserts anchor on the " ++
        "current read (the applicability precondition)"))
    | some r => return { coord := r.coord ++ (← enc ((id : ℤ) - a)), el }

/-- The initial state. -/
def init : State α := SortedMap.empty

/-- Apply an operation. Deleting an absent id does nothing. -/
def apply (s : State α) : SeqOp α → Except Failure (State α)
  | .ins id el anchorId => do return s.insert id (← insRecord s id el anchorId)
  | .del id => return s.erase id

/-- Apply a list of operations in one pass: a transient map takes them one after the other. -/
def applyBatch (t : State α) : List (SeqOp α) → Except Failure (State α)
  | [] => .ok t
  | .ins id el anchorId :: ops => do
    applyBatch (t.insert id (← insRecord t id el anchorId)) ops
  | .del id :: ops => applyBatch (t.erase id) ops

/-- Records in display order: descending keys of coordinates. -/
def precedes (e f : ℕ × Record α) : Prop :=
  sortKey f.2.coord < sortKey e.2.coord ∨
    sortKey f.2.coord = sortKey e.2.coord ∧ e.1 ≤ f.1

instance : DecidableRel (precedes (α := α)) := fun e f =>
  inferInstanceAs (Decidable (sortKey f.2.coord < sortKey e.2.coord ∨
    sortKey f.2.coord = sortKey e.2.coord ∧ e.1 ≤ f.1))

/-- The entries in display order. -/
def readEntries (s : State α) : List (ℕ × Record α) := s.entries.insertionSort precedes

/-- The elements in display order. -/
def read (s : State α) : List α := (readEntries s).map fun e => e.2.el

/-- The ids in display order. -/
def readIds (s : State α) : List ℕ := (readEntries s).map Prod.fst

/-- Remove from `a` the ids of the base `l` that `b` lacks. -/
def mergeRemove (l a b : State α) : State α :=
  l.keys.foldl (fun t id => if b.has id then t else t.erase id) a

/-- Add to `t` the records of `b` that neither `a` nor the base has; records of both sides must
agree on the coordinate. -/
def mergeAdd (l a : State α) : List (ℕ × Record α) → State α → Except Failure (State α)
  | [], t => .ok t
  | (id, rb) :: es, t =>
    match a.get? id with
    | some ra =>
      if ra.coord ≠ rb.coord then
        .error (.error s!"coordinate divergence at id {id}: birth constants must agree")
      else mergeAdd l a es t
    | none => mergeAdd l a es (if l.has id then t else t.insert id rb)

/-- The three-way merge: the live ids of both sides, and those a side has and the base lacks. -/
def merge3 (l a b : State α) : Except Failure (State α) :=
  mergeAdd l a b.entries (mergeRemove l a b)

/-- The canonical serialization. -/
def fingerprint (s : State α) : List (ℕ × List Bool × α) :=
  s.entries.map fun e => (e.1, e.2.coord, e.2.el)

/-- The fingerprints can be numbered. -/
instance instCountablePrint [Countable α] : Countable (List (ℕ × List Bool × α)) := inferInstance

end EmbedRGA

/-- The embedded-chain RGA over the flipped Elias-delta code. -/
@[reducible] def embedRGA (α : Type) [DecidableEq α] : Datatype where
  State := EmbedRGA.State α
  Op := SeqOp α
  View := List α
  Print := List (ℕ × List Bool × α)
  printDecEq := inferInstance
  Wire := Unit
  Cut := Unit
  Translate := Unit
  init := EmbedRGA.init
  prepare := none
  needsPrepare := false
  apply := EmbedRGA.apply
  applyBatch := some EmbedRGA.applyBatch
  merge3 := EmbedRGA.merge3
  read := EmbedRGA.read
  insId := SeqOp.insId
  headOnlyMerge := false
  auditMergeCoverage := none
  fingerprint := some EmbedRGA.fingerprint
  encodeState := none
  decodeState := none
  compact := none
  remapState := none
  settledCut := fun _ => ()
  emptyCut := ()
  settledIds := fun _ => none
  cutFromMeet := none
  inverseTranslate := none
  coordInverse := fun _ _ => .ok ()

namespace EmbedRGA

/-- **A batch** folds its operations. -/
theorem applyBatch_eq_foldlM (s : State α) (ops : List (SeqOp α)) :
    applyBatch s ops = ops.foldlM apply s := by
  induction ops generalizing s with
  | nil => rfl
  | cons op ops ih =>
    rw [List.foldlM_cons]
    cases op with
    | ins id el anchorId =>
      rw [applyBatch, apply, bind_assoc]
      simp only [pure_bind, ih]
    | del id => exact ih _

/-! ### What merging does to the records -/

theorem get?_mergeRemove (l a b : State α) (id : ℕ) : (mergeRemove l a b).get? id =
    if l.has id = true ∧ b.has id = false then none else a.get? id := by
  have hfold : ∀ (ids : List ℕ) (t : State α),
      (ids.foldl (fun t id => if b.has id then t else t.erase id) t).get? id =
        if id ∈ ids ∧ b.has id = false then none else t.get? id := by
    intro ids
    induction ids with
    | nil => simp
    | cons i ids ih =>
      intro t
      rw [List.foldl_cons, ih]
      by_cases hi : id = i
      · subst hi
        cases hb : b.has id <;> simp [SortedMap.get?_erase]
      · cases hb : b.has i <;> simp [SortedMap.get?_erase, hi]
  rw [mergeRemove, hfold]
  simp only [SortedMap.mem_keys_iff, ← SortedMap.has_iff]

theorem mergeAdd_eq_ok {l a : State α} {es : List (ℕ × Record α)} {t : State α}
    (hes : es.Pairwise fun e f => e.1 < f.1)
    (hagree : ∀ e ∈ es, ∀ ra, a.get? e.1 = some ra → ra.coord = e.2.coord) :
    ∃ m, mergeAdd l a es t = .ok m ∧ ∀ id, m.get? id =
      match es.find? fun e => e.1 = id with
      | some e => if a.has id = true ∨ l.has id = true then t.get? id else some e.2
      | none => t.get? id := by
  induction es generalizing t with
  | nil => exact ⟨t, rfl, fun id => rfl⟩
  | cons e es ih =>
    obtain ⟨i, rb⟩ := e
    obtain ⟨hlt, hes⟩ := List.pairwise_cons.mp hes
    -- The head of the list is not found again in the tail.
    have hnotin : es.find? (fun e => e.1 = i) = none := by
      simpa using fun x y hxy => (hlt (x, y) hxy).ne'
    have hagree' : ∀ e ∈ es, ∀ ra, a.get? e.1 = some ra → ra.coord = e.2.coord :=
      fun e he => hagree e (List.mem_cons_of_mem _ he)
    rw [mergeAdd]
    cases ha : a.get? i with
    | some ra =>
      have hcoord := hagree (i, rb) List.mem_cons_self ra ha
      obtain ⟨m, hm, hget⟩ := ih (t := t) hes hagree'
      refine ⟨m, by simp [hcoord, hm], fun id => ?_⟩
      rw [hget, List.find?_cons]
      by_cases hid : i = id
      · subst hid
        have : a.has i = true := SortedMap.has_iff.mpr ⟨ra, ha⟩
        simp [hnotin, this]
      · simp [hid]
    | none =>
      obtain ⟨m, hm, hget⟩ := ih (t := if l.has i then t else t.insert i rb) hes hagree'
      refine ⟨m, hm, fun id => ?_⟩
      rw [hget, List.find?_cons]
      by_cases hid : i = id
      · subst hid
        have : a.has i = false := SortedMap.has_eq_false_iff.mpr ha
        cases hl : l.has i <;> simp [hnotin, this]
      · have hget' : (if l.has i then t else t.insert i rb).get? id = t.get? id := by
          split_ifs
          · rfl
          · exact SortedMap.get?_insert_of_ne _ _ (Ne.symm hid)
        simp [hid, hget']

/-- **The merge of states that agree on common coordinates.** -/
theorem merge3_eq_ok {l a b : State α}
    (hagree : ∀ id ra rb, a.get? id = some ra → b.get? id = some rb → ra.coord = rb.coord) :
    ∃ m, merge3 l a b = .ok m ∧ ∀ id, m.get? id =
      if a.has id then (if l.has id = true ∧ b.has id = false then none else a.get? id)
      else if l.has id then none else b.get? id := by
  obtain ⟨m, hm, hget⟩ := mergeAdd_eq_ok (l := l) (a := a) (t := mergeRemove l a b) b.sorted
    fun e he ra hra => hagree e.1 ra e.2 hra (SortedMap.mem_entries_iff.mp he)
  refine ⟨m, hm, fun id => ?_⟩
  rw [hget, get?_mergeRemove]
  cases hb : b.entries.find? fun e => e.1 = id with
  | none =>
    have hbn : b.get? id = none := by rw [SortedMap.get?, hb]; rfl
    have hbf : b.has id = false := SortedMap.has_eq_false_iff.mpr hbn
    cases ha : a.has id with
    | true => simp [hbf]
    | false =>
      have han := SortedMap.has_eq_false_iff.mp ha
      cases hl : l.has id <;> simp [hbf, hbn, han]
  | some e =>
    have hbs : b.get? id = some e.2 := by rw [SortedMap.get?, hb]; rfl
    have hbt : b.has id = true := SortedMap.has_iff.mpr ⟨_, hbs⟩
    cases ha : a.has id with
    | true => simp [hbt]
    | false =>
      have han := SortedMap.has_eq_false_iff.mp ha
      cases hl : l.has id <;> simp [hbs, hbt, han]

/-! ### Display -/

/-- The read sorts the entries. -/
theorem pairwise_readEntries (s : State α) : (readEntries s).Pairwise precedes := by
  have htotal : Std.Total (precedes (α := α)) := ⟨fun e f => by
    rcases lt_trichotomy (sortKey e.2.coord) (sortKey f.2.coord) with hlt | heq | hlt
    · exact Or.inr (Or.inl hlt)
    · rcases le_total e.1 f.1 with hle | hle
      · exact Or.inl (Or.inr ⟨heq.symm, hle⟩)
      · exact Or.inr (Or.inr ⟨heq, hle⟩)
    · exact Or.inl (Or.inl hlt)⟩
  have htrans : IsTrans _ (precedes (α := α)) := ⟨fun e f g hef hfg => by
    rcases hef with hef | ⟨hef, hle⟩ <;> rcases hfg with hfg | ⟨hfg, hle'⟩
    · exact Or.inl (hfg.trans hef)
    · exact Or.inl (hfg ▸ hef)
    · exact Or.inl (hef ▸ hfg)
    · exact Or.inr ⟨hfg.trans hef, hle.trans hle'⟩⟩
  exact List.pairwise_insertionSort _ _

/-- The read keeps the entries. -/
theorem perm_readEntries (s : State α) : (readEntries s).Perm s.entries :=
  List.perm_insertionSort ..

/-- The coordinate of an anchor: the root has the empty one. -/
def anchorCoord (s : State α) : Option ℕ → Option (List Bool)
  | none => some []
  | some a => (s.get? a).map Record.coord

/-- **Minting a record**: a new id extends the coordinate of a live anchor by the distance from it. -/
theorem insRecord_eq_ok_iff {s : State α} {id : ℕ} {el : α} {anchorId : Option ℕ} {r : Record α} :
    insRecord s id el anchorId = .ok r ↔ s.has id = false ∧ anchorId.getD 0 < id ∧
      ∃ bits, anchorCoord s anchorId = some bits ∧
        r = { coord := bits ++ dEnc (id - anchorId.getD 0), el } := by
  have henc (a : ℕ) : enc ((id : ℤ) - a) =
      if a < id then .ok (dEnc (id - a))
      else .error (.error s!"delta must be a positive integer (id > anchorId), got {(id : ℤ) - a}") := by
    rw [enc]
    by_cases hlt : a < id
    · rw [if_neg (by omega), if_pos hlt]
      congr
      omega
    · rw [if_pos (by omega), if_neg hlt]
  unfold insRecord
  cases hhas : s.has id with
  | true => simp [bind, Except.bind, throw, throwThe, MonadExceptOf.throw]
  | false =>
    cases anchorId with
    | none =>
      have h0 := henc 0
      rw [Nat.cast_zero, sub_zero, Nat.sub_zero] at h0
      by_cases hlt : 0 < id
      · simp [h0, hlt, anchorCoord, bind, Except.bind, pure, Except.pure, eq_comm]
      · simp [h0, hlt, bind, Except.bind]
    | some a =>
      cases ha : s.get? a with
      | none => simp [ha, anchorCoord, throw, throwThe, MonadExceptOf.throw]
      | some ra =>
        by_cases hlt : a < id
        · simp [ha, henc, hlt, anchorCoord, bind, Except.bind, pure, Except.pure, eq_comm]
        · simp [ha, henc, hlt, bind, Except.bind]

theorem apply_ins_eq_ok_iff {s s' : State α} {id : ℕ} {el : α} {anchorId : Option ℕ} :
    apply s (.ins id el anchorId) = .ok s' ↔
      ∃ r, insRecord s id el anchorId = .ok r ∧ s' = s.insert id r := by
  rw [apply]
  cases insRecord s id el anchorId with
  | error e => simp [bind, Except.bind]
  | ok r => simp [bind, Except.bind, pure, Except.pure, eq_comm]

/-! ### States that represent a set of live ids -/

/-- The record of an id with the given chain and element, under labels of chains. -/
def recordOf (lab : List ℕ → ℕ) (χ : ℕ → List ℕ) (ε : ℕ → α) (id : ℕ) : Record α :=
  { coord := spell dEnc lab (χ id), el := ε id }

/-- The state holds exactly the ids of `L`, each with the record of its chain and element. -/
def Represents (lab : List ℕ → ℕ) (χ : ℕ → List ℕ) (ε : ℕ → α) (L : Set ℕ) (s : State α) : Prop :=
  ∀ id r, s.get? id = some r ↔ id ∈ L ∧ r = recordOf lab χ ε id

namespace Represents

variable {lab : List ℕ → ℕ} {χ : ℕ → List ℕ} {ε : ℕ → α} {L : Set ℕ} {s : State α}

theorem has_iff (h : Represents lab χ ε L s) {id : ℕ} : s.has id = true ↔ id ∈ L := by
  simp only [SortedMap.has_iff, h id]
  exact ⟨fun ⟨_, hid, _⟩ => hid, fun hid => ⟨_, hid, rfl⟩⟩

theorem get?_eq (h : Represents lab χ ε L s) {id : ℕ} (hid : id ∈ L) :
    s.get? id = some (recordOf lab χ ε id) := (h id _).mpr ⟨hid, rfl⟩

theorem get?_eq_none (h : Represents lab χ ε L s) {id : ℕ} (hid : id ∉ L) : s.get? id = none := by
  rw [← SortedMap.has_eq_false_iff, ← Bool.not_eq_true, h.has_iff]
  exact hid

theorem of_get? (hmem : ∀ id ∈ L, s.get? id = some (recordOf lab χ ε id))
    (hnot : ∀ id ∉ L, s.get? id = none) : Represents lab χ ε L s := by
  intro id r
  by_cases hid : id ∈ L
  · simp [hmem id hid, hid, eq_comm]
  · simp [hnot id hid, hid]

theorem init : Represents lab χ ε ∅ (EmbedRGA.init : State α) :=
  of_get? (by simp) fun _ _ => SortedMap.get?_empty _

/-- The state is determined by what it represents. -/
theorem eq {s' : State α} (h : Represents lab χ ε L s) (h' : Represents lab χ ε L s') : s = s' :=
  SortedMap.ext_get? fun id => by
    by_cases hid : id ∈ L
    · rw [h.get?_eq hid, h'.get?_eq hid]
    · rw [h.get?_eq_none hid, h'.get?_eq_none hid]

/-- Only the labels along the chains, the chains and the elements of the live ids matter. -/
theorem congr {lab' : List ℕ → ℕ} {χ' : ℕ → List ℕ} {ε' : ℕ → α} (h : Represents lab χ ε L s)
    (hrec : ∀ id ∈ L, recordOf lab χ ε id = recordOf lab' χ' ε' id) :
    Represents lab' χ' ε' L s :=
  of_get? (fun id hid => by rw [h.get?_eq hid, hrec id hid]) fun _ hid => h.get?_eq_none hid

theorem of_eq {L' : Set ℕ} (h : Represents lab χ ε L s) (heq : L = L') :
    Represents lab χ ε L' s := heq ▸ h

/-- **Inserting** a fresh id after a live anchor. -/
theorem apply_ins (h : Represents lab χ ε L s) {id : ℕ} {el : α} {anchorId : Option ℕ}
    (hid : id ∉ L) (hanchor : ∀ a, anchorId = some a → a ∈ L ∧ a < id) (hpos : 0 < id)
    (hχ : χ id = anchorChain χ anchorId ++ [id]) (hε : ε id = el)
    (hlab : lab (χ id) = id - anchorId.getD 0) :
    ∃ s', apply s (.ins id el anchorId) = .ok s' ∧ Represents lab χ ε (insert id L) s' := by
  have hhas : s.has id = false := by rw [← Bool.not_eq_true, h.has_iff]; exact hid
  have hrec : insRecord s id el anchorId = .ok (recordOf lab χ ε id) := by
    have hcoord : recordOf lab χ ε id =
        { coord := spell dEnc lab (anchorChain χ anchorId) ++ dEnc (id - anchorId.getD 0), el } := by
      rw [recordOf, hχ, spell_concat, ← hχ, hlab, hε]
    rw [hcoord]
    cases anchorId with
    | none =>
      have henc : enc (id : ℤ) = .ok (dEnc id) := by
        rw [enc, if_neg (by omega), Int.toNat_natCast]
      simp [insRecord, hhas, henc, anchorChain, bind, Except.bind, pure, Except.pure]
    | some a =>
      obtain ⟨ha, hlt⟩ := hanchor a rfl
      have henc : enc ((id : ℤ) - a) = .ok (dEnc (id - a)) := by
        rw [enc, if_neg (by omega)]
        congr
        omega
      simp [insRecord, hhas, h.get?_eq ha, henc, anchorChain, recordOf, bind, Except.bind, pure,
        Except.pure]
  refine ⟨s.insert id (recordOf lab χ ε id), by rw [apply, hrec]; rfl,
    of_get? (fun i hi => ?_) fun i hi => ?_⟩
  · rw [SortedMap.get?_insert]
    split_ifs with heq
    · rw [heq]
    · exact h.get?_eq (hi.resolve_left heq)
  · rw [Set.mem_insert_iff, not_or] at hi
    rw [SortedMap.get?_insert_of_ne _ _ hi.1, h.get?_eq_none hi.2]

/-- **Deleting** an id. -/
theorem apply_del (h : Represents lab χ ε L s) (id : ℕ) :
    ∃ s', apply s (.del id) = .ok s' ∧ Represents lab χ ε (L \ {id}) s' := by
  refine ⟨s.erase id, rfl, of_get? (fun i hi => ?_) fun i hi => ?_⟩
  · rw [SortedMap.get?_erase, if_neg (by simpa using hi.2), h.get?_eq hi.1]
  · rw [SortedMap.get?_erase]
    split_ifs with heq
    · rfl
    · exact h.get?_eq_none fun hL => hi ⟨hL, heq⟩

/-- **Merging** states under the same labels. Of the base only the ids matter. -/
theorem merge3 {l a b : State α} {A B : Set ℕ} (hl : ∀ id, l.has id = true ↔ id ∈ L)
    (ha : Represents lab χ ε A a) (hb : Represents lab χ ε B b) :
    ∃ m, EmbedRGA.merge3 l a b = .ok m ∧ Represents lab χ ε (mergeLive L A B) m := by
  obtain ⟨m, hm, hget⟩ := merge3_eq_ok (l := l) (a := a) (b := b) fun id ra rb hra hrb => by
    rw [((ha id ra).mp hra).2, ((hb id rb).mp hrb).2]
  have hbf {id : ℕ} : b.has id = false ↔ id ∉ B := by
    rw [← Bool.not_eq_true, hb.has_iff]
  refine ⟨m, hm, of_get? (fun id hid => ?_) fun id hid => ?_⟩
  · simp only [mergeLive, Set.mem_union, Set.mem_inter_iff, Set.mem_sdiff] at hid
    rw [hget]
    by_cases hA : id ∈ A
    · rw [if_pos (ha.has_iff.mpr hA), if_neg (by rw [hl, hbf]; tauto), ha.get?_eq hA]
    · rw [if_neg (by rwa [ha.has_iff]), if_neg (by rw [hl]; tauto), hb.get?_eq (by tauto)]
  · simp only [mergeLive, Set.mem_union, Set.mem_inter_iff, Set.mem_sdiff] at hid
    rw [hget]
    by_cases hA : id ∈ A
    · rw [if_pos (ha.has_iff.mpr hA), if_pos (by rw [hl, hbf]; tauto)]
    · rw [if_neg (by rwa [ha.has_iff])]
      by_cases hL : id ∈ L
      · rw [if_pos ((hl id).mpr hL)]
      · rw [if_neg (by rwa [hl]), hb.get?_eq_none (by tauto)]

/-- **The display order.** The ids are listed in the display order of their chains. -/
theorem pairwise_readIds (h : Represents lab χ ε L s) {V : Set (List ℕ)}
    (hlab : SiblingMono V lab) (hV : ∀ id ∈ L, χ id ∈ V) (hχ : Set.InjOn χ L) :
    (readIds s).Pairwise (fun i j => Above (χ i) (χ j)) ∧ ∀ id, id ∈ readIds s ↔ id ∈ L := by
  have hperm := perm_readEntries s
  have hentry : ∀ e ∈ readEntries s, e.1 ∈ L ∧ e.2 = recordOf lab χ ε e.1 := fun e he =>
    (h e.1 e.2).mp (SortedMap.mem_entries_iff.mp (hperm.subset he))
  have hnodup : (readEntries s).Pairwise fun e f => e.1 ≠ f.1 :=
    hperm.symm.pairwise (s.sorted.imp fun hlt => hlt.ne) fun hne => Ne.symm hne
  have hsorted := pairwise_readEntries s
  constructor
  · rw [readIds, List.pairwise_map]
    refine (hsorted.and hnodup).imp_of_mem fun he hf hef => ?_
    obtain ⟨heL, her⟩ := hentry _ he
    obtain ⟨hfL, hfr⟩ := hentry _ hf
    rcases above_trichotomy (χ _) (χ _) with hab | heq | hab
    · exact hab
    · exact absurd (hχ heL hfL heq) hef.2
    · have hlt := spell_key_lt orderedPrefixCode_dEnc hlab hab (hV _ hfL) (hV _ heL)
      have hprec := hef.1
      rw [precedes, her, hfr, recordOf, recordOf] at hprec
      rcases hprec with h' | ⟨h', -⟩
      · exact absurd h' (lt_asymm hlt)
      · exact absurd hlt (by rw [h']; exact lt_irrefl _)
  · intro id
    rw [readIds, List.mem_map]
    constructor
    · rintro ⟨e, he, rfl⟩
      exact (hentry e he).1
    · intro hid
      exact ⟨(id, recordOf lab χ ε id),
        hperm.symm.subset (SortedMap.mem_entries_iff.mpr (h.get?_eq hid)), rfl⟩

theorem read_eq_map (h : Represents lab χ ε L s) : read s = (readIds s).map ε := by
  rw [read, readIds, List.map_map]
  refine List.map_congr_left fun e he => ?_
  have hmem := (perm_readEntries s).subset he
  rw [((h e.1 e.2).mp (SortedMap.mem_entries_iff.mp hmem)).2]
  rfl

/-- **Labels do not show.** States that hold the same ids under the same chains and elements read
alike, whatever the labels of their coordinates. -/
theorem readIds_eq {lab' : List ℕ → ℕ} {s' : State α} (h : Represents lab χ ε L s)
    (h' : Represents lab' χ ε L s') {V V' : Set (List ℕ)} (hlab : SiblingMono V lab)
    (hlab' : SiblingMono V' lab') (hV : ∀ id ∈ L, χ id ∈ V) (hV' : ∀ id ∈ L, χ id ∈ V')
    (hχ : Set.InjOn χ L) : readIds s = readIds s' ∧ read s = read s' := by
  obtain ⟨hsorted, hmem⟩ := h.pairwise_readIds hlab hV hχ
  obtain ⟨hsorted', hmem'⟩ := h'.pairwise_readIds hlab' hV' hχ
  have hids : readIds s = readIds s' := eq_of_pairwise_above hsorted hsorted' fun id => by
    rw [hmem, hmem']
  exact ⟨hids, by rw [h.read_eq_map, h'.read_eq_map, hids]⟩

end Represents

/-- Without elements there is no record. -/
theorem readIds_of_isEmpty [IsEmpty α] (s : State α) : readIds s = [] := by
  have hnil : s.entries = [] := List.eq_nil_iff_forall_not_mem.mpr fun e _ => isEmptyElim e.2.el
  rw [readIds, readEntries, hnil]
  rfl

end EmbedRGA

end SalRuntime
