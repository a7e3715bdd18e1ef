import Mathlib.Data.List.Perm.Subperm
import SalRuntime.Datatypes.Mrdt
import SalRuntime.Datatypes.SeqOp
import SalRuntime.Foundations.SortedMap

/-!
# The tombstone RGA

The replicated growable array of `src/datatypes/rga.js`: a grow-only map of insertions and a
grow-only set of graves. The display order is a preorder walk of the tree of anchors, siblings by
descending ids.

## Main definitions

* `Rga.prepare`, `Rga.apply`, `Rga.merge3`, `Rga.orderedIds`, `Rga.readEntries` — the operations.
* `rga` — the datatype.
* `Rga.Represents` — a state holds the given insertions and graves.

## Main results

* `Rga.Represents.apply_ins`, `Rga.Represents.apply_del`, `Rga.Represents.merge3` — the operations
  on represented states.
* `Rga.orderedIds_spec` — the walk lists every inserted id, in the display order of the chains.
* `Rga.Represents.readIds_spec` — the read lists the ids without a grave, in that order.
-/

namespace SalRuntime

variable {α : Type}

namespace Rga

/-- An insertion: the anchor and the element. -/
structure Added (α : Type) where
  /-- The anchor, or none at the root. -/
  anchorId : Option ℕ
  /-- The element. -/
  el : α
  deriving DecidableEq, Repr

/-- States. -/
structure State (α : Type) where
  /-- The insertions. -/
  adds : SortedMap ℕ (Added α)
  /-- The deleted ids. -/
  grave : SortedMap ℕ Unit
  /-- A remembered display order. -/
  order : Option (List ℕ)

/-- Check an insertion, and return its anchor. -/
def checkInsert (s : State α) (id : ℕ) (anchorId : Option ℕ) : Except Failure (Option ℕ) := do
  if id < 1 then throw (.error s!"bad fresh id {id}")
  if s.adds.has id then throw (.error s!"duplicate id/timestamp {id}")
  if s.grave.has id then throw (.error s!"resurrection of {id}")
  match anchorId with
  | none => return none
  | some a =>
    if !s.adds.has a then throw (.error s!"anchor {a} not known")
    if s.grave.has a then throw (.error s!"anchor {a} is not live")
    if id ≤ a then throw (.error s!"anchor {a} must precede {id}")
    return some a

/-- Check a deletion. -/
def checkDelete (s : State α) (id : ℕ) : Except Failure Unit := do
  if !s.adds.has id then throw (.error s!"remove {id} before insertion")
  if s.grave.has id then throw (.error s!"remove {id} is not live")

/-- The initial state. -/
def init : State α := ⟨SortedMap.empty, SortedMap.empty, none⟩

/-- Check an operation and normalize its anchor. -/
def prepare (s : State α) : SeqOp α → Except Failure (SeqOp α)
  | .ins id el anchorId => do return .ins id el (← checkInsert s id anchorId)
  | .del id => do
    checkDelete s id
    return .del id

/-- Apply an operation, after checking it again. -/
def apply (s : State α) (raw : SeqOp α) : Except Failure (State α) := do
  match ← prepare s raw with
  | .ins id el anchorId =>
    return { adds := s.adds.insert id ⟨anchorId, el⟩, grave := s.grave, order := none }
  | .del id => return { adds := s.adds, grave := s.grave.insert id (), order := s.order }

/-- Apply a list of operations in one pass: transient sets take them one after the other. -/
def applyBatch (t : State α) : List (SeqOp α) → Except Failure (State α)
  | [] => .ok { t with order := none }
  | .ins id el anchorId :: ops => do
    let anchorId ← checkInsert t id anchorId
    applyBatch { t with adds := t.adds.insert id ⟨anchorId, el⟩ } ops
  | .del id :: ops => do
    checkDelete t id
    applyBatch { t with grave := t.grave.insert id () } ops

/-- The ids anchored at an anchor, newest first. -/
def children (adds : SortedMap ℕ (Added α)) (anchorId : Option ℕ) : List ℕ :=
  ((adds.entries.filter fun e => e.2.anchorId = anchorId).map Prod.fst).insertionSort
    fun a b => b ≤ a

/-- The preorder walk from a stack of ids. Every id has one anchor, so each is popped at most
once and the number of insertions bounds the number of rounds. -/
def walk (adds : SortedMap ℕ (Added α)) : ℕ → List ℕ → List ℕ
  | 0, _ => []
  | _ + 1, [] => []
  | n + 1, id :: stack => id :: walk adds n (children adds (some id) ++ stack)

/-- The inserted ids in display order. -/
def orderedIds (adds : SortedMap ℕ (Added α)) : Except Failure (List ℕ) :=
  let out := walk adds adds.size (children adds none)
  if out.length ≠ adds.size then .error (.error "RGA state contains an unreachable anchor")
  else .ok out

/-- The union of two maps of insertions, which must agree on common ids. -/
def mergeAdds (a : SortedMap ℕ (Added α)) [DecidableEq α] : List (ℕ × Added α) →
    SortedMap ℕ (Added α) → Except Failure (SortedMap ℕ (Added α))
  | [], t => .ok t
  | (id, rb) :: es, t =>
    match a.get? id with
    | some ra =>
      if ra.anchorId ≠ rb.anchorId ∨ ra.el ≠ rb.el then
        .error (.error s!"RGA insertion divergence at {id}")
      else mergeAdds a es t
    | none => mergeAdds a es (t.insert id rb)

/-- The union of two sets of graves. -/
def mergeGrave (a b : SortedMap ℕ Unit) : SortedMap ℕ Unit :=
  b.keys.foldl (fun t id => t.insert id ()) a

/-- The merge, which does not read the base. -/
def merge3 [DecidableEq α] (_l a b : State α) : Except Failure (State α) := do
  return { adds := ← mergeAdds a.adds b.adds.entries a.adds
           grave := mergeGrave a.grave b.grave, order := none }

/-- The live entries in display order. -/
def readEntries (s : State α) : Except Failure (List (ℕ × Added α)) := do
  let order ← match s.order with
    | some order => pure order
    | none => orderedIds s.adds
  return order.filterMap fun id => if s.grave.has id then none else (s.adds.get? id).map (id, ·)

/-- The live ids in display order. -/
def readIds (s : State α) : Except Failure (List ℕ) := do
  return (← readEntries s).map Prod.fst

/-- The live elements in display order. -/
def read (s : State α) : Except Failure (List α) := do
  return (← readEntries s).map fun e => e.2.el

end Rga

/-- The tombstone RGA. Its read may throw. -/
@[reducible] def rga (α : Type) [DecidableEq α] : Datatype where
  State := Rga.State α
  Op := SeqOp α
  View := Except Failure (List α)
  Print := Unit
  printDecEq := inferInstance
  Wire := Unit
  Cut := Unit
  Translate := Unit
  init := Rga.init
  prepare := some Rga.prepare
  needsPrepare := true
  apply := Rga.apply
  applyBatch := some Rga.applyBatch
  merge3 := Rga.merge3
  read := Rga.read
  insId := SeqOp.insId
  headOnlyMerge := false
  auditMergeCoverage := none
  fingerprint := none
  encodeState := none
  decodeState := none
  compact := none
  remapState := none
  settledCut := fun _ => ()
  emptyCut := ()
  settledIds := fun _ => none
  cutFromMeet := none
  inverseTranslate := none
  coordInverse := fun _ _ => .ok ()

namespace Rga

/-! ### States that represent insertions and graves -/

/-- The anchor of an id, read off its chain. -/
def anchorOf (χ : ℕ → List ℕ) (id : ℕ) : Option ℕ := (χ id).dropLast.getLast?

/-- The state holds the insertions of `I`, with the anchors of their chains, and the graves of
`D`. -/
structure Represents (χ : ℕ → List ℕ) (ε : ℕ → α) (I D : Set ℕ) (s : State α) : Prop where
  /-- The insertions. -/
  adds : ∀ id r, s.adds.get? id = some r ↔ id ∈ I ∧ r = ⟨anchorOf χ id, ε id⟩
  /-- The graves. -/
  grave : ∀ id, s.grave.has id = true ↔ id ∈ D
  /-- No order is remembered. -/
  order : s.order = none

namespace Represents

variable {χ : ℕ → List ℕ} {ε : ℕ → α} {I D : Set ℕ} {s : State α}

theorem has_adds_iff (h : Represents χ ε I D s) {id : ℕ} : s.adds.has id = true ↔ id ∈ I := by
  simp only [SortedMap.has_iff, h.adds]
  exact ⟨fun ⟨_, hid, _⟩ => hid, fun hid => ⟨_, hid, rfl⟩⟩

theorem has_adds_eq_false (h : Represents χ ε I D s) {id : ℕ} (hid : id ∉ I) :
    s.adds.has id = false := by rwa [← Bool.not_eq_true, h.has_adds_iff]

theorem has_grave_eq_false (h : Represents χ ε I D s) {id : ℕ} (hid : id ∉ D) :
    s.grave.has id = false := by rwa [← Bool.not_eq_true, h.grave]

theorem init : Represents χ ε ∅ ∅ (Rga.init : State α) :=
  ⟨by simp [Rga.init], by simp [Rga.init], rfl⟩

/-- Only the anchors and elements of the inserted ids matter. -/
theorem congr {χ' : ℕ → List ℕ} {ε' : ℕ → α} (h : Represents χ ε I D s)
    (hχ : ∀ id ∈ I, χ id = χ' id) (hε : ∀ id ∈ I, ε id = ε' id) : Represents χ' ε' I D s :=
  ⟨fun id r => by
    rw [h.adds]
    refine and_congr_right fun hid => ?_
    rw [anchorOf, anchorOf, hχ id hid, hε id hid], h.grave, h.order⟩

/-- **Inserting** a fresh id after a live anchor. -/
theorem apply_ins (h : Represents χ ε I D s) {id : ℕ} {el : α} {anchorId : Option ℕ}
    (hid : id ∉ I) (hD : id ∉ D) (hanchor : ∀ a, anchorId = some a → a ∈ I \ D ∧ a < id)
    (hpos : 0 < id) (hχ : anchorOf χ id = anchorId) (hε : ε id = el) :
    prepare s (.ins id el anchorId) = .ok (.ins id el anchorId) ∧
      ∃ s', apply s (.ins id el anchorId) = .ok s' ∧ Represents χ ε (insert id I) D s' := by
  have hcheck : checkInsert s id anchorId = .ok anchorId := by
    cases anchorId with
    | none =>
      simp [checkInsert, h.has_adds_eq_false hid, h.has_grave_eq_false hD, pure, Except.pure,
        hpos.ne']
    | some a =>
      obtain ⟨⟨ha, haD⟩, hlt⟩ := hanchor a rfl
      simp [checkInsert, h.has_adds_eq_false hid, h.has_grave_eq_false hD, h.has_adds_iff.mpr ha,
        h.has_grave_eq_false haD, bind, Except.bind, pure, Except.pure, hpos.ne', hlt]
  have hprepare : prepare s (.ins id el anchorId) = .ok (.ins id el anchorId) := by
    rw [prepare, hcheck]
    rfl
  refine ⟨hprepare, ⟨s.adds.insert id ⟨anchorId, el⟩, s.grave, none⟩,
    by rw [apply, hprepare]; rfl, fun i r => ?_, h.grave, rfl⟩
  rw [SortedMap.get?_insert, Set.mem_insert_iff]
  split_ifs with heq
  · subst heq
    simp [hχ, hε, eq_comm]
  · rw [h.adds]
    simp [heq]

/-- **Deleting** a live id. -/
theorem apply_del (h : Represents χ ε I D s) {id : ℕ} (hid : id ∈ I \ D) :
    prepare s (.del id) = .ok (.del id) ∧
      ∃ s', apply s (.del id) = .ok s' ∧ Represents χ ε I (insert id D) s' := by
  have hprepare : prepare s (.del id) = .ok (.del id) := by
    simp [prepare, checkDelete, h.has_adds_iff.mpr hid.1, h.has_grave_eq_false hid.2, bind,
      Except.bind, pure, Except.pure]
  refine ⟨hprepare, ⟨s.adds, s.grave.insert id (), s.order⟩, by rw [apply, hprepare]; rfl,
    h.adds, fun i => ?_, h.order⟩
  rw [SortedMap.has_insert, Bool.or_eq_true, decide_eq_true_eq, h.grave, Set.mem_insert_iff]

theorem mergeAdds_spec [DecidableEq α] {I' : Set ℕ} {a : SortedMap ℕ (Added α)}
    (ha : ∀ id r, a.get? id = some r ↔ id ∈ I ∧ r = ⟨anchorOf χ id, ε id⟩)
    (es : List (ℕ × Added α)) (hes : ∀ e ∈ es, e.1 ∈ I' ∧ e.2 = ⟨anchorOf χ e.1, ε e.1⟩)
    {T : Set ℕ} {t : SortedMap ℕ (Added α)}
    (ht : ∀ id r, t.get? id = some r ↔ id ∈ T ∧ r = ⟨anchorOf χ id, ε id⟩) (hIT : I ⊆ T) :
    ∃ m, mergeAdds a es t = .ok m ∧ ∀ id r, m.get? id = some r ↔
      (id ∈ T ∨ id ∈ es.map Prod.fst) ∧ r = ⟨anchorOf χ id, ε id⟩ := by
  induction es generalizing T t with
  | nil => exact ⟨t, rfl, by simpa using ht⟩
  | cons e es ih =>
    obtain ⟨i, rb⟩ := e
    obtain ⟨-, rfl⟩ : i ∈ I' ∧ rb = ⟨anchorOf χ i, ε i⟩ := hes (i, rb) List.mem_cons_self
    have hes' := fun e he => hes e (List.mem_cons_of_mem _ he)
    rw [mergeAdds]
    cases hai : a.get? i with
    | some ra =>
      obtain ⟨hi, rfl⟩ := (ha i ra).mp hai
      obtain ⟨m, hm, hget⟩ := ih hes' ht hIT
      refine ⟨m, by simpa using hm, fun id r => ?_⟩
      have hiT := hIT hi
      rw [hget, List.map_cons, List.mem_cons]
      refine and_congr_left fun _ => ?_
      by_cases heq : id = i
      · simp [heq, hiT]
      · simp [heq]
    | none =>
      obtain ⟨m, hm, hget⟩ := ih hes' (T := insert i T) (t := t.insert i ⟨anchorOf χ i, ε i⟩)
        (fun id r => by
          rw [SortedMap.get?_insert, Set.mem_insert_iff]
          split_ifs with heq
          · subst heq
            simp [eq_comm]
          · simp [ht, heq]) (hIT.trans (Set.subset_insert _ _))
      refine ⟨m, hm, fun id r => ?_⟩
      rw [hget, List.map_cons, List.mem_cons, Set.mem_insert_iff]
      refine and_congr_left fun _ => ?_
      tauto

theorem has_mergeGrave (a b : SortedMap ℕ Unit) (id : ℕ) :
    (mergeGrave a b).has id = true ↔ a.has id = true ∨ b.has id = true := by
  have hfold : ∀ (ids : List ℕ) (t : SortedMap ℕ Unit),
      (ids.foldl (fun t id => t.insert id ()) t).has id = true ↔ t.has id = true ∨ id ∈ ids := by
    intro ids
    induction ids with
    | nil => simp
    | cons i ids ih =>
      intro t
      rw [List.foldl_cons, ih, SortedMap.has_insert, List.mem_cons]
      simp only [Bool.or_eq_true, decide_eq_true_eq]
      tauto
  rw [mergeGrave, hfold, SortedMap.mem_keys_iff, ← SortedMap.has_iff]

/-- **Merging** takes the unions. -/
theorem merge3 [DecidableEq α] {I' D' : Set ℕ} {l a b : State α} (ha : Represents χ ε I D a)
    (hb : Represents χ ε I' D' b) :
    ∃ m, Rga.merge3 l a b = .ok m ∧ Represents χ ε (I ∪ I') (D ∪ D') m := by
  obtain ⟨m, hm, hget⟩ := mergeAdds_spec ha.adds b.adds.entries
    (fun e he => (hb.adds e.1 e.2).mp (SortedMap.mem_entries_iff.mp he)) ha.adds subset_rfl
  refine ⟨⟨m, mergeGrave a.grave b.grave, none⟩, by rw [Rga.merge3, hm]; rfl, fun id r => ?_, fun id => ?_, rfl⟩
  · rw [hget, Set.mem_union]
    have hkeys : id ∈ b.adds.entries.map Prod.fst ↔ id ∈ I' := by
      rw [← hb.has_adds_iff, SortedMap.has_iff, ← SortedMap.mem_keys_iff]
      rfl
    rw [hkeys]
  · rw [has_mergeGrave, ha.grave, hb.grave, Set.mem_union]

end Represents

/-! ### The walk -/

/-- The chains part: everything below the first is displayed above everything below the second. -/
def Parts (c c' : List ℕ) : Prop := ∀ x y, Above (c ++ x) (c' ++ y)

theorem Parts.incomparable {c c' d : List ℕ} (h : Parts c c') (hc : c <+: d) : ¬ c' <+: d := by
  rintro ⟨y, hy⟩
  obtain ⟨x, rfl⟩ := hc
  have := h x y
  rw [hy] at this
  exact above_irrefl _ this

/-- The ids of `I` and their anchors form a forest with the chains `χ`: the anchor of an id is a smaller
id, and its chain, extended by the id, is the chain of the id. -/
structure Forest (χ : ℕ → List ℕ) (anchor : ℕ → Option ℕ) (I : Set ℕ) : Prop where
  /-- The chain of an id. -/
  chain : ∀ id ∈ I, χ id = anchorChain χ (anchor id) ++ [id]
  /-- The anchor of an id. -/
  anchored : ∀ id ∈ I, ∀ a, anchor id = some a → a ∈ I ∧ a < id

namespace Forest

variable {χ : ℕ → List ℕ} {anchor : ℕ → Option ℕ} {I : Set ℕ}

theorem injOn (h : Forest χ anchor I) : Set.InjOn χ I := by
  intro i hi j hj hij
  rw [h.chain i hi, h.chain j hj] at hij
  exact List.singleton_inj.mp (List.append_inj' hij rfl).2

/-- Every prefix of a chain is the chain of its last id. -/
theorem prefix_eq (h : Forest χ anchor I) {id : ℕ} (hid : id ∈ I) {p : List ℕ} {a : ℕ}
    (hp : p ++ [a] <+: χ id) : a ∈ I ∧ χ a = p ++ [a] := by
  -- Induction on the id: the anchor of an id is smaller.
  induction id using Nat.strong_induction_on with
  | _ id ih =>
    have hchain := h.chain id hid
    rw [hchain] at hp
    rcases List.prefix_concat_iff.mp hp with heq | hpre
    · obtain ⟨hpa, ha⟩ := List.append_inj' heq rfl
      rw [List.singleton_inj] at ha
      exact ⟨ha ▸ hid, by rw [ha, hchain, hpa]⟩
    · cases hb : anchor id with
      | none => simp [hb, anchorChain] at hpre
      | some b =>
        obtain ⟨hbI, hlt⟩ := h.anchored id hid b hb
        rw [hb] at hpre
        exact ih b hlt hbI hpre

/-- The ids of a chain are at most its last id. -/
theorem le_of_mem_chain (h : Forest χ anchor I) {id : ℕ} (hid : id ∈ I) {a : ℕ} (ha : a ∈ χ id) :
    a ≤ id := by
  induction id using Nat.strong_induction_on with
  | _ id ih =>
    rw [h.chain id hid, List.mem_append, List.mem_singleton] at ha
    rcases ha with ha | ha
    · cases hb : anchor id with
      | none => simp [hb, anchorChain] at ha
      | some b =>
        obtain ⟨hbI, hlt⟩ := h.anchored id hid b hb
        rw [hb] at ha
        exact (ih b hlt hbI ha).trans hlt.le
    · exact ha.le

end Forest

section Walk

variable {χ : ℕ → List ℕ} {anchor : ℕ → Option ℕ} {I : Set ℕ} {adds : SortedMap ℕ (Added α)}
  (hforest : Forest χ anchor I)
  (hadds : ∀ id a, (∃ r, adds.get? id = some r ∧ r.anchorId = a) ↔ id ∈ I ∧ anchor id = a)

include hadds in
theorem mem_keys_iff_mem {id : ℕ} : id ∈ adds.keys ↔ id ∈ I := by
  rw [SortedMap.mem_keys_iff]
  constructor
  · rintro ⟨r, hr⟩
    exact ((hadds id _).mp ⟨r, hr, rfl⟩).1
  · intro hid
    obtain ⟨r, hr, -⟩ := (hadds id _).mpr ⟨hid, rfl⟩
    exact ⟨r, hr⟩

include hadds in
theorem mem_children_iff {a : Option ℕ} {id : ℕ} :
    id ∈ children adds a ↔ id ∈ I ∧ anchor id = a := by
  rw [children, List.mem_insertionSort, ← hadds]
  simp only [List.mem_map, List.mem_filter, decide_eq_true_eq, Prod.exists, exists_and_right,
    exists_eq_right, SortedMap.mem_entries_iff]

theorem pairwise_children (a : Option ℕ) : (children adds a).Pairwise (fun i j => j < i) := by
  have hnodup : (children adds a).Nodup := by
    refine (List.perm_insertionSort _ _).nodup_iff.mpr ?_
    have hsub : ((adds.entries.filter fun e => e.2.anchorId = a).map Prod.fst).Sublist adds.keys :=
      List.filter_sublist.map Prod.fst
    exact hsub.nodup adds.nodup_keys
  have hsorted : (children adds a).Pairwise fun i j => j ≤ i := by
    have htotal : Std.Total fun i j : ℕ => j ≤ i := ⟨fun i j => le_total j i⟩
    have htrans : IsTrans ℕ fun i j => j ≤ i := ⟨fun _ _ _ h h' => h'.trans h⟩
    exact List.pairwise_insertionSort _ _
  exact (hsorted.and hnodup).imp fun h => lt_of_le_of_ne h.1 (Ne.symm h.2)

include hforest hadds

/-- The ids below an id are the id itself and those below its children. -/
theorem prefix_iff_children {a : Option ℕ} (ha : ∀ b, a = some b → b ∈ I) {id : ℕ} (hid : id ∈ I) :
    anchorChain χ a <+: χ id ↔ a = some id ∨ ∃ c ∈ children adds a, χ c <+: χ id := by
  constructor
  · rintro ⟨d, hd⟩
    cases d with
    | nil =>
      left
      cases a with
      | none =>
        rw [List.append_nil, hforest.chain id hid] at hd
        simp [anchorChain] at hd
      | some b =>
        rw [List.append_nil] at hd
        exact congrArg some (hforest.injOn (ha b rfl) hid hd)
    | cons c d =>
      have hpre : anchorChain χ a ++ [c] <+: χ id := ⟨d, by simpa using hd⟩
      obtain ⟨hc, hχc⟩ := hforest.prefix_eq hid hpre
      refine Or.inr ⟨c, (mem_children_iff hadds).mpr ⟨hc, ?_⟩, hχc ▸ hpre⟩
      -- The chain of the anchor of `c` is that of `a`.
      have heq : anchorChain χ (anchor c) = anchorChain χ a :=
        (List.append_inj' ((hforest.chain c hc).symm.trans hχc) rfl).1
      cases hb : anchor c with
      | none =>
        cases a with
        | none => rfl
        | some b =>
          rw [hb, anchorChain, anchorChain, hforest.chain b (ha b rfl)] at heq
          simp at heq
      | some b =>
        have hbI := (hforest.anchored c hc b hb).1
        cases a with
        | none =>
          rw [hb, anchorChain, anchorChain, hforest.chain b hbI] at heq
          simp at heq
        | some b' =>
          rw [hb, anchorChain, anchorChain] at heq
          rw [hforest.injOn hbI (ha b' rfl) heq]
  · rintro (rfl | ⟨c, hc, hpre⟩)
    · exact List.prefix_refl _
    · obtain ⟨hcI, hca⟩ := (mem_children_iff hadds).mp hc
      rw [hforest.chain c hcI, hca] at hpre
      exact (List.prefix_append _ _).trans hpre

/-- The ids of `adds` below a member of the stack. -/
def covered (χ : ℕ → List ℕ) (adds : SortedMap ℕ (Added α)) (stack : List ℕ) : List ℕ :=
  adds.keys.filter fun id => ∃ s ∈ stack, χ s <+: χ id

/-- **The walk** lists the ids below the stack, each above the later ones. -/
theorem walk_spec (n : ℕ) (stack : List ℕ) (hstack : ∀ s ∈ stack, s ∈ I)
    (hparts : stack.Pairwise fun i j => Parts (χ i) (χ j))
    (hfuel : (covered χ adds stack).length ≤ n) :
    (walk adds n stack).Pairwise (fun i j => Above (χ i) (χ j)) ∧
      ∀ id, id ∈ walk adds n stack ↔ id ∈ I ∧ ∃ s ∈ stack, χ s <+: χ id := by
  have hcovered (stack : List ℕ) (id : ℕ) :
      id ∈ covered χ adds stack ↔ id ∈ I ∧ ∃ s ∈ stack, χ s <+: χ id := by
    rw [covered, List.mem_filter, mem_keys_iff_mem hadds, decide_eq_true_eq]
  induction n generalizing stack with
  | zero =>
    have hnil := List.length_eq_zero_iff.mp (Nat.le_zero.mp hfuel)
    refine ⟨List.Pairwise.nil, fun id => ?_⟩
    rw [← hcovered, hnil]
    rfl
  | succ n ih =>
    cases stack with
    | nil => simp [walk]
    | cons x stack =>
      obtain ⟨hx, hparts'⟩ := List.pairwise_cons.mp hparts
      have hxI := hstack x List.mem_cons_self
      have hchild (c : ℕ) (hc : c ∈ children adds (some x)) : c ∈ I ∧ χ c = χ x ++ [c] := by
        obtain ⟨hcI, hca⟩ := (mem_children_iff hadds).mp hc
        exact ⟨hcI, by rw [hforest.chain c hcI, hca]; rfl⟩
      -- Below the new stack lie the ids below the old one, except the popped id.
      have hbelow (id : ℕ) (hid : id ∈ I) :
          (∃ s ∈ children adds (some x) ++ stack, χ s <+: χ id) ↔
            id ≠ x ∧ ∃ s ∈ x :: stack, χ s <+: χ id := by
        have hsplit := prefix_iff_children hforest hadds (a := some x)
          (fun b hb => Option.some.inj hb ▸ hxI) hid
        rw [anchorChain, Option.some.injEq] at hsplit
        simp only [List.mem_append, or_and_right, exists_or, List.mem_cons, exists_eq_left, hsplit]
        constructor
        · rintro (⟨c, hc, hpre⟩ | ⟨s, hs, hpre⟩)
          · refine ⟨?_, Or.inl (Or.inr ⟨c, hc, hpre⟩)⟩
            rintro rfl
            have := hpre.length_le
            rw [(hchild c hc).2, List.length_append, List.length_singleton] at this
            omega
          · refine ⟨?_, Or.inr ⟨s, hs, hpre⟩⟩
            rintro rfl
            exact (hx s hs).incomparable (List.prefix_refl _) hpre
        · rintro ⟨hne, (heq | hc) | hs⟩
          · exact absurd heq.symm hne
          · exact Or.inl hc
          · exact Or.inr hs
      have hstack' : ∀ s ∈ children adds (some x) ++ stack, s ∈ I := by
        intro s hs
        rcases List.mem_append.mp hs with hs | hs
        · exact (hchild s hs).1
        · exact hstack s (List.mem_cons_of_mem _ hs)
      have hpartsNew : (children adds (some x) ++ stack).Pairwise fun i j => Parts (χ i) (χ j) := by
        refine List.pairwise_append.mpr ⟨?_, hparts', fun c hc s hs y z => ?_⟩
        · refine List.Pairwise.imp_of_mem (fun {i j} hi hj hlt y z => ?_)
            (pairwise_children (some x))
          rw [(hchild i hi).2, (hchild j hj).2, List.append_assoc, List.append_assoc]
          exact above_of_lt (χ x) hlt y z
        · rw [(hchild c hc).2, List.append_assoc]
          exact hx s hs ([c] ++ y) z
      have hlt : (covered χ adds (children adds (some x) ++ stack)).length ≤ n := by
        have hsub : covered χ adds (children adds (some x) ++ stack) ⊆
            (covered χ adds (x :: stack)).erase x := by
          intro id hid
          obtain ⟨hidI, hs⟩ := (hcovered _ id).mp hid
          obtain ⟨hne, hs'⟩ := (hbelow id hidI).mp hs
          exact (List.mem_erase_of_ne hne).mpr ((hcovered _ id).mpr ⟨hidI, hs'⟩)
        have hnodup : (covered χ adds (children adds (some x) ++ stack)).Nodup :=
          adds.nodup_keys.filter _
        have hmem : x ∈ covered χ adds (x :: stack) :=
          (hcovered _ x).mpr ⟨hxI, x, List.mem_cons_self, List.prefix_refl _⟩
        have hle := (hnodup.subperm hsub).length_le
        rw [List.length_erase_of_mem hmem] at hle
        omega
      obtain ⟨hpair, hmem⟩ := ih _ hstack' hpartsNew hlt
      refine ⟨List.pairwise_cons.mpr ⟨fun id hid => ?_, hpair⟩, fun id => ?_⟩
      · obtain ⟨hidI, s, hs, d, hd⟩ := (hmem id).mp hid
        rw [← hd]
        rcases List.mem_append.mp hs with hs | hs
        · rw [(hchild s hs).2, List.append_assoc]
          exact above_append_of_ne_nil _ (by simp)
        · simpa using hx s hs [] d
      · rw [walk, List.mem_cons, hmem]
        constructor
        · rintro (rfl | ⟨hidI, hs⟩)
          · exact ⟨hxI, id, List.mem_cons_self, List.prefix_refl _⟩
          · exact ⟨hidI, ((hbelow id hidI).mp hs).2⟩
        · rintro ⟨hidI, hs⟩
          by_cases heq : id = x
          · exact Or.inl heq
          · exact Or.inr ⟨hidI, (hbelow id hidI).mpr ⟨heq, hs⟩⟩

/-- **The display order of the walk** is the display order of the chains, and every inserted id is
reached. -/
theorem orderedIds_spec : ∃ out, orderedIds adds = .ok out ∧
    out.Pairwise (fun i j => Above (χ i) (χ j)) ∧ ∀ id, id ∈ out ↔ id ∈ I := by
  have hchild (c : ℕ) (hc : c ∈ children adds none) : c ∈ I ∧ χ c = [c] := by
    obtain ⟨hcI, hca⟩ := (mem_children_iff hadds).mp hc
    exact ⟨hcI, by rw [hforest.chain c hcI, hca]; rfl⟩
  have hparts : (children adds none).Pairwise fun i j => Parts (χ i) (χ j) := by
    refine List.Pairwise.imp_of_mem (fun {i j} hi hj hlt y z => ?_) (pairwise_children none)
    rw [(hchild i hi).2, (hchild j hj).2]
    exact above_of_lt [] hlt y z
  obtain ⟨hpair, hmem⟩ := walk_spec hforest hadds adds.size (children adds none)
    (fun s hs => (hchild s hs).1) hparts
    ((List.length_filter_le _ _).trans (List.length_map ..).le)
  have hmem' : ∀ id, id ∈ walk adds adds.size (children adds none) ↔ id ∈ I := by
    intro id
    rw [hmem]
    refine and_iff_left_of_imp fun hid => ?_
    have := prefix_iff_children hforest hadds (a := none) (by simp) hid
    simpa [anchorChain] using this
  have hnodup : (walk adds adds.size (children adds none)).Nodup := by
    refine List.Pairwise.imp (fun {i j} hij heq => ?_) hpair
    subst heq
    exact above_irrefl _ hij
  have hperm : (walk adds adds.size (children adds none)).Perm adds.keys :=
    (List.perm_ext_iff_of_nodup hnodup adds.nodup_keys).mpr fun id => by
      rw [hmem', mem_keys_iff_mem hadds]
  have hlen : (walk adds adds.size (children adds none)).length = adds.size := by
    rw [hperm.length_eq, SortedMap.keys, List.length_map, SortedMap.size]
  exact ⟨_, by rw [orderedIds, if_neg (by rw [hlen]; simp)], hpair, hmem'⟩

end Walk

/-- The chains of represented insertions form a forest. -/
theorem Represents.forest {χ : ℕ → List ℕ} {ε : ℕ → α} {U : Set (SeqOp α)} {I D : Set ℕ} {s : State α}
    (_h : Represents χ ε I D s) (hU : Births χ ε U) (hI : I ⊆ inserted U)
    (hclosed : ∀ id ∈ I, ∀ p a, p ++ [a] <+: χ id → a ∈ I) : Forest χ (anchorOf χ) I := by
  have hchain (id : ℕ) (hid : id ∈ I) : χ id = anchorChain χ (anchorOf χ id) ++ [id] ∧
      ∀ a, anchorOf χ id = some a → a ∈ I ∧ a < id := by
    obtain ⟨el, b, hmem⟩ := hI hid
    have hchain := hU.chain id el b hmem
    have hb : anchorOf χ id = b := by
      rw [anchorOf, hchain, List.dropLast_concat]
      cases b with
      | none => rfl
      | some b =>
        obtain ⟨p, hp⟩ := hU.chain_eq (hU.anchored id el b hmem)
        rw [anchorChain, hp, List.getLast?_concat]
    rw [hb]
    refine ⟨hchain, ?_⟩
    rintro a rfl
    obtain ⟨p, hp⟩ := hU.chain_eq (hU.anchored id el a hmem)
    refine ⟨hclosed id hid p a ?_, hU.anchor_lt hmem⟩
    rw [hchain, anchorChain, hp]
    exact List.prefix_append _ _
  exact ⟨fun id hid => (hchain id hid).1, fun id hid => (hchain id hid).2⟩

/-- **The read** lists the inserted ids without a grave, in the display order of their chains. -/
theorem Represents.readIds_spec {χ : ℕ → List ℕ} {ε : ℕ → α} {U : Set (SeqOp α)} {I D : Set ℕ}
    {s : State α} (h : Represents χ ε I D s) (hU : Births χ ε U) (hI : I ⊆ inserted U)
    (hclosed : ∀ id ∈ I, ∀ p a, p ++ [a] <+: χ id → a ∈ I) :
    ∃ ids, readIds s = .ok ids ∧ ids.Pairwise (fun i j => Above (χ i) (χ j)) ∧
      (∀ id, id ∈ ids ↔ id ∈ I \ D) ∧ read s = .ok (ids.map ε) := by
  have hadds (id : ℕ) (a : Option ℕ) :
      (∃ r, s.adds.get? id = some r ∧ r.anchorId = a) ↔ id ∈ I ∧ anchorOf χ id = a := by
    simp only [h.adds]
    constructor
    · rintro ⟨_, ⟨hid, rfl⟩, ha⟩
      exact ⟨hid, ha⟩
    · rintro ⟨hid, ha⟩
      exact ⟨_, ⟨hid, rfl⟩, ha⟩
  obtain ⟨out, hout, hpair, hmem⟩ := orderedIds_spec (h.forest hU hI hclosed) hadds
  set es := out.filterMap fun id =>
    if s.grave.has id then none else (s.adds.get? id).map (id, ·) with hes
  have hentries : readEntries s = .ok es := by
    rw [readEntries, h.order]
    simp only [hout, bind, Except.bind, pure, Except.pure, ← hes]
  have hentry (id : ℕ) (hid : id ∈ I) : s.adds.get? id = some ⟨anchorOf χ id, ε id⟩ :=
    (h.adds id _).mpr ⟨hid, rfl⟩
  have hfilter (l : List ℕ) (hl : ∀ id ∈ l, id ∈ I) : (l.filterMap fun id =>
      if s.grave.has id then none else (s.adds.get? id).map (id, ·)) =
        (l.filter fun id => !s.grave.has id).map fun id =>
          (id, (⟨anchorOf χ id, ε id⟩ : Added α)) := by
    induction l with
    | nil => rfl
    | cons id l ih =>
      have hid := hentry id (hl id List.mem_cons_self)
      have ih := ih fun i hi => hl i (List.mem_cons_of_mem _ hi)
      rw [List.filterMap_cons, List.filter_cons, ih]
      cases s.grave.has id
      · simp [hid]
      · simp
  have hlist := hes.trans (hfilter out fun id hid => (hmem id).mp hid)
  have hids : es.map Prod.fst = out.filter fun id => !s.grave.has id := by
    rw [hlist, List.map_map]
    exact List.map_id _
  refine ⟨es.map Prod.fst, by rw [readIds, hentries]; rfl, ?_, fun id => ?_, ?_⟩
  · rw [hids]
    exact hpair.filter _
  · rw [hids, List.mem_filter, hmem, Bool.not_eq_true', ← Bool.not_eq_true, h.grave]
    rfl
  · rw [read, hentries, hlist]
    simp only [bind, Except.bind, pure, Except.pure, List.map_map, Function.comp_def]

/-- Without elements there is no insertion. -/
theorem readIds_of_isEmpty [IsEmpty α] (s : State α) : readIds s = .ok [] := by
  have hnil : s.adds.entries = [] :=
    List.eq_nil_iff_forall_not_mem.mpr fun e _ => isEmptyElim e.2.el
  have hget (id : ℕ) : s.adds.get? id = none := by
    rw [Option.eq_none_iff_forall_ne_some]
    exact fun r _ => isEmptyElim r.el
  have horder : orderedIds s.adds = .ok [] := by
    simp [orderedIds, children, SortedMap.size, hnil, walk]
  rw [readIds, readEntries]
  cases s.order with
  | some order => simp [hget, bind, Except.bind, pure, Except.pure]
  | none => simp [horder, bind, Except.bind, pure, Except.pure]

end Rga

end SalRuntime
