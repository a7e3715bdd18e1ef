import Mathlib.Logic.Equiv.List
import Mathlib.Tactic.DeriveCountable
import SalRuntime.Replica.JoinStates

/-!
# Operations with times

The mint stamps every operation: an insertion gets the time as its id, a mark operation as its mark
id, and a deletion carries it as evidence for the clocks of its receivers. What a datatype has to do
with its ids for this to work is that a state holds no id but those that operations gave it.

## Main definitions

* `Timed` — an operation with the field `time`.
* `Dated`, `timed` — a datatype whose states hold ids, and the datatype over operations with times.
* `Dated.operationTime`, `Dated.stampOperation` — the time of an operation, and stamping one.
* `Dated.Below` — every id of a state is smaller than a bound.

## Main results

* `Dated.closed_below` — bounds survive merging, translating and compacting.
* `Dated.yields_applyOps` — operations with times below the bound keep it.
-/

namespace SalRuntime

/-- An operation with the field `time`, which only deletions use. -/
structure Timed (ω : Type) where
  /-- The operation. -/
  op : ω
  /-- The field `time`. -/
  time : Option ℕ := none
  deriving DecidableEq, Repr, Countable

/-- A datatype whose operations give ids and whose states hold them. -/
structure Dated (D : Datatype) where
  /-- The id that an insertion or a mark operation gives; none for a deletion. -/
  opId : D.Op → Option ℕ
  /-- The operation with another id. -/
  withId : ℕ → D.Op → D.Op
  /-- The ids of the characters and marks in a state. -/
  ids : D.State → List ℕ
  /-- The id is replaced. -/
  opId_withId : ∀ {op id}, (opId op).isSome = true → opId (withId id op) = some id
  /-- The initial state holds no id. -/
  init : ids D.init = []
  /-- Applying an operation. -/
  apply : ∀ s op, Yields (fun s' => ∀ i ∈ ids s', i ∈ ids s ∨ opId op = some i) (D.apply s op)
  /-- Applying a batch. -/
  applyBatch : ∀ {applyBatch}, D.applyBatch = some applyBatch → ∀ s ops,
    Yields (fun s' => ∀ i ∈ ids s', i ∈ ids s ∨ ∃ op ∈ ops, opId op = some i) (applyBatch s ops)
  /-- Preparing an operation keeps its id. -/
  prepare : ∀ {prepare}, D.prepare = some prepare → ∀ s op,
    Yields (fun op' => opId op' = opId op) (prepare s op)
  /-- Merging. -/
  merge3 : ∀ l a b, Yields (fun s => ∀ i ∈ ids s, i ∈ ids l ∨ i ∈ ids a ∨ i ∈ ids b) (D.merge3 l a b)
  /-- Translating. -/
  remapState : ∀ {remapState}, D.remapState = some remapState → ∀ s m,
    Yields (fun s' => ids s' ⊆ ids s) (remapState s m)
  /-- Compacting. -/
  compact : ∀ {compact}, D.compact = some compact → ∀ s cut opts,
    Yields (fun res => ids res.state ⊆ ids s) (compact s cut opts)

/-- The datatype over operations with times, which do not matter to it. -/
@[reducible] def timed (D : Datatype) : Datatype :=
  { D with
    Op := Timed D.Op
    prepare := D.prepare.map fun prepare s t => do return { t with op := ← prepare s t.op }
    apply := fun s t => D.apply s t.op
    applyBatch := D.applyBatch.map fun applyBatch s ts => applyBatch s (ts.map Timed.op)
    insId := fun t => D.insId t.op
    cutFromMeet := D.cutFromMeet.map fun cutFromMeet ts => cutFromMeet (ts.map Timed.op) }

namespace Dated

variable {D : Datatype} (M : Dated D)

/-- The time that an operation stands for: its id, or the field of a deletion. -/
def operationTime (t : Timed D.Op) : Option ℕ := (M.opId t.op).or t.time

/-- Stamp an operation. -/
def stampOperation (time : ℕ) (t : Timed D.Op) : Timed D.Op :=
  if (M.opId t.op).isSome then { t with op := M.withId time t.op } else { t with time := some time }

/-- A stamped operation stands for its time. -/
theorem operationTime_stampOperation (time : ℕ) (t : Timed D.Op) :
    M.operationTime (M.stampOperation time t) = some time := by
  rw [stampOperation, operationTime]
  split_ifs with hid
  · rw [M.opId_withId hid, Option.some_or]
  · rw [Bool.not_eq_true, Option.isSome_eq_false_iff, Option.isNone_iff_eq_none] at hid
    rw [hid, Option.none_or]

theorem operationTime_of_opId {t : Timed D.Op} {i : ℕ} (h : M.opId t.op = some i) :
    M.operationTime t = some i := by
  rw [operationTime, h, Option.some_or]

/-- Preparing an operation keeps its time. -/
theorem yields_prepared (s : D.State) (t : Timed D.Op) :
    Yields (fun t' => M.operationTime t' = M.operationTime t) ((timed D).prepared s t) := by
  rw [Datatype.prepared]
  cases hprepare : D.prepare with
  | none =>
    have htimed : (timed D).prepare = none := congrArg (Option.map _) hprepare
    rw [htimed]
    exact .ok rfl
  | some prepare =>
    have htimed : (timed D).prepare = some fun s t => do return { t with op := ← prepare s t.op } :=
      congrArg (Option.map _) hprepare
    rw [htimed]
    refine .bind fun op hop => .ok ?_
    rw [operationTime, operationTime, M.prepare hprepare s t.op op hop]

/-- Every id of the state is smaller than `n`. -/
def Below (n : ℕ) (s : (timed D).State) : Prop := ∀ i ∈ M.ids s, i < n

instance decidableBelow (n : ℕ) (s : (timed D).State) : Decidable (M.Below n s) :=
  inferInstanceAs (Decidable (∀ i ∈ M.ids s, i < n))

variable {M}

theorem Below.mono {n n' : ℕ} {s : (timed D).State} (h : M.Below n s) (hle : n ≤ n') : M.Below n' s :=
  fun i hi => (h i hi).trans_le hle

variable (M) in
/-- **Bounds survive merging, translating and compacting.** -/
theorem closed_below (n : ℕ) : (timed D).Closed (M.Below n) where
  init i hi := by
    have hnil : M.ids D.init = [] := M.init
    rw [show M.ids (timed D).init = [] from hnil] at hi
    cases hi
  merge3 {l a b} hl ha hb s hs i hi := by
    rcases M.merge3 l a b s hs i hi with hi | hi | hi
    · exact hl i hi
    · exact ha i hi
    · exact hb i hi
  remap {s} m h s' hs' i hi := by
    rw [Datatype.remap] at hs'
    split at hs'
    · rename_i remapState hremap
      exact h i (M.remapState hremap s m s' hs' hi)
    · cases hs'
  compact hcompact s cut opts h res hres i hi := h i (M.compact hcompact s cut opts res hres hi)

/-- The times of the operations are smaller than `n`. -/
def Earlier (M : Dated D) (n : ℕ) (payload : Payload (Timed D.Op)) : Prop :=
  ∀ op ∈ payload.ops, ∀ t ∈ M.operationTime op, t < n

/-- **Operations keep the bound** if their times are below it. -/
theorem yields_applyOps {n : ℕ} {payload : Payload (Timed D.Op)} (hpayload : M.Earlier n payload)
    {s : (timed D).State} (hs : M.Below n s) :
    Yields (M.Below n) (Replica.applyOps (timed D) s payload) := by
  have hone {t : Timed D.Op} (ht : ∀ time ∈ M.operationTime t, time < n) {s : (timed D).State}
      (hs : M.Below n s) : Yields (M.Below n) ((timed D).apply s t) := by
    intro s' hs' i hi
    rcases M.apply s t.op s' hs' i hi with hi | hi
    · exact hs i hi
    · exact ht i (M.operationTime_of_opId hi)
  cases payload with
  | one t => exact hone (hpayload t List.mem_cons_self) hs
  | many ts =>
    rw [Replica.applyOps]
    cases hbatch : D.applyBatch with
    | some applyBatch =>
      have htimed : (timed D).applyBatch = some fun s ts => applyBatch s (ts.map Timed.op) :=
        congrArg (Option.map _) hbatch
      rw [htimed]
      intro s' hs' i hi
      rcases M.applyBatch hbatch s (ts.map Timed.op) s' hs' i hi with hi | ⟨op, hop, hi⟩
      · exact hs i hi
      · obtain ⟨t, ht, rfl⟩ := List.mem_map.mp hop
        exact hpayload t ht i (M.operationTime_of_opId hi)
    | none =>
      have htimed : (timed D).applyBatch = none := congrArg (Option.map _) hbatch
      rw [htimed]
      exact .foldlM hone hpayload hs

/-- Operations that were prepared one after the other from a state, and the state after them. -/
structure PreparedFrom (M : Dated D) (s : (timed D).State) (ops prepared : List (Timed D.Op))
    (state : (timed D).State) : Prop where
  /-- The times are the same. -/
  times : prepared.map M.operationTime = ops.map M.operationTime
  /-- The bounds are kept. -/
  below : ∀ {n}, M.Below n s → M.Earlier n (.many prepared) → M.Below n state

theorem PreparedFrom.exists_of_mem {s state : (timed D).State} {ops prepared : List (Timed D.Op)}
    (h : M.PreparedFrom s ops prepared state) {t : Timed D.Op} (ht : t ∈ prepared) :
    ∃ op ∈ ops, M.operationTime op = M.operationTime t := by
  have hmem := List.mem_map_of_mem (f := M.operationTime) ht
  rw [h.times] at hmem
  exact List.mem_map.mp hmem

variable (M) in
/-- **Preparing operations one after the other** keeps their times. -/
theorem yields_prepareEach (s : (timed D).State) (ops : List (Timed D.Op)) :
    Yields (fun res => M.PreparedFrom s ops res.1 res.2)
      (Replica.prepareEach (timed D) s ops) := by
  induction ops generalizing s with
  | nil => exact .ok ⟨rfl, fun hs _ => hs⟩
  | cons op ops ih =>
    refine .bind fun prepared hprepared => .bind fun s' hs' => .bind fun res hres => .ok ?_
    have hrest := ih s' res hres
    refine ⟨?_, fun {n} hs hearlier => ?_⟩
    · rw [List.map_cons, List.map_cons, hrest.times, M.yields_prepared s op prepared hprepared]
    · obtain ⟨hone, hmany⟩ := List.forall_mem_cons.mp hearlier
      refine hrest.below ?_ hmany
      have hfirst : M.Earlier n (.one prepared) := fun t ht => List.mem_singleton.mp ht ▸ hone
      exact M.yields_applyOps hfirst hs s' hs'

end Dated

end SalRuntime
