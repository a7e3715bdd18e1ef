import SalRuntime.Datatypes.Rga
import SalRuntime.Datatypes.RichConvergence
import SalRuntime.Foundations.Effect

/-!
# Batches of operations

The datatypes apply a list of operations in one pass: over a transient copy, and the rich text
component by component, so that its insertions come after its deletions and marks. What this
computes is the fold of the single applications, for lists of any operations: they may be refused, and
their type may be one that the datatype does not know.

## Main definitions

* `rgaKernel`, `peritextRGA` — rich text over the tombstone RGA.
* `RawOp`, `RawOp.apply` — an operation as a caller may pass it.
* `SameOutcome` — two computations fail both, or return results alike.
* `Datatype.Reaches` — the states that the operations of a datatype reach.

## Main results

* `EmbedRGA.sameOutcome_applyBatchRaw`, `Rga.sameOutcome_applyBatchRaw`,
  `Peritext.sameOutcome_applyBatchRaw` — batches and folds have the same outcome.
-/

namespace SalRuntime

variable {α β μ σ ι ε : Type}

/-! ### Rich text over the tombstone RGA -/

namespace Rga

/-- The canonical serialization: the insertions and the graves. -/
def fingerprint (s : State α) : List (ℕ × Option ℕ × α) × List ℕ :=
  (s.adds.entries.map fun e => (e.1, e.2.anchorId, e.2.el), s.grave.keys)

/-- Is an id inserted and without a grave? -/
def has (s : State α) (id : ℕ) : Bool := s.adds.has id && !s.grave.has id

/-- Check the place of an encoded insertion. -/
def checkEncoded (e : ℕ × Option ℕ × α) : Except Failure Unit :=
  if e.1 < 1 ∨ ∃ a ∈ e.2.1, a < 1 ∨ e.1 ≤ a then
    .error (.error s!"invalid RGA anchor encoding at {e.1}")
  else .ok ()

/-- The state of a serialization. -/
def decodeState (enc : List (ℕ × Option ℕ × α) × List ℕ) : Except Failure (State α) := do
  enc.1.forM checkEncoded
  let adds := SortedMap.ofList (enc.1.map fun e => (e.1, (⟨e.2.1, e.2.2⟩ : Added α)))
  let grave := SortedMap.ofList (enc.2.map fun id => (id, ()))
  let _ ← orderedIds adds
  match grave.keys.find? fun id => !adds.has id with
  | some id => throw (.error s!"RGA tombstone {id} has no insertion")
  | none => return { adds, grave, order := none }

/-- Prepare an insertion. -/
def prepareIns (s : State α) (i : Insertion α) : Except Failure (Insertion α) := do
  return { i with anchorId := ← checkInsert s i.id i.anchorId }

end Rga

/-- The tombstone RGA as a kernel. -/
@[reducible] def rgaKernel (α : Type) [DecidableEq α] : TextKernel α where
  State := Rga.State α
  Ins := Insertion α
  Print := List (ℕ × Option ℕ × α) × List ℕ
  printDecEq := inferInstance
  Wire := List (ℕ × Option ℕ × α) × List ℕ
  insId := Insertion.id
  init := Rga.init
  prepare := some Rga.prepareIns
  needsPrepare := true
  apply s i := Rga.apply s i.op
  applyBatch s is := Rga.applyBatch s (is.map Insertion.op)
  merge3 := Rga.merge3
  readEntries s := (Rga.readEntries s).map (List.map fun e => (e.1, e.2.el))
  has := Rga.has
  fingerprint := Rga.fingerprint
  encodeState := Rga.fingerprint
  decodeState := Rga.decodeState

/-- Rich text over the tombstone RGA. -/
@[reducible] def peritextRGA (α μ β : Type) [DecidableEq α] [LinearOrder μ] [DecidableEq β] :
    Datatype :=
  makePeritext (rgaKernel α) μ β

/-! ### Outcomes -/

/-- Both computations fail, or what they return is related. -/
def SameOutcome (R : σ → σ → Prop) : Except ε σ → Except ε σ → Prop
  | .ok s, .ok t => R s t
  | .error _, .error _ => True
  | _, _ => False

theorem SameOutcome.refl (x : Except ε σ) : SameOutcome Eq x x := by
  cases x with
  | error e => exact trivial
  | ok s => exact rfl

theorem SameOutcome.imp {R S : σ → σ → Prop} {x y : Except ε σ} (h : SameOutcome R x y)
    (hRS : ∀ s t, R s t → S s t) : SameOutcome S x y := by
  cases x with
  | error e =>
    cases y with
    | error e' => exact trivial
    | ok t => exact h
  | ok s =>
    cases y with
    | error e' => exact h
    | ok t => exact hRS s t h

/-- A computation that returns has the outcome of any other that does. -/
theorem SameOutcome.eq_ok {x y : Except ε σ} (h : SameOutcome Eq x y) {t : σ} (hy : y = .ok t) :
    x = .ok t := by
  subst hy
  cases x with
  | error e => exact h.elim
  | ok s => rw [show s = t from h]

theorem SameOutcome.exists_error {x y : Except ε σ} (h : SameOutcome Eq x y) {e : ε}
    (hy : y = .error e) : ∃ e', x = .error e' := by
  subst hy
  cases x with
  | error e' => exact ⟨e', rfl⟩
  | ok s => exact h.elim

/-! ### Operations of any type -/

/-- An operation as a caller may pass it: one of the datatype, or one of another type. -/
inductive RawOp (ι : Type)
  /-- An operation of the datatype. -/
  | known (op : ι)
  /-- An operation of another type. -/
  | unknown (type : String)
  deriving DecidableEq, Repr

namespace RawOp

/-- Apply an operation. Other types are refused with the text `refusal`. -/
def apply (refusal : String → String) (apply : σ → ι → Except Failure σ) (s : σ) :
    RawOp ι → Except Failure σ
  | .known op => apply s op
  | .unknown type => .error (.error (refusal type))

/-- The operations before the first one of another type. -/
def front : List (RawOp ι) → List ι
  | [] => []
  | .known op :: ops => op :: front ops
  | .unknown _ :: _ => []

/-- The first other type. -/
def stranger : List (RawOp ι) → Option String
  | [] => none
  | .known _ :: ops => stranger ops
  | .unknown type :: _ => some type

/-- Refuse the first other type. -/
def finish (refusal : String → String) (ops : List (RawOp ι)) (s : σ) : Except Failure σ :=
  match stranger ops with
  | none => .ok s
  | some type => .error (.error (refusal type))

/-- Folding applies the operations before the first one of another type, and refuses this one. -/
theorem foldlM_apply (refusal : String → String) (f : σ → ι → Except Failure σ)
    (ops : List (RawOp ι)) (s : σ) :
    ops.foldlM (RawOp.apply refusal f) s = (front ops).foldlM f s >>= finish refusal ops := by
  induction ops generalizing s with
  | nil => rfl
  | cons op ops ih =>
    cases op with
    | known op =>
      rw [front, List.foldlM_cons, List.foldlM_cons, bind_assoc]
      exact congrArg _ (funext ih)
    | unknown type => rfl

end RawOp

theorem SameOutcome.bind_finish {R : σ → σ → Prop} {x y : Except Failure σ} (h : SameOutcome R x y)
    (refusal : String → String) (ops : List (RawOp ι)) :
    SameOutcome R (x >>= RawOp.finish refusal ops) (y >>= RawOp.finish refusal ops) := by
  cases x with
  | error e =>
    cases y with
    | error e' => exact trivial
    | ok t => exact h.elim
  | ok s =>
    cases y with
    | error e' => exact h.elim
    | ok t =>
      simp only [bind, Except.bind, RawOp.finish]
      cases RawOp.stranger ops with
      | none => exact h
      | some type => exact trivial

/-! ### The three datatypes -/

namespace EmbedRGA

/-- The refusal of an operation of another type. -/
def refusal (type : String) : String := s!"unknown embedRGA op type: {type}"

/-- The batch of operations of any type, which stops at the first one of another type. -/
def applyBatchRaw (s : State α) (ops : List (RawOp (SeqOp α))) : Except Failure (State α) :=
  applyBatch s (RawOp.front ops) >>= RawOp.finish refusal ops

/-- **A batch** of the embedded-chain RGA is the fold. -/
theorem applyBatchRaw_eq_foldlM (s : State α) (ops : List (RawOp (SeqOp α))) :
    applyBatchRaw s ops = ops.foldlM (RawOp.apply refusal apply) s := by
  rw [applyBatchRaw, applyBatch_eq_foldlM, RawOp.foldlM_apply]

end EmbedRGA

namespace Rga

/-- The refusal of an operation of another type. -/
def refusal (type : String) : String := s!"unknown RGA op {type}"

/-- The batch of operations of any type, which stops at the first one of another type. -/
def applyBatchRaw (s : State α) (ops : List (RawOp (SeqOp α))) : Except Failure (State α) :=
  applyBatch s (RawOp.front ops) >>= RawOp.finish refusal ops

/-- The state without a remembered order. -/
def State.forget (s : State α) : State α := { s with order := none }

theorem checkInsert_forget (s : State α) : checkInsert s.forget = checkInsert s := rfl

theorem checkDelete_forget (s : State α) : checkDelete s.forget = checkDelete s := rfl

/-- **A batch** applies its operations and forgets the remembered order. -/
theorem applyBatch_eq_foldlM (s : State α) (ops : List (SeqOp α)) :
    applyBatch s ops = (ops.foldlM apply s).map State.forget := by
  -- The two passes may remember different orders, which no operation reads.
  have hgen (s t : State α) (hst : s.forget = t.forget) :
      applyBatch s ops = (ops.foldlM apply t).map State.forget := by
    induction ops generalizing s t with
    | nil => exact congrArg Except.ok hst
    | cons op ops ih =>
      obtain ⟨hadds, hgrave, -⟩ := State.mk.inj hst
      rw [List.foldlM_cons]
      cases op with
      | ins id el anchorId =>
        rw [applyBatch, apply, prepare, ← checkInsert_forget s, hst, checkInsert_forget t]
        cases checkInsert t id anchorId with
        | error e => rfl
        | ok a => exact ih _ _ (by simp only [State.forget, hadds, hgrave])
      | del id =>
        rw [applyBatch, apply, prepare, ← checkDelete_forget s, hst, checkDelete_forget t]
        cases checkDelete t id with
        | error e => rfl
        | ok _ => exact ih _ _ (by simp only [State.forget, hadds, hgrave])
  exact hgen s s rfl

/-- An operation on a state without a remembered order remembers none. -/
theorem yields_order {s : State α} (hs : s.order = none) (op : SeqOp α) :
    Yields (fun t => t.order = none) (apply s op) := by
  refine .bind fun op' _ => ?_
  cases op' with
  | ins id el anchorId => exact .ok rfl
  | del id => exact .ok hs

/-- **A batch** on a state without a remembered order folds its operations. -/
theorem applyBatch_of_order (s : State α) (hs : s.order = none) (ops : List (SeqOp α)) :
    applyBatch s ops = ops.foldlM apply s := by
  rw [applyBatch_eq_foldlM]
  cases hfold : ops.foldlM apply s with
  | error e => rfl
  | ok t =>
    have hyields : Yields (fun t => t.order = none) (ops.foldlM apply s) :=
      .foldlM (fun {op} _ {_} ht => yields_order ht op) (fun _ _ => trivial) hs
    exact congrArg Except.ok (by rw [State.forget, ← hyields t hfold])

/-- **A batch** of the tombstone RGA has the outcome of the fold, up to the remembered order. -/
theorem sameOutcome_applyBatchRaw (s : State α) (ops : List (RawOp (SeqOp α))) :
    SameOutcome (fun t t' => fingerprint t = fingerprint t') (applyBatchRaw s ops)
      (ops.foldlM (RawOp.apply refusal apply) s) := by
  rw [applyBatchRaw, RawOp.foldlM_apply]
  refine SameOutcome.bind_finish ?_ refusal ops
  rw [applyBatch_eq_foldlM]
  cases (RawOp.front ops).foldlM apply s with
  | error e => exact trivial
  | ok t => exact rfl

/-- The tombstone kernel folds its insertions: each of them forgets the remembered order. -/
theorem applyBatch_rgaKernel [DecidableEq α] (t : (rgaKernel α).State)
    (is : List (rgaKernel α).Ins) (hne : is ≠ []) :
    (rgaKernel α).applyBatch t is = is.foldlM (rgaKernel α).apply t := by
  have hmap : is.foldlM (rgaKernel α).apply t = (is.map Insertion.op).foldlM apply t := by
    rw [List.foldlM_map]
  have hbatch : (rgaKernel α).applyBatch t is = ((is.map Insertion.op).foldlM apply t).map
      State.forget := applyBatch_eq_foldlM _ _
  have hyields : Yields (fun t => t.order = none) ((is.map Insertion.op).foldlM apply t) := by
    obtain ⟨is, i, rfl⟩ := (List.eq_nil_or_concat is).resolve_left hne
    rw [List.concat_eq_append, List.map_append, List.foldlM_append]
    refine .bind fun s _ => ?_
    rw [List.map_singleton, List.foldlM_cons]
    refine .bind fun s' hs' => .ok ?_
    rw [Insertion.op, apply, prepare] at hs'
    cases hcheck : checkInsert s i.id i.anchorId with
    | error e =>
      rw [hcheck] at hs'
      cases hs'
    | ok a =>
      rw [hcheck] at hs'
      cases hs'
      rfl
  rw [hmap, hbatch]
  cases hfold : (is.map Insertion.op).foldlM apply t with
  | error e => rfl
  | ok t' => exact congrArg Except.ok (by rw [State.forget, ← hyields t' hfold])

end Rga

namespace Peritext

variable {K : TextKernel α}

/-- The refusal of an operation of another type. -/
def refusal (type : String) : String := s!"unknown peritext op type: {type}"

/-- The batch of operations of any type. One of another type is refused before any insertion. -/
def applyBatchRaw (s : State K μ β) (ops : List (RawOp (RichOp K.Ins μ β))) :
    Except Failure (State K μ β) :=
  match RawOp.stranger ops with
  | some type => .error (.error (refusal type))
  | none => applyBatch s (RawOp.front ops)

/-- **A batch** of the rich text has the outcome of the fold, over a kernel that folds its
insertions. -/
theorem sameOutcome_applyBatchRaw (hK : ∀ t is, is ≠ [] → K.applyBatch t is = is.foldlM K.apply t)
    (s : State K μ β) (ops : List (RawOp (RichOp K.Ins μ β))) :
    SameOutcome Eq (applyBatchRaw s ops) (ops.foldlM (RawOp.apply refusal apply) s) := by
  rw [applyBatchRaw, RawOp.foldlM_apply, ← applyBatch_eq_foldlM hK]
  cases hstranger : RawOp.stranger ops with
  | none =>
    cases applyBatch s (RawOp.front ops) with
    | error e => exact trivial
    | ok t =>
      simp only [bind, Except.bind, RawOp.finish, hstranger]
      exact rfl
  | some type =>
    cases applyBatch s (RawOp.front ops) with
    | error e => exact trivial
    | ok t =>
      simp only [bind, Except.bind, RawOp.finish, hstranger]
      exact trivial

end Peritext

end SalRuntime
