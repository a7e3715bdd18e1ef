import SalRuntime.Datatypes.EmbedRGA

/-!
# Rich text over an insertion-order kernel

The datatype of `src/datatypes/peritext.js`: characters are inserted into a sequence kernel and
never removed from it, deletions are a grow-only set, and marks a grow-only map. The read resolves
the ends of every mark in document order and picks, for every live character and mark type, the
covering mark of the largest id.

The kernel is a parameter, as in `makePeritext`.

## Main definitions

* `TextKernel` — what the rich-text datatype asks of its kernel; `embedKernel`.
* `RichOp`, `Mark`, `Peritext.State` — the data model.
* `Peritext.apply`, `Peritext.applyBatch`, `Peritext.merge3` — the operations.
* `Peritext.startIndex`, `Peritext.endIndex`, `Peritext.renderDoc` — the read.
* `makePeritext`, `peritextEmbedRGA` — the datatypes.
-/

namespace SalRuntime

variable {α β μ : Type}

/-- The insertion-order kernel of a rich text over elements `α`. -/
structure TextKernel (α : Type) where
  /-- States. -/
  State : Type
  /-- Insert operations. -/
  Ins : Type
  /-- Canonical fingerprints. -/
  Print : Type
  /-- Fingerprints are compared. -/
  printDecEq : DecidableEq Print
  /-- Encoded states. -/
  Wire : Type
  /-- The id of an insertion. -/
  insId : Ins → ℕ
  /-- The initial state. -/
  init : State
  /-- The hook `prepare`. -/
  prepare : Option (State → Ins → Except Failure Ins)
  /-- Does a batch have to be prepared operation by operation? -/
  needsPrepare : Bool
  /-- Apply an insertion. -/
  apply : State → Ins → Except Failure State
  /-- Apply a list of insertions. -/
  applyBatch : State → List Ins → Except Failure State
  /-- Three-way merge. -/
  merge3 : State → State → State → Except Failure State
  /-- The ids and elements in reading order. -/
  readEntries : State → Except Failure (List (ℕ × α))
  /-- Is there a record of an id? -/
  has : State → ℕ → Bool
  /-- The canonical serialization. -/
  fingerprint : State → Print
  /-- The encoding of a state. -/
  encodeState : State → Wire
  /-- Its inverse. -/
  decodeState : Wire → Except Failure State

instance (K : TextKernel α) : DecidableEq K.Print := K.printDecEq

/-- An insertion of a sequence datatype. -/
structure Insertion (α : Type) where
  /-- The id. -/
  id : ℕ
  /-- The element. -/
  el : α
  /-- The anchor, none for the root. -/
  anchorId : Option ℕ
  deriving DecidableEq, Repr

/-- An insertion as a sequence operation. -/
def Insertion.op (i : Insertion α) : SeqOp α := .ins i.id i.el i.anchorId

/-- The embedded-chain RGA as a kernel. -/
@[reducible] def embedKernel (α : Type) [DecidableEq α] : TextKernel α where
  State := EmbedRGA.State α
  Ins := Insertion α
  Print := List (ℕ × List Bool × α)
  printDecEq := inferInstance
  Wire := List (ℕ × List Bool × α)
  insId := Insertion.id
  init := EmbedRGA.init
  prepare := none
  needsPrepare := false
  apply s i := EmbedRGA.apply s i.op
  applyBatch s is := EmbedRGA.applyBatch s (is.map Insertion.op)
  merge3 := EmbedRGA.merge3
  readEntries s := .ok ((EmbedRGA.readEntries s).map fun e => (e.1, e.2.el))
  has s id := s.has id
  fingerprint := EmbedRGA.fingerprint
  encodeState := EmbedRGA.fingerprint
  decodeState enc := .ok (SortedMap.ofList (enc.map fun e => (e.1, ⟨e.2.1, e.2.2⟩)))

/-- The side of a character at which a mark starts or ends. -/
inductive Side
  | before
  | after
  deriving DecidableEq, Repr

/-- A mark operation, over mark types `μ` and values `β`. Absent fields have defaults. -/
structure MarkOp (μ β : Type) where
  /-- A removal (`removeMark`) or an addition (`addMark`)? -/
  removed : Bool
  /-- The mark id. -/
  mid : ℕ
  /-- The mark type. -/
  mtype : μ
  /-- The value. -/
  value : Option β := none
  /-- The character at which the mark starts. -/
  startId : ℕ
  /-- The character at which the mark ends. -/
  endId : ℕ
  /-- The side of the start. -/
  startSide : Option Side := none
  /-- The side of the end. -/
  endSide : Option Side := none
  /-- The time of the mark. -/
  ts : Option ℕ := none
  deriving DecidableEq, Repr

/-- A mark of a state. -/
structure Mark (μ β : Type) where
  /-- The mark id. -/
  mid : ℕ
  /-- The mark type. -/
  mtype : μ
  /-- The value, none for `null`. -/
  value : Option β
  /-- The character at which the mark starts. -/
  startId : ℕ
  /-- The character at which the mark ends. -/
  endId : ℕ
  /-- The side of the start. -/
  startSide : Side
  /-- The side of the end. -/
  endSide : Side
  /-- The time of the mark. -/
  ts : ℕ
  /-- Does the mark remove formatting? -/
  removed : Bool
  deriving DecidableEq, Repr

/-- A rich-text operation over insertions `ι`. -/
inductive RichOp (ι μ β : Type)
  /-- `ins`. -/
  | ins (op : ι)
  /-- `del`. -/
  | del (id : ℕ)
  /-- `addMark` and `removeMark`. -/
  | mark (op : MarkOp μ β)
  deriving DecidableEq, Repr

/-- What the read shows of a live character: its id, the character, and the active marks. -/
structure RenderedChar (α μ β : Type) where
  /-- The id. -/
  id : ℕ
  /-- The character. -/
  char : Option α
  /-- The active mark types with their values. -/
  marks : List (μ × Option β)
  deriving DecidableEq, Repr

namespace Peritext

variable {K : TextKernel α}

/-- States of the rich text. -/
structure State (K : TextKernel α) (μ β : Type) where
  /-- Every inserted character. -/
  shadow : K.State
  /-- The ids of the deleted characters. -/
  deleted : SortedMap ℕ Unit
  /-- The marks, by mark id. -/
  marks : SortedMap ℕ (Mark μ β)

/-! ### The read -/

/-- What the resolver reads. -/
structure Ctx (α : Type) where
  /-- All ids in reading order. -/
  birth : List ℕ
  /-- The live ids in reading order. -/
  live : List ℕ
  /-- The characters. -/
  cp : SortedMap ℕ α
  /-- The deleted ids. -/
  deleted : SortedMap ℕ Unit
  /-- Is there a birth record of an id? -/
  hasBirth : ℕ → Bool

/-- One pass over the shadow. -/
def buildCtx (s : State K μ β) : Except Failure (Ctx α) := do
  let entries ← K.readEntries s.shadow
  let birth := entries.map Prod.fst
  return {
    birth
    live := birth.filter fun c => !s.deleted.has c
    cp := SortedMap.ofList entries
    deleted := s.deleted
    hasBirth := K.has s.shadow }

/-- Is a character born and not deleted? -/
def Ctx.isLive (ctx : Ctx α) (a : ℕ) : Bool := ctx.hasBirth a && !ctx.deleted.has a

/-- The nearest live id strictly before or after a character in birth order, if the character has
a birth. -/
def Ctx.scan (ctx : Ctx α) (a : ℕ) (forward : Bool) : Option ℕ :=
  match ctx.birth.idxOf? a with
  | none => none
  | some i =>
    if forward then (ctx.birth.drop (i + 1)).find? fun c => !ctx.deleted.has c
    else (ctx.birth.take i).reverse.find? fun c => !ctx.deleted.has c

/-- The index of the first covered live character; none when the span has collapsed. The run of
characters newer than the mark after an outer start is skipped. -/
def startIndex (m : Mark μ β) (ctx : Ctx α) : Option ℕ :=
  let anchor := if ctx.isLive m.startId then some m.startId
    else ctx.scan m.startId (m.startSide = .before)
  match anchor, m.startSide with
  | none, .before => none
  | none, .after => some 0
  | some a, .before => some (ctx.live.idxOf a)
  | some a, .after =>
    let i := ctx.live.idxOf a
    some (i + 1 + ((ctx.live.drop (i + 1)).takeWhile fun c => m.ts < c).length)

/-- The index of the last covered live character; none when the span has collapsed. An inner end
grows over the run of newer characters after it; an outer end steps back over the run before
it. -/
def endIndex (m : Mark μ β) (ctx : Ctx α) : Option ℤ :=
  let anchor := if ctx.isLive m.endId then some m.endId
    else ctx.scan m.endId (m.endSide = .before)
  match anchor, m.endSide with
  | none, .after => none
  | none, .before => some ((ctx.live.length : ℤ) - 1)
  | some a, .after =>
    let i := ctx.live.idxOf a
    some ((i : ℤ) + ((ctx.live.drop (i + 1)).takeWhile fun c => m.ts < c).length)
  | some a, .before =>
    let i := ctx.live.idxOf a
    some ((i : ℤ) - 1 - ((ctx.live.take i).reverse.takeWhile fun c => m.ts < c).length)

/-- The live ids that a mark covers. -/
def coveredIds (m : Mark μ β) (ctx : Ctx α) : List ℕ :=
  match startIndex m ctx, endIndex m ctx with
  | some first, some last =>
    if last < first then [] else (ctx.live.take (last.toNat + 1)).drop first
  | _, _ => []

/-- The winner among the marks of a type that cover a character. -/
structure Winner (β : Type) where
  /-- The mark id. -/
  mid : ℕ
  /-- Does the mark remove formatting? -/
  removed : Bool
  /-- The value. -/
  value : Option β
  deriving DecidableEq, Repr

variable [LinearOrder μ]

/-- Note a covering mark: the largest mark id of a type wins. -/
def noteMark (bc : SortedMap μ (Winner β)) (m : Mark μ β) : SortedMap μ (Winner β) :=
  let winner : Winner β := { mid := m.mid, removed := m.removed, value := m.value }
  match bc.get? m.mtype with
  | none => bc.insert m.mtype winner
  | some cur => if m.mid > cur.mid then bc.insert m.mtype winner else bc

/-- The winners, by live character and mark type. -/
def bestMarks (ctx : Ctx α) (marks : List (Mark μ β)) : SortedMap ℕ (SortedMap μ (Winner β)) :=
  marks.foldl (fun best m => (coveredIds m ctx).foldl (fun best c =>
    match best.get? c with
    | some bc => best.insert c (noteMark bc m)
    | none => best) best)
    (ctx.live.foldl (fun best c => best.insert c SortedMap.empty) SortedMap.empty)

/-- The document-order render: every live character with its active marks. -/
def renderDoc (s : State K μ β) : Except Failure (List (RenderedChar α μ β)) := do
  let ctx ← buildCtx s
  let best := bestMarks ctx s.marks.values
  return ctx.live.map fun c =>
    let winners := (best.get? c).getD SortedMap.empty
    { id := c
      char := ctx.cp.get? c
      marks := (winners.entries.filter fun e => !e.2.removed).map fun e => (e.1, e.2.value) }

/-- The flag view of a mark type: every live character, and whether the mark is active on it. -/
def flags (s : State K μ β) (mtype : μ) : Except Failure (List (Option α × Bool)) := do
  return (← renderDoc s).map fun e => (e.char, e.marks.any fun m => m.1 = mtype)

/-! ### The operations -/

/-- The mark of a mark operation, with the defaults filled in. -/
def frozenMark (op : MarkOp μ β) : Mark μ β where
  mid := op.mid
  mtype := op.mtype
  value := op.value
  startId := op.startId
  endId := op.endId
  startSide := op.startSide.getD .before
  endSide := op.endSide.getD .after
  ts := op.ts.getD op.mid
  removed := op.removed

/-- The initial state. -/
def init : State K μ β := ⟨K.init, SortedMap.empty, SortedMap.empty⟩

/-- Prepare an operation: the kernel prepares insertions. -/
def prepare (s : State K μ β) : RichOp K.Ins μ β → Except Failure (RichOp K.Ins μ β)
  | .ins op =>
    match K.prepare with
    | some prepare => do return .ins (← prepare s.shadow op)
    | none => .ok (.ins op)
  | op => .ok op

/-- Apply an operation. -/
def apply (s : State K μ β) : RichOp K.Ins μ β → Except Failure (State K μ β)
  | .ins op => do return { s with shadow := ← K.apply s.shadow op }
  | .del id => .ok { s with deleted := s.deleted.insert id () }
  | .mark op => .ok { s with marks := s.marks.insert op.mid (frozenMark op) }

/-- Sort the operations of a batch by component: the insertions so far, the deleted ids, and the
marks. -/
def batchStep (acc : List K.Ins × SortedMap ℕ Unit × SortedMap ℕ (Mark μ β)) :
    RichOp K.Ins μ β → List K.Ins × SortedMap ℕ Unit × SortedMap ℕ (Mark μ β)
  | .ins op => (acc.1 ++ [op], acc.2)
  | .del id => (acc.1, acc.2.1.insert id (), acc.2.2)
  | .mark op => (acc.1, acc.2.1, acc.2.2.insert op.mid (frozenMark op))

/-- Apply a list of operations in one pass per component. -/
def applyBatch (s : State K μ β) (ops : List (RichOp K.Ins μ β)) :
    Except Failure (State K μ β) := do
  let (insOps, deleted, marks) := ops.foldl batchStep ([], s.deleted, s.marks)
  let shadow ← if insOps.length ≠ 0 then K.applyBatch s.shadow insOps else pure s.shadow
  return { shadow, deleted, marks }

/-- Add the ids of one set to another. -/
def unionIds (d d' : SortedMap ℕ Unit) : SortedMap ℕ Unit :=
  d'.keys.foldl (fun t x => t.insert x ()) d

/-- Add the marks of one map whose ids another lacks. -/
def unionMarks (m m' : SortedMap ℕ (Mark μ β)) : SortedMap ℕ (Mark μ β) :=
  m'.entries.foldl (fun t e => if t.has e.1 then t else t.insert e.1 e.2) m

/-- The three-way merge: the union of the births, the deletions and the marks. -/
def merge3 (l a b : State K μ β) : Except Failure (State K μ β) := do
  let shadow ← K.merge3 K.init a.shadow b.shadow
  return {
    shadow
    deleted := unionIds (unionIds a.deleted l.deleted) b.deleted
    marks := unionMarks (unionMarks a.marks l.marks) b.marks }

/-- The physical premises of a merge: every mark endpoint has a birth record, and every retained
record carries the union of the delete bits. Otherwise the text of the evidence is returned. -/
def auditMergeCoverage (l a b merged : State K μ β) : Except String Unit :=
  match buildCtx merged with
  | .error e => .error e.message
  | .ok ctx =>
    let missing := merged.marks.values.flatMap fun m =>
      ([m.startId, m.endId].filter fun id => !ctx.hasBirth id).map fun id => [m.mid, id]
    let mismatches := ctx.birth.filter fun id => merged.deleted.has id !=
      (l.deleted.has id || a.deleted.has id || b.deleted.has id)
    if missing.isEmpty && mismatches.isEmpty then .ok ()
    else .error (s!"\x7b\"ok\":false,\"missingMarkEndpoints\":{missing}," ++
      s!"\"deleteMismatches\":{mismatches}\x7d")

/-- The canonical serialization. -/
def fingerprint (s : State K μ β) : K.Print × List ℕ × List (Mark μ β) :=
  (K.fingerprint s.shadow, s.deleted.keys, s.marks.values)

/-- The encoding of a state. -/
def encodeState (s : State K μ β) : K.Wire × List ℕ × List (Mark μ β) :=
  (K.encodeState s.shadow, s.deleted.keys, s.marks.values)

/-- The state of an encoding. -/
def decodeState (enc : K.Wire × List ℕ × List (Mark μ β)) : Except Failure (State K μ β) := do
  return {
    shadow := ← K.decodeState enc.1
    deleted := SortedMap.ofList (enc.2.1.map (·, ()))
    marks := SortedMap.ofList (enc.2.2.map fun m => (m.mid, m)) }

end Peritext

/-- Rich text over a kernel. There is no state compaction here. -/
@[reducible] def makePeritext (K : TextKernel α) (μ β : Type) [LinearOrder μ] [DecidableEq β] :
    Datatype where
  State := Peritext.State K μ β
  Op := RichOp K.Ins μ β
  View := Except Failure (List (RenderedChar α μ β))
  Print := K.Print × List ℕ × List (Mark μ β)
  printDecEq := inferInstance
  Wire := K.Wire × List ℕ × List (Mark μ β)
  Cut := Unit
  Translate := Unit
  init := Peritext.init
  prepare := some Peritext.prepare
  needsPrepare := K.needsPrepare
  apply := Peritext.apply
  applyBatch := some Peritext.applyBatch
  merge3 := Peritext.merge3
  read := Peritext.renderDoc
  insId
    | .ins op => some (K.insId op)
    | _ => none
  headOnlyMerge := false
  auditMergeCoverage := some Peritext.auditMergeCoverage
  fingerprint := some Peritext.fingerprint
  encodeState := some Peritext.encodeState
  decodeState := some Peritext.decodeState
  compact := none
  remapState := none
  settledCut := fun _ => ()
  emptyCut := ()
  settledIds := fun _ => none
  cutFromMeet := none
  inverseTranslate := none
  coordInverse := fun _ _ => .ok ()

/-- Rich text over the embedded-chain RGA. -/
@[reducible] def peritextEmbedRGA (α μ β : Type) [DecidableEq α] [LinearOrder μ]
    [DecidableEq β] : Datatype :=
  makePeritext (embedKernel α) μ β

end SalRuntime
