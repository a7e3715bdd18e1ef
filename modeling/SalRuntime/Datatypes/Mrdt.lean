import SalRuntime.Store.Failure

/-!
# The datatype contract

A datatype of the runtime is a record of pure functions `init`, `apply`, `merge3`, `read`, with
optional hooks that the runtime looks for: a preparation step, a batch application, a canonical
fingerprint, an encoding of whole states, and the state-compaction hooks. A hook that a datatype
does not provide is `none`.

## Main definitions

* `CompactOpts`, `CompactStats`, `Compacted` — what the compaction hook takes and returns.
* `Datatype` — the contract.
-/

namespace SalRuntime

/-- Options of a compaction. `compactStable()` without options passes the defaults. -/
structure CompactOpts where
  /-- The negative-control knob that renumbers groups with in-flight children. -/
  unguardedRenumber : Bool := false
  /-- Collapse spines of dead nodes. -/
  fuseSpines : Bool := false
  deriving DecidableEq, Repr

/-- What a compaction reports. A counter that a datatype does not report is zero. -/
structure CompactStats where
  /-- Coordinate symbols before. -/
  symbolsBefore : ℕ := 0
  /-- Coordinate symbols after. -/
  symbolsAfter : ℕ := 0
  /-- Sibling groups renumbered. -/
  groupsRenumbered : ℕ := 0
  /-- Stable sibling groups skipped because of an in-flight child. -/
  groupsSkippedInflight : ℕ := 0
  /-- Sibling groups skipped because of an unstable member. -/
  groupsSkippedUnstable : ℕ := 0
  /-- Spines collapsed. -/
  spinesFused : ℕ := 0
  /-- Levels removed by collapsing spines. -/
  levelsRemoved : ℕ := 0
  /-- Spine heads skipped because of an in-flight branch or anchor. -/
  spinesSkippedInflight : ℕ := 0
  /-- Records dropped. -/
  recordsDropped : ℕ := 0
  /-- Pairs of marks dropped. -/
  markPairsDropped : ℕ := 0
  deriving DecidableEq, Repr

/-- The result of a compaction: the re-coded state, the map from old to new coordinates, and the
statistics. -/
structure Compacted (σ τ : Type) where
  /-- The re-coded state. -/
  state : σ
  /-- The map from old to new coordinates. -/
  translate : τ
  /-- The statistics. -/
  stats : CompactStats

/-- A datatype of the runtime. -/
structure Datatype where
  /-- States. -/
  State : Type
  /-- Operations. -/
  Op : Type
  /-- What `read` returns. -/
  View : Type
  /-- Canonical fingerprints. -/
  Print : Type
  /-- Fingerprints are compared on ingest. -/
  printDecEq : DecidableEq Print
  /-- Encoded states. -/
  Wire : Type
  /-- Settled cuts, with whatever the datatype records in them. -/
  Cut : Type
  /-- Coordinate translation maps. -/
  Translate : Type
  /-- The initial state. -/
  init : State
  /-- The hook `prepare`. -/
  prepare : Option (State → Op → Except Failure Op)
  /-- Does a batch have to be prepared operation by operation? -/
  needsPrepare : Bool
  /-- Apply an operation. -/
  apply : State → Op → Except Failure State
  /-- The hook `applyBatch`. -/
  applyBatch : Option (State → List Op → Except Failure State)
  /-- Three-way merge: the base, then the two sides. -/
  merge3 : State → State → State → Except Failure State
  /-- The read of a state. -/
  read : State → View
  /-- The id of an insert operation; none for other operations. -/
  insId : Op → Option ℕ
  /-- Does `merge3` ignore its base? -/
  headOnlyMerge : Bool
  /-- The hook `auditMergeCoverage`, with the text of the evidence when it fails. -/
  auditMergeCoverage : Option (State → State → State → State → Except String Unit)
  /-- The hook `fingerprint`. -/
  fingerprint : Option (State → Print)
  /-- The hook `encodeState`. -/
  encodeState : Option (State → Wire)
  /-- The hook `decodeState`. -/
  decodeState : Option (Wire → Except Failure State)
  /-- The hook `compact`. -/
  compact : Option (State → Cut → CompactOpts → Except Failure (Compacted State Translate))
  /-- The hook `remapState`. -/
  remapState : Option (State → Translate → Except Failure State)
  /-- The cut that lists the given settled insert ids and no in-flight coordinate. -/
  settledCut : List ℕ → Cut
  /-- The cut `{}`. -/
  emptyCut : Cut
  /-- The settled insert ids of a cut, if it lists them. -/
  settledIds : Cut → Option (List ℕ)
  /-- The hook `cutFromMeet`: the cut of the operations of a certified meet. -/
  cutFromMeet : Option (List Op → Cut)
  /-- The hook `inverseTranslate`. -/
  inverseTranslate : Option (State → State → Cut → Except Failure Translate)
  /-- The inverse map built from the coordinate-bearing parts of the states before and after a
  compaction, used when there is no hook `inverseTranslate`. -/
  coordInverse : State → State → Except Failure Translate

namespace Datatype

/-- Prepare an operation, if the datatype has the hook. -/
def prepared (D : Datatype) (s : D.State) (op : D.Op) : Except Failure D.Op :=
  match D.prepare with
  | some prepare => prepare s op
  | none => .ok op

/-- Apply a translation map to a state. -/
def remap (D : Datatype) (s : D.State) (m : D.Translate) : Except Failure D.State :=
  match D.remapState with
  | some remapState => remapState s m
  | none => .error (.error "this.datatype.remapState is not a function")

/-- Apply translation maps from left to right. -/
def remaps (D : Datatype) : D.State → List D.Translate → Except Failure D.State
  | s, [] => .ok s
  | s, m :: ms => do remaps D (← D.remap s m) ms

end Datatype

instance (D : Datatype) : DecidableEq D.Print := D.printDecEq

end SalRuntime
