import SalRuntime.Datatypes.Mrdt
import SalRuntime.Replica.Hash

/-!
# Commits on the wire

The commits of a delta as replicas exchange them, and what the delta framing of `src/wire.js`
makes of them. The framing leaves out the id of an operation commit whose id its only child
determines, and replaces the id of the preceding commit in a list of parents by a back-reference.

## Main definitions

* `WireBody`, `WireCommit` — the wire commits.
* `overWire` — a delta after encoding and decoding.
-/

namespace SalRuntime

variable {D : Datatype} {γ : Type}

/-- What a wire commit carries besides its id and its parents. -/
inductive WireBody (D : Datatype) (γ : Type)
  /-- An operation commit. -/
  | op (replica : String) (seq : ℕ) (payload : Payload D.Op)
  /-- A merge. -/
  | merge
  /-- A compaction: the certificate and the encoded state. -/
  | compact (cut : D.Cut) (state : D.Wire)
  /-- A boundary of a collected history. -/
  | base (epoch : EpochKey γ) (fp : D.Print) (roster : List String) (proof : γ) (state : D.Wire)

/-- A wire commit. A missing id, or a missing parent, is the id that the receiver recomputed for
the preceding commit. -/
structure WireCommit (D : Datatype) (γ : Type) where
  /-- The content id. -/
  gid : Option γ
  /-- The content ids of the parents. -/
  parents : List (Option γ)
  /-- The rest. -/
  body : WireBody D γ

/-- Is this an operation commit? -/
def WireBody.isOp : WireBody D γ → Bool
  | .op .. => true
  | _ => false

/-- Is this a compaction commit? -/
def WireBody.isCompact : WireBody D γ → Bool
  | .compact .. => true
  | _ => false

/-- Is this a merge? -/
def WireBody.isMerge : WireBody D γ → Bool
  | .merge => true
  | _ => false

/-- The encoded state that a commit carries. -/
def WireBody.state : WireBody D γ → Option D.Wire
  | .compact _ state => some state
  | .base _ _ _ _ state => some state
  | .op .. => none
  | .merge => none

variable [DecidableEq γ]

/-- Is the id of a commit left out, given the next one? -/
def omitGid (wc : WireCommit D γ) : List (WireCommit D γ) → Bool
  | [] => false
  | next :: _ => wc.body.isOp && decide (next.parents = [wc.gid])

/-- The commits of a delta after encoding and decoding. `previous` is the id of the preceding commit
before it was encoded, and `decoded` what the decoder knows of it. -/
def overWireFrom (previous decoded : Option γ) : List (WireCommit D γ) → List (WireCommit D γ)
  | [] => []
  | wc :: rest =>
    let gid := if omitGid wc rest then none else wc.gid
    let parents := wc.parents.map fun p => if p = previous then decoded else p
    { wc with gid, parents } :: overWireFrom wc.gid gid rest

/-- The commits of a delta after encoding and decoding. -/
def overWire (commits : List (WireCommit D γ)) : List (WireCommit D γ) :=
  overWireFrom none none commits

end SalRuntime
