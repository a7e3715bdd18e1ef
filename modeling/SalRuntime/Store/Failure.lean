import Mathlib.Data.List.Defs

/-!
# Failures of the runtime

The runtime throws plain `Error` objects, told apart by their message only, and the
`CrissCrossError` of `src/lca.js`, which carries the maximal common ancestors it refused to choose
between. The join of two heads dispatches on the message `no common ancestor` of a missing merge
base, so that error has a constructor of its own.
-/

namespace SalRuntime

/-- What a call of the runtime may throw. Commit ids are the numbers `n` of the ids `cn`. -/
inductive Failure
  /-- `new Error(message)`. -/
  | error (message : String)
  /-- `no common ancestor of [S] and w`. -/
  | noCommonAncestor (S : List ℕ) (w : ℕ)
  /-- `new CrissCrossError(mcaIds)`. -/
  | crissCross (mcas : List ℕ)
  deriving DecidableEq, Repr

/-- The name under which a commit id is printed. -/
def commitName (id : ℕ) : String := s!"c{id}"

/-- A list of commit names, comma separated. -/
def commitNames (ids : List ℕ) (sep : String) : String := sep.intercalate (ids.map commitName)

/-- The message of a failure. -/
def Failure.message : Failure → String
  | error message => message
  | noCommonAncestor S w =>
    let heads := commitNames S ","
    let other := commitName w
    s!"no common ancestor of [{heads}] and {other}"
  | crissCross mcas =>
    let count := mcas.length
    let names := commitNames mcas ", "
    s!"criss-cross merge: {count} maximal common ancestors ({names}). " ++
      "Virtual merge bases are not yet in the verified model; refusing to pick one silently."

end SalRuntime
