import Mathlib.Data.List.Sort
import SalRuntime.Datatypes.Mrdt
import SalRuntime.Replica.Hash

/-!
# The epochs of a replica

The graph of epochs of `src/epoch.js`. A compaction opens an epoch over the epoch of its parent and
records the cut and the two translation maps between them; a join records that two epochs were
merged.

## Main definitions

* `EpochNode`, `EpochDag` — the data model.
* `EpochDag.compaction`, `EpochDag.join` — the registrations.
* `EpochDag.subcut`, `EpochDag.compare` — the order of the cuts.
* `EpochDag.liftChain` — the maps from an epoch up to another.
-/

namespace SalRuntime

variable {D : Datatype} {γ : Type}

/-- An epoch. -/
structure EpochNode (D : Datatype) (γ : Type) where
  /-- The depth. -/
  num : ℕ
  /-- The settled insert ids, each once. -/
  settledIds : List ℕ
  /-- The cut, if one is recorded. -/
  cut : Option D.Cut
  /-- The map from the coordinates of the parent epoch to those of this one. -/
  translate : Option D.Translate
  /-- The map back. -/
  translateInv : Option D.Translate
  /-- The parent epochs. -/
  parents : List (EpochKey γ)
  /-- Was the forward map dropped? -/
  mapDropped : Bool

/-- The epochs known to a replica, in the order of their registration. -/
structure EpochDag (D : Datatype) (γ : Type) where
  /-- The epochs under their keys. -/
  nodes : List (EpochKey γ × EpochNode D γ)

/-- The key of a cut: the settled ids in ascending order. -/
def cutKey (settledIds : List ℕ) : EpochKey γ := .cut (settledIds.insertionSort (· ≤ ·))

/-- The node of the uncompacted epoch. -/
def EpochNode.base (D : Datatype) (γ : Type) : EpochNode D γ where
  num := 0
  settledIds := []
  cut := none
  translate := none
  translateInv := none
  parents := []
  mapDropped := false

namespace EpochDag

/-- The graph with the uncompacted epoch only. -/
def create (D : Datatype) (γ : Type) : EpochDag D γ := ⟨[(EPOCH0, EpochNode.base D γ)]⟩

variable [DecidableEq γ]

/-- The node of a key. -/
def get? (E : EpochDag D γ) (key : EpochKey γ) : Option (EpochNode D γ) :=
  (E.nodes.find? fun e => e.1 = key).map Prod.snd

/-- Is a key registered? -/
def has (E : EpochDag D γ) (key : EpochKey γ) : Bool := (E.get? key).isSome

/-- The node of a key that the code dereferences. -/
def get (E : EpochDag D γ) (key : EpochKey γ) : Except Failure (EpochNode D γ) :=
  match E.get? key with
  | some n => .ok n
  | none => .error (.error "Cannot read properties of undefined (reading 'settledIds')")

/-- Register a node under a new key. -/
def append (E : EpochDag D γ) (key : EpochKey γ) (node : EpochNode D γ) : EpochDag D γ :=
  ⟨E.nodes ++ [(key, node)]⟩

/-- Change the node of a key. -/
def modify (E : EpochDag D γ) (key : EpochKey γ) (f : EpochNode D γ → EpochNode D γ) :
    EpochDag D γ :=
  ⟨E.nodes.map fun e => if e.1 = key then (e.1, f e.2) else e⟩

/-- The depth of a key's node, zero if there is none. -/
def numOf (E : EpochDag D γ) (key : EpochKey γ) : ℕ := ((E.get? key).map EpochNode.num).getD 0

/-- What a compaction registers. -/
structure Registration (D : Datatype) (γ : Type) where
  /-- The settled insert ids. -/
  settledIds : List ℕ
  /-- The cut. -/
  cut : Option D.Cut
  /-- The forward map. -/
  translate : Option D.Translate
  /-- The inverse map. -/
  translateInv : Option D.Translate
  /-- The epoch of the compacted commit. -/
  parentKey : EpochKey γ

/-- The node of a registration. -/
def newNode (E : EpochDag D γ) (reg : Registration D γ) : EpochNode D γ where
  num := E.numOf reg.parentKey + 1
  settledIds := reg.settledIds.dedup
  cut := reg.cut
  translate := reg.translate
  translateInv := reg.translateInv
  parents := [reg.parentKey]
  mapDropped := false

/-- Fill in what a registered node lacks. -/
def fillIn (reg : Registration D γ) (n : EpochNode D γ) : EpochNode D γ :=
  { n with
    translate := n.translate.or reg.translate
    translateInv := n.translateInv.or reg.translateInv
    cut := n.cut.or reg.cut }

/-- Register a compaction epoch. A key that is registered keeps its node; a later registration may
fill in maps. -/
def compaction (E : EpochDag D γ) (key : EpochKey γ) (reg : Registration D γ) : EpochDag D γ :=
  if E.has key then E.modify key (fillIn reg) else E.append key (E.newNode reg)

theorem get?_append_self (E : EpochDag D γ) {key : EpochKey γ} (hnew : E.get? key = none)
    (node : EpochNode D γ) : (E.append key node).get? key = some node := by
  rw [get?, Option.map_eq_none_iff] at hnew
  simp [get?, append, List.find?_append, hnew]

theorem get?_modify_self (E : EpochDag D γ) (key : EpochKey γ)
    (f : EpochNode D γ → EpochNode D γ) : (E.modify key f).get? key = (E.get? key).map f := by
  unfold get? modify
  induction E.nodes with
  | nil => rfl
  | cons e es ih =>
    by_cases he : e.1 = key
    · simp [he]
    · simpa [he] using ih

/-- The node of a compaction after its registration. -/
theorem get?_compaction_self (E : EpochDag D γ) (key : EpochKey γ) (reg : Registration D γ) :
    (E.compaction key reg).get? key =
      some (((E.get? key).map (fillIn reg)).getD (E.newNode reg)) := by
  unfold compaction has
  cases hkey : E.get? key with
  | none => simpa using get?_append_self E hkey _
  | some n => simp [get?_modify_self, hkey]

/-- Register the join of two epochs, under the key of the union of their cuts. -/
def join (E : EpochDag D γ) (keyU keyV : EpochKey γ) : Except Failure (EpochDag D γ) := do
  let U ← E.get keyU
  let V ← E.get keyV
  let settled := (U.settledIds ++ V.settledIds).dedup
  if E.has (cutKey settled) then return E
  return E.append (cutKey settled) {
    num := max U.num V.num + 1
    settledIds := settled
    cut := none
    translate := none
    translateInv := none
    parents := [keyU, keyV]
    mapDropped := false }

/-- Is the cut of `subKey` contained in that of `supKey`? -/
def subcut (E : EpochDag D γ) (subKey supKey : EpochKey γ) : Except Failure Bool := do
  let sub ← E.get subKey
  let sup ← E.get supKey
  if sub.settledIds.length > sup.settledIds.length then return false
  return sub.settledIds.all fun x => x ∈ sup.settledIds

/-- The walk of `liftChain` from `k` down to `fromKey`. The graph has no cycle, so its size bounds
the number of steps. -/
def liftChainLoop (E : EpochDag D γ) (fromKey : EpochKey γ) :
    ℕ → EpochKey γ → List D.Translate → Option (List D.Translate)
  | 0, _, _ => none
  | fuel + 1, k, maps =>
    if k = fromKey then some maps
    else
      match E.get? k with
      | some { parents := [p], translate := some m, mapDropped := false, .. } =>
        liftChainLoop E fromKey fuel p (m :: maps)
      | _ => none

/-- The forward maps from an epoch up to another along single parents, ready to be applied from left
to right. -/
def liftChain (E : EpochDag D γ) (fromKey toKey : EpochKey γ) : Option (List D.Translate) :=
  E.liftChainLoop fromKey (E.nodes.length + 1) toKey []

end EpochDag

end SalRuntime
