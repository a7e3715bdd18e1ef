import Mathlib.Data.Countable.Basic
import Mathlib.Data.List.Basic
import Mathlib.Logic.Equiv.List
import Mathlib.Logic.Relation
import Mathlib.Tactic.DeriveCountable
import SalRuntime.Store.Failure

/-!
# Content ids

The content addressing of `src/hash.js`: the id of a commit hashes what distinguishes it from other
commits, the content ids of its parents included. The hash is a parameter, assumed to be
collision-free, so an id determines the content and the ids below it form a Merkle graph.

## Main definitions

* `Payload` — the payload of an operation commit: one operation, or a batch.
* `Preimage`, `ContentHash` — what is hashed, and the hash.
* `EpochKey` — the names of epochs.
* `ContentHash.Par`, `ContentHash.Reaches` — the parent relation between content ids.
* `ContentHash.ofTable` — a hash that numbers given preimages.

## Main results

* `ContentHash.par_digest_iff` — the parents of the id of a preimage.
-/

namespace SalRuntime

instance instCountableChar : Countable Char := Function.Injective.countable (f := Char.toNat) fun _ _ h =>
  Char.toNat_inj.mp h

instance instCountableString : Countable String := Function.Injective.countable (f := String.toList) fun _ _ h =>
  String.toList_inj.mp h

/-- The payload of an operation commit. -/
inductive Payload (ω : Type)
  /-- A single operation. -/
  | one (op : ω)
  /-- A list of operations. -/
  | many (ops : List ω)
  deriving DecidableEq, Repr, Countable

/-- The operations of a payload. -/
def Payload.ops {ω : Type} : Payload ω → List ω
  | .one op => [op]
  | .many ops => ops

/-- What the content id of a commit hashes, over operations `ω`, fingerprints `φ` and content ids
`γ`. -/
inductive Preimage (ω φ γ : Type)
  /-- A parentless commit. -/
  | root
  /-- An authored commit. -/
  | authored (parents : List γ) (replica : String) (seq : ℕ) (payload : Payload ω)
  /-- A compaction: the fingerprint of the state is hashed. -/
  | compact (parents : List γ) (fp : φ)
  /-- A compaction whose parent is `null`. -/
  | orphan (fp : φ)
  /-- A merge, with the ids of the parents sorted. -/
  | merge (parents : List γ)
  deriving DecidableEq, Countable

/-- The name of an epoch. -/
inductive EpochKey (γ : Type)
  /-- The cut with these settled ids, ascending. The empty cut is the uncompacted epoch. -/
  | cut (ids : List ℕ)
  /-- The frame of a compaction commit. -/
  | frame (gid : γ)
  /-- The key `null`, under which a compaction without a content id is registered. -/
  | null
  deriving DecidableEq

/-- The uncompacted epoch `EPOCH0`. -/
def EPOCH0 {γ : Type} : EpochKey γ := .cut []

/-- A collision-free hash. Besides content ids it signs the boundaries of collected histories. -/
structure ContentHash (ω φ γ : Type) where
  /-- The content id of a preimage. -/
  digest : Preimage ω φ γ → γ
  /-- Different preimages have different ids. -/
  injective : Function.Injective digest
  /-- The proof of a boundary: its id, its epoch, the fingerprint of its state, and the roster. -/
  certify : γ → EpochKey γ → φ → List String → γ

variable {ω φ γ : Type}

/-- The content ids of the parents that a preimage names. -/
def Preimage.parents : Preimage ω φ γ → List γ
  | .root => []
  | .authored p _ _ _ => p
  | .compact p _ => p
  | .orphan _ => []
  | .merge p => p

/-- The operations that a preimage carries. -/
def Preimage.ops : Preimage ω φ γ → List ω
  | .authored _ _ _ payload => payload.ops
  | _ => []

namespace ContentHash

variable (H : ContentHash ω φ γ)

/-- `p` is a parent of `g`. -/
def Par (g p : γ) : Prop := ∃ pre, H.digest pre = g ∧ p ∈ pre.parents

/-- `h` is a reflexive ancestor of `g`. -/
abbrev Reaches : γ → γ → Prop := Relation.ReflTransGen H.Par

theorem par_digest_iff {pre : Preimage ω φ γ} {p : γ} :
    H.Par (H.digest pre) p ↔ p ∈ pre.parents := by
  constructor
  · rintro ⟨pre', h, hp⟩
    exact H.injective h ▸ hp
  · exact fun hp => ⟨pre, rfl, hp⟩

theorem reaches_digest_iff {pre : Preimage ω φ γ} {h : γ} :
    H.Reaches (H.digest pre) h ↔ h = H.digest pre ∨ ∃ p ∈ pre.parents, H.Reaches p h := by
  refine Relation.ReflTransGen.cases_head_iff.trans ?_
  simp only [par_digest_iff, eq_comm]

/-- The hash that numbers the preimages of a table in its order, and all others after them. -/
noncomputable def ofTable {ω φ : Type} [DecidableEq ω] [DecidableEq φ] [Countable ω] [Countable φ]
    (table : List (Preimage ω φ ℕ)) : ContentHash ω φ ℕ where
  digest p :=
    if p ∈ table then table.idxOf p
    else table.length + (Encodable.ofCountable (Preimage ω φ ℕ)).encode p
  injective p q h := by
    let _ : Encodable (Preimage ω φ ℕ) := Encodable.ofCountable _
    change (if p ∈ table then table.idxOf p else table.length + Encodable.encode p) =
      (if q ∈ table then table.idxOf q else table.length + Encodable.encode q) at h
    split_ifs at h with hp hq hq
    · exact (List.idxOf_inj hp).mp h
    · have := List.idxOf_lt_length_iff.mpr hp
      omega
    · have := List.idxOf_lt_length_iff.mpr hq
      omega
    · exact Encodable.encode_injective (Nat.add_left_cancel h)
  certify g _ _ _ := g

end ContentHash

end SalRuntime
