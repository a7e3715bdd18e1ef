import Mathlib.Logic.Function.Basic
import SalRuntime.Foundations.Effect
import SalRuntime.Pmap.Bitmap

/-!
# The nodes of the trie

The nodes are objects in a heap, and a node holds the addresses of its kids. Every node carries the
token of the transient that made it, or none. A transient writes into the nodes that carry its own
token and copies all others, so that a node can be shared by any number of versions of a map.

The recursion of the source follows the trie. The definitions count the calls that are left, and a
run that would exceed them is a fault.

## Main definitions

* `Node`, `Heap` — the objects and where they live.
* `editable` — a node that the transient may write into.
* `mergeLeaves`, `assoc`, `dissoc` — the insertion and the removal of a key.
* `nodeGet`, `forEachNode` — the value of a key and the entries in hash order.
-/

namespace SalRuntime

namespace PMap

variable {κ α : Type}

/-- An object of the trie. `edit` is the ownership token. -/
inductive Node (κ α : Type)
  /-- One entry. -/
  | leaf (edit : Option ℕ) (h : UInt32) (k : κ) (v : α)
  /-- The entries whose keys have the hash `h`. -/
  | cnode (edit : Option ℕ) (h : UInt32) (keys : List κ) (vals : List α)
  /-- A branch with the addresses of its kids. -/
  | bnode (edit : Option ℕ) (bitmap : UInt32) (arr : List ℕ)

namespace Node

/-- The token of the node. -/
def edit : Node κ α → Option ℕ
  | leaf edit _ _ _ => edit
  | cnode edit _ _ _ => edit
  | bnode edit _ _ => edit

/-- The copy of the node with another token. -/
def withEdit (edit : Option ℕ) : Node κ α → Node κ α
  | leaf _ h k v => leaf edit h k v
  | cnode _ h keys vals => cnode edit h keys vals
  | bnode _ bitmap arr => bnode edit bitmap arr

/-- The node is a branch. -/
def isB : Node κ α → Bool
  | bnode _ _ _ => true
  | _ => false

@[simp] theorem edit_withEdit (edit : Option ℕ) (n : Node κ α) : (n.withEdit edit).edit = edit := by
  cases n <;> rfl

@[simp] theorem isB_withEdit (edit : Option ℕ) (n : Node κ α) :
    (n.withEdit edit).isB = n.isB := by
  cases n <;> rfl

end Node

/-- The heap: the objects by their addresses, and the next free address. -/
structure Heap (κ α : Type) where
  /-- The next free address. -/
  next : ℕ
  /-- The objects. -/
  node : ℕ → Option (Node κ α)

namespace Heap

/-- The heap with the object `n` at the address `a`. -/
def put (H : Heap κ α) (a : ℕ) (n : Node κ α) : Heap κ α :=
  { H with node := Function.update H.node a (some n) }

/-- The heap with a new object. -/
def push (H : Heap κ α) (n : Node κ α) : Heap κ α :=
  ⟨H.next + 1, Function.update H.node H.next (some n)⟩

@[simp] theorem node_put_self (H : Heap κ α) (a : ℕ) (n : Node κ α) : (H.put a n).node a = some n :=
  Function.update_self a _ _

theorem node_put_of_ne (H : Heap κ α) {a x : ℕ} (n : Node κ α) (h : x ≠ a) :
    (H.put a n).node x = H.node x :=
  Function.update_of_ne h _ _

@[simp] theorem node_push_self (H : Heap κ α) (n : Node κ α) : (H.push n).node H.next = some n :=
  Function.update_self H.next _ _

theorem node_push_of_ne (H : Heap κ α) {x : ℕ} (n : Node κ α) (h : x ≠ H.next) :
    (H.push n).node x = H.node x :=
  Function.update_of_ne h _ _

/-- A write into a new object. -/
theorem put_push (H : Heap κ α) (n n' : Node κ α) : (H.push n).put H.next n' = H.push n' := by
  rw [put, push, push, Function.update_idem]

end Heap

/-- What can go wrong in a call. -/
inductive Fault
  /-- There is no such object, or not of the kind that is needed. -/
  | object
  /-- The recursion is too deep. -/
  | depth
  /-- The error `transient used after freeze()`. -/
  | frozen
  deriving DecidableEq, Repr

/-- The calls that change a heap. -/
abbrev Calls (κ α β : Type) := Effect (Heap κ α) Fault β

/-- The object at an address. -/
def load (H : Heap κ α) (a : ℕ) : Except Fault (Node κ α) :=
  match H.node a with
  | some n => .ok n
  | none => .error .object

/-- The address of a new object. -/
def alloc (n : Node κ α) : Calls κ α ℕ := do
  let H ← get
  set (H.push n)
  return H.next

/-- Writes an object. -/
def store (a : ℕ) (n : Node κ α) : Calls κ α Unit := modify fun H => H.put a n

/-- The transient with the token `edit` may write into a node with the token `e`. -/
def owns (edit e : Option ℕ) : Bool := edit.isSome && e == edit

/-- The node itself if the transient owns it, otherwise a copy. -/
def editable (a : ℕ) (edit : Option ℕ) : Calls κ α ℕ := do
  let n ← load (← get) a
  if owns edit n.edit then
    return a
  alloc (n.withEdit edit)

/-- Writes into the collision bucket at an address. -/
def writeC (a : ℕ) (f : List κ → List κ) (g : List α → List α) : Calls κ α Unit := do
  match ← load (← get) a with
  | .cnode e h keys vals => store a (.cnode e h (f keys) (g vals))
  | _ => throw .object

/-- Writes the address of a kid into the branch at an address. -/
def writeB (a pos nc : ℕ) : Calls κ α Unit := do
  match ← load (← get) a with
  | .bnode e bitmap arr => store a (.bnode e bitmap (arr.set pos nc))
  | _ => throw .object

/-- The hash of a leaf or a collision bucket. -/
def leafHash (H : Heap κ α) (a : ℕ) : Except Fault UInt32 := do
  match ← load H a with
  | .leaf _ h _ _ => return h
  | .cnode _ h _ _ => return h
  | .bnode _ _ _ => throw .object

/-- Branches from the level of `shift` on down to where the hashes of the leaves or buckets `a` and
`b` differ. -/
def mergeLeaves : ℕ → Option ℕ → ℕ → ℕ → ℕ → Calls κ α ℕ
  | 0, _, _, _, _ => throw .depth
  | fuel + 1, edit, shift, a, b => do
    let ia := chunk (← leafHash (← get) a) shift
    let ib := chunk (← leafHash (← get) b) shift
    if ia = ib then
      let kid ← mergeLeaves fuel edit (shift + BITS) a b
      alloc (.bnode edit (bitOf ia) [kid])
    else
      alloc (.bnode edit (bitOf ia ||| bitOf ib) (if ia < ib then [a, b] else [b, a]))

section Keys

variable [DecidableEq κ]

/-- The trie with the value `v` at `k`, and whether the key is new. -/
def assoc [DecidableEq α] : ℕ → Option ℕ → ℕ → UInt32 → κ → α → Option ℕ → Calls κ α (ℕ × Bool)
  | 0, _, _, _, _, _, _ => throw .depth
  | _ + 1, none, _, h, k, v, edit => do
    return (← alloc (.leaf edit h k v), true)
  | fuel + 1, some node, shift, h, k, v, edit => do
    match ← load (← get) node with
    | .leaf e h' k' v' =>
      if h' = h ∧ k' = k then
        if v' = v then
          return (node, false)
        if owns edit e then
          store node (.leaf e h' k' v)
          return (node, false)
        return (← alloc (.leaf edit h k v), false)
      if h' = h then
        return (← alloc (.cnode edit h [k', k] [v', v]), true)
      let leaf ← alloc (.leaf edit h k v)
      return (← mergeLeaves fuel edit shift node leaf, true)
    | .cnode _ h' keys vals =>
      if h' ≠ h then
        let leaf ← alloc (.leaf edit h k v)
        return (← mergeLeaves fuel edit shift node leaf, true)
      match keys.idxOf? k with
      | some i =>
        if vals[i]? = some v then
          return (node, false)
        let c ← editable node edit
        writeC c id fun vals => vals.set i v
        return (c, false)
      | none =>
        let c ← editable node edit
        writeC c (fun keys => keys ++ [k]) fun vals => vals ++ [v]
        return (c, true)
    | .bnode e bitmap arr =>
      let bit := bitOf (chunk h shift)
      let pos := place bitmap (chunk h shift)
      if bitmap &&& bit ≠ 0 then
        match arr[pos]? with
        | none => throw .object
        | some child =>
          let (nc, added) ← assoc fuel (some child) (shift + BITS) h k v edit
          if nc = child then
            return (node, added)
          let b ← editable node edit
          writeB b pos nc
          return (b, added)
      else
        let leaf ← alloc (.leaf edit h k v)
        if owns edit e then
          store node (.bnode e (bitmap ||| bit) (arr.take pos ++ leaf :: arr.drop pos))
          return (node, true)
        return (← alloc (.bnode edit (bitmap ||| bit) (arr.take pos ++ leaf :: arr.drop pos)), true)

/-- The other one of two kids, if it is a leaf or a bucket. -/
def survivor (H : Heap κ α) (arr : List ℕ) (pos : ℕ) : Except Fault (Option ℕ) := do
  if arr.length = 2 then
    match arr[1 - pos]? with
    | none => throw .object
    | some other => return if (← load H other).isB then none else some other
  else
    return none

/-- What a branch becomes when the removal of a key has turned its kid `child` at `pos` into
`nc`. -/
def dissocKid (node child : ℕ) (bit : UInt32) (pos : ℕ) (edit : Option ℕ) (nc : Option ℕ) :
    Calls κ α (Option ℕ) := do
  if nc = some child then
    return some node
  match ← load (← get) node with
  | .bnode e bitmap arr =>
    match nc with
    | none =>
      if arr.length = 1 then
        return none
      match ← survivor (← get) arr pos with
      | some other => return some other
      | none =>
        if owns edit e then
          store node (.bnode e (bitmap &&& ~~~bit) (arr.eraseIdx pos))
          return some node
        return some (← alloc (.bnode edit (bitmap &&& ~~~bit) (arr.eraseIdx pos)))
    | some nc =>
      if arr.length = 1 ∧ !(← load (← get) nc).isB then
        return some nc
      let b ← editable node edit
      writeB b pos nc
      return some b
  | _ => throw .object

/-- The trie without the key `k`, and whether the key was there. -/
def dissoc : ℕ → Option ℕ → ℕ → UInt32 → κ → Option ℕ → Calls κ α (Option ℕ × Bool)
  | 0, _, _, _, _, _ => throw .depth
  | _ + 1, none, _, _, _, _ => return (none, false)
  | fuel + 1, some node, shift, h, k, edit => do
    match ← load (← get) node with
    | .leaf _ h' k' _ =>
      if h' = h ∧ k' = k then
        return (none, true)
      return (some node, false)
    | .cnode _ h' keys vals =>
      if h' ≠ h then
        return (some node, false)
      match keys.idxOf? k with
      | none => return (some node, false)
      | some i =>
        if keys.length = 2 then
          match keys[1 - i]?, vals[1 - i]? with
          | some k', some v' => return (some (← alloc (.leaf edit h k' v')), true)
          | _, _ => throw .object
        else
          let c ← editable node edit
          writeC c (fun keys => keys.eraseIdx i) fun vals => vals.eraseIdx i
          return (some c, true)
    | .bnode _ bitmap arr =>
      let bit := bitOf (chunk h shift)
      if bitmap &&& bit = 0 then
        return (some node, false)
      let pos := place bitmap (chunk h shift)
      match arr[pos]? with
      | none => throw .object
      | some child =>
        let (nc, removed) ← dissoc fuel (some child) (shift + BITS) h k edit
        return (← dissocKid node child bit pos edit nc, removed)

/-- The value of a key. -/
def nodeGet (H : Heap κ α) : ℕ → Option ℕ → ℕ → UInt32 → κ → Except Fault (Option α)
  | 0, _, _, _, _ => throw .depth
  | _ + 1, none, _, _, _ => return none
  | fuel + 1, some node, shift, h, k => do
    match ← load H node with
    | .leaf _ h' k' v => return if h' = h ∧ k' = k then some v else none
    | .cnode _ h' keys vals =>
      if h' ≠ h then
        return none
      match keys.idxOf? k with
      | some i => return vals[i]?
      | none => return none
    | .bnode _ bitmap arr =>
      if bitmap &&& bitOf (chunk h shift) = 0 then
        return none
      match arr[place bitmap (chunk h shift)]? with
      | none => throw .object
      | some kid => nodeGet H fuel (some kid) (shift + BITS) h k

end Keys

/-- The entries in the order of the trie. -/
def forEachNode (H : Heap κ α) : ℕ → Option ℕ → Except Fault (List (κ × α))
  | 0, _ => throw .depth
  | _ + 1, none => return []
  | fuel + 1, some node => do
    match ← load H node with
    | .leaf _ _ k v => return [(k, v)]
    | .cnode _ _ keys vals => return keys.zip vals
    | .bnode _ _ arr => return (← arr.mapM fun kid => forEachNode H fuel (some kid)).flatten

end PMap

end SalRuntime
