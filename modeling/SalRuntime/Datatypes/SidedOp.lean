import SalRuntime.Datatypes.EliasDelta
import SalRuntime.Datatypes.SeqOp
import SalRuntime.Foundations.InOrder
import SalRuntime.Foundations.SortedMap

/-!
# Sided operations and chains

What the sided kernels of `src/datatypes/` share: operations whose insertions are placed on a side
of a parent, chains of such placements, and the coordinates of chains. The symbols of a right step
are below the sentinel and those of a left step above it, so that a chain is displayed below its
left descendants and above its right ones.

Bulk scans visit a persistent map in the order of its trie, which is that of the hashes of the
keys.

## Main definitions

* `Placement`, `SidedOp` — insertions on a side of a parent, and the operations.
* `Link`, `Chain` — the steps from the root to a node.
* `block`, `coord`, `coordKey` — the coordinate of a chain and its key.
* `eachEntry` — the entries of a map in the order of a bulk scan.
* `Spaced` — a tree of chains in which siblings on a side have different deltas.

## Main results

* `Spaced.inOrderKey` — the coordinates of the chains of such a tree are ordered in-order.
-/

namespace SalRuntime

variable {α : Type} {V : Type*}

/-! ### Bulk scans -/

/-- The finalizer of the integer hash. -/
def mix (h : UInt32) : UInt32 :=
  let h := h ^^^ (h >>> 16)
  let h := h * 0x85ebca6b
  let h := h ^^^ (h >>> 13)
  let h := h * 0xc2b2ae35
  h ^^^ (h >>> 16)

/-- The hash of an integer key. -/
def hashKey (k : ℕ) : UInt32 :=
  mix (UInt32.ofNat k ^^^ (UInt32.ofNat (k / 2 ^ 32) * 0x9e3779b9))

/-- The branches from the root of the trie to a key, five bits of the hash at a time. -/
def triePath (k : ℕ) : List ℕ :=
  (List.range 7).map fun i => (hashKey k).toNat / 32 ^ i % 32

/-- The entries in the order of a bulk scan. Keys with equal hashes share a bucket; they are
listed in ascending order. -/
def eachEntry (m : SortedMap ℕ V) : List (ℕ × V) :=
  m.entries.insertionSort fun e f => triePath e.1 ≤ triePath f.1

theorem mem_eachEntry {m : SortedMap ℕ V} {e : ℕ × V} :
    e ∈ eachEntry m ↔ m.get? e.1 = some e.2 := by
  rw [eachEntry, List.mem_insertionSort, ← SortedMap.mem_entries_iff]

theorem nodup_keys_eachEntry (m : SortedMap ℕ V) : ((eachEntry m).map Prod.fst).Nodup :=
  ((List.perm_insertionSort _ _).map Prod.fst).nodup_iff.mpr m.nodup_keys

/-! ### Operations -/

/-- The side of a parent. -/
inductive FugueSide
  /-- Before the parent. -/
  | L
  /-- After the parent. -/
  | R
  deriving DecidableEq, Repr

/-- The place of an insertion under a given id: a side of a smaller parent. -/
structure Placement (id : ℕ) where
  /-- The side. -/
  side : FugueSide
  /-- The parent, or none for the root. -/
  parentId : Option ℕ
  /-- The distance from the parent is positive. -/
  lt : parentId.getD 0 < id
  deriving DecidableEq, Repr

/-- An operation of a sided kernel. An insertion is placed when it is prepared. -/
inductive SidedOp (α : Type)
  /-- Insert an element under an id, after an anchor or at the root. -/
  | ins (id : ℕ) (el : α) (anchorId : Option ℕ) (placed : Option (Placement id))
  /-- Delete an id. -/
  | del (id : ℕ)

/-- The id of an insertion. -/
def SidedOp.insId : SidedOp α → Option ℕ
  | .ins id _ _ _ => some id
  | .del _ => none

/-- The sequence operation, without the place of an insertion. -/
def SidedOp.toSeq : SidedOp α → SeqOp α
  | .ins id el anchorId _ => .ins id el anchorId
  | .del id => .del id

/-- The operation of an author, which is not yet placed. -/
def SidedOp.ofSeq : SeqOp α → SidedOp α
  | .ins id el anchorId => .ins id el anchorId none
  | .del id => .del id

@[simp] theorem SidedOp.toSeq_ofSeq (op : SeqOp α) : (SidedOp.ofSeq op).toSeq = op := by
  cases op <;> rfl

/-- An optional id as it is printed. -/
def showId : Option ℕ → String
  | none => "null"
  | some id => toString id

/-- The side on which an insertion after an anchor is placed, by the observation of the gap: on the
left of the successor when the anchor has a right child. -/
def mintSide (hasR : Bool) (succId : Option ℕ) : FugueSide :=
  if hasR && succId.isSome then .L else .R

/-- The parent of an insertion on a side. -/
def mintParent (succId anchorId : Option ℕ) : FugueSide → Option ℕ
  | .L => succId
  | .R => anchorId

/-! ### Chains -/

/-- A step of a chain. The label tells nodes apart that have the same place. -/
structure Link where
  /-- The side of the parent. -/
  side : FugueSide
  /-- The distance from the parent. -/
  delta : ℕ
  /-- The label. -/
  label : ℕ
  deriving DecidableEq, Repr

/-- Is the step to the left? -/
def Link.isLeft (x : Link) : Bool := x.side = .L

theorem Link.isLeft_iff {x : Link} : x.isLeft = true ↔ x.side = .L := decide_eq_true_iff

theorem Link.isLeft_eq_false_iff {x : Link} : x.isLeft = false ↔ x.side = .R := by
  rw [Link.isLeft, decide_eq_false_iff_not]
  cases x.side <;> simp

/-- A chain: the steps from the root to a node. The empty chain is `null`. -/
abbrev Chain := List Link

instance instLawfulBEqChain : LawfulBEq Chain := inferInstance

/-- The symbols of a step. -/
def block (side : FugueSide) (delta : ℕ) : List ℕ :=
  (dEnc delta).map fun b =>
    match side with
    | .R => if b then 2 else 1
    | .L => if b then 4 else 5

/-- The coordinate of a chain. -/
def coord (c : Chain) : List ℕ := c.flatMap fun x => block x.side x.delta

/-- The key of a coordinate: the symbols, with the sentinel at the end. -/
def sentinel (xs : List ℕ) : List ℕ := xs ++ [3]

/-- The key of a chain. -/
def coordKey (c : Chain) : List ℕ := sentinel (coord c)

/-- The key of the last step of a chain. -/
def blockKey (c : Chain) : List ℕ :=
  match c.getLast? with
  | some x => sentinel (block x.side x.delta)
  | none => sentinel []

@[simp] theorem coord_nil : coord [] = [] := rfl

@[simp] theorem coord_append (c d : Chain) : coord (c ++ d) = coord c ++ coord d :=
  List.flatMap_append

@[simp] theorem coord_cons (x : Link) (c : Chain) :
    coord (x :: c) = block x.side x.delta ++ coord c := List.flatMap_cons

@[simp] theorem blockKey_concat (c : Chain) (x : Link) :
    blockKey (c ++ [x]) = sentinel (block x.side x.delta) := by
  rw [blockKey, List.getLast?_concat]

theorem append_lt_append_left_iff (p : List ℕ) {a b : List ℕ} : p ++ a < p ++ b ↔ a < b := by
  induction p with
  | nil => rfl
  | cons x p ih => simp [ih]

/-- The keys of siblings are ordered like the keys of their last steps. -/
theorem coordKey_concat_lt_iff (c : Chain) (x y : Link) :
    coordKey (c ++ [y]) < coordKey (c ++ [x]) ↔
      sentinel (block y.side y.delta) < sentinel (block x.side x.delta) := by
  simp only [coordKey, sentinel, coord_append, coord_cons, List.append_assoc,
    append_lt_append_left_iff, coord_nil, List.nil_append]

/-- The strings differ at a position. -/
def Parted (a b : List ℕ) : Prop := ∃ p s t x y, a = p ++ s :: x ∧ b = p ++ t :: y ∧ s ≠ t

theorem Parted.symm {a b : List ℕ} (h : Parted a b) : Parted b a := by
  obtain ⟨p, s, t, x, y, ha, hb, hst⟩ := h
  exact ⟨p, t, s, y, x, hb, ha, hst.symm⟩

/-- Extensions of strings that differ at a position are ordered like the strings. -/
theorem Parted.append_lt_iff {a b : List ℕ} (h : Parted a b) (u v u' v' : List ℕ) :
    a ++ u < b ++ v ↔ a ++ u' < b ++ v' := by
  obtain ⟨p, s, t, x, y, rfl, rfl, hst⟩ := h
  simp only [List.append_assoc, append_lt_append_left_iff, List.cons_append,
    List.cons_lt_cons_iff, hst, false_and, or_false]

theorem Parted.ne {a b : List ℕ} (h : Parted a b) (u v : List ℕ) : a ++ u ≠ b ++ v := by
  obtain ⟨p, s, t, x, y, rfl, rfl, hst⟩ := h
  simp [hst]

/-- The first symbol of a right step is below the sentinel, that of a left step above it. -/
theorem exists_block_eq_cons (side : FugueSide) {delta : ℕ} (h : 1 ≤ delta) : ∃ s xs,
    block side delta = s :: xs ∧ (side = .L → 3 < s) ∧ (side = .R → s < 3) := by
  obtain ⟨b, bs, hb⟩ := List.exists_cons_of_ne_nil (orderedPrefixCode_dEnc.ne_nil h)
  cases side <;> cases b <;> exact ⟨_, _, by rw [block, hb]; rfl, by decide, by decide⟩

/-- Different steps have codes that differ at a position. -/
theorem parted_block {side side' : FugueSide} {delta delta' : ℕ} (h : 1 ≤ delta) (h' : 1 ≤ delta')
    (hne : side = side' → delta ≠ delta') : Parted (block side delta) (block side' delta') := by
  by_cases hside : side = side'
  · subst hside
    -- On the same side the codewords differ at a bit, and the bits have different symbols.
    have hbits {d e : ℕ} (hd : 1 ≤ d) (hlt : d < e) : Parted (block side d) (block side e) := by
      obtain ⟨p, x, y, hx, hy⟩ := orderedPrefixCode_dEnc.firstDiff d e hd hlt
      rw [block, block, hx, hy]
      cases side <;> exact ⟨_, _, _, _, _, List.map_append, List.map_append, by decide⟩
    rcases (hne rfl).lt_or_gt with hlt | hlt
    · exact hbits h hlt
    · exact (hbits h' hlt).symm
  · obtain ⟨s, xs, hs, hsL, hsR⟩ := exists_block_eq_cons side h
    obtain ⟨t, ys, ht, htL, htR⟩ := exists_block_eq_cons side' h'
    refine ⟨[], s, t, xs, ys, hs, ht, ?_⟩
    cases side <;> cases side' <;> simp at hside hsL hsR htL htR <;> omega

/-! ### Trees of chains -/

/-- A tree of chains: the distances are positive, and siblings on a side have different
distances. -/
structure Spaced (V : Set Chain) : Prop where
  /-- Nonempty prefixes of chains of the tree are in the tree. -/
  closed : ∀ c d, c ++ d ∈ V → c ≠ [] → c ∈ V
  /-- Distances are positive. -/
  pos : ∀ c x, c ++ [x] ∈ V → 1 ≤ x.delta
  /-- A place under a chain has one node. -/
  single : ∀ c x y, c ++ [x] ∈ V → c ++ [y] ∈ V → x.side = y.side → x.delta = y.delta → x = y

namespace Spaced

variable {V : Set Chain} (h : Spaced V)

include h

theorem parted {c : Chain} {x y : Link} (hx : c ++ [x] ∈ V) (hy : c ++ [y] ∈ V) (hne : x ≠ y) :
    Parted (block x.side x.delta) (block y.side y.delta) :=
  parted_block (h.pos c x hx) (h.pos c y hy) fun hside hdelta =>
    hne (h.single c x y hx hy hside hdelta)

theorem concat_mem {c : Chain} {x : Link} {d : Chain} (hd : c ++ x :: d ∈ V) : c ++ [x] ∈ V :=
  h.closed (c ++ [x]) d (by simpa using hd) (by simp)

/-- **The coordinates of a tree of chains are ordered in-order.** -/
theorem inOrderKey : InOrderKey V Link.isLeft coordKey where
  closed := h.closed
  left c x d hd hx := by
    obtain ⟨s, xs, hs, hL, -⟩ := exists_block_eq_cons x.side (h.pos c x (h.concat_mem hd))
    have hlt := hL (Link.isLeft_iff.mp hx)
    simp only [coordKey, sentinel, coord_append, coord_cons, List.append_assoc, hs,
      append_lt_append_left_iff, List.cons_append, List.cons_lt_cons_iff]
    exact Or.inl hlt
  right c x d hd hx := by
    obtain ⟨s, xs, hs, -, hR⟩ := exists_block_eq_cons x.side (h.pos c x (h.concat_mem hd))
    have hlt := hR (Link.isLeft_eq_false_iff.mp hx)
    simp only [coordKey, sentinel, coord_append, coord_cons, List.append_assoc, hs,
      append_lt_append_left_iff, List.cons_append, List.cons_lt_cons_iff]
    exact Or.inl hlt
  apart c x y d e hd he hlt := by
    have hne : y ≠ x := by
      rintro rfl
      exact lt_irrefl _ hlt
    have hparted := h.parted (h.concat_mem he) (h.concat_mem hd) hne
    simp only [coordKey, sentinel, coord_append, coord_cons, List.append_assoc,
      append_lt_append_left_iff] at hlt ⊢
    exact (hparted.append_lt_iff _ _ _ _).mp hlt

/-- Siblings have different keys of their last steps. -/
theorem blockKey_ne {c : Chain} {x y : Link} (hx : c ++ [x] ∈ V) (hy : c ++ [y] ∈ V) (hne : x ≠ y) :
    blockKey (c ++ [x]) ≠ blockKey (c ++ [y]) := by
  rw [blockKey_concat, blockKey_concat]
  exact (h.parted hx hy hne).ne _ _

/-- Siblings by descending keys of their last steps are by descending keys. -/
theorem pairwise_coordKey {c : Chain} {ks : List Chain} (hks : ∀ k ∈ ks, k ∈ V ∧ ∃ x, k = c ++ [x])
    (hnodup : ks.Nodup) (hsorted : ks.Pairwise fun k k' => blockKey k' ≤ blockKey k) :
    ks.Pairwise fun k k' => coordKey k' < coordKey k := by
  refine (hsorted.and hnodup).imp_of_mem fun {k k'} hk hk' hle => ?_
  obtain ⟨hkV, x, rfl⟩ := hks k hk
  obtain ⟨hkV', y, rfl⟩ := hks k' hk'
  have hne : x ≠ y := fun heq => hle.2 (by rw [heq])
  have hlt := lt_of_le_of_ne hle.1 (h.blockKey_ne hkV hkV' hne).symm
  rw [blockKey_concat, blockKey_concat] at hlt
  exact (coordKey_concat_lt_iff c x y).mpr hlt

theorem coordKey_ne_extend {c : Chain} {x : Link} {d : Chain} (hd : c ++ x :: d ∈ V) :
    coordKey c ≠ coordKey (c ++ x :: d) := by
  cases hx : x.isLeft with
  | true => exact (h.inOrderKey.left c x d hd hx).ne
  | false => exact (h.inOrderKey.right c x d hd hx).ne'

/-- **Chains with the same key are equal.** -/
theorem eq_of_coordKey_eq {p c d : Chain} (hc : c = [] ∨ p ++ c ∈ V) (hd : d = [] ∨ p ++ d ∈ V)
    (heq : coordKey (p ++ c) = coordKey (p ++ d)) : c = d := by
  induction c generalizing p d with
  | nil =>
    cases d with
    | nil => rfl
    | cons y d =>
      rw [List.append_nil] at heq
      exact absurd heq (h.coordKey_ne_extend (hd.resolve_left (by simp)))
  | cons x c ih =>
    have hc := hc.resolve_left (by simp)
    cases d with
    | nil =>
      rw [List.append_nil] at heq
      exact absurd heq.symm (h.coordKey_ne_extend hc)
    | cons y d =>
      have hd := hd.resolve_left (by simp)
      by_cases hxy : x = y
      · subst hxy
        rw [List.append_cons p x c] at hc heq
        rw [List.append_cons p x d] at hd heq
        rw [ih (Or.inr hc) (Or.inr hd) heq]
      · have hparted := h.parted (h.concat_mem hc) (h.concat_mem hd) hxy
        simp only [coordKey, sentinel, coord_append, coord_cons, List.append_assoc,
          List.append_cancel_left_eq] at heq
        exact absurd heq (hparted.ne _ _)

/-- A tree can be listed by descending keys. -/
theorem exists_sorted {chains : List Chain} (hmem : ∀ c, c ∈ chains ↔ c ∈ V)
    (hnodup : chains.Nodup) : ∃ S : List Chain, (S.Pairwise fun c d => coordKey d < coordKey c) ∧
      (∀ c, c ∈ S ↔ c ∈ V) ∧ S.length = chains.length := by
  have htotal : Std.Total fun c d : Chain => coordKey d ≤ coordKey c := ⟨fun _ _ => le_total _ _⟩
  have htrans : IsTrans Chain fun c d => coordKey d ≤ coordKey c := ⟨fun _ _ _ h h' => h'.trans h⟩
  refine ⟨chains.insertionSort fun c d => coordKey d ≤ coordKey c, ?_, fun c => ?_,
    List.length_insertionSort ..⟩
  · have hsorted := List.pairwise_insertionSort (fun c d : Chain => coordKey d ≤ coordKey c) chains
    have hnodup' := (List.perm_insertionSort (fun c d : Chain => coordKey d ≤ coordKey c)
      chains).nodup_iff.mpr hnodup
    refine (hsorted.and hnodup').imp_of_mem fun {c d} hc hd hle => lt_of_le_of_ne hle.1 fun heq => ?_
    rw [List.mem_insertionSort, hmem] at hc hd
    exact hle.2 (h.eq_of_coordKey_eq (p := []) (Or.inr hc) (Or.inr hd) heq.symm)
  · rw [List.mem_insertionSort, hmem]

theorem subset {V' : Set Chain} (hsub : V' ⊆ V) (hclosed : ∀ c d, c ++ d ∈ V' → c ≠ [] → c ∈ V') :
    Spaced V' where
  closed := hclosed
  pos c x hx := h.pos c x (hsub hx)
  single c x y hx hy := h.single c x y (hsub hx) (hsub hy)

end Spaced

end SalRuntime
