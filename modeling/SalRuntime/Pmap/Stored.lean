import Mathlib.Data.Set.Disjoint
import Mathlib.Data.Set.Lattice
import Mathlib.Order.CompletePartialOrder
import SalRuntime.Pmap.Nodes

/-!
# Tries in the heap

The objects that are reached from an address store a trie. The invariant says more: the objects of a
trie form a tree, and their tokens satisfy a predicate, which for the versions of a map excludes the
tokens of the transients that are alive. A call writes into nodes that carry the token of its
transient, and such nodes lie in the trie of the call only, so every other trie is as before.

## Main definitions

* `Stored` — the trie that is stored at an address, and the addresses of its nodes.
* `Keeps` — the nodes of a heap are kept, except those of a set of addresses that carry a token.
* `Rewritten` — a node is written, or a copy of it.
* `Kids` — the kids of a stored branch.

## Main results

* `Stored.frame`, `Stored.unique` — a trie does not depend on other objects, and only one trie is
  stored at an address.
* `Kids.update`, `Kids.erase`, `Kids.rewritten` — a branch with one kid changed.
* `nodeGet_eq`, `forEachNode_eq` — what is read off the heap.
-/

namespace SalRuntime

namespace PMap

variable {κ α : Type}

/-- The tries with hashes of 32 bits. -/
abbrev Trie (κ α : Type) := HashTrie κ UInt32 α

/-- The trie that is stored at an address, in nodes whose tokens satisfy `P`, and the addresses of
these nodes. -/
inductive Stored (hash : κ → UInt32) (H : Heap κ α) (P : Option ℕ → Prop) :
    Trie κ α → ℕ → Set ℕ → Prop
  | leaf {a : ℕ} {e : Option ℕ} {k : κ} {v : α} (hnode : H.node a = some (.leaf e (hash k) k v))
      (he : P e) : Stored hash H P (.leaf k v) a {a}
  | bucket {a : ℕ} {e : Option ℕ} {h : UInt32} {keys : List κ} {vals : List α}
      (hnode : H.node a = some (.cnode e h keys vals)) (he : P e)
      (hlen : keys.length = vals.length) : Stored hash H P (.bucket h (keys.zip vals)) a {a}
  | branch {a : ℕ} {e : Option ℕ} {bitmap : UInt32} {kids : ℕ → Trie κ α} {kid : ℕ → ℕ}
      {fps : ℕ → Set ℕ} (hnode : H.node a = some (.bnode e bitmap (packed bitmap kid))) (he : P e)
      (hbits : ∀ i, bitmap.toNat.testBit i = true ↔ kids i ≠ .nil)
      (hkids : ∀ i, kids i ≠ .nil → Stored hash H P (kids i) (kid i) (fps i))
      (hself : ∀ i, kids i ≠ .nil → a ∉ fps i)
      (hdisj : ∀ i j, i ≠ j → kids i ≠ .nil → kids j ≠ .nil → Disjoint (fps i) (fps j)) :
      Stored hash H P (.branch kids) a {x | x = a ∨ ∃ i, kids i ≠ .nil ∧ x ∈ fps i}

namespace Stored

variable {hash : κ → UInt32} {H H' : Heap κ α} {P P' : Option ℕ → Prop} {t t' : Trie κ α} {a : ℕ}
  {fp fp' : Set ℕ}

theorem ne_nil (h : Stored hash H P t a fp) : t ≠ .nil := by
  cases h <;> exact nofun

theorem mem_self (h : Stored hash H P t a fp) : a ∈ fp := by
  cases h with
  | leaf => exact rfl
  | bucket => exact rfl
  | branch => exact Or.inl rfl

/-- The node at the root of a trie. -/
theorem root (h : Stored hash H P t a fp) :
    ∃ n, H.node a = some n ∧ P n.edit ∧ n.isB = t.isBranch := by
  cases h with
  | leaf hnode he => exact ⟨_, hnode, he, rfl⟩
  | bucket hnode he => exact ⟨_, hnode, he, rfl⟩
  | branch hnode he => exact ⟨_, hnode, he, rfl⟩

/-- The nodes of a trie. -/
theorem alive (h : Stored hash H P t a fp) : ∀ x ∈ fp, ∃ n, H.node x = some n ∧ P n.edit := by
  induction h with
  | leaf hnode he =>
    rintro x rfl
    exact ⟨_, hnode, he⟩
  | bucket hnode he =>
    rintro x rfl
    exact ⟨_, hnode, he⟩
  | branch hnode he _ _ _ _ ih =>
    rintro x (rfl | ⟨i, hi, hx⟩)
    · exact ⟨_, hnode, he⟩
    · exact ih i hi x hx

/-- **Frame.** A trie does not depend on the objects outside its nodes. -/
theorem frame (h : Stored hash H P t a fp) (heq : ∀ x ∈ fp, H'.node x = H.node x) :
    Stored hash H' P t a fp := by
  induction h with
  | leaf hnode he => exact .leaf ((heq _ rfl).trans hnode) he
  | bucket hnode he hlen => exact .bucket ((heq _ rfl).trans hnode) he hlen
  | branch hnode he hbits _ hself hdisj ih =>
    exact .branch ((heq _ (Or.inl rfl)).trans hnode) he hbits
      (fun i hi => ih i hi fun x hx => heq x (Or.inr ⟨i, hi, hx⟩)) hself hdisj

theorem mono (h : Stored hash H P t a fp)
    (himp : ∀ x n, H.node x = some n → P n.edit → P' n.edit) : Stored hash H P' t a fp := by
  induction h with
  | leaf hnode he => exact .leaf hnode (himp _ _ hnode he)
  | bucket hnode he hlen => exact .bucket hnode (himp _ _ hnode he) hlen
  | branch hnode he hbits _ hself hdisj ih =>
    exact .branch hnode (himp _ _ hnode he) hbits ih hself hdisj

/-- Only one trie is stored at an address. -/
theorem unique (h : Stored hash H P t a fp) (h' : Stored hash H P' t' a fp') : t = t' := by
  induction h generalizing t' fp' with
  | leaf hnode he =>
    cases h' with
    | leaf hnode' he' =>
      rw [hnode, Option.some.injEq, Node.leaf.injEq] at hnode'
      obtain ⟨-, -, rfl, rfl⟩ := hnode'
      rfl
    | bucket hnode' he' hlen' =>
      rw [hnode] at hnode'
      cases hnode'
    | branch hnode' he' hbits' hkids' hself' hdisj' =>
      rw [hnode] at hnode'
      cases hnode'
  | bucket hnode he hlen =>
    cases h' with
    | leaf hnode' he' =>
      rw [hnode] at hnode'
      cases hnode'
    | bucket hnode' he' hlen' =>
      rw [hnode, Option.some.injEq, Node.cnode.injEq] at hnode'
      obtain ⟨-, rfl, rfl, rfl⟩ := hnode'
      rfl
    | branch hnode' he' hbits' hkids' hself' hdisj' =>
      rw [hnode] at hnode'
      cases hnode'
  | @branch a e bitmap kids kid fps hnode he hbits hkids hself hdisj ih =>
    cases h' with
    | leaf hnode' he' =>
      rw [hnode] at hnode'
      cases hnode'
    | bucket hnode' he' hlen' =>
      rw [hnode] at hnode'
      cases hnode'
    | @branch _ _ _ kids' kid' _ hnode' he' hbits' hkids' hself' hdisj' =>
      rw [hnode, Option.some.injEq, Node.bnode.injEq] at hnode'
      obtain ⟨-, rfl, harr⟩ := hnode'
      refine congrArg _ (funext fun i => ?_)
      by_cases hi : bitmap.toNat.testBit i = true
      · have hmem : i ∈ bits bitmap := mem_bits.mpr ⟨lt_of_testBit hi, hi⟩
        have hkid : kid i = kid' i := List.map_inj_left.mp harr i hmem
        exact ih i ((hbits i).mp hi) (hkid ▸ hkids' i ((hbits' i).mp hi))
      · have hnil : kids i = .nil := by
          by_contra hne
          exact hi ((hbits i).mpr hne)
        have hnil' : kids' i = .nil := by
          by_contra hne
          exact hi ((hbits' i).mpr hne)
        rw [hnil, hnil']

end Stored

/-! ### What a call keeps -/

/-- All objects lie below the next free address. -/
def Heap.Bounded (H : Heap κ α) : Prop := ∀ x n, H.node x = some n → x < H.next

/-- From `H` to `H'` all nodes are kept, except that those in `F` with the token `edit` may have
been written; new nodes carry this token. -/
structure Keeps (edit : Option ℕ) (F : Set ℕ) (H H' : Heap κ α) : Prop where
  node : ∀ x n, H.node x = some n → (x ∈ F → owns edit n.edit = false) → H'.node x = some n
  kind : ∀ x n, H.node x = some n → ∃ n', H'.node x = some n' ∧ n'.edit = n.edit ∧ n'.isB = n.isB
  next : H.next ≤ H'.next
  bounded : H'.Bounded
  token : ∀ x n', H'.node x = some n' → n'.edit = edit ∨ ∃ n, H.node x = some n ∧ n.edit = n'.edit

namespace Keeps

variable {edit : Option ℕ} {F F' : Set ℕ} {H H' H'' : Heap κ α}

theorem refl (h : H.Bounded) : Keeps edit F H H where
  node _ _ hn _ := hn
  kind _ n hn := ⟨n, hn, rfl, rfl⟩
  next := Nat.le_refl _
  bounded := h
  token _ n hn := Or.inr ⟨n, hn, rfl⟩

theorem mono (h : Keeps edit F H H') (hF : ∀ x ∈ F, x ∈ F' ∨ H.next ≤ x) (hb : H.Bounded) :
    Keeps edit F' H H' :=
  { h with
    node := fun x n hn hx => h.node x n hn fun hxF => hx <| (hF x hxF).resolve_right <| by
      have := hb x n hn
      omega }

/-- **Composition.** The second call may also write into what the first one has made. -/
theorem trans (h : Keeps edit F H H') (h' : Keeps edit F' H' H'') (hb : H.Bounded)
    (hF : ∀ x ∈ F', x ∈ F ∨ H.next ≤ x) : Keeps edit F H H'' where
  node x n hn hx := by
    refine h'.node x n (h.node x n hn hx) fun hxF' => hx <| (hF x hxF').resolve_right ?_
    have := hb x n hn
    omega
  kind x n hn := by
    obtain ⟨n', hn', he', hk'⟩ := h.kind x n hn
    obtain ⟨n'', hn'', he'', hk''⟩ := h'.kind x n' hn'
    exact ⟨n'', hn'', he''.trans he', hk''.trans hk'⟩
  next := h.next.trans h'.next
  bounded := h'.bounded
  token x n hn := by
    rcases h'.token x n hn with he | ⟨n', hn', he'⟩
    · exact Or.inl he
    · rcases h.token x n' hn' with he | ⟨n'', hn'', he''⟩
      · exact Or.inl (he'.symm.trans he)
      · exact Or.inr ⟨n'', hn'', he''.trans he'⟩

/-- A new node. -/
theorem push (hb : H.Bounded) {n : Node κ α} (hn : n.edit = edit) : Keeps edit F H (H.push n) where
  node x n' hn' _ := by
    rw [H.node_push_of_ne n (hb x n' hn').ne, hn']
  kind x n' hn' := by
    exact ⟨n', by rw [H.node_push_of_ne n (hb x n' hn').ne, hn'], rfl, rfl⟩
  next := Nat.le_succ _
  bounded x n' hn' := by
    by_cases hx : x = H.next
    · rw [hx]
      exact Nat.lt_succ_self _
    · rw [H.node_push_of_ne n hx] at hn'
      exact Nat.lt_succ_of_lt (hb x n' hn')
  token x n' hn' := by
    by_cases hx : x = H.next
    · rw [hx, H.node_push_self, Option.some.injEq] at hn'
      exact Or.inl (hn' ▸ hn)
    · rw [H.node_push_of_ne n hx] at hn'
      exact Or.inr ⟨n', hn', rfl⟩

/-- A write into an own node. -/
theorem put (hb : H.Bounded) {a : ℕ} {n n' : Node κ α} (hn : H.node a = some n) (ha : a ∈ F)
    (howns : owns edit n.edit = true) (hedit : n'.edit = n.edit) (hkind : n'.isB = n.isB) :
    Keeps edit F H (H.put a n') where
  node x m hm hx := by
    have hne : x ≠ a := by
      rintro rfl
      rw [hn] at hm
      cases hm
      rw [hx ha] at howns
      cases howns
    rw [H.node_put_of_ne n' hne, hm]
  kind x m hm := by
    by_cases hx : x = a
    · subst hx
      rw [hn] at hm
      cases hm
      exact ⟨n', H.node_put_self x n', hedit, hkind⟩
    · exact ⟨m, by rw [H.node_put_of_ne n' hx, hm], rfl, rfl⟩
  next := Nat.le_refl _
  bounded x m hm := by
    by_cases hx : x = a
    · rw [hx]
      exact hb a n hn
    · rw [H.node_put_of_ne n' hx] at hm
      exact hb x m hm
  token x m hm := by
    by_cases hx : x = a
    · subst hx
      rw [H.node_put_self, Option.some.injEq] at hm
      exact Or.inr ⟨n, hn, by rw [← hm, hedit]⟩
    · rw [H.node_put_of_ne n' hx] at hm
      exact Or.inr ⟨m, hm, rfl⟩

end Keeps

namespace Stored

variable {hash : κ → UInt32} {H H' : Heap κ α} {P : Option ℕ → Prop} {t : Trie κ α} {a : ℕ}
  {fp F : Set ℕ} {edit : Option ℕ}

theorem lt_next (h : Stored hash H P t a fp) (hb : H.Bounded) : ∀ x ∈ fp, x < H.next := by
  intro x hx
  obtain ⟨n, hn, -⟩ := h.alive x hx
  exact hb x n hn

/-- A call with another footprint keeps the trie. -/
theorem keeps (h : Stored hash H P t a fp) (hk : Keeps edit F H H')
    (hF : ∀ x ∈ fp, x ∈ F → ∀ n, H.node x = some n → owns edit n.edit = false) :
    Stored hash H' P t a fp :=
  h.frame fun x hx => by
    obtain ⟨n, hn, -⟩ := h.alive x hx
    rw [hn, hk.node x n hn fun hxF => hF x hx hxF n hn]

end Stored

/-! ### Writes that copy what is not owned -/

/-- The node `n`, with the token that fits, in place of the node `a`, which carries the token `e`:
in an own node, or in a new one. -/
def Rewritten (edit : Option ℕ) (H : Heap κ α) (a : ℕ) (e : Option ℕ) (n : Node κ α) (b : ℕ)
    (H' : Heap κ α) : Prop :=
  (owns edit e = true ∧ b = a ∧ H' = H.put a (n.withEdit e)) ∨
    (b = H.next ∧ H' = H.push (n.withEdit edit))

namespace Rewritten

variable {edit e : Option ℕ} {H H' : Heap κ α} {a b : ℕ} {n n₀ : Node κ α}

theorem node (h : Rewritten edit H a e n b H') :
    ∃ e', (e' = e ∨ e' = edit) ∧ H'.node b = some (n.withEdit e') := by
  rcases h with ⟨-, rfl, rfl⟩ | ⟨rfl, rfl⟩
  · exact ⟨e, Or.inl rfl, H.node_put_self _ _⟩
  · exact ⟨edit, Or.inr rfl, H.node_push_self _⟩

theorem node_of_ne (h : Rewritten edit H a e n b H') {x : ℕ} (hx : x ≠ b) :
    H'.node x = H.node x := by
  rcases h with ⟨-, rfl, rfl⟩ | ⟨rfl, rfl⟩
  · exact H.node_put_of_ne _ hx
  · exact H.node_push_of_ne _ hx

theorem eq_or_fresh (h : Rewritten edit H a e n b H') : b = a ∨ b = H.next := by
  rcases h with ⟨-, rfl, -⟩ | ⟨rfl, -⟩
  · exact Or.inl rfl
  · exact Or.inr rfl

theorem keeps (h : Rewritten edit H a e n b H') (hb : H.Bounded) (hn : H.node a = some n₀)
    (he : n₀.edit = e) (hkind : n.isB = n₀.isB) {F : Set ℕ} (ha : a ∈ F) : Keeps edit F H H' := by
  rcases h with ⟨howns, rfl, rfl⟩ | ⟨rfl, rfl⟩
  · exact Keeps.put hb hn ha (he ▸ howns) (by rw [Node.edit_withEdit, he])
      (by rw [Node.isB_withEdit, hkind])
  · exact Keeps.push hb (Node.edit_withEdit _ _)

end Rewritten

theorem Rewritten.token {edit e e' : Option ℕ} {P : Option ℕ → Prop} (he : P e) (hP : P edit)
    (h : e' = e ∨ e' = edit) : P e' := by
  rcases h with rfl | rfl
  · exact he
  · exact hP

/-! ### The calls on one object -/

section Objects

variable {edit e : Option ℕ} {H : Heap κ α} {a : ℕ}

theorem load_eq {n : Node κ α} (h : H.node a = some n) : load H a = .ok n := by
  rw [load, h]

open Effect

theorem exec_alloc (n : Node κ α) (H : Heap κ α) : exec (alloc n) H = (.ok H.next, H.push n) := rfl

theorem exec_store (n : Node κ α) (H : Heap κ α) : exec (store a n) H = (.ok (), H.put a n) := rfl

theorem exec_load {β : Type} {n : Node κ α} (h : H.node a = some n) (f : Node κ α → Calls κ α β) :
    exec (get >>= fun H => liftM (load H a) >>= f) H = exec (f n) H := by
  rw [exec_bind_ok (exec_get H), exec_bind_ok ((exec_lift _ H).trans (by rw [load_eq h]))]

theorem exec_editable {n : Node κ α} (h : H.node a = some n) :
    exec (editable a edit) H = if owns edit n.edit then (.ok a, H)
      else (.ok H.next, H.push (n.withEdit edit)) := by
  rw [editable, exec_load h]
  split_ifs
  · rfl
  · rfl

/-- A collision bucket is written, or a copy of it. -/
theorem exec_editable_writeC (edit : Option ℕ) {h : UInt32} {keys : List κ} {vals : List α}
    (hnode : H.node a = some (.cnode e h keys vals)) (f : List κ → List κ) (g : List α → List α) :
    ∃ b H₁ H', exec (editable a edit) H = (.ok b, H₁) ∧ exec (writeC b f g) H₁ = (.ok (), H') ∧
      Rewritten edit H a e (.cnode e h (f keys) (g vals)) b H' := by
  by_cases ho : owns edit e = true
  · refine ⟨a, H, _, (exec_editable hnode).trans (if_pos ho), ?_, Or.inl ⟨ho, rfl, rfl⟩⟩
    rw [writeC, exec_load hnode]
    rfl
  · refine ⟨H.next, H.push (.cnode edit h keys vals), _,
      (exec_editable hnode).trans (if_neg ho), ?_, Or.inr ⟨rfl, rfl⟩⟩
    rw [writeC, exec_load (H.node_push_self _)]
    exact (exec_store _ _).trans (by rw [H.put_push]; rfl)

/-- A branch is written, or a copy of it. -/
theorem exec_editable_writeB (edit : Option ℕ) {bitmap : UInt32} {arr : List ℕ}
    (hnode : H.node a = some (.bnode e bitmap arr)) (pos nc : ℕ) :
    ∃ b H₁ H', exec (editable a edit) H = (.ok b, H₁) ∧ exec (writeB b pos nc) H₁ = (.ok (), H') ∧
      Rewritten edit H a e (.bnode e bitmap (arr.set pos nc)) b H' := by
  by_cases ho : owns edit e = true
  · refine ⟨a, H, _, (exec_editable hnode).trans (if_pos ho), ?_, Or.inl ⟨ho, rfl, rfl⟩⟩
    rw [writeB, exec_load hnode]
    rfl
  · refine ⟨H.next, H.push (.bnode edit bitmap arr), _,
      (exec_editable hnode).trans (if_neg ho), ?_, Or.inr ⟨rfl, rfl⟩⟩
    rw [writeB, exec_load (H.node_push_self _)]
    exact (exec_store _ _).trans (by rw [H.put_push]; rfl)

/-- A branch is replaced in its own node, or by a new one. -/
theorem exec_rewrite {β : Type} (edit : Option ℕ) (a : ℕ) (e : Option ℕ) (H : Heap κ α)
    (bitmap : UInt32) (arr : List ℕ) (f : ℕ → β) :
    ∃ b H', exec (if owns edit e = true then do
          store a (.bnode e bitmap arr)
          pure (f a)
        else do
          return f (← alloc (.bnode edit bitmap arr))) H = (.ok (f b), H') ∧
      Rewritten edit H a e (.bnode e bitmap arr : Node κ α) b H' := by
  by_cases ho : owns edit e = true
  · rw [if_pos ho]
    exact ⟨a, _, rfl, Or.inl ⟨ho, rfl, rfl⟩⟩
  · rw [if_neg ho]
    exact ⟨H.next, _, rfl, Or.inr ⟨rfl, rfl⟩⟩

end Objects

/-! ### The kids of a branch -/

/-- The kids of a branch with the given bitmap, the addresses of the kids, and their nodes. -/
structure Kids (hash : κ → UInt32) (H : Heap κ α) (P : Option ℕ → Prop) (bitmap : UInt32)
    (kids : ℕ → Trie κ α) (kid : ℕ → ℕ) (fps : ℕ → Set ℕ) : Prop where
  bits : ∀ i, bitmap.toNat.testBit i = true ↔ kids i ≠ .nil
  stored : ∀ i, kids i ≠ .nil → Stored hash H P (kids i) (kid i) (fps i)
  disj : ∀ i j, i ≠ j → kids i ≠ .nil → kids j ≠ .nil → Disjoint (fps i) (fps j)

/-- The nodes of the kids of a branch. -/
def kidNodes (kids : ℕ → Trie κ α) (fps : ℕ → Set ℕ) : Set ℕ := {x | ∃ i, kids i ≠ .nil ∧ x ∈ fps i}

theorem mem_kidNodes_update {kids : ℕ → Trie κ α} {fps : ℕ → Set ℕ} {d x : ℕ} {t : Trie κ α}
    {fp : Set ℕ} (h : x ∈ kidNodes (Function.update kids d t) (Function.update fps d fp)) :
    x ∈ fp ∨ x ∈ kidNodes kids fps := by
  obtain ⟨i, hi, hx⟩ := h
  by_cases hid : i = d
  · rw [hid, Function.update_self] at hx
    exact Or.inl hx
  · rw [Function.update_of_ne hid] at hi hx
    exact Or.inr ⟨i, hi, hx⟩

namespace Kids

variable {hash : κ → UInt32} {H H' : Heap κ α} {P : Option ℕ → Prop} {bitmap : UInt32}
  {kids : ℕ → Trie κ α} {kid : ℕ → ℕ} {fps : ℕ → Set ℕ} {edit e : Option ℕ} {a b d : ℕ}

theorem branch (h : Kids hash H P bitmap kids kid fps)
    (hnode : H.node a = some (.bnode e bitmap (packed bitmap kid))) (he : P e)
    (hself : a ∉ kidNodes kids fps) :
    Stored hash H P (.branch kids) a {x | x = a ∨ x ∈ kidNodes kids fps} :=
  .branch hnode he h.bits h.stored (fun i hi hx => hself ⟨i, hi, hx⟩) h.disj

theorem frame (h : Kids hash H P bitmap kids kid fps)
    (heq : ∀ x ∈ kidNodes kids fps, H'.node x = H.node x) : Kids hash H' P bitmap kids kid fps :=
  { h with stored := fun i hi => (h.stored i hi).frame fun x hx => heq x ⟨i, hi, hx⟩ }

theorem lt_next (h : Kids hash H P bitmap kids kid fps) (hb : H.Bounded) :
    ∀ x ∈ kidNodes kids fps, x < H.next := by
  rintro x ⟨i, hi, hx⟩
  exact (h.stored i hi).lt_next hb x hx

/-- The kid `d` is changed, or a new one, by a call that keeps the other kids. -/
theorem update (bitmap' : UInt32) {t : Trie κ α} {c : ℕ} {fp F : Set ℕ}
    (h : Kids hash H P bitmap kids kid fps) (hk : Keeps edit F H H') (hb : H.Bounded)
    (hF : ∀ i, i ≠ d → kids i ≠ .nil → ∀ x ∈ fps i, x ∉ F)
    (hst : Stored hash H' P t c fp) (hfp : ∀ x ∈ fp, x ∈ F ∨ H.next ≤ x)
    (hself : bitmap'.toNat.testBit d = true)
    (hother : ∀ i, i ≠ d → bitmap'.toNat.testBit i = bitmap.toNat.testBit i) :
    Kids hash H' P bitmap' (Function.update kids d t) (Function.update kid d c)
      (Function.update fps d fp) := by
  have hdisj : ∀ i, i ≠ d → kids i ≠ .nil → Disjoint fp (fps i) := by
    intro i hid hi
    refine Set.disjoint_left.mpr fun x hx hxi => ?_
    have hlt := (h.stored i hi).lt_next hb x hxi
    exact hF i hid hi x hxi ((hfp x hx).resolve_right (by omega))
  constructor
  · intro i
    by_cases hid : i = d
    · subst hid
      rw [Function.update_self]
      exact iff_of_true hself hst.ne_nil
    · rw [Function.update_of_ne hid, hother i hid]
      exact h.bits i
  · intro i hi
    by_cases hid : i = d
    · subst hid
      rw [Function.update_self, Function.update_self, Function.update_self]
      exact hst
    · rw [Function.update_of_ne hid] at hi
      rw [Function.update_of_ne hid, Function.update_of_ne hid, Function.update_of_ne hid]
      exact (h.stored i hi).keeps hk fun x hx hxF => absurd hxF (hF i hid hi x hx)
  · intro i j hij hi hj
    by_cases hid : i = d
    · subst hid
      rw [Function.update_of_ne hij.symm] at hj
      rw [Function.update_self, Function.update_of_ne hij.symm]
      exact hdisj j hij.symm hj
    · rw [Function.update_of_ne hid] at hi
      rw [Function.update_of_ne hid]
      by_cases hjd : j = d
      · subst hjd
        rw [Function.update_self]
        exact (hdisj i hid hi).symm
      · rw [Function.update_of_ne hjd] at hj
        rw [Function.update_of_ne hjd]
        exact h.disj i j hij hi hj

/-- The kid `d` is removed by a call that keeps the other kids. -/
theorem erase {bitmap' : UInt32} {F : Set ℕ} (h : Kids hash H P bitmap kids kid fps)
    (hk : Keeps edit F H H') (hF : ∀ i, i ≠ d → kids i ≠ .nil → ∀ x ∈ fps i, x ∉ F)
    (hself : bitmap'.toNat.testBit d = false)
    (hother : ∀ i, i ≠ d → bitmap'.toNat.testBit i = bitmap.toNat.testBit i) :
    Kids hash H' P bitmap' (Function.update kids d .nil) kid fps := by
  have hkids : ∀ i, Function.update kids d .nil i ≠ .nil → i ≠ d ∧ kids i ≠ .nil := by
    intro i hi
    by_cases hid : i = d
    · subst hid
      rw [Function.update_self] at hi
      exact absurd rfl hi
    · rw [Function.update_of_ne hid] at hi
      exact ⟨hid, hi⟩
  constructor
  · intro i
    by_cases hid : i = d
    · subst hid
      rw [Function.update_self, hself]
      simp
    · rw [Function.update_of_ne hid, hother i hid]
      exact h.bits i
  · intro i hi
    obtain ⟨hid, hi⟩ := hkids i hi
    rw [Function.update_of_ne hid]
    exact (h.stored i hi).keeps hk fun x hx hxF => absurd hxF (hF i hid hi x hx)
  · intro i j hij hi hj
    exact h.disj i j hij (hkids i hi).2 (hkids j hj).2

/-- A branch that is written in place of the node `a`. -/
theorem rewritten (h : Kids hash H P bitmap kids kid fps)
    (hr : Rewritten edit H a e (.bnode e bitmap (packed bitmap kid)) b H') (hb : H.Bounded)
    (he : P e) (hP : P edit) (hself : a ∉ kidNodes kids fps) :
    Stored hash H' P (.branch kids) b {x | x = b ∨ x ∈ kidNodes kids fps} := by
  have hnew : b ∉ kidNodes kids fps := by
    rcases hr.eq_or_fresh with rfl | rfl
    · exact hself
    · exact fun hx => (h.lt_next hb _ hx).false
  obtain ⟨e', he', hnode⟩ := hr.node
  exact (h.frame fun x hx => hr.node_of_ne fun hxb => hnew (hxb ▸ hx)).branch hnode
    (Rewritten.token he hP he') hnew

/-- A new branch. -/
theorem push (h : Kids hash H P bitmap kids kid fps) (edit : Option ℕ) (hb : H.Bounded) (hP : P edit) :
    Stored hash (H.push (.bnode edit bitmap (packed bitmap kid))) P (.branch kids) H.next
      {x | x = H.next ∨ x ∈ kidNodes kids fps} :=
  h.rewritten (a := H.next) (e := edit) (Or.inr ⟨rfl, rfl⟩) hb hP hP
    fun hx => (h.lt_next hb _ hx).false

/-- A branch with one kid. -/
theorem single {c : UInt32} (hc : c < 32) {t : Trie κ α} {fp : Set ℕ} (h : Stored hash H P t a fp) :
    Kids hash H P (bitOf c) (Function.update (fun _ => .nil) c.toNat t) (fun _ => a) fun _ => fp := by
  have hkids : ∀ i, Function.update (fun _ => (.nil : Trie κ α)) c.toNat t i ≠ .nil ↔
      c.toNat = i := by
    intro i
    by_cases hi : i = c.toNat
    · subst hi
      rw [Function.update_self]
      exact iff_of_true h.ne_nil rfl
    · rw [Function.update_of_ne hi]
      exact iff_of_false (fun hne => hne rfl) (Ne.symm hi)
  refine ⟨fun i => ?_, fun i hi => ?_, fun i j hij hi hj => ?_⟩
  · rw [testBit_bitOf hc, hkids, decide_eq_true_iff]
  · rw [← (hkids i).mp hi, Function.update_self]
    exact h
  · exact absurd (((hkids i).mp hi).symm.trans ((hkids j).mp hj)) hij

end Kids

/-! ### Collision buckets -/

section Buckets

variable [DecidableEq κ] {keys : List κ} {vals : List α} {k : κ} {i : ℕ}

/-- The key and the value at the index of a key in a bucket. -/
theorem exists_split (hlen : keys.length = vals.length) (hnodup : keys.Nodup)
    (h : keys.idxOf? k = some i) : ∃ ks ks' vs w vs', keys = ks ++ k :: ks' ∧
      vals = vs ++ w :: vs' ∧ ks.length = i ∧ vs.length = i ∧ ks'.length = vs'.length ∧ k ∉ ks ∧
      k ∉ ks' := by
  obtain ⟨hi, hk, -⟩ := List.findIdx?_eq_some_iff_getElem.mp h
  have hk : keys[i] = k := by simpa using hk
  have hi' : i < vals.length := hlen ▸ hi
  have hkeys : keys = keys.take i ++ k :: keys.drop (i + 1) := by
    rw [← hk, List.getElem_cons_drop, List.take_append_drop]
  have hvals : vals = vals.take i ++ vals[i] :: vals.drop (i + 1) := by
    rw [List.getElem_cons_drop, List.take_append_drop]
  rw [hkeys, List.nodup_append, List.nodup_cons] at hnodup
  exact ⟨_, _, _, _, _, hkeys, hvals, List.length_take_of_le hi.le, List.length_take_of_le hi'.le,
    by rw [List.length_drop, List.length_drop, hlen],
    fun hm => hnodup.2.2 k hm k List.mem_cons_self rfl, hnodup.2.1.1⟩

theorem setEntry_set (hlen : keys.length = vals.length) (hnodup : keys.Nodup)
    (h : keys.idxOf? k = some i) (v : α) :
    HashTrie.setEntry k v (keys.zip vals) = keys.zip (vals.set i v) := by
  obtain ⟨ks, ks', vs, w, vs', rfl, rfl, hks, hvs, hlen', hk, hk'⟩ := exists_split hlen hnodup h
  have hsame : ∀ (l : List κ) (m : List α), k ∉ l →
      ((l.zip m).map fun e => if e.1 = k then (e.1, v) else e) = l.zip m := fun l m hl =>
    (List.map_congr_left fun e he => if_neg fun heq : e.1 = k => hl (heq ▸ (List.of_mem_zip he).1)).trans
      (List.map_id _)
  rw [HashTrie.setEntry, List.map_fst_zip hlen.le, if_pos (by simp), List.zip_append (hks.trans hvs.symm),
    List.map_append, hsame _ _ hk, List.zip_cons_cons, List.map_cons, hsame _ _ hk', ← hvs,
    List.set_append_right _ _ (Nat.le_refl _), Nat.sub_self, List.set_cons_zero,
    List.zip_append (hks.trans hvs.symm), List.zip_cons_cons, if_pos rfl]

theorem setEntry_append (hlen : keys.length = vals.length) (h : keys.idxOf? k = none) (v : α) :
    HashTrie.setEntry k v (keys.zip vals) = (keys ++ [k]).zip (vals ++ [v]) := by
  rw [HashTrie.setEntry, List.map_fst_zip hlen.le, if_neg (List.idxOf?_eq_none_iff.mp h),
    List.zip_append hlen]
  rfl

/-- The value at the index of a key is its value. -/
theorem find?_zip (hlen : keys.length = vals.length) (hnodup : keys.Nodup)
    (h : keys.idxOf? k = some i) :
    ((keys.zip vals).find? fun e => e.1 = k).map Prod.snd = vals[i]? := by
  obtain ⟨ks, ks', vs, w, vs', rfl, rfl, hks, hvs, hlen', hk, hk'⟩ := exists_split hlen hnodup h
  have hnone : (ks.zip vs).find? (fun e => e.1 = k) = none := List.find?_eq_none.mpr fun e he => by
    simpa using fun heq : e.1 = k => hk (heq ▸ (List.of_mem_zip he).1)
  rw [List.zip_append (hks.trans hvs.symm), List.find?_append, hnone, ← hvs]
  simp

theorem find?_zip_none (h : keys.idxOf? k = none) :
    (keys.zip vals).find? (fun e => e.1 = k) = none :=
  List.find?_eq_none.mpr fun e he => by
    simpa using fun heq : e.1 = k => List.idxOf?_eq_none_iff.mp h (heq ▸ (List.of_mem_zip he).1)

theorem filter_zip (hlen : keys.length = vals.length) (hnodup : keys.Nodup)
    (h : keys.idxOf? k = some i) :
    ((keys.zip vals).filter fun e => e.1 ≠ k) = (keys.eraseIdx i).zip (vals.eraseIdx i) := by
  obtain ⟨ks, ks', vs, w, vs', rfl, rfl, hks, hvs, hlen', hk, hk'⟩ := exists_split hlen hnodup h
  have hsame : ∀ (l : List κ) (m : List α), k ∉ l → ((l.zip m).filter fun e => e.1 ≠ k) = l.zip m :=
    fun l m hl => List.filter_eq_self.mpr fun e he => by
      simpa using fun heq : e.1 = k => hl (heq ▸ (List.of_mem_zip he).1)
  rw [List.zip_append (hks.trans hvs.symm), List.filter_append, hsame _ _ hk, List.zip_cons_cons,
    List.filter_cons_of_neg (by simp), hsame _ _ hk',
    List.eraseIdx_append_of_length_le (Nat.le_of_eq hks), hks, Nat.sub_self,
    List.eraseIdx_append_of_length_le (Nat.le_of_eq hvs), hvs, Nat.sub_self, List.eraseIdx_cons_zero,
    List.eraseIdx_cons_zero, List.zip_append (hks.trans hvs.symm)]

end Buckets

open HashTrie

/-! ### Reading -/

theorem load_bind {β : Type} {H : Heap κ α} {a : ℕ} {n : Node κ α} (h : H.node a = some n)
    (f : Node κ α → Except Fault β) : (load H a >>= f) = f n := by
  rw [load_eq h]
  rfl

section Reading

variable {hash : κ → UInt32} {H : Heap κ α} {P : Option ℕ → Prop} {t : Trie κ α} {a : ℕ}
  {fp : Set ℕ}

/-- **The value of a key** is read off the nodes. -/
theorem nodeGet_eq [DecidableEq κ] (hst : Stored hash H P t a fp) (k : κ) (n l : ℕ) (hn : n + l = 7)
    (hc : t.Canonical (chunks hash) l) :
    nodeGet H (n + 1) (some a) (BITS * l) (hash k) k = .ok (t.lookup (chunks hash) l k) := by
  induction hst generalizing n l with
  | @leaf a e k₀ v hnode he =>
    rw [nodeGet, load_bind hnode, HashTrie.lookup]
    by_cases hk : k₀ = k
    · subst hk
      simp
      rfl
    · simp [hk]
      rfl
  | @bucket a e h keys vals hnode he hlen =>
    have hnodup := hc.2.1
    rw [List.map_fst_zip hlen.le] at hnodup
    rw [nodeGet, load_bind hnode, HashTrie.lookup]
    by_cases hh : h = hash k
    · rw [if_pos (show h = (chunks hash).hash k from hh)]
      rcases hi : keys.idxOf? k with _ | i
      · rw [find?_zip_none hi]
        simp [hh, hi]
        rfl
      · rw [find?_zip hlen hnodup hi]
        simp [hh, hi]
        rfl
    · rw [if_neg (show h ≠ (chunks hash).hash k from hh)]
      simp [hh]
      rfl
  | @branch a e bitmap kids kid fps hnode he hbits hkids hself hdisj ih =>
    have hl : l < 7 := hc.1
    have hlt := chunk_lt (hash k) (BITS * l)
    obtain ⟨n, rfl⟩ : ∃ m, n = m + 1 := ⟨n - 1, by omega⟩
    rw [nodeGet, load_bind hnode, HashTrie.lookup,
      show (chunks hash).digit l ((chunks hash).hash k) = (chunk (hash k) (BITS * l)).toNat from rfl]
    by_cases hbit : bitmap &&& bitOf (chunk (hash k) (BITS * l)) = 0
    · have hnil : kids (chunk (hash k) (BITS * l)).toNat = .nil := by
        by_contra h
        exact (land_bitOf_ne_zero hlt).mpr ((hbits _).mpr h) hbit
      rw [hnil]
      show (if _ then _ else _) = _
      rw [if_pos hbit]
      rfl
    · have htest := (land_bitOf_ne_zero hlt).mp hbit
      show (if _ then _ else _) = _
      rw [if_neg hbit, getElem?_packed hlt kid htest]
      exact ih _ ((hbits _).mp htest) n (l + 1) (by omega) (hc.2.2 _).1

/-- What is read off the kids of a branch, one after the other. -/
theorem mapM_packed {ε β : Type} {bitmap : UInt32} {kid : ℕ → ℕ} {f : ℕ → Except ε β} {g : ℕ → β}
    (h : ∀ i, bitmap.toNat.testBit i = true → f (kid i) = .ok (g i)) :
    (packed bitmap kid).mapM f = .ok ((bits bitmap).map g) := by
  have hall : ∀ i ∈ bits bitmap, f (kid i) = .ok (g i) := fun i hi => h i (mem_bits.mp hi).2
  rw [packed]
  generalize bits bitmap = is at hall ⊢
  induction is with
  | nil => rfl
  | cons i is ih =>
    rw [List.map_cons, List.mapM_cons, hall i List.mem_cons_self,
      ih fun j hj => hall j (List.mem_cons_of_mem _ hj)]
    rfl

/-- The entries of a branch lie in the kids that are there. -/
theorem toList_branch {bitmap : UInt32} {kids : ℕ → Trie κ α}
    (hbits : ∀ i, bitmap.toNat.testBit i = true ↔ kids i ≠ .nil) :
    (HashTrie.branch kids).toList (chunks hash) =
      ((bits bitmap).map fun i => (kids i).toList (chunks hash)).flatten := by
  rw [HashTrie.toList, bits, show (chunks hash).width = 32 from rfl, ← List.flatMap_def]
  induction List.range 32 with
  | nil => rfl
  | cons i is ih =>
    rw [List.flatMap_cons, ih]
    cases htest : bitmap.toNat.testBit i with
    | true => rw [List.filter_cons_of_pos htest, List.flatMap_cons]
    | false =>
      have hnil : kids i = .nil := by
        by_contra h
        exact Bool.eq_false_iff.mp htest ((hbits i).mpr h)
      rw [List.filter_cons_of_neg (by simp [htest]), hnil]
      rfl

/-- **The entries** are read off the nodes. -/
theorem forEachNode_eq (hst : Stored hash H P t a fp) (n l : ℕ) (hn : n + l = 7)
    (hc : t.Canonical (chunks hash) l) :
    forEachNode H (n + 1) (some a) = .ok (t.toList (chunks hash)) := by
  induction hst generalizing n l with
  | leaf hnode he =>
    rw [forEachNode, load_eq hnode]
    rfl
  | bucket hnode he hlen =>
    rw [forEachNode, load_eq hnode]
    rfl
  | @branch a e bitmap kids kid fps hnode he hbits hkids hself hdisj ih =>
    have hl : l < 7 := hc.1
    obtain ⟨n, rfl⟩ : ∃ m, n = m + 1 := ⟨n - 1, by omega⟩
    rw [forEachNode, load_bind hnode, toList_branch hbits]
    show (do return (← (packed bitmap kid).mapM fun kid => forEachNode H (n + 1) (some kid)).flatten) =
      _
    rw [mapM_packed (g := fun i => (kids i).toList (chunks hash)) fun i hi =>
      ih i ((hbits i).mp hi) n (l + 1) (by omega) (hc.2.2 i).1]
    rfl

end Reading

end PMap

end SalRuntime
