import Mathlib.Algebra.GroupWithZero.Nat
import Mathlib.Data.List.Sort
import Mathlib.Order.Defs.LinearOrder

/-!
# In-order walks of a tree of paths

A finite tree is a set of paths that holds the nonempty prefixes of its members. Every step of a
path goes to a left or to a right child, and a key orders the paths: a path is below its left
descendants and above its right descendants, and siblings are ordered with everything below them.
The in-order walk with an explicit stack of frames then lists the tree by descending keys.

## Main definitions

* `inOrder` — the walk.
* `InOrderKey` — the keys of a tree of paths.
* `Bands` — the children of a path, on the left and on the right, by descending keys.

## Main results

* `eq_of_pairwise_key` — lists by descending keys are determined by their members.
* `InOrderKey.after_right` — what is after a path is a right descendant, or after all descendants.
* `inOrder_eq` — the walk from the roots lists the tree by descending keys.
-/

namespace SalRuntime

variable {β κ ι : Type*}

/-- The in-order walk from a stack of frames. A frame emits its path, or it is replaced by the
frames of the left children, the emission, and the frames of the right children. -/
def inOrder (bands : List β → List (List β) × List (List β)) :
    ℕ → List (List β × Bool) → List (List β)
  | 0, _ => []
  | _ + 1, [] => []
  | n + 1, (c, true) :: stack => c :: inOrder bands n stack
  | n + 1, (c, false) :: stack =>
    inOrder bands n
      ((bands c).1.map (·, false) ++ (c, true) :: (bands c).2.map (·, false) ++ stack)

/-- Lists by descending keys are determined by their members. -/
theorem eq_of_pairwise_key [Preorder κ] {key : ι → κ} {l l' : List ι}
    (hl : l.Pairwise fun i j => key j < key i) (hl' : l'.Pairwise fun i j => key j < key i)
    (hmem : ∀ i, i ∈ l ↔ i ∈ l') : l = l' := by
  have hnodup {m : List ι} (hm : m.Pairwise fun i j => key j < key i) : m.Nodup := by
    refine List.Pairwise.imp (fun {i j} hij heq => ?_) hm
    subst heq
    exact lt_irrefl _ hij
  have hperm := (List.perm_ext_iff_of_nodup (hnodup hl) (hnodup hl')).mpr hmem
  exact hperm.eq_of_pairwise (fun i j _ _ hij hji => absurd hji (lt_asymm hij)) hl hl'

/-- Keys of the paths of a tree `V`. -/
structure InOrderKey [Preorder κ] (V : Set (List β)) (isLeft : β → Bool) (key : List β → κ) :
    Prop where
  /-- Nonempty prefixes of paths of the tree are in the tree. -/
  closed : ∀ c d, c ++ d ∈ V → c ≠ [] → c ∈ V
  /-- Left descendants have larger keys. -/
  left : ∀ c x d, c ++ x :: d ∈ V → isLeft x = true → key c < key (c ++ x :: d)
  /-- Right descendants have smaller keys. -/
  right : ∀ c x d, c ++ x :: d ∈ V → isLeft x = false → key (c ++ x :: d) < key c
  /-- What is below siblings is ordered like the siblings. -/
  apart : ∀ c x y d e, c ++ x :: d ∈ V → c ++ y :: e ∈ V → key (c ++ [y]) < key (c ++ [x]) →
    key (c ++ y :: e) < key (c ++ x :: d)

/-- Two paths extend each other, or they part at a step. -/
theorem prefix_or_parts (c d : List β) :
    c <+: d ∨ d <+: c ∨ ∃ p x y e f, x ≠ y ∧ c = p ++ x :: e ∧ d = p ++ y :: f := by
  induction c generalizing d with
  | nil => exact Or.inl List.nil_prefix
  | cons x c ih =>
    cases d with
    | nil => exact Or.inr (Or.inl List.nil_prefix)
    | cons y d =>
      by_cases hxy : x = y
      · subst hxy
        rcases ih d with h | h | ⟨p, z, w, e, f, hne, rfl, rfl⟩
        · exact Or.inl (List.cons_prefix_cons.mpr ⟨rfl, h⟩)
        · exact Or.inr (Or.inl (List.cons_prefix_cons.mpr ⟨rfl, h⟩))
        · exact Or.inr (Or.inr ⟨x :: p, z, w, e, f, hne, rfl, rfl⟩)
      · exact Or.inr (Or.inr ⟨[], x, y, c, d, hxy, rfl, rfl⟩)

/-- **What is displayed after a path** and is no right descendant is displayed after all
descendants. -/
theorem InOrderKey.after_right [LinearOrder κ] {V : Set (List β)} {isLeft : β → Bool}
    {key : List β → κ} (h : InOrderKey V isLeft key) (hinj : Set.InjOn key V) {c d e : List β}
    {x : β} (hd : d ∈ V) (he : c ++ x :: e ∈ V) (hlt : key d < key c)
    (hnot : ∀ y f, isLeft y = false → d ≠ c ++ y :: f) : key d < key (c ++ x :: e) := by
  rcases prefix_or_parts d c with ⟨f, rfl⟩ | ⟨f, rfl⟩ | ⟨p, y, z, f, g, hyz, rfl, rfl⟩
  · -- The path is below its left ancestors only.
    cases f with
    | nil => exact absurd hlt (by rw [List.append_nil]; exact lt_irrefl _)
    | cons y f =>
      have hassoc : d ++ y :: f ++ x :: e = d ++ y :: (f ++ x :: e) := by simp
      rw [hassoc] at he ⊢
      cases hy : isLeft y with
      | true => exact h.left d y _ he hy
      | false =>
        have hc : d ++ y :: f ∈ V := h.closed _ (x :: e) (by rw [hassoc]; exact he) (by simp)
        exact absurd (h.right d y f hc hy) (lt_asymm hlt)
  · cases f with
    | nil => exact absurd hlt (by rw [List.append_nil]; exact lt_irrefl _)
    | cons y f =>
      cases hy : isLeft y with
      | true => exact absurd (h.left c y f hd hy) (lt_asymm hlt)
      | false => exact absurd rfl (hnot y f hy)
  · have hassoc : p ++ z :: g ++ x :: e = p ++ z :: (g ++ x :: e) := by simp
    have hc : p ++ z :: g ∈ V := h.closed _ (x :: e) he (by simp)
    rw [hassoc] at he ⊢
    have hy : p ++ [y] ∈ V := h.closed (p ++ [y]) f (by simpa using hd) (by simp)
    have hz : p ++ [z] ∈ V := h.closed (p ++ [z]) g (by simpa using hc) (by simp)
    rcases lt_trichotomy (key (p ++ [y])) (key (p ++ [z])) with hyz' | heq | hyz'
    · exact h.apart p z y _ f he hd hyz'
    · exact absurd (List.singleton_inj.mp (List.append_cancel_left (hinj hy hz heq))) hyz
    · exact absurd (h.apart p y z f g hd hc hyz') (lt_asymm hlt)

section Following

variable [LinearOrder κ] {key : ι → κ} {l : List ι} (hl : l.Pairwise fun i j => key j < key i)

include hl

/-- The next one of a list by descending keys follows immediately. -/
theorem exists_eq_append_of_next {a s : ι} (ha : a ∈ l) (hs : s ∈ l) (hlt : key s < key a)
    (hnext : ∀ j ∈ l, key j < key a → key j ≤ key s) : ∃ l₁ l₂, l = l₁ ++ a :: s :: l₂ := by
  obtain ⟨l₁, t, rfl⟩ := List.append_of_mem ha
  obtain ⟨-, ht, hpair⟩ := List.pairwise_append.mp hl
  obtain ⟨hat, hsorted⟩ := List.pairwise_cons.mp ht
  have hst : s ∈ t := by
    rcases List.mem_append.mp hs with hs | hs
    · exact absurd (hpair s hs a List.mem_cons_self) (lt_asymm hlt)
    · rcases List.mem_cons.mp hs with rfl | hs
      · exact absurd hlt (lt_irrefl _)
      · exact hs
  cases t with
  | nil => cases hst
  | cons b l₂ =>
    rcases List.mem_cons.mp hst with rfl | hst
    · exact ⟨l₁, l₂, rfl⟩
    · have hsb := (List.pairwise_cons.mp hsorted).1 s hst
      exact absurd (hnext b (by simp) (hat b List.mem_cons_self)) (not_le.mpr hsb)

/-- The first one of a list by descending keys. -/
theorem exists_eq_cons_of_first {s : ι} (hs : s ∈ l) (hfirst : ∀ j ∈ l, key j ≤ key s) :
    ∃ l₂, l = s :: l₂ := by
  cases l with
  | nil => cases hs
  | cons b l₂ =>
    rcases List.mem_cons.mp hs with rfl | hs
    · exact ⟨l₂, rfl⟩
    · exact absurd (hfirst b List.mem_cons_self)
        (not_le.mpr ((List.pairwise_cons.mp hl).1 s hs))

end Following

/-- The children of every path of the tree, on the left and on the right, by descending keys. -/
structure Bands [Preorder κ] (V : Set (List β)) (isLeft : β → Bool) (key : List β → κ)
    (bands : List β → List (List β) × List (List β)) : Prop where
  /-- The left children. -/
  mem_left : ∀ c ∈ V, ∀ k, k ∈ (bands c).1 ↔ k ∈ V ∧ ∃ x, isLeft x = true ∧ k = c ++ [x]
  /-- The right children. -/
  mem_right : ∀ c ∈ V, ∀ k, k ∈ (bands c).2 ↔ k ∈ V ∧ ∃ x, isLeft x = false ∧ k = c ++ [x]
  /-- The left children are listed by descending keys. -/
  sorted_left : ∀ c ∈ V, (bands c).1.Pairwise fun k k' => key k' < key k
  /-- The right children are listed by descending keys. -/
  sorted_right : ∀ c ∈ V, (bands c).2.Pairwise fun k k' => key k' < key k

section Walk

variable [DecidableEq β] [Preorder κ] {V : Set (List β)} {isLeft : β → Bool} {key : List β → κ}
  {bands : List β → List (List β) × List (List β)} (hkey : InOrderKey V isLeft key)
  (hbands : Bands V isLeft key bands) {S : List (List β)}
  (hS : S.Pairwise fun c d => key d < key c) (hmem : ∀ c, c ∈ S ↔ c ∈ V)

/-- The paths of a list at and below a path. -/
def below (S : List (List β)) (c : List β) : List (List β) := S.filter fun d => c <+: d

theorem mem_below_iff {c d : List β} : d ∈ below S c ↔ d ∈ S ∧ ∃ e, d = c ++ e := by
  rw [below, List.mem_filter, decide_eq_true_eq, List.IsPrefix]
  simp only [eq_comm]

include hkey hmem

/-- What is below siblings is ordered like the siblings. -/
theorem below_apart {c : List β} {x y : β} (hlt : key (c ++ [y]) < key (c ++ [x])) :
    ∀ d ∈ below S (c ++ [x]), ∀ e ∈ below S (c ++ [y]), key e < key d := by
  intro d hd e he
  obtain ⟨hdS, d, rfl⟩ := mem_below_iff.mp hd
  obtain ⟨heS, e, rfl⟩ := mem_below_iff.mp he
  simp only [List.append_assoc, List.singleton_append] at hdS heS ⊢
  exact hkey.apart c x y d e ((hmem _).mp hdS) ((hmem _).mp heS) hlt

include hS

/-- What is below children by descending keys is by descending keys. -/
theorem pairwise_flatMap_below {c : List β} {ks : List (List β)}
    (hks : ∀ k ∈ ks, ∃ x, k = c ++ [x]) (hsorted : ks.Pairwise fun k k' => key k' < key k) :
    (ks.flatMap (below S)).Pairwise fun d e => key e < key d := by
  refine List.pairwise_flatMap.mpr ⟨fun k _ => hS.filter _, ?_⟩
  refine hsorted.imp_of_mem fun {k k'} hk hk' hlt => ?_
  obtain ⟨x, rfl⟩ := hks k hk
  obtain ⟨y, rfl⟩ := hks k' hk'
  exact below_apart hkey hmem hlt

include hbands

/-- **Below a path** are its left descendants, the path itself, and its right descendants, in this
order. -/
theorem below_eq {c : List β} (hc : c ∈ V) : below S c =
    (bands c).1.flatMap (below S) ++ c :: (bands c).2.flatMap (below S) := by
  have hleft (d : List β) (hd : d ∈ (bands c).1.flatMap (below S)) : key c < key d := by
    obtain ⟨k, hk, hdk⟩ := List.mem_flatMap.mp hd
    obtain ⟨-, x, hx, rfl⟩ := (hbands.mem_left c hc k).mp hk
    obtain ⟨hdS, e, rfl⟩ := mem_below_iff.mp hdk
    rw [List.append_assoc] at hdS ⊢
    exact hkey.left c x e ((hmem _).mp hdS) hx
  have hright (d : List β) (hd : d ∈ (bands c).2.flatMap (below S)) : key d < key c := by
    obtain ⟨k, hk, hdk⟩ := List.mem_flatMap.mp hd
    obtain ⟨-, x, hx, rfl⟩ := (hbands.mem_right c hc k).mp hk
    obtain ⟨hdS, e, rfl⟩ := mem_below_iff.mp hdk
    rw [List.append_assoc] at hdS ⊢
    exact hkey.right c x e ((hmem _).mp hdS) hx
  refine eq_of_pairwise_key (hS.filter _) ?_ fun d => ?_
  · refine List.pairwise_append.mpr ⟨?_, List.pairwise_cons.mpr ⟨hright, ?_⟩, fun d hd e he => ?_⟩
    · exact pairwise_flatMap_below hkey hS hmem
        (fun k hk => ((hbands.mem_left c hc k).mp hk).2.imp fun _ h => h.2) (hbands.sorted_left c hc)
    · exact pairwise_flatMap_below hkey hS hmem
        (fun k hk => ((hbands.mem_right c hc k).mp hk).2.imp fun _ h => h.2)
        (hbands.sorted_right c hc)
    · rcases List.mem_cons.mp he with rfl | he
      · exact hleft d hd
      · exact (hright e he).trans (hleft d hd)
  · -- A path below `c` is `c` or goes through one of the children.
    rw [mem_below_iff]
    simp only [List.mem_append, List.mem_cons, List.mem_flatMap, mem_below_iff]
    constructor
    · rintro ⟨hd, e, rfl⟩
      cases e with
      | nil => exact Or.inr (Or.inl (List.append_nil c))
      | cons x e =>
        have hcx : c ++ [x] ∈ V := hkey.closed (c ++ [x]) e (by simpa using (hmem _).mp hd) (by simp)
        have hde : c ++ x :: e = c ++ [x] ++ e := by simp
        cases hx : isLeft x with
        | true =>
          exact Or.inl ⟨c ++ [x], (hbands.mem_left c hc _).mpr ⟨hcx, x, hx, rfl⟩, hd, e, hde⟩
        | false =>
          exact Or.inr (Or.inr
            ⟨c ++ [x], (hbands.mem_right c hc _).mpr ⟨hcx, x, hx, rfl⟩, hd, e, hde⟩)
    · rintro (⟨k, hk, hd, e, rfl⟩ | rfl | ⟨k, hk, hd, e, rfl⟩)
      · obtain ⟨-, x, -, rfl⟩ := (hbands.mem_left c hc k).mp hk
        exact ⟨hd, x :: e, by simp⟩
      · exact ⟨(hmem _).mpr hc, [], (List.append_nil _).symm⟩
      · obtain ⟨-, x, -, rfl⟩ := (hbands.mem_right c hc k).mp hk
        exact ⟨hd, x :: e, by simp⟩

/-- What a frame of the stack has yet to emit. -/
def pending (S : List (List β)) (f : List β × Bool) : List (List β) :=
  if f.2 then [f.1] else below S f.1

/-- The rounds that a frame of the stack takes. -/
def rounds (S : List (List β)) (f : List β × Bool) : ℕ :=
  if f.2 then 1 else 2 * (below S f.1).length

omit hkey hbands hS hmem [Preorder κ] in
theorem sum_rounds_children (ks : List (List β)) :
    ((ks.map (·, false)).map (rounds S)).sum = 2 * (ks.flatMap (below S)).length := by
  induction ks with
  | nil => rfl
  | cons k ks ih =>
    simp only [List.map_cons, List.sum_cons, List.flatMap_cons, List.length_append]
    rw [List.map_map, ← List.map_map, ih, rounds]
    simp only [Bool.false_eq_true, if_false]
    omega

omit hkey hbands hS hmem [Preorder κ] in
theorem flatMap_pending_children (ks : List (List β)) :
    (ks.map (·, false)).flatMap (pending S) = ks.flatMap (below S) := by
  rw [List.flatMap_map]
  exact List.flatMap_congr fun k _ => rfl

/-- The walk emits what the frames of the stack have yet to emit. -/
theorem inOrder_stack (n : ℕ) (stack : List (List β × Bool)) (hstack : ∀ f ∈ stack, f.1 ∈ V)
    (hn : (stack.map (rounds S)).sum ≤ n) : inOrder bands n stack = stack.flatMap (pending S) := by
  induction n generalizing stack with
  | zero =>
    cases stack with
    | nil => rfl
    | cons f stack =>
      -- A frame takes at least one round.
      have hf : f.1 ∈ below S f.1 :=
        mem_below_iff.mpr ⟨(hmem _).mpr (hstack f List.mem_cons_self), [], by simp⟩
      have hlen := List.length_pos_of_mem hf
      rw [List.map_cons, List.sum_cons, rounds] at hn
      split_ifs at hn
      all_goals omega
  | succ n ih =>
    cases stack with
    | nil => rfl
    | cons f stack =>
      obtain ⟨c, emit⟩ := f
      have hrest : ∀ f ∈ stack, f.1 ∈ V := fun f hf => hstack f (List.mem_cons_of_mem _ hf)
      rw [List.map_cons, List.sum_cons, rounds] at hn
      rw [List.flatMap_cons, pending]
      cases emit with
      | true =>
        simp only [if_true] at hn ⊢
        rw [inOrder, ih stack hrest (by omega)]
        rfl
      | false =>
        have hc : c ∈ V := hstack (c, false) List.mem_cons_self
        have hbelow := below_eq hkey hbands hS hmem hc
        simp only [Bool.false_eq_true, if_false, hbelow, List.length_append, List.length_cons]
          at hn ⊢
        rw [inOrder]
        refine (ih _ (fun f hf => ?_) ?_).trans ?_
        · simp only [List.append_assoc, List.cons_append, List.mem_append, List.mem_map,
            List.mem_cons] at hf
          rcases hf with ⟨k, hk, rfl⟩ | rfl | ⟨k, hk, rfl⟩ | hf
          · exact ((hbands.mem_left c hc k).mp hk).1
          · exact hc
          · exact ((hbands.mem_right c hc k).mp hk).1
          · exact hrest f hf
        · have hone : rounds S (c, true) = 1 := rfl
          have hleft := sum_rounds_children (S := S) (bands c).1
          have hright := sum_rounds_children (S := S) (bands c).2
          rw [List.append_assoc, List.map_append, List.sum_append, List.cons_append, List.map_cons,
            List.sum_cons, List.map_append, List.sum_append]
          omega
        · simp only [List.flatMap_append, List.flatMap_cons, flatMap_pending_children, pending,
            if_true, List.append_assoc, List.cons_append, List.nil_append]

/-- **The walk from the roots** lists the tree by descending keys. -/
theorem inOrder_eq {roots : List (List β)} (hroots : ∀ k, k ∈ roots ↔ k ∈ V ∧ ∃ x, k = [x])
    (hsorted : roots.Pairwise fun k k' => key k' < key k) (hnil : [] ∉ V) {n : ℕ}
    (hn : 2 * S.length ≤ n) : inOrder bands n (roots.map (·, false)) = S := by
  have hall : roots.flatMap (below S) = S := by
    refine eq_of_pairwise_key ?_ hS fun d => ?_
    · exact pairwise_flatMap_below (c := []) hkey hS hmem (fun k hk => ((hroots k).mp hk).2) hsorted
    · simp only [List.mem_flatMap, mem_below_iff]
      constructor
      · rintro ⟨_, _, hd, _⟩
        exact hd
      · intro hd
        cases d with
        | nil => exact absurd ((hmem _).mp hd) hnil
        | cons x d =>
          exact ⟨[x], (hroots _).mpr
            ⟨hkey.closed [x] d ((hmem _).mp hd) (by simp), x, rfl⟩, hd, d, rfl⟩
  rw [inOrder_stack hkey hbands hS hmem, flatMap_pending_children, hall]
  · intro f hf
    obtain ⟨k, hk, rfl⟩ := List.mem_map.mp hf
    exact ((hroots k).mp hk).1
  · rw [sum_rounds_children, hall]
    exact hn

end Walk

end SalRuntime
