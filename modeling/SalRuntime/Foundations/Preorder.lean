import SalRuntime.Foundations.InOrder

/-!
# Preorder walks of a forest

The walk pops a node of a stack and pushes its children in its place. It lists a node above its
descendants, and siblings with all their descendants in the order of the siblings: it is an in-order walk
without left children.

## Main definitions

* `preorder` — the walk.
* `PathForest` — a forest whose nodes have paths, with its roots and children by descending keys.

## Main results

* `PathForest.preorder_spec` — the walk from the roots lists the forest by descending keys.
-/

namespace SalRuntime

variable {β κ ι : Type*}

/-- The preorder walk from a stack. -/
def preorder (kids : ι → List ι) : ℕ → List ι → List ι
  | 0, _ => []
  | _ + 1, [] => []
  | n + 1, x :: stack => x :: preorder kids n (kids x ++ stack)

/-- Nodes with paths form a forest: the nonempty prefixes of a path are paths, and the roots and the
children of every node are listed by descending keys. -/
structure PathForest [Preorder κ] (V : Set ι) (path : ι → List β) (key : List β → κ)
    (kids : ι → List ι) (roots : List ι) : Prop where
  /-- Nodes have different paths. -/
  inj : Set.InjOn path V
  /-- Paths are not empty. -/
  ne_nil : ∀ x ∈ V, path x ≠ []
  /-- Paths have different keys. -/
  key_inj : Set.InjOn key (path '' V)
  /-- What is below a path has smaller keys, and is ordered like the siblings it is below. -/
  inOrderKey : InOrderKey (path '' V) (fun _ => false) key
  /-- The children of a node. -/
  mem_kids : ∀ x ∈ V, ∀ k, k ∈ kids x ↔ k ∈ V ∧ ∃ b, path k = path x ++ [b]
  /-- Children are listed by descending keys. -/
  sorted_kids : ∀ x ∈ V, (kids x).Pairwise fun k k' => key (path k') < key (path k)
  /-- The roots. -/
  mem_roots : ∀ k, k ∈ roots ↔ k ∈ V ∧ ∃ b, path k = [b]
  /-- The roots are listed by descending keys. -/
  sorted_roots : roots.Pairwise fun k k' => key (path k') < key (path k)

namespace PathForest

variable {V : Set ι} {path : ι → List β} {kids : ι → List ι}

theorem mem_of_mem_preorder (hkids : ∀ x ∈ V, ∀ k ∈ kids x, k ∈ V) {n : ℕ} {stack : List ι}
    (hstack : ∀ x ∈ stack, x ∈ V) {x : ι} (hx : x ∈ preorder kids n stack) : x ∈ V := by
  induction n generalizing stack with
  | zero => cases hx
  | succ n ih =>
    cases stack with
    | nil => cases hx
    | cons y stack =>
      rw [List.forall_mem_cons] at hstack
      rcases List.mem_cons.mp hx with rfl | hx
      · exact hstack.1
      · refine ih (fun z hz => ?_) hx
        rcases List.mem_append.mp hz with hz | hz
        · exact hkids y hstack.1 z hz
        · exact hstack.2 z hz

/-- A preorder walk is an in-order walk without left children. -/
theorem map_preorder {bands : List β → List (List β) × List (List β)}
    (hbands : ∀ x ∈ V, bands (path x) = ([], (kids x).map path))
    (hkids : ∀ x ∈ V, ∀ k ∈ kids x, k ∈ V) (n : ℕ) {stack : List ι} (hstack : ∀ x ∈ stack, x ∈ V) :
    (preorder kids n stack).map path = inOrder bands (2 * n) ((stack.map path).map (·, false)) := by
  induction n generalizing stack with
  | zero => rfl
  | succ n ih =>
    cases stack with
    | nil => rfl
    | cons x stack =>
      rw [List.forall_mem_cons] at hstack
      have hnew : ∀ z ∈ kids x ++ stack, z ∈ V := fun z hz => by
        rcases List.mem_append.mp hz with hz | hz
        · exact hkids x hstack.1 z hz
        · exact hstack.2 z hz
      -- Two rounds of the in-order walk: the frame of the node is opened, and emits it.
      rw [preorder, List.map_cons, ih hnew, Nat.mul_succ, List.map_cons, List.map_cons, inOrder,
        hbands x hstack.1, List.map_nil, List.nil_append, List.cons_append, inOrder, List.map_append,
        List.map_append]

variable [DecidableEq β] [LinearOrder κ] {key : List β → κ} {roots : List ι}

/-- **The walk from the roots** lists the forest by descending keys. -/
theorem preorder_spec (h : PathForest V path key kids roots) {L : List ι} (hL : L.Nodup)
    (hmem : ∀ x, x ∈ L ↔ x ∈ V) {n : ℕ} (hn : L.length ≤ n) :
    (preorder kids n roots).Pairwise (fun x y => key (path y) < key (path x)) ∧
      ∀ x, x ∈ preorder kids n roots ↔ x ∈ V := by
  classical
  have hkids : ∀ x ∈ V, ∀ k ∈ kids x, k ∈ V := fun x hx k hk => ((h.mem_kids x hx k).mp hk).1
  have hroots : ∀ x ∈ roots, x ∈ V := fun x hx => ((h.mem_roots x).mp hx).1
  -- The children of a path are those of its node.
  set bands : List β → List (List β) × List (List β) := fun c =>
    if hc : c ∈ path '' V then ([], (kids hc.choose).map path) else ([], []) with hdef
  have hbands : ∀ x ∈ V, bands (path x) = ([], (kids x).map path) := fun x hx => by
    have hc : path x ∈ path '' V := ⟨x, hx, rfl⟩
    rw [hdef]
    simp only [dif_pos hc]
    rw [h.inj hc.choose_spec.1 hx hc.choose_spec.2]
  have hchildren : Bands (path '' V) (fun _ => false) key bands := by
    refine ⟨?_, ?_, ?_, ?_⟩
    · rintro _ ⟨x, hx, rfl⟩ k
      simp [hbands x hx]
    · rintro _ ⟨x, hx, rfl⟩ k
      simp only [hbands x hx, List.mem_map, h.mem_kids x hx, Set.mem_image, true_and]
      constructor
      · rintro ⟨y, ⟨hy, b, hb⟩, rfl⟩
        exact ⟨⟨y, hy, rfl⟩, b, hb⟩
      · rintro ⟨⟨y, hy, rfl⟩, b, hb⟩
        exact ⟨y, ⟨hy, b, hb⟩, rfl⟩
    · rintro _ ⟨x, hx, rfl⟩
      simp [hbands x hx]
    · rintro _ ⟨x, hx, rfl⟩
      simpa only [hbands x hx, List.pairwise_map] using h.sorted_kids x hx
  -- The paths by descending keys.
  set S := (L.map path).insertionSort fun c d => key d ≤ key c with hS
  have hperm : S.Perm (L.map path) := List.perm_insertionSort ..
  have hSmem (c : List β) : c ∈ S ↔ c ∈ path '' V := by
    rw [hperm.mem_iff, List.mem_map, Set.mem_image]
    exact exists_congr fun x => and_congr_left fun _ => hmem x
  have hSsorted : S.Pairwise fun c d => key d < key c := by
    have htotal : Std.Total fun c d : List β => key d ≤ key c := ⟨fun c d => le_total _ _⟩
    have htrans : IsTrans (List β) fun c d => key d ≤ key c := ⟨fun _ _ _ hab hbc => hbc.trans hab⟩
    have hle : S.Pairwise fun c d => key d ≤ key c := List.pairwise_insertionSort _ _
    have hnodup : S.Nodup := hperm.nodup_iff.mpr
      (hL.map_on fun x hx y hy heq => h.inj ((hmem x).mp hx) ((hmem y).mp hy) heq)
    refine (hle.and hnodup).imp_of_mem fun {c d} hc hd hcd => lt_of_le_of_ne hcd.1 fun heq => ?_
    exact hcd.2 (h.key_inj ((hSmem d).mp hd) ((hSmem c).mp hc) heq).symm
  have hwalk : (preorder kids n roots).map path = S := by
    rw [map_preorder hbands hkids n hroots]
    refine inOrder_eq h.inOrderKey hchildren hSsorted hSmem (fun c => ?_) ?_ ?_ ?_
    · simp only [List.mem_map, h.mem_roots, Set.mem_image]
      constructor
      · rintro ⟨x, ⟨hx, b, hb⟩, rfl⟩
        exact ⟨⟨x, hx, rfl⟩, b, hb⟩
      · rintro ⟨⟨x, hx, rfl⟩, b, hb⟩
        exact ⟨x, ⟨hx, b, hb⟩, rfl⟩
    · rw [List.pairwise_map]
      exact h.sorted_roots
    · rintro ⟨x, hx, hnil⟩
      exact h.ne_nil x hx hnil
    · rw [hperm.length_eq, List.length_map]
      omega
  refine ⟨?_, fun x => ⟨mem_of_mem_preorder hkids hroots, fun hx => ?_⟩⟩
  · rw [← hwalk, List.pairwise_map] at hSsorted
    exact hSsorted
  · have hpath : path x ∈ (preorder kids n roots).map path := by
      rw [hwalk, hSmem]
      exact ⟨x, hx, rfl⟩
    obtain ⟨y, hy, heq⟩ := List.mem_map.mp hpath
    exact h.inj (mem_of_mem_preorder hkids hroots hy) hx heq ▸ hy

end PathForest

end SalRuntime
