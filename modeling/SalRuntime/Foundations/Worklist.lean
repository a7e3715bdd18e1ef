import Mathlib.Data.List.Nodup
import Mathlib.Data.List.Perm.Subperm
import Mathlib.Logic.Relation

/-!
# Worklist exploration of a finite graph

The loop `explore` pops a node, visits its successors, and pushes those it has not seen before.
Every node is pushed at most once, so the number of nodes bounds the number of rounds and a fuel
argument of that size never runs out.

## Main definitions

* `Worklist.visit` — push a node unless it has been seen.
* `Worklist.explore` — the loop, with the fuel it may use.

## Main results

* `Worklist.mem_explore_iff` — with enough fuel the result is the set of nodes reachable from
  the nodes seen at the start.
* `Worklist.nodup_explore` — every node is listed once.
-/

namespace SalRuntime.Worklist

variable {ι : Type*} [DecidableEq ι]

/-- Push a node onto the stack and mark it as seen, unless it has been seen. -/
def visit (acc : List ι × List ι) (p : ι) : List ι × List ι :=
  if p ∈ acc.2 then acc else (p :: acc.1, acc.2 ++ [p])

/-- The worklist loop: pop a node, visit its successors, until the stack is empty. The nodes seen
are listed in the order in which they were pushed. -/
def explore (next : ι → List ι) : ℕ → List ι → List ι → List ι
  | 0, _, seen => seen
  | _ + 1, [], seen => seen
  | n + 1, x :: stack, seen =>
    explore next n ((next x).foldl visit (stack, seen)).1 ((next x).foldl visit (stack, seen)).2

/-- The successor relation of a successor function. -/
abbrev Edge (next : ι → List ι) (x p : ι) : Prop := p ∈ next x

/-- Visiting a list of nodes pushes the new ones, each once. -/
theorem foldl_visit (ps stack seen : List ι) : ∃ new : List ι,
    ps.foldl visit (stack, seen) = (new.reverse ++ stack, seen ++ new) ∧ new ⊆ ps ∧
      (seen.Nodup → (seen ++ new).Nodup) ∧ ps ⊆ seen ++ new := by
  induction ps generalizing stack seen with
  | nil => exact ⟨[], by simp⟩
  | cons p ps ih =>
    rw [List.foldl_cons]
    by_cases hp : p ∈ seen
    · obtain ⟨new, heq, hsub, hnodup, hall⟩ := ih stack seen
      refine ⟨new, by rw [visit, if_pos hp, heq], fun x hx => List.mem_cons_of_mem _ (hsub hx),
        hnodup, List.cons_subset.mpr ⟨List.mem_append_left _ hp, hall⟩⟩
    · obtain ⟨new, heq, hsub, hnodup, hall⟩ := ih (p :: stack) (seen ++ [p])
      refine ⟨p :: new, by rw [visit, if_neg hp, heq]; simp, ?_, fun h => ?_, ?_⟩
      · exact List.cons_subset.mpr ⟨List.mem_cons_self, fun x hx =>
          List.mem_cons_of_mem _ (hsub hx)⟩
      · have hseen : (seen ++ [p]).Nodup :=
          List.nodup_append.mpr ⟨h, List.nodup_singleton p, by
            rintro a ha b hb rfl
            exact hp (List.mem_singleton.mp hb ▸ ha)⟩
        simpa using hnodup hseen
      · refine List.cons_subset.mpr ⟨by simp, fun x hx => ?_⟩
        simpa using hall hx

/-- What one run of the loop establishes: the seen nodes grow, stay inside the universe and stay
distinct; in the end they are closed under successors, and each is reachable from a node that was
seen at the start. -/
structure Explored (next : ι → List ι) (U seen result : List ι) : Prop where
  /-- Nodes seen at the start stay seen. -/
  seen_subset : seen ⊆ result
  /-- Only nodes of the universe are seen. -/
  subset_universe : result ⊆ U
  /-- Every node is listed once. -/
  nodup : result.Nodup
  /-- The result is closed under successors. -/
  closed : ∀ x ∈ result, next x ⊆ result
  /-- Every node of the result is reachable from the start. -/
  reachable : ∀ y ∈ result, ∃ s ∈ seen, Relation.ReflTransGen (Edge next) s y

theorem explored_explore {next : ι → List ι} {U : List ι}
    (hU : ∀ x ∈ U, next x ⊆ U) (n : ℕ) (stack seen : List ι) (hnodup : seen.Nodup)
    (hseen : seen ⊆ U) (hstack : stack ⊆ seen)
    (hfuel : U.length + stack.length ≤ n + seen.length)
    (hdone : ∀ x ∈ seen, x ∉ stack → next x ⊆ seen) :
    Explored next U seen (explore next n stack seen) := by
  -- Induction on the fuel; a round pops one node and pushes only nodes that become seen.
  induction n generalizing stack seen with
  | zero =>
    have hle : seen.length ≤ U.length := (hnodup.subperm hseen).length_le
    have hnil : stack = [] := List.length_eq_zero_iff.mp (by omega)
    subst hnil
    exact ⟨List.Subset.refl _, hseen, hnodup, fun x hx => hdone x hx List.not_mem_nil,
      fun y hy => ⟨y, hy, .refl⟩⟩
  | succ n ih =>
    cases stack with
    | nil =>
      exact ⟨List.Subset.refl _, hseen, hnodup, fun x hx => hdone x hx List.not_mem_nil,
        fun y hy => ⟨y, hy, .refl⟩⟩
    | cons x stack =>
      obtain ⟨new, heq, hsub, hnodup', hall⟩ := foldl_visit (next x) stack seen
      have hx : x ∈ seen := hstack List.mem_cons_self
      rw [explore, heq]
      have hrun := ih (new.reverse ++ stack) (seen ++ new) (hnodup' hnodup)
        (List.append_subset.mpr ⟨hseen, fun y hy => hU x (hseen hx) (hsub hy)⟩)
        (List.append_subset.mpr ⟨by simp,
          fun y hy => List.mem_append_left _ (hstack (List.mem_cons_of_mem _ hy))⟩)
        (by simp only [List.length_append, List.length_reverse, List.length_cons] at *; omega)
        (fun y hy hnot z hz => ?_)
      · refine ⟨fun y hy => hrun.seen_subset (List.mem_append_left _ hy), hrun.subset_universe,
          hrun.nodup, hrun.closed, fun y hy => ?_⟩
        obtain ⟨s, hs, hsy⟩ := hrun.reachable y hy
        rcases List.mem_append.mp hs with hs | hs
        · exact ⟨s, hs, hsy⟩
        · exact ⟨x, hx, .head (hsub hs) hsy⟩
      · rcases List.mem_append.mp hy with hy | hy
        · by_cases hyx : y = x
          · exact hall (hyx ▸ hz)
          · refine List.mem_append_left _ (hdone y hy (fun hmem => ?_) hz)
            rcases List.mem_cons.mp hmem with h | h
            · exact hyx h
            · exact hnot (List.mem_append_right _ h)
        · exact absurd (List.mem_append_left _ (List.mem_reverse.mpr hy)) hnot

theorem subset_explore (next : ι → List ι) (n : ℕ) (stack seen : List ι) :
    seen ⊆ explore next n stack seen := by
  induction n generalizing stack seen with
  | zero => exact List.Subset.refl _
  | succ n ih =>
    cases stack with
    | nil => exact List.Subset.refl _
    | cons x stack =>
      obtain ⟨new, heq, -⟩ := foldl_visit (next x) stack seen
      rw [explore, heq]
      exact fun y hy => ih _ _ (List.mem_append_left _ hy)

omit [DecidableEq ι] in
/-- A set closed under successors holds everything reachable from its members. -/
theorem Explored.mem_of_reaches {next : ι → List ι} {U seen result : List ι}
    (h : Explored next U seen result) {s y : ι} (hs : s ∈ result)
    (hy : Relation.ReflTransGen (Edge next) s y) : y ∈ result := by
  induction hy with
  | refl => exact hs
  | tail _ hp ih => exact h.closed _ ih hp

section Start

variable {next : ι → List ι} {U start : List ι} (hU : ∀ x ∈ U, next x ⊆ U)
  (hnodup : start.Nodup) (hstart : start ⊆ U) {stack : List ι} (hperm : stack.Perm start)
  {n : ℕ} (hn : U.length ≤ n)

include hU hnodup hstart hperm hn

theorem explored_explore_start : Explored next U start (explore next n stack start) :=
  explored_explore hU n stack start hnodup hstart hperm.subset
    (by rw [hperm.length_eq]; omega) fun _ hx hnot => absurd (hperm.mem_iff.mpr hx) hnot

/-- **The loop computes reachability.** Started with as much fuel as there are nodes, the loop
returns exactly the nodes reachable from the nodes on the initial stack. -/
theorem mem_explore_iff {y : ι} :
    y ∈ explore next n stack start ↔ ∃ s ∈ start, Relation.ReflTransGen (Edge next) s y := by
  have h := explored_explore_start hU hnodup hstart hperm hn
  exact ⟨h.reachable y, fun ⟨s, hs, hsy⟩ => h.mem_of_reaches (h.seen_subset hs) hsy⟩

theorem nodup_explore : (explore next n stack start).Nodup :=
  (explored_explore_start hU hnodup hstart hperm hn).nodup

theorem explore_subset : explore next n stack start ⊆ U :=
  (explored_explore_start hU hnodup hstart hperm hn).subset_universe

end Start

end SalRuntime.Worklist
