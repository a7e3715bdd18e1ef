import SalRuntime.Foundations.Ancestry

/-!
# Authors and their heads

Authors extend a common history. Each has a head, which only moves up, and makes every new version on
top of its head, under the next number of its own. Then what an author has made is a chain, and a version that
somebody else knows of tells what its author had seen before everything it made later.

## Main definitions

* `Authorship` — the versions that authors have made, and their heads.

## Main results

* `Authorship.step` — heads move up, and new versions are made on top of them.
* `Authorship.eq_of_made` — an author gives every number once.
* `Authorship.settled` — what is below known versions of all authors has been seen by all of them, and
  lies below everything that is not known.
-/

namespace SalRuntime

open Ancestry

variable {ν κ : Type}

/-- In the history `par`, `made v k n` says that `v` is the version number `n` of the author `k`. The
author `k` has the head `head k`, and gives its next version the number `next k`. -/
structure Authorship (par : ν → ν → Prop) (made : ν → κ → ℕ → Prop) (head : κ → ν) (next : κ → ℕ) :
    Prop where
  /-- An author's versions are in the ancestry of its head, under smaller numbers than the next one. -/
  own : ∀ {v k n}, made v k n → Reaches par (head k) v ∧ n < next k
  /-- An author's versions are a chain, in the order of their numbers. -/
  chain : ∀ {v v' k n n'}, made v k n → made v' k n' → n ≤ n' → Reaches par v' v

namespace Authorship

variable {par par' : ν → ν → Prop} {made made' : ν → κ → ℕ → Prop} {head head' : κ → ν}
  {next next' : κ → ℕ}

/-- **A step**: heads move up, and a new version is the new head of its author, under its next
number. -/
theorem step (h : Authorship par made head next)
    (hpar : ∀ {v w}, Reaches par v w → Reaches par' v w)
    (hup : ∀ k, Reaches par' (head' k) (head k)) (hnext : ∀ k, next k ≤ next' k)
    (hmade : ∀ {v k n}, made' v k n → made v k n ∨ v = head' k ∧ n = next k ∧ n < next' k) :
    Authorship par' made' head' next' where
  own {v k n} hv := by
    rcases hmade hv with hv | ⟨rfl, rfl, hlt⟩
    · obtain ⟨hreach, hlt⟩ := h.own hv
      exact ⟨(hup k).trans (hpar hreach), hlt.trans_le (hnext k)⟩
    · exact ⟨.refl, hlt⟩
  chain {v v' k n n'} hv hv' hle := by
    rcases hmade hv with hv | ⟨rfl, rfl, -⟩ <;> rcases hmade hv' with hv' | ⟨rfl, rfl, -⟩
    · exact hpar (h.chain hv hv' hle)
    · exact (hup k).trans (hpar (h.own hv).1)
    · have hlt := (h.own hv').2
      omega
    · exact .refl

/-- An author gives every number once. -/
theorem eq_of_made (h : Authorship par made head next) {rank : ν → ℕ}
    (hrank : ∀ x p, par x p → rank p < rank x) {v v' : ν} {k : κ} {n : ℕ} (hv : made v k n)
    (hv' : made v' k n) : v = v' :=
  reaches_antisymm hrank (h.chain hv' hv le_rfl) (h.chain hv hv' le_rfl)

/-- **What is settled.** Let the head of `self` know, of every other author in `S`, a version that `x` is
below, and let `x` be below the head. Then `x` is in the ancestry of the heads of all authors
in `S`, and below every version of theirs that the head of `self` does not know. -/
theorem settled (h : Authorship par made head next) {S : Set κ} {self : κ} {x : ν}
    (hx : Reaches par (head self) x)
    (hlatest : ∀ k ∈ S, k ≠ self → ∃ e n, made e k n ∧ Reaches par (head self) e ∧ Reaches par e x) :
    (∀ k ∈ S, Reaches par (head k) x) ∧ ∀ k ∈ S, ∀ v n, made v k n →
      Reaches par (head self) v ∨ Reaches par v x := by
  constructor
  · intro k hk
    by_cases hself : k = self
    · exact hself ▸ hx
    · obtain ⟨e, n, he, -, hex⟩ := hlatest k hk hself
      exact (h.own he).1.trans hex
  · intro k hk v m hv
    by_cases hself : k = self
    · exact Or.inl (hself ▸ (h.own hv).1)
    · obtain ⟨e, n, he, hknown, hex⟩ := hlatest k hk hself
      rcases le_total m n with hle | hle
      · exact Or.inl (hknown.trans (h.chain hv he hle))
      · exact Or.inr ((h.chain he hv hle).trans hex)

end Authorship

end SalRuntime
