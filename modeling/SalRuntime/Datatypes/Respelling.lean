import SalRuntime.Datatypes.Epochs

/-!
# Respelling the coordinates of a state

A state whose coordinates are rewritten under other deltas reads alike when these separate the chains
of its records. A compaction respells the state, and so does its forward map.

## Main definitions

* `EmbedRGA.respell` — a state with its coordinates rewritten.

## Main results

* `EmbedRGA.readIds_respell` — separating deltas keep the display order.
* `respell_of_rewrites` — a compaction respells the state.
-/

namespace SalRuntime

variable {α : Type}

namespace EmbedRGA

open CoordTree

/-- The record with its coordinate spelled under other deltas. -/
def respellRecord (lab : List ℕ → ℕ) (rec : Record α) : Record α :=
  match decodeChain rec.coord with
  | .ok c => { coord := spell codeword lab c, el := rec.el }
  | .error _ => rec

/-- The state with its coordinates spelled under other deltas. -/
def respell (lab : List ℕ → ℕ) (s : State α) : State α := s.mapVal fun _ rec => respellRecord lab rec

/-- The chains of the records of a state. -/
def chainsOf (s : State α) : Set (List ℕ) := {c | ∃ id, HasChain s id c}

variable {lab : List ℕ → ℕ} {s : State α}

theorem respellRecord_eq {rec : Record α} {c : List ℕ} (hc : decodeChain rec.coord = .ok c) :
    respellRecord lab rec = { coord := spell codeword lab c, el := rec.el } := by
  rw [respellRecord, hc]

theorem get?_respell (lab : List ℕ → ℕ) (s : State α) (id : ℕ) :
    (respell lab s).get? id = (s.get? id).map (respellRecord lab) := SortedMap.get?_mapVal ..

theorem has_respell (lab : List ℕ → ℕ) (s : State α) (id : ℕ) :
    (respell lab s).has id = s.has id := SortedMap.has_mapVal ..

theorem respell_insert (lab : List ℕ → ℕ) (s : State α) (id : ℕ) (rec : Record α) :
    respell lab (s.insert id rec) = (respell lab s).insert id (respellRecord lab rec) := by
  refine SortedMap.ext_get? fun i => ?_
  rw [get?_respell, SortedMap.get?_insert, SortedMap.get?_insert, get?_respell]
  split_ifs <;> rfl

theorem respell_erase (lab : List ℕ → ℕ) (s : State α) (id : ℕ) :
    respell lab (s.erase id) = (respell lab s).erase id := by
  refine SortedMap.ext_get? fun i => ?_
  rw [get?_respell, SortedMap.get?_erase, SortedMap.get?_erase, get?_respell]
  split_ifs <;> rfl

theorem hasChain_insert {id i : ℕ} {rec : Record α} {c c' : List ℕ}
    (hc : decodeChain rec.coord = .ok c) : HasChain (s.insert id rec) i c' ↔
      i = id ∧ c' = c ∨ i ≠ id ∧ HasChain s i c' := by
  unfold HasChain
  rw [SortedMap.get?_insert]
  by_cases hi : i = id
  · simp only [hi, if_true, Option.some.injEq, ne_eq, not_true_eq_false, false_and, or_false,
      true_and]
    constructor
    · rintro ⟨rec', rfl, hc'⟩
      exact Except.ok.inj (hc'.symm.trans hc)
    · rintro rfl
      exact ⟨rec, rfl, hc⟩
  · simp [hi]

theorem hasChain_erase {id i : ℕ} {c : List ℕ} :
    HasChain (s.erase id) i c ↔ i ≠ id ∧ HasChain s i c := by
  unfold HasChain
  rw [SortedMap.get?_erase]
  by_cases hi : i = id
  · simp [hi]
  · simp [hi]

/-- The old deltas separate all chains. -/
theorem separates_getLast :
    Separates {c : List ℕ | ∀ d ∈ c, 1 ≤ d} fun p => p.getLast?.getD 0 where
  part p a b x y ha _ hlt := by
    have := ha a (by simp)
    simpa using ⟨this, hlt⟩
  leave p a x _ ha := by simpa using ha a (by simp)

/-- Records are compared alike under deltas that separate their chains. -/
theorem precedes_respell {e f : ℕ × Record α} {c d : List ℕ} {X : Set (List ℕ)}
    (hlab : Separates X lab) (he : decodeChain e.2.coord = .ok c)
    (hf : decodeChain f.2.coord = .ok d) (hc : c ∈ X) (hd : d ∈ X) :
    precedes e f ↔ precedes (e.1, respellRecord lab e.2) (f.1, respellRecord lab f.2) := by
  obtain ⟨hcpos, hecoord⟩ := decodeChain_eq_ok_iff.mp he
  obtain ⟨hdpos, hfcoord⟩ := decodeChain_eq_ok_iff.mp hf
  have hlt : sortKey f.2.coord < sortKey e.2.coord ↔
      sortKey (spell codeword lab d) < sortKey (spell codeword lab c) := by
    rw [hlab.key_lt_iff orderedPrefixCode_codeword hc hd, hecoord, hfcoord, ← spell_getLast,
      ← spell_getLast, separates_getLast.key_lt_iff orderedPrefixCode_dEnc hcpos hdpos]
  have heq : sortKey f.2.coord = sortKey e.2.coord ↔
      sortKey (spell codeword lab d) = sortKey (spell codeword lab c) := by
    rw [sortKey_injective.eq_iff, sortKey_injective.eq_iff, hecoord, hfcoord]
    constructor
    · intro h
      rw [← spell_getLast, ← spell_getLast] at h
      rw [separates_getLast.spell_injective orderedPrefixCode_dEnc hdpos hcpos h]
    · intro h
      rw [hlab.spell_injective orderedPrefixCode_codeword hd hc h]
  rw [precedes, precedes, hlt, heq, respellRecord_eq he, respellRecord_eq hf]

/-- **Separating deltas keep the display order.** -/
theorem readIds_respell (hs : ∀ id, s.has id = true → ∃ c, HasChain s id c)
    (hlab : Separates (chainsOf s) lab) : readIds (respell lab s) = readIds s := by
  have hentries : (respell lab s).entries = s.entries.map fun e => (e.1, respellRecord lab e.2) :=
    rfl
  have hchain (e : ℕ × Record α) (he : e ∈ s.entries) :
      ∃ c ∈ chainsOf s, decodeChain e.2.coord = .ok c := by
    have hget := SortedMap.mem_entries_iff.mp he
    obtain ⟨c, rec, hrec, hc⟩ := hs e.1 (SortedMap.has_iff.mpr ⟨_, hget⟩)
    obtain rfl : rec = e.2 := Option.some.inj (hrec.symm.trans hget)
    exact ⟨c, ⟨e.1, e.2, hget, hc⟩, hc⟩
  have hsort := List.map_insertionSort precedes precedes
    (fun e : ℕ × Record α => (e.1, respellRecord lab e.2)) s.entries fun e he f hf => by
      obtain ⟨c, hc, hce⟩ := hchain e he
      obtain ⟨d, hd, hdf⟩ := hchain f hf
      exact precedes_respell hlab hce hdf hc hd
  rw [readIds, readIds, readEntries, readEntries, hentries, ← hsort, List.map_map]
  rfl

end EmbedRGA

open CoordTree EmbedRGA

/-- **A compaction** respells the state under the deltas of its forward map. -/
theorem respell_of_rewrites {s s' : EmbedRGA.State α} {cut : CoordCut} {settled : List ℕ}
    {opts : CompactOpts} {t : CoordTree} (hbuild : CoordTree.build s cut = .ok t)
    (hes : List.Forall₂ (Rewritten t settled opts) s.entries s'.entries) :
    s' = respell (t.mapLabel settled opts) s := by
  have htree := isTree_build hbuild
  have hrewrite {e e' : ℕ × Record α} (he : Rewritten t settled opts e e') :
      (e.1, respellRecord (t.mapLabel settled opts) e.2) = e' := by
    obtain ⟨hid, hel, c, hc, hcoord, hcoord'⟩ := he
    have hhas := has_of_recordAt hc
    have hdecode : decodeChain e.2.coord = .ok c := by
      rw [hcoord, decodeChain_flatMap (htree.pos_of_mem hhas)]
    rw [respellRecord_eq hdecode, ← newCoord_eq_mapLabel htree hhas, ← hcoord', ← hel, ← hid]
  have hentries : (respell (t.mapLabel settled opts) s).entries = s'.entries := by
    show s.entries.map (fun e => (e.1, respellRecord (t.mapLabel settled opts) e.2)) = s'.entries
    rw [← List.forall₂_eq_eq_eq, List.forall₂_map_left_iff]
    exact hes.imp fun _ _ he => hrewrite he
  rw [← SortedMap.ofList_entries s', ← hentries, SortedMap.ofList_entries]

end SalRuntime
