import Mathlib.Logic.Relation
import SalRuntime.Datatypes.HonestStates

/-!
# Coordinate order is tree order

The comparator of the embedded-chain RGA orders the records of a state by descending keys of their
coordinates. A coordinate is the chain of codewords of the distances from anchor to anchor, and the
distances add up to the id, so no two records of a state have the same coordinate. On honest states
the order is the order of the tree of anchors, the deleted ones included.

## Main definitions

* `EmbedRGA.Listed` — the comparator puts one record before another.
* `EmbedRGA.Reachable` — the states that operations and merges reach.
* `EmbedRGA.Minted` — coordinates spell distances that add up to the id.
* `EmbedRGA.TreeOrdered`, `EmbedRGA.AnchorOrdered` — what the order of the records says.

## Main results

* `EmbedRGA.Reachable.minted` — reachable states are minted.
* `EmbedRGA.Minted.treeOrdered` — minted states are ordered by their distances.
* `EmbedRGA.anchorOrdered_of_honest` — honest states are ordered by their anchors.
* `EmbedRGA.coordinateOrder` — all of it.
-/

namespace SalRuntime

variable {α : Type}

/-! ### The code in lexicographic order -/

theorem lt_of_firstDiff {a b : List Bool} (h : FirstDiff a b) : a < b := by
  obtain ⟨p, x, y, rfl, rfl⟩ := h
  exact List.Lex.append_left (· < ·) (List.Lex.rel (by decide)) p

theorem dEnc_lt_iff {d e : ℕ} (hd : 1 ≤ d) (he : 1 ≤ e) : dEnc d < dEnc e ↔ d < e := by
  constructor
  · intro h
    rcases lt_trichotomy d e with hlt | rfl | hlt
    · exact hlt
    · exact absurd h (lt_irrefl _)
    · exact absurd h (lt_asymm (lt_of_firstDiff (orderedPrefixCode_dEnc.firstDiff e d he hlt)))
  · exact fun hlt => lt_of_firstDiff (orderedPrefixCode_dEnc.firstDiff d e hd hlt)

theorem dEnc_not_prefix {d e : ℕ} (hd : 1 ≤ d) (he : 1 ≤ e) (hne : d ≠ e) :
    ¬ dEnc d <+: dEnc e := by
  rintro ⟨x, hx⟩
  refine hne (orderedPrefixCode_dEnc.eq_of_append_eq hd he (x := x) (y := []) ?_)
  rw [hx, List.append_nil]

/-- Extensions sort below, and where chains of numbers part the larger number sorts above. -/
theorem sortKey_flatMap_lt {ds es : List ℕ} (hds : ∀ d ∈ ds, 1 ≤ d) (hes : ∀ d ∈ es, 1 ≤ d)
    (h : Above ds es) : sortKey (es.flatMap dEnc) < sortKey (ds.flatMap dEnc) := by
  induction h with
  | @nil d es =>
    refine sortKey_lt_nil fun hnil => ?_
    rw [List.flatMap_cons, List.append_eq_nil_iff] at hnil
    exact orderedPrefixCode_dEnc.ne_nil (hes d List.mem_cons_self) hnil.1
  | @rel d ds e es hlt =>
    rw [List.flatMap_cons, List.flatMap_cons]
    exact sortKey_lt_of_firstDiff ((orderedPrefixCode_dEnc.firstDiff e d
      (hes e List.mem_cons_self) hlt).append_right _ _)
  | @cons d ds es _ ih =>
    rw [List.flatMap_cons, List.flatMap_cons]
    exact sortKey_append_lt _ (ih (fun d hd => hds d (List.mem_cons_of_mem _ hd))
      fun d hd => hes d (List.mem_cons_of_mem _ hd))

/-- The comparator decides the display order of chains of numbers. -/
theorem above_of_sortKey_lt {ds es : List ℕ} (hds : ∀ d ∈ ds, 1 ≤ d) (hes : ∀ d ∈ es, 1 ≤ d)
    (h : sortKey (es.flatMap dEnc) < sortKey (ds.flatMap dEnc)) : Above ds es := by
  rcases above_trichotomy ds es with hab | rfl | hab
  · exact hab
  · exact absurd h (lt_irrefl _)
  · exact absurd h (lt_asymm (sortKey_flatMap_lt hes hds hab))

namespace EmbedRGA

variable {s : State α}

/-- The comparator puts the first record before the second: its key is larger. -/
def Listed (e f : ℕ × Record α) : Prop := sortKey f.2.coord < sortKey e.2.coord

/-- The states that operations and merges reach. -/
inductive Reachable : State α → Prop
  | init : Reachable init
  | apply {s op s'} (h : Reachable s) (hs : apply s op = .ok s') : Reachable s'
  | merge {l a b m} (hl : Reachable l) (ha : Reachable a) (hb : Reachable b)
      (hs : merge3 l a b = .ok m) : Reachable m

/-! ### Distances add up to ids -/

/-- The coordinate of every record spells positive distances that add up to its id. -/
def Minted (s : State α) : Prop :=
  ∀ id r, s.get? id = some r → ∃ ds : List ℕ, (∀ d ∈ ds, 1 ≤ d) ∧ ds.sum = id ∧
    r.coord = ds.flatMap dEnc

/-- The coordinate of an anchor spells distances that add up to it. -/
theorem Minted.anchor (h : Minted s) {anchorId : Option ℕ} {bits : List Bool}
    (hbits : anchorCoord s anchorId = some bits) : ∃ ds : List ℕ, (∀ d ∈ ds, 1 ≤ d) ∧
      ds.sum = anchorId.getD 0 ∧ bits = ds.flatMap dEnc := by
  cases anchorId with
  | none =>
    cases hbits
    exact ⟨[], by simp, rfl, rfl⟩
  | some a =>
    obtain ⟨ra, ha, rfl⟩ := Option.map_eq_some_iff.mp hbits
    exact h a ra ha

/-- A minted record adds its distance to those of its anchor. -/
theorem Minted.insRecord (h : Minted s) {id : ℕ} {el : α} {anchorId : Option ℕ} {r : Record α}
    (hr : insRecord s id el anchorId = .ok r) : ∃ ds : List ℕ, (∀ d ∈ ds, 1 ≤ d) ∧ ds.sum = id ∧
      r.coord = ds.flatMap dEnc := by
  obtain ⟨-, hlt, bits, hbits, rfl⟩ := insRecord_eq_ok_iff.mp hr
  obtain ⟨ds, hds, hsum, rfl⟩ := h.anchor hbits
  refine ⟨ds ++ [id - anchorId.getD 0], fun d hd => ?_, ?_, by simp⟩
  · rcases List.mem_append.mp hd with hd | hd
    · exact hds d hd
    · have := List.mem_singleton.mp hd
      omega
  · rw [List.sum_append, List.sum_singleton]
    omega

theorem Minted.apply (h : Minted s) {op : SeqOp α} {s' : State α}
    (hs : EmbedRGA.apply s op = .ok s') : Minted s' := by
  cases op with
  | ins id el anchorId =>
    rw [EmbedRGA.apply] at hs
    cases hr : EmbedRGA.insRecord s id el anchorId with
    | error f => simp [hr, bind, Except.bind] at hs
    | ok r =>
      simp only [hr, bind, Except.bind, pure, Except.pure, Except.ok.injEq] at hs
      subst hs
      intro i ri hi
      rw [SortedMap.get?_insert] at hi
      split_ifs at hi with heq
      · cases hi
        exact heq ▸ h.insRecord hr
      · exact h i ri hi
  | del id =>
    cases hs
    intro i ri hi
    rw [SortedMap.get?_erase] at hi
    split_ifs at hi
    exact h i ri hi

theorem get?_of_mergeAdd {l a : State α} {es : List (ℕ × Record α)} {t m : State α}
    (hm : mergeAdd l a es t = .ok m) {id : ℕ} {r : Record α} (hr : m.get? id = some r) :
    t.get? id = some r ∨ (id, r) ∈ es := by
  induction es generalizing t with
  | nil =>
    cases hm
    exact Or.inl hr
  | cons e es ih =>
    obtain ⟨i, rb⟩ := e
    rw [mergeAdd] at hm
    cases ha : a.get? i with
    | some ra =>
      simp only [ha] at hm
      split_ifs at hm
      exact (ih hm).imp_right (List.mem_cons_of_mem _)
    | none =>
      simp only [ha] at hm
      rcases ih hm with ht | hes
      · split_ifs at ht
        · exact Or.inl ht
        · rw [SortedMap.get?_insert] at ht
          split_ifs at ht with heq
          · cases ht
            exact Or.inr (heq ▸ List.mem_cons_self)
          · exact Or.inl ht
      · exact Or.inr (List.mem_cons_of_mem _ hes)

/-- The records of a merge are records of a side. -/
theorem get?_of_merge3 {l a b m : State α} (hm : merge3 l a b = .ok m) {id : ℕ} {r : Record α}
    (hr : m.get? id = some r) : a.get? id = some r ∨ b.get? id = some r := by
  rcases get?_of_mergeAdd hm hr with h | h
  · rw [get?_mergeRemove] at h
    split_ifs at h
    exact Or.inl h
  · exact Or.inr (SortedMap.mem_entries_iff.mp h)

/-- **Reachable states are minted.** -/
theorem Reachable.minted (h : Reachable s) : Minted s := by
  induction h with
  | init => exact fun id r hr => by simp [EmbedRGA.init] at hr
  | apply _ hs ih => exact ih.apply hs
  | merge _ _ _ hs _ iha ihb =>
    exact fun id r hr => (get?_of_merge3 hs hr).elim (iha id r) (ihb id r)

/-! ### The order by distances -/

/-- The comparator orders the records totally and strictly, the read lists them in this order, and
the order is that of the distances which the coordinates decode to: prefixes come first, and where
two coordinates part the larger distance does. -/
structure TreeOrdered (s : State α) : Prop where
  /-- Coordinates decode. -/
  decodes : ∀ e ∈ s.entries, ∃ ds, decodeChain e.2.coord = .ok ds
  /-- No record is before itself. -/
  irrefl : ∀ e ∈ s.entries, ¬ Listed e e
  /-- The order is transitive. -/
  trans : ∀ e ∈ s.entries, ∀ f ∈ s.entries, ∀ g ∈ s.entries, Listed e f → Listed f g → Listed e g
  /-- The order is total. -/
  total : ∀ e ∈ s.entries, ∀ f ∈ s.entries, e ≠ f → Listed e f ∨ Listed f e
  /-- The read lists the records in order. -/
  sorted : (readEntries s).Pairwise Listed ∧ (readEntries s).Perm s.entries
  /-- Prefixes come first. -/
  ancestor : ∀ e ∈ s.entries, ∀ f ∈ s.entries, ∀ ds d es, decodeChain e.2.coord = .ok ds →
    decodeChain f.2.coord = .ok (ds ++ d :: es) → Listed e f
  /-- Larger distances come first. -/
  branch : ∀ e ∈ s.entries, ∀ f ∈ s.entries, ∀ p d d' ds es,
    decodeChain e.2.coord = .ok (p ++ d :: ds) → decodeChain f.2.coord = .ok (p ++ d' :: es) →
    d' < d → Listed e f

/-- **Minted states are ordered by their distances.** -/
theorem Minted.treeOrdered (h : Minted s) : TreeOrdered s := by
  have hmint (e : ℕ × Record α) (he : e ∈ s.entries) : ∃ ds : List ℕ, (∀ d ∈ ds, 1 ≤ d) ∧
      ds.sum = e.1 ∧ e.2.coord = ds.flatMap dEnc := h e.1 e.2 (SortedMap.mem_entries_iff.mp he)
  have hlisted {e f : ℕ × Record α} {ds es : List ℕ} (he : decodeChain e.2.coord = .ok ds)
      (hf : decodeChain f.2.coord = .ok es) (hab : Above ds es) : Listed e f := by
    obtain ⟨hds, hcoord⟩ := decodeChain_eq_ok_iff.mp he
    obtain ⟨hes, hcoord'⟩ := decodeChain_eq_ok_iff.mp hf
    rw [Listed, hcoord, hcoord']
    exact sortKey_flatMap_lt hds hes hab
  have htotal (e : ℕ × Record α) (he : e ∈ s.entries) (f : ℕ × Record α) (hf : f ∈ s.entries)
      (hne : e ≠ f) : Listed e f ∨ Listed f e := by
    obtain ⟨ds, hds, hsum, hcoord⟩ := hmint e he
    obtain ⟨es, hes, hsum', hcoord'⟩ := hmint f hf
    -- Records with the same distances have the same id.
    rcases lt_trichotomy (sortKey f.2.coord) (sortKey e.2.coord) with hlt | heq | hlt
    · exact Or.inl hlt
    · refine absurd ?_ hne
      have hcoords := sortKey_injective heq
      rw [hcoord, hcoord'] at hcoords
      have hchain := decodeChain_flatMap hds
      rw [← hcoords, decodeChain_flatMap hes] at hchain
      have hid : e.1 = f.1 := by rw [← hsum, ← hsum', Except.ok.inj hchain]
      have hget := SortedMap.mem_entries_iff.mp he
      rw [hid, SortedMap.mem_entries_iff.mp hf] at hget
      exact Prod.ext hid (Option.some.inj hget).symm
    · exact Or.inr hlt
  have hperm := perm_readEntries s
  refine ⟨fun e he => ?_, fun e _ => lt_irrefl _, fun e _ f _ g _ hef hfg => lt_trans hfg hef,
    htotal, ⟨?_, hperm⟩, fun e _ f _ ds d es he hf => ?_, fun e _ f _ p d d' ds es he hf hlt => ?_⟩
  · obtain ⟨ds, hds, -, hcoord⟩ := hmint e he
    exact ⟨ds, hcoord ▸ decodeChain_flatMap hds⟩
  · have hnodup : (readEntries s).Nodup :=
      hperm.symm.nodup (s.sorted.imp fun hlt heq => absurd (heq ▸ hlt) (lt_irrefl _))
    refine ((pairwise_readEntries s).and hnodup).imp_of_mem fun {e f} he hf hef => ?_
    rcases htotal e (hperm.subset he) f (hperm.subset hf) hef.2 with h | h
    · exact h
    · rcases hef.1 with h' | ⟨h', -⟩
      · exact h'
      · exact absurd h (by rw [Listed, h']; exact lt_irrefl _)
  · exact hlisted he hf (above_append_of_ne_nil ds (by simp))
  · exact hlisted he hf (above_of_lt p hlt ds es)

/-! ### The order by anchors -/

/-- The first id is the anchor of the second one. -/
def AnchorOf (U : Set (SeqOp α)) (a id : ℕ) : Prop := ∃ el, SeqOp.ins id el (some a) ∈ U

/-- Coordinates decode to the distances along the chain of anchors, whether these are live or not;
anchors come before all their descendants, and where two chains part the larger distance comes
first. -/
structure AnchorOrdered (U : Set (SeqOp α)) (s : State α) : Prop where
  /-- Coordinates decode to the distances along the chain. -/
  distances : ∀ χ ε, Births χ ε U → ∀ e ∈ s.entries,
    decodeChain e.2.coord = .ok (labelsFrom mintLabel [] (χ e.1))
  /-- Anchors come first. -/
  anchor : ∀ e ∈ s.entries, ∀ f ∈ s.entries, Relation.TransGen (AnchorOf U) e.1 f.1 → Listed e f
  /-- Larger distances come first. -/
  branch : ∀ χ ε, Births χ ε U → ∀ e ∈ s.entries, ∀ f ∈ s.entries, ∀ p a b x y,
    χ e.1 = p ++ a :: x → χ f.1 = p ++ b :: y → mintLabel (p ++ [b]) < mintLabel (p ++ [a]) →
    Listed e f

/-- The chain of a descendant properly extends that of the ancestor. -/
theorem exists_chain_eq_append {χ : ℕ → List ℕ} {ε : ℕ → α} {U : Set (SeqOp α)}
    (hU : Births χ ε U) {a id : ℕ} (h : Relation.TransGen (AnchorOf U) a id) :
    ∃ d, d ≠ [] ∧ χ id = χ a ++ d := by
  induction h with
  | single h =>
    obtain ⟨el, hmem⟩ := h
    exact ⟨_, by simp, hU.chain _ el _ hmem⟩
  | @tail b id _ h ih =>
    obtain ⟨el, hmem⟩ := h
    obtain ⟨d, -, hd⟩ := ih
    refine ⟨d ++ [id], by simp, ?_⟩
    rw [hU.chain _ el _ hmem, anchorChain, hd, List.append_assoc]

theorem reachable_of_honest [DecidableEq α] {U E : Set (SeqOp α)} {s : (embedRGA α).State}
    (h : HonestState (embedRGA α) (fun op => op) U E s) : Reachable s := by
  induction h with
  | init => exact .init
  | apply _ _ _ hs ih => exact ih.apply hs
  | merge _ _ _ _ hs ihl iha ihb => exact .merge ihl iha ihb hs

/-- **Honest states are ordered by their anchors.** -/
theorem anchorOrdered_of_honest [DecidableEq α] {U E : Set (SeqOp α)} (hU : HonestInserts U)
    (h : HonestState (embedRGA α) (fun op => op) U E s) : AnchorOrdered U s := by
  have hrecord {χ : ℕ → List ℕ} {ε : ℕ → α} (hbirths : Births χ ε U) (e : ℕ × Record α)
      (he : e ∈ s.entries) : e.1 ∈ inserted U ∧ e.2.coord = spell dEnc mintLabel (χ e.1) := by
    obtain ⟨hlive, hrec⟩ := (h.rep implementsSeq_embedRGA hbirths e.1 e.2).mp
      (SortedMap.mem_entries_iff.mp he)
    exact ⟨inserted_mono h.subset hlive.1, by rw [hrec, recordOf]⟩
  have hlisted {χ : ℕ → List ℕ} {ε : ℕ → α} (hbirths : Births χ ε U) {e f : ℕ × Record α}
      (he : e ∈ s.entries) (hf : f ∈ s.entries) (hab : Above (χ e.1) (χ f.1)) : Listed e f := by
    obtain ⟨hid, hcoord⟩ := hrecord hbirths e he
    obtain ⟨hid', hcoord'⟩ := hrecord hbirths f hf
    rw [Listed, hcoord, hcoord']
    exact spell_key_lt orderedPrefixCode_dEnc siblingMono_mintLabel hab
      (hbirths.mem_increasingChains hid) (hbirths.mem_increasingChains hid')
  refine ⟨fun χ ε hbirths e he => ?_, fun e he f hf hdesc => ?_,
    fun χ ε hbirths e he f hf p a b x y hχ hχ' hlt => ?_⟩
  · obtain ⟨hid, hcoord⟩ := hrecord hbirths e he
    rw [hcoord, spell, spellFrom_eq_flatMap]
    exact decodeChain_flatMap
      (siblingMono_mintLabel.pos_of_mem_labelsFrom (hbirths.mem_increasingChains hid))
  · have : Inhabited α := ⟨e.2.el⟩
    obtain ⟨χ, ε, hbirths⟩ := hU.exists_births
    obtain ⟨d, hd, hχ⟩ := exists_chain_eq_append hbirths hdesc
    exact hlisted hbirths he hf (hχ ▸ above_append_of_ne_nil (χ e.1) hd)
  · refine hlisted hbirths he hf ?_
    rw [mintLabel_concat, mintLabel_concat] at hlt
    rw [hχ, hχ']
    exact above_of_lt p (by omega) x y

end EmbedRGA

end SalRuntime
