import SalRuntime.Datatypes.Batches
import SalRuntime.Datatypes.ExactGaps
import SalRuntime.Datatypes.LiveGapSnapshot
import SalRuntime.Datatypes.RgaFold

/-!
# The kernels of rich text

The three kernels that `src/datatypes/peritext.js` builds rich texts over: the embedded-chain RGA, the
tombstone RGA, and the production sided kernel. A rich text only inserts into its kernel, and merges
it over the empty base. Every state that honest insertions and such merges reach lists each of its
insertions once.

## Main definitions

* `liveGapKernel` — the production sided kernel as a kernel of rich text.
* `TextRGA` — the kernels, by name.
* `TextKernel.Authored`, `TextKernel.Version` — honest insertions, and the states they reach.
* `TextKernel.Lists` — a state lists its insertions.

## Main results

* `TextRGA.lists` — the versions of all three kernels list their insertions.
-/

namespace SalRuntime

variable {α : Type}

/-! ### The sided kernel -/

/-- An insertion of a sided kernel. It is placed when it is prepared. -/
structure SidedInsertion (α : Type) where
  /-- The id. -/
  id : ℕ
  /-- The element. -/
  el : α
  /-- The anchor, none for the root. -/
  anchorId : Option ℕ
  /-- The place. -/
  placed : Option (Placement id)

/-- An insertion as a sided operation. -/
def SidedInsertion.op (i : SidedInsertion α) : SidedOp α := .ins i.id i.el i.anchorId i.placed

/-- Prepare an insertion. -/
def LiveGap.prepareIns (s : LiveGap.State α) (i : SidedInsertion α) :
    Except Failure (SidedInsertion α) := do
  match ← LiveGap.prepare s i.op with
  | .ins id el anchorId placed => return { id, el, anchorId, placed }
  | .del _ => return i

/-- The production sided kernel. Decoding makes nodes with the label `k`. -/
@[reducible] def liveGapKernel (α : Type) [DecidableEq α] (k : ℕ) : TextKernel α where
  State := LiveGap.State α
  Ins := SidedInsertion α
  Print := Except Failure (Snapshot α)
  printDecEq := inferInstance
  Wire := Except Failure (Snapshot α)
  insId := SidedInsertion.id
  init := LiveGap.init
  prepare := some LiveGap.prepareIns
  needsPrepare := true
  apply s i := LiveGap.apply s i.op
  applyBatch s is := (is.map SidedInsertion.op).foldlM LiveGap.apply s
  merge3 l a b := .ok (LiveGap.merge3 l a b)
  readEntries s := .ok ((LiveGap.readEntries s).map fun e => (e.1, e.2.el))
  has s id := s.records.has id
  fingerprint := LiveGap.encodeState
  encodeState := LiveGap.encodeState
  decodeState enc := do LiveGap.decodeState k (← enc)

/-- The kernels that rich texts are made over. -/
inductive TextRGA
  /-- The embedded-chain RGA. -/
  | embedRGA
  /-- The tombstone RGA. -/
  | rga
  /-- The production sided kernel. -/
  | liveGapSidedEmbedRGA (k : ℕ)

/-- The kernel of a name. -/
def TextRGA.kernel (α : Type) [DecidableEq α] : TextRGA → TextKernel α
  | .embedRGA => embedKernel α
  | .rga => rgaKernel α
  | .liveGapSidedEmbedRGA k => liveGapKernel α k

/-- The insertion that an author asks for: it has no place. -/
def TextRGA.insertion [DecidableEq α] : (k : TextRGA) → Insertion α → (k.kernel α).Ins
  | .embedRGA, i => i
  | .rga, i => i
  | .liveGapSidedEmbedRGA _, i => { id := i.id, el := i.el, anchorId := i.anchorId, placed := none }

/-! ### Versions -/

namespace TextKernel

variable (K : TextKernel α)

/-- Prepare an insertion, if the kernel does. -/
def prepared (s : K.State) (i : K.Ins) : Except Failure K.Ins :=
  match K.prepare with
  | some prepare => prepare s i
  | none => .ok i

variable (raw : Insertion α → K.Ins)

/-- An insertion of an author who has seen `E`: it is one of `U`, has a fresh id, and was prepared on
the state. -/
structure Authored (U E : Set K.Ins) (s : K.State) (i : K.Ins) : Prop where
  /-- It is an insertion of the run. -/
  mem : i ∈ U
  /-- The id is fresh. -/
  fresh : ∀ j ∈ E, K.insId j ≠ K.insId i
  /-- It was prepared. -/
  prepared : ∃ j, K.prepared s (raw j) = .ok i

/-- The states that honest insertions of `U`, and merges over the empty base, reach, with the
insertions they have seen. -/
inductive Version (U : Set K.Ins) : Set K.Ins → K.State → Prop
  | init : Version U ∅ K.init
  | apply {E s i s'} (h : Version U E s) (hi : K.Authored raw U E s i)
      (hs : K.apply s i = .ok s') : Version U (insert i E) s'
  | merge {A B a b m} (ha : Version U A a) (hb : Version U B b)
      (hm : K.merge3 K.init a b = .ok m) : Version U (A ∪ B) m

/-- The state lists each of its insertions once. -/
def Lists (s : K.State) : Prop :=
  ∃ es, K.readEntries s = .ok es ∧ (es.map Prod.fst).Nodup ∧
    ∀ id, K.has s id = true ↔ id ∈ es.map Prod.fst

section Versions

variable {K raw} {U V E : Set K.Ins} {s : K.State}

theorem Version.subset (h : K.Version raw U E s) : E ⊆ U := by
  induction h with
  | init => exact Set.empty_subset _
  | apply _ hi _ ih => exact Set.insert_subset hi.mem ih
  | merge _ _ _ iha ihb => exact Set.union_subset iha ihb

/-- Only the insertions that a version has seen matter. -/
theorem Version.restrict (h : K.Version raw U E s) (hV : E ⊆ V) : K.Version raw V E s := by
  induction h with
  | init => exact .init
  | apply _ hi hs ih =>
    obtain ⟨hmem, hE⟩ := Set.insert_subset_iff.mp hV
    exact .apply (ih hE) ⟨hmem, hi.fresh, hi.prepared⟩ hs
  | merge _ _ hm iha ihb =>
    obtain ⟨hA, hB⟩ := Set.union_subset_iff.mp hV
    exact .merge (iha hA) (ihb hB) hm

end Versions

end TextKernel

/-! ### The embedded-chain RGA -/

theorem lists_embedKernel [DecidableEq α] (s : (embedKernel α).State) : (embedKernel α).Lists s := by
  have hperm : (EmbedRGA.readEntries s).Perm s.entries := List.perm_insertionSort _ _
  have hkeys : ((EmbedRGA.readEntries s).map fun e => (e.1, e.2.el)).map Prod.fst =
      (EmbedRGA.readEntries s).map Prod.fst := by
    rw [List.map_map]
    rfl
  refine ⟨_, rfl, ?_, fun id => ?_⟩
  · rw [hkeys]
    exact (hperm.map Prod.fst).nodup_iff.mpr s.nodup_keys
  · rw [hkeys, (hperm.map Prod.fst).mem_iff]
    exact SortedMap.mem_keys_iff_has.symm

/-! ### The tombstone RGA -/

namespace Rga

/-- Where the records of merged insertions come from. -/
theorem mergeAdds_from [DecidableEq α] {a : SortedMap ℕ (Added α)} {es : List (ℕ × Added α)}
    {t m : SortedMap ℕ (Added α)} (hm : mergeAdds a es t = .ok m) :
    (∀ id r, m.get? id = some r → t.get? id = some r ∨ (id, r) ∈ es) ∧
      (∀ id, t.has id = true → m.has id = true) ∧
      ∀ e ∈ es, a.has e.1 = true ∨ m.has e.1 = true := by
  induction es generalizing t with
  | nil =>
    cases hm
    exact ⟨fun _ _ hr => Or.inl hr, fun _ hid => hid, fun _ he => absurd he List.not_mem_nil⟩
  | cons e es ih =>
    obtain ⟨id, rb⟩ := e
    rw [mergeAdds] at hm
    cases hra : a.get? id with
    | some ra =>
      rw [hra] at hm
      simp only at hm
      split_ifs at hm
      obtain ⟨hget, hkeep, hes⟩ := ih hm
      refine ⟨fun i r hr => (hget i r hr).imp_right (List.mem_cons_of_mem _), hkeep, fun e he => ?_⟩
      rcases List.mem_cons.mp he with rfl | he
      · exact Or.inl (SortedMap.has_iff.mpr ⟨ra, hra⟩)
      · exact hes e he
    | none =>
      rw [hra] at hm
      obtain ⟨hget, hkeep, hes⟩ := ih hm
      refine ⟨fun i r hr => ?_, fun i hi => hkeep i ?_, fun e he => ?_⟩
      · rcases hget i r hr with ht | he
        · rw [SortedMap.get?_insert] at ht
          split_ifs at ht with hi
          · cases ht
            exact Or.inr (hi ▸ List.mem_cons_self)
          · exact Or.inl ht
        · exact Or.inr (List.mem_cons_of_mem _ he)
      · rw [SortedMap.has_insert, hi, Bool.or_true]
      · rcases List.mem_cons.mp he with rfl | he
        · exact Or.inr (hkeep _ (by simp [SortedMap.has_insert]))
        · exact hes e he

/-- The anchor of a checked insertion is a smaller inserted id. -/
theorem checkInsert_anchor {s : State α} {id : ℕ} {anchorId : Option ℕ} {b : ℕ}
    (h : checkInsert s id anchorId = .ok (some b)) : s.adds.has b = true ∧ b < id := by
  simp only [checkInsert, bind, Except.bind, pure, Except.pure, throw, throwThe,
    MonadExceptOf.throw] at h
  split_ifs at h
  cases anchorId with
  | none => cases h
  | some c =>
    simp only at h
    split_ifs at h with hhas _ hlt
    cases h
    exact ⟨by simpa using hhas, not_le.mp hlt⟩

/-- An insertion-only state: the anchors are closed, and nothing is deleted. -/
structure Births (s : State α) : Prop where
  /-- Anchors are smaller inserted ids. -/
  closed : AnchorClosed s.adds
  /-- There are no graves. -/
  grave : s.grave = SortedMap.empty
  /-- No order is remembered. -/
  order : s.order = none

theorem Births.init : Births (init : State α) := by
  refine ⟨fun id r a hr _ => ?_, rfl, rfl⟩
  cases hr

theorem Births.ins {s s' : State α} (h : Births s) {i : Insertion α}
    (hs : apply s i.op = .ok s') : Births s' := by
  rw [apply, Insertion.op, prepare] at hs
  cases hcheck : checkInsert s i.id i.anchorId with
  | error e =>
    rw [hcheck] at hs
    cases hs
  | ok a =>
    rw [hcheck] at hs
    cases hs
    refine ⟨fun id r b hr hb => ?_, h.grave, rfl⟩
    have hkeys (c : ℕ) (hc : c ∈ s.adds.keys) : c ∈ (s.adds.insert i.id ⟨a, i.el⟩).keys := by
      rw [SortedMap.mem_keys_iff_has] at hc ⊢
      rw [SortedMap.has_insert, hc, Bool.or_true]
    rw [SortedMap.get?_insert] at hr
    split_ifs at hr with hid
    · cases hr
      obtain rfl : a = some b := hb
      obtain ⟨hmem, hlt⟩ := checkInsert_anchor hcheck
      exact ⟨hkeys b (SortedMap.mem_keys_iff_has.mpr hmem), hid ▸ hlt⟩
    · obtain ⟨hmem, hlt⟩ := h.closed id r b hr hb
      exact ⟨hkeys b hmem, hlt⟩

theorem Births.merge3 [DecidableEq α] {l a b m : State α} (ha : Births a) (hb : Births b)
    (hm : merge3 l a b = .ok m) : Births m := by
  rw [Rga.merge3] at hm
  cases hadds : mergeAdds a.adds b.adds.entries a.adds with
  | error e =>
    rw [hadds] at hm
    cases hm
  | ok adds =>
    rw [hadds] at hm
    cases hm
    obtain ⟨hget, hkeep, hes⟩ := mergeAdds_from hadds
    refine ⟨fun id r c hr hc => ?_, ?_, rfl⟩
    · rw [SortedMap.mem_keys_iff_has]
      rcases hget id r hr with hra | hrb
      · obtain ⟨hmem, hlt⟩ := ha.closed id r c hra hc
        exact ⟨hkeep c (SortedMap.mem_keys_iff_has.mp hmem), hlt⟩
      · obtain ⟨hmem, hlt⟩ := hb.closed id r c (SortedMap.mem_entries_iff.mp hrb) hc
        obtain ⟨rc, hrc⟩ := SortedMap.mem_keys_iff.mp hmem
        refine ⟨?_, hlt⟩
        rcases hes (c, rc) (SortedMap.mem_entries_iff.mpr hrc) with hca | hcm
        · exact hkeep c hca
        · exact hcm
    · rw [mergeGrave, ha.grave, hb.grave]
      rfl

/-- Insertion-only states list their insertions. -/
theorem Births.lists [DecidableEq α] {s : State α} (h : Births s) : (rgaKernel α).Lists s := by
  have hread := readIds_of_anchorClosed h.closed h.order
  cases hentries : readEntries s with
  | error e =>
    rw [readIds, hentries] at hread
    cases hread
  | ok es =>
    rw [readIds, hentries] at hread
    have hids : es.map Prod.fst = timestampFold s.adds := by
      rw [Except.ok.inj hread, h.grave]
      exact List.filter_true _
    have hkeys : (es.map fun e => (e.1, e.2.el)).map Prod.fst = timestampFold s.adds := by
      rw [List.map_map, ← hids]
      rfl
    obtain ⟨hpair, hmem⟩ := timestampFold_spec h.closed
    refine ⟨es.map fun e => (e.1, e.2.el), ?_, ?_, fun id => ?_⟩
    · show (readEntries s).map (List.map fun e => (e.1, e.2.el)) = _
      rw [hentries]
      rfl
    · rw [hkeys]
      refine hpair.imp fun {i j} hij heq => ?_
      subst heq
      exact above_irrefl _ hij
    · rw [hkeys, hmem, SortedMap.mem_keys_iff_has]
      show (s.adds.has id && !s.grave.has id) = true ↔ _
      rw [h.grave]
      simp

/-- The versions of the tombstone RGA are insertion-only states. -/
theorem births_of_version [DecidableEq α] {U E : Set (rgaKernel α).Ins} {s : (rgaKernel α).State}
    (h : (rgaKernel α).Version TextRGA.rga.insertion U E s) : Births s := by
  induction h with
  | init => exact .init
  | apply _ _ hs ih => exact ih.ins hs
  | merge _ _ hm iha ihb => exact Births.merge3 (l := init) iha ihb hm

end Rga

/-! ### The sided kernel's versions -/

namespace LiveGap

/-- The insertions of a rich text over the sided kernel, as sided operations. -/
def sidedOps (E : Set (SidedInsertion α)) : Set (SidedOp α) := Set.image SidedInsertion.op E

theorem sidedOps_insert (i : SidedInsertion α) (E : Set (SidedInsertion α)) :
    sidedOps (insert i E) = insert i.op (sidedOps E) := Set.image_insert_eq

theorem sidedOps_union (E F : Set (SidedInsertion α)) :
    sidedOps (E ∪ F) = sidedOps E ∪ sidedOps F := Set.image_union ..

theorem mem_ids_sidedOps {E : Set (SidedInsertion α)} {id : ℕ} :
    id ∈ ids (sidedOps E) ↔ ∃ i ∈ E, i.id = id := by
  simp only [ids, inserted, seqOps, sidedOps, Set.mem_ofPred_eq, Set.mem_image, exists_exists_and_eq_and]
  constructor
  · rintro ⟨el, a, i, hi, hop⟩
    cases hop
    exact ⟨i, hi, rfl⟩
  · rintro ⟨i, hi, rfl⟩
    exact ⟨i.el, i.anchorId, i, hi, rfl⟩

/-- Nothing is deleted. -/
theorem live_sidedOps (E : Set (SidedInsertion α)) :
    live (seqOps (sidedOps E)) = ids (sidedOps E) := by
  ext id
  refine ⟨fun h => h.1, fun h => ⟨h, ?_⟩⟩
  rintro ⟨o, ⟨i, -, rfl⟩, hop⟩
  cases hop

theorem onePlace_sidedOps {U : Set (SidedInsertion α)} (hU : Set.InjOn SidedInsertion.id U) :
    OnePlace (sidedOps U) := by
  rintro id el a p el' a' p' ⟨i, hi, hop⟩ ⟨j, hj, hop'⟩
  obtain ⟨iid, iel, ia, ip⟩ := i
  obtain ⟨jid, jel, ja, jp⟩ := j
  cases hop
  cases hop'
  cases hU hi hj rfl
  exact ⟨rfl, rfl, rfl⟩

/-- What preparing an insertion of rich text does. -/
theorem prepareIns_eq_ok {s : State α} {j : Insertion α} {i : SidedInsertion α}
    (h : prepareIns s { id := j.id, el := j.el, anchorId := j.anchorId, placed := none } = .ok i) :
    prepare s (.ins j.id j.el j.anchorId none) = .ok i.op ∧ i.id = j.id ∧ i.el = j.el ∧
      i.anchorId = j.anchorId := by
  rw [prepareIns, SidedInsertion.op] at h
  cases hp : prepare s (.ins j.id j.el j.anchorId none) with
  | error e =>
    rw [hp] at h
    cases h
  | ok op =>
    obtain ⟨g, p, -, -, -, rfl, -, -⟩ := prepare_ins_eq_ok hp
    rw [hp] at h
    cases h
    exact ⟨rfl, rfl, rfl, rfl⟩

variable [DecidableEq α] {k : ℕ} {U E : Set (liveGapKernel α k).Ins} {s : (liveGapKernel α k).State}

/-- **The versions of the sided kernel** have exact gaps. -/
theorem exact_of_version {χ : ℕ → Chain} (hχ : PlacedChains χ (sidedOps U))
    (h : (liveGapKernel α k).Version (TextRGA.insertion (.liveGapSidedEmbedRGA k)) U E s) :
    ∃ u, Exact χ (sidedOps E) u s := by
  induction h with
  | init =>
    refine ⟨UnifiedSided.init, ?_⟩
    rw [sidedOps, Set.image_empty]
    exact exact_init χ
  | @apply E s i s' _ hi hs ih =>
    obtain ⟨u, hu⟩ := ih
    obtain ⟨j, hj⟩ := hi.prepared
    obtain ⟨hp, hid, -, -⟩ := prepareIns_eq_ok hj
    have hfresh : j.id ∉ ids (sidedOps E) := by
      rw [mem_ids_sidedOps]
      rintro ⟨i', hi', heq⟩
      exact hi.fresh i' hi' (heq.trans hid.symm)
    obtain ⟨u', -, hu'⟩ := hu.ins hχ hfresh hp ⟨i, hi.mem, rfl⟩ hs
    exact ⟨u', sidedOps_insert i E ▸ hu'⟩
  | @merge A B a b m _ _ hm iha ihb =>
    cases hm
    obtain ⟨au, ha⟩ := iha
    obtain ⟨bu, hb⟩ := ihb
    have hempty : {i | (init : State α).records.has i = true} = (∅ : Set ℕ) := by
      ext i
      simp [init]
    have hlive : live (seqOps (sidedOps A ∪ sidedOps B)) =
        mergeLive {i | (init : State α).records.has i = true} (live (seqOps (sidedOps A)))
          (live (seqOps (sidedOps B))) := by
      have hids : ids (sidedOps A ∪ sidedOps B) = ids (sidedOps A) ∪ ids (sidedOps B) := by
        rw [ids, seqOps_union, inserted_union]
        rfl
      rw [← sidedOps_union, live_sidedOps, sidedOps_union, live_sidedOps, live_sidedOps, hids, hempty,
        mergeLive_empty]
    have hnew {C : Set (SidedInsertion α)} {c : State α} {cu : UnifiedSided.State α}
        (hc : Exact χ (sidedOps C) cu c) (i : ℕ) (hi : c.records.has i = false) :
        i ∉ ids (sidedOps C) := by
      rw [← live_sidedOps, ← hc.has_iff, hi]
      exact Bool.false_ne_true
    obtain ⟨mu, -, hmu⟩ := Exact.merge_of (Set.empty_subset _) PolicyState.init Summarizes.init
      ha hb hlive (fun i _ hi _ => hnew hb i hi) (fun i _ hi _ => hnew ha i hi)
    exact ⟨mu, sidedOps_union A B ▸ hmu⟩

/-- They list their insertions. -/
theorem lists_of_version (hU : Set.InjOn SidedInsertion.id U)
    (h : (liveGapKernel α k).Version (TextRGA.insertion (.liveGapSidedEmbedRGA k)) U E s) :
    (liveGapKernel α k).Lists s := by
  obtain ⟨χ, hχ⟩ := (onePlace_sidedOps hU).exists_chains
  obtain ⟨u, hu⟩ := exact_of_version hχ h
  obtain ⟨hpair, hmem⟩ := hu.readIds_spec
  have hkeys : ((readEntries s).map fun e => (e.1, e.2.el)).map Prod.fst = readIds s := by
    rw [List.map_map]
    rfl
  refine ⟨_, rfl, ?_, fun id => ?_⟩
  · rw [hkeys]
    refine hpair.imp fun {i j} hij heq => ?_
    subst heq
    exact lt_irrefl _ hij
  · rw [hkeys, hmem, ← hu.has_iff]

end LiveGap

/-! ### The three kernels -/

/-- **Every version lists its insertions**, whichever the kernel. -/
theorem TextRGA.lists [DecidableEq α] (k : TextRGA) {U E : Set (k.kernel α).Ins}
    {s : (k.kernel α).State} (hU : Set.InjOn (k.kernel α).insId U)
    (h : (k.kernel α).Version k.insertion U E s) : (k.kernel α).Lists s := by
  cases k with
  | embedRGA => exact lists_embedKernel s
  | rga => exact (Rga.births_of_version h).lists
  | liveGapSidedEmbedRGA k => exact LiveGap.lists_of_version hU h

end SalRuntime
