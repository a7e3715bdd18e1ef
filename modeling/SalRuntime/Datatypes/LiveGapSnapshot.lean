import SalRuntime.Datatypes.SidedSnapshot

/-!
# Shipping a state of the production sided kernel

The codec of `src/datatypes/liveGapSidedEmbedRGA.js`. A state is materialized as nodes with ids,
which are encoded as a snapshot; decoding makes a new node object of every retained id. The label
of a copy tells it from the nodes that the state had.

## Main definitions

* `LiveGap.materialize` — the nodes of a state, with their ids.
* `LiveGap.encodeState`, `LiveGap.decodeState` — the codec.
* `LiveGap.Over` — a state over a tree of chains, whatever its labels.

## Main results

* `LiveGap.Over.nodesOver` — materializing a state gives the nodes of its chains.
* `LiveGap.Over.exists_shipped` — a shipped state has the records and gaps of the original, over
  copies of its chains, and an order by descending keys.
-/

namespace SalRuntime

variable {α : Type}

/-- The chain with the ids of its nodes as labels. -/
def withIds (c : Chain) : Chain :=
  c.foldl (fun full x => full ++ [{ x with label := nodeId full + x.delta }]) []

/-- The chain of new copies of its nodes. -/
def relabel (k : ℕ) (c : Chain) : Chain := c.map fun x => { x with label := k }

namespace LiveGap

/-- A gap as it is encoded. -/
def Gap.short (g : Gap) : UnifiedSided.Gap := ⟨g.hasR, g.succId⟩

/-- Enter the nodes of a chain that are not entered, from the root down. The first component holds
the chain nodes that are entered. -/
def ensure (m : List Chain × SortedMap ℕ (FullNode α)) (ch : Chain) :
    List Chain × SortedMap ℕ (FullNode α) :=
  (ch.inits.filter fun p => p ≠ [] ∧ p ∉ m.1).foldl (fun m p =>
    (p :: m.1, m.2.insert (nodeId (withIds p)) ⟨withIds p, none⟩)) m

/-- The nodes of a state by their ids: those of its chains, then its records. -/
def materialize (s : State α) : SortedMap ℕ (FullNode α) :=
  (eachEntry s.records).foldl (fun t e =>
    t.insert e.1 ⟨withIds e.2.chain, some (e.2.el, e.2.gap.short)⟩)
    ((allChains s).foldl ensure ([], SortedMap.empty)).2

/-- Encode a state. -/
def encodeState (s : State α) : Except Failure (Snapshot α) :=
  Snapshot.encode (materialize s) s.rootGap.short

/-- The copied chain of an id of a snapshot. -/
def copied (k : ℕ) (chains : SortedMap ℕ Chain) (id : Option ℕ) : Chain :=
  relabel k ((id.bind chains.get?).getD [])

/-- A decoded gap. -/
def decodeGap (k : ℕ) (chains : SortedMap ℕ Chain) (g : UnifiedSided.Gap) : Gap :=
  ⟨g.hasR, g.succId, copied k chains g.succId⟩

/-- Decode a state, with new nodes that have the label `k`. -/
def decodeState (k : ℕ) (enc : Snapshot α) : Except Failure (State α) := do
  let d ← enc.decode
  return {
    records := SortedMap.ofList (d.live.map fun e =>
      (e.1, { chain := copied k d.chains (some e.1), el := e.2.1
              gap := decodeGap k d.chains e.2.2 }))
    rootGap := decodeGap k d.chains d.rootGap
    order := some d.order }

/-- Encode and decode. -/
def ship (k : ℕ) (s : State α) : Except Failure (State α) := do decodeState k (← encodeState s)

end LiveGap

/-! ### Labels -/

@[simp] theorem unlabel_relabel (k : ℕ) (c : Chain) : unlabel (relabel k c) = unlabel c := by
  rw [unlabel, relabel, List.map_map, unlabel]
  rfl

theorem relabel_congr {c d : Chain} (h : unlabel c = unlabel d) (k : ℕ) :
    relabel k c = relabel k d := by
  have hrel (e : Chain) : relabel k e = relabel k (unlabel e) := by
    rw [relabel, relabel, unlabel, List.map_map]
    rfl
  rw [hrel, h, ← hrel]

@[simp] theorem unlabel_unlabel (c : Chain) : unlabel (unlabel c) = unlabel c :=
  unlabel_relabel 0 c

theorem withIds_concat (c : Chain) (x : Link) :
    withIds (c ++ [x]) = withIds c ++ [{ x with label := nodeId (withIds c) + x.delta }] := by
  rw [withIds, List.foldl_append]
  rfl

theorem withIds_unlabel (c : Chain) : withIds (unlabel c) = withIds c := by
  induction c using List.reverseRecOn with
  | nil => rfl
  | append_singleton c x ih =>
    have hx : unlabel (c ++ [x]) = unlabel c ++ [{ x with label := 0 }] := unlabel_append c [x]
    rw [hx, withIds_concat, withIds_concat, ih]

section Tree

variable {χ : ℕ → Chain} {I : Set ℕ} (hT : SidedTree χ I)

include hT

/-- **The labels of a tree are its ids.** -/
theorem SidedTree.withIds_eq {c : Chain} {id : ℕ} (hid : id ∈ I) (hc : unlabel c = unlabel (χ id)) :
    withIds c = χ id := by
  rw [← withIds_unlabel, hc, withIds_unlabel]
  clear hc
  induction id using Nat.strong_induction_on with
  | _ id ih =>
    obtain ⟨side, p, hχ, hlt, hp⟩ := hT id hid
    rw [hχ, withIds_concat]
    cases p with
    | none => simp [chainAt, withIds, nodeId, UnifiedSided.idOf]
    | some q =>
      have hq : q < id := hlt
      rw [chainAt, ih q hq (hp q rfl), hT.nodeId_eq (hp q rfl), Option.getD_some,
        Nat.add_sub_cancel' hq.le]

/-- A nonempty prefix of a chain over the tree is a chain over the tree. -/
theorem SidedTree.exists_unlabel_eq {c d : Chain} (hc : c ≠ []) {id : ℕ} (hid : id ∈ I)
    (h : unlabel (c ++ d) = unlabel (χ id)) : ∃ j ∈ I, unlabel c = unlabel (χ j) := by
  rw [unlabel_append] at h
  obtain ⟨c', d', hχ, hc', hd'⟩ := List.map_eq_append_iff.mp h.symm
  have hne : c' ≠ [] := by
    rintro rfl
    exact hc (List.map_eq_nil_iff.mp hc'.symm)
  obtain ⟨j, hj, rfl⟩ := hT.exists_of_append hne hid hχ
  exact ⟨j, hj, hc'.symm⟩

theorem SidedTree.unlabel_injOn : Set.InjOn (fun id => unlabel (χ id)) I := by
  intro i hi j hj heq
  have h := hT.withIds_eq hj heq
  rw [hT.withIds_eq hi rfl] at h
  exact hT.injOn hi hj h

end Tree

namespace LiveGap

/-! ### States over a tree -/

/-- A gap whose successor has a chain over the tree. -/
structure GapOver (χ : ℕ → Chain) (I : Set ℕ) (g : Gap) : Prop where
  /-- The successor is an id of the tree. -/
  succ : ∀ i, g.succId = some i → i ∈ I
  /-- The chain of the successor. -/
  chain : unlabel g.succChain = unlabel (chainAt χ g.succId)

/-- A state whose chains are those of its ids, whatever their labels. -/
structure Over (χ : ℕ → Chain) (I : Set ℕ) (s : State α) : Prop where
  /-- The chain of a record. -/
  chain : ∀ id r, s.records.get? id = some r → id ∈ I ∧ unlabel r.chain = unlabel (χ id)
  /-- The gap of a record. -/
  gap : ∀ id r, s.records.get? id = some r → GapOver χ I r.gap
  /-- The gap at the root. -/
  rootGap : GapOver χ I s.rootGap

/-- The ids of the chains of a state. -/
def idsOf (χ : ℕ → Chain) (I : Set ℕ) (s : State α) : Set ℕ :=
  {j | j ∈ I ∧ ∃ c ∈ allChains s, unlabel c = unlabel (χ j)}

/-- The id of a chain that a state refers to. -/
theorem mem_idsOf {χ : ℕ → Chain} {I : Set ℕ} {s : State α} (hT : SidedTree χ I) {c : Chain}
    (hc : Held s c) {j : ℕ} (hj : j ∈ I) (heq : unlabel c = unlabel (χ j)) : j ∈ idsOf χ I s := by
  refine ⟨hj, c, mem_allChains.mpr ⟨?_, c, hc, List.prefix_rfl⟩, heq⟩
  rintro rfl
  exact hT.chain_ne_nil hj (List.map_eq_nil_iff.mp heq.symm)

section Over

variable {χ : ℕ → Chain} {I : Set ℕ} {s : State α} (h : Over χ I s)

include h

/-- A chain that a state refers to is null or that of an id. -/
theorem Over.held {c : Chain} (hc : Held s c) : c = [] ∨ ∃ j ∈ I, unlabel c = unlabel (χ j) := by
  have hgap {g : Gap} (hg : GapOver χ I g) :
      g.succChain = [] ∨ ∃ j ∈ I, unlabel g.succChain = unlabel (χ j) := by
    have hchain := hg.chain
    cases hsucc : g.succId with
    | none =>
      rw [hsucc] at hchain
      exact Or.inl (List.map_eq_nil_iff.mp hchain)
    | some i =>
      rw [hsucc] at hchain
      exact Or.inr ⟨i, hg.succ i hsucc, hchain⟩
  rcases hc with rfl | ⟨id, r, hr, rfl | rfl⟩
  · exact hgap h.rootGap
  · exact Or.inr ⟨id, h.chain id r hr⟩
  · exact hgap (h.gap id r hr)

variable (hT : SidedTree χ I)

include hT

theorem Over.exists_id {c : Chain} (hc : c ∈ allChains s) :
    ∃ j ∈ idsOf χ I s, unlabel c = unlabel (χ j) := by
  obtain ⟨hne, d, hd, e, rfl⟩ := mem_allChains.mp hc
  obtain ⟨i, hi, heq⟩ := (h.held hd).resolve_left (by simp [hne])
  obtain ⟨j, hj, hχ⟩ := hT.exists_unlabel_eq hne hi heq
  exact ⟨j, ⟨hj, c, hc, hχ⟩, hχ⟩

end Over

/-! ### Materializing -/

section Materialize

variable {χ : ℕ → Chain} {I J : Set ℕ}

/-- What was entered: the nodes of chains, under their ids. -/
structure Entered (χ : ℕ → Chain) (J : Set ℕ) (m : List Chain × SortedMap ℕ (FullNode α)) :
    Prop where
  /-- The nodes. -/
  node : ∀ j n, m.2.get? j = some n → j ∈ J ∧ n = ⟨χ j, none⟩
  /-- The chain nodes that count as entered are. -/
  seen : ∀ c ∈ m.1, ∀ j ∈ J, unlabel c = unlabel (χ j) → m.2.has j = true

theorem Entered.insert (hT : SidedTree χ J) {m : List Chain × SortedMap ℕ (FullNode α)}
    (hm : Entered χ J m) {p : Chain} {i : ℕ} (hi : i ∈ J) (hp : unlabel p = unlabel (χ i)) :
    Entered χ J (p :: m.1, m.2.insert (nodeId (withIds p)) ⟨withIds p, none⟩) := by
  rw [hT.withIds_eq hi hp, hT.nodeId_eq hi]
  refine ⟨fun j n hn => ?_, fun c hc j hj heq => ?_⟩
  · rw [SortedMap.get?_insert] at hn
    split_ifs at hn with hji
    · cases hn
      exact ⟨hji ▸ hi, by rw [hji]⟩
    · exact hm.node j n hn
  · rw [SortedMap.has_insert, Bool.or_eq_true, decide_eq_true_eq]
    rcases List.mem_cons.mp hc with rfl | hc
    · exact Or.inl (hT.unlabel_injOn hj hi (heq.symm.trans hp))
    · exact Or.inr (hm.seen c hc j hj heq)

/-- **Entering a chain** over a tree. -/
theorem Entered.ensure (hT : SidedTree χ J) {m : List Chain × SortedMap ℕ (FullNode α)}
    (hm : Entered χ J m) {ch : Chain} {i : ℕ} (hi : i ∈ J) (hch : unlabel ch = unlabel (χ i)) :
    Entered χ J (ensure m ch) ∧ (ensure m ch).2.has i = true ∧
      ∀ j, m.2.has j = true → (ensure m ch).2.has j = true := by
  have hfold (ps : List Chain) (hps : ∀ p ∈ ps, ∃ j ∈ J, unlabel p = unlabel (χ j))
      {m : List Chain × SortedMap ℕ (FullNode α)} (hm : Entered χ J m) :
      let m' := ps.foldl (fun m p =>
        (p :: m.1, m.2.insert (nodeId (withIds p)) ⟨withIds p, none⟩)) m
      Entered χ J m' ∧ (∀ p, p ∈ m.1 ∨ p ∈ ps → p ∈ m'.1) ∧
        ∀ j, m.2.has j = true → m'.2.has j = true := by
    induction ps generalizing m with
    | nil => exact ⟨hm, fun p hp => hp.resolve_right List.not_mem_nil, fun _ hj => hj⟩
    | cons p ps ih =>
      obtain ⟨j, hj, hp⟩ := hps p List.mem_cons_self
      obtain ⟨hm', hin, hle⟩ := ih (fun q hq => hps q (List.mem_cons_of_mem _ hq))
        (hm.insert hT hj hp)
      refine ⟨hm', fun q hq => hin q ?_, fun k hk => hle k ?_⟩
      · rcases hq with hq | hq
        · exact Or.inl (List.mem_cons_of_mem _ hq)
        · rcases List.mem_cons.mp hq with rfl | hq
          · exact Or.inl List.mem_cons_self
          · exact Or.inr hq
      · rw [SortedMap.has_insert, hk, Bool.or_true]
  have hne : ch ≠ [] := by
    rintro rfl
    exact hT.chain_ne_nil hi (List.map_eq_nil_iff.mp hch.symm)
  obtain ⟨hm', hin, hle⟩ := hfold (ch.inits.filter fun p => p ≠ [] ∧ p ∉ m.1)
    (fun p hp => by
      obtain ⟨⟨e, rfl⟩, hnil, -⟩ : p <+: ch ∧ p ≠ [] ∧ p ∉ m.1 := by simpa using hp
      exact hT.exists_unlabel_eq hnil hi hch) hm
  refine ⟨hm', hm'.seen ch (hin ch ?_) i hi hch, hle⟩
  by_cases hseen : ch ∈ m.1
  · exact Or.inl hseen
  · exact Or.inr (by simp [hne, hseen])

/-- **Entering chains** over a tree. -/
theorem Entered.foldl_ensure (hT : SidedTree χ J) {chs : List Chain}
    (hchs : ∀ c ∈ chs, ∃ j ∈ J, unlabel c = unlabel (χ j))
    {m : List Chain × SortedMap ℕ (FullNode α)} (hm : Entered χ J m) :
    Entered χ J (chs.foldl LiveGap.ensure m) ∧
      (∀ c ∈ chs, ∀ j ∈ J, unlabel c = unlabel (χ j) →
        (chs.foldl LiveGap.ensure m).2.has j = true) ∧
      ∀ j, m.2.has j = true → (chs.foldl LiveGap.ensure m).2.has j = true := by
  induction chs generalizing m with
  | nil => exact ⟨hm, fun _ hc => absurd hc List.not_mem_nil, fun _ hj => hj⟩
  | cons c chs ih =>
    obtain ⟨i, hi, hc⟩ := hchs c List.mem_cons_self
    obtain ⟨hm', hself, hle⟩ := hm.ensure hT hi hc
    obtain ⟨hfinal, hin, hle'⟩ := ih (fun d hd => hchs d (List.mem_cons_of_mem _ hd)) hm'
    refine ⟨hfinal, fun d hd j hj heq => ?_, fun j hj => hle' j (hle j hj)⟩
    rcases List.mem_cons.mp hd with rfl | hd
    · obtain rfl := hT.unlabel_injOn hj hi (heq.symm.trans hc)
      exact hle' _ hself
    · exact hin d hd j hj heq

end Materialize

/-- The ids of the chains of a state form a tree. -/
theorem sidedTree_idsOf {χ : ℕ → Chain} {I : Set ℕ} (hT : SidedTree χ I) (s : State α) :
    SidedTree χ (idsOf χ I s) := by
  rintro j ⟨hj, c, hc, heq⟩
  obtain ⟨side, p, hχ, hlt, hp⟩ := hT j hj
  refine ⟨side, p, hχ, hlt, fun q hq => ⟨hp q hq, c.dropLast, ?_, ?_⟩⟩
  · obtain ⟨-, d, hd, hpre⟩ := mem_allChains.mp hc
    refine mem_allChains.mpr ⟨fun hnil => ?_, d, hd, (List.dropLast_prefix c).trans hpre⟩
    have hdrop := congrArg List.dropLast heq
    rw [unlabel, unlabel, ← List.map_dropLast, ← List.map_dropLast, hnil, hχ, List.dropLast_concat,
      hq, chainAt] at hdrop
    exact hT.chain_ne_nil (hp q hq) (List.map_eq_nil_iff.mp hdrop.symm)
  · have hdrop := congrArg List.dropLast heq
    rw [unlabel, unlabel, ← List.map_dropLast, ← List.map_dropLast, hχ, List.dropLast_concat, hq,
      chainAt] at hdrop
    exact hdrop

/-! ### Shipping -/

/-- A gap over copies of its chain. -/
def shippedGap (χ : ℕ → Chain) (k : ℕ) (g : Gap) : Gap :=
  ⟨g.hasR, g.succId, relabel k (chainAt χ g.succId)⟩

/-- A record over copies of its chains. -/
def shippedRec (χ : ℕ → Chain) (k id : ℕ) (r : Rec α) : Rec α :=
  ⟨relabel k (χ id), r.el, shippedGap χ k r.gap⟩

/-- A shipped state: the records and gaps of the original over copies of its chains, and an
order. -/
structure Shipped (χ : ℕ → Chain) (I : Set ℕ) (k : ℕ) (s s' : State α) : Prop where
  /-- The records. -/
  records : ∀ id, s'.records.get? id = (s.records.get? id).map (shippedRec χ k id)
  /-- The gap at the root. -/
  rootGap : s'.rootGap = shippedGap χ k s.rootGap
  /-- The order lists the live ids by descending keys. -/
  order : ∃ order, s'.order = some order ∧
    (order.Pairwise fun i j => coordKey (χ j) < coordKey (χ i)) ∧
    (∀ id, s.records.has id = true → id ∈ order) ∧ ∀ id ∈ order, id ∈ I

/-- The copied chain of a retained id, and of the root. -/
theorem copied_eq {χ : ℕ → Chain} {J : Set ℕ} {kept : SortedMap ℕ Chain}
    (hkept : RetainedTree χ J [] kept) (k : ℕ) {p : Option ℕ}
    (hp : ∀ q, p = some q → kept.has q = true) :
    copied k kept p = relabel k (chainAt χ p) := by
  cases p with
  | none => rfl
  | some q =>
    obtain ⟨c, hc⟩ := SortedMap.has_iff.mp (hp q rfl)
    rw [copied, Option.bind_some, hc, Option.getD_some, (hkept.chain q c hc).2, chainAt]

section Shipping

variable {χ : ℕ → Chain} {I : Set ℕ} {s : State α} (h : Over χ I s) (hT : SidedTree χ I)

include h hT

/-- **Materializing** a state: its records, and the other nodes of its chains. -/
theorem Over.materialize_spec :
    (∀ id r, s.records.get? id = some r →
      (materialize s).get? id = some ⟨χ id, some (r.el, r.gap.short)⟩) ∧
    (∀ j n, (materialize s).get? j = some n → s.records.get? j = none →
      j ∈ idsOf χ I s ∧ n = ⟨χ j, none⟩) ∧
    ∀ j ∈ idsOf χ I s, (materialize s).has j = true := by
  obtain ⟨hentered, hin, -⟩ := Entered.foldl_ensure (α := α) (sidedTree_idsOf hT s)
    (fun c hc => h.exists_id hT hc) (m := ([], SortedMap.empty))
    ⟨fun _ _ hn => (by cases hn), fun _ hc => absurd hc List.not_mem_nil⟩
  obtain ⟨hrec, hrest⟩ := SortedMap.get?_foldl_insert
    (fun e : ℕ × Rec α => (⟨withIds e.2.chain, some (e.2.el, e.2.gap.short)⟩ : FullNode α))
    (nodup_keys_eachEntry s.records) ((allChains s).foldl ensure ([], SortedMap.empty)).2
  have hout {j : ℕ} (hj : s.records.get? j = none) : (materialize s).get? j =
      ((allChains s).foldl ensure ([], SortedMap.empty)).2.get? j := by
    refine hrest j fun hmem => ?_
    obtain ⟨e, he, rfl⟩ := List.mem_map.mp hmem
    rw [mem_eachEntry, hj] at he
    cases he
  have hlive (id : ℕ) (r : Rec α) (hr : s.records.get? id = some r) :
      (materialize s).get? id = some ⟨χ id, some (r.el, r.gap.short)⟩ := by
    obtain ⟨hid, hchain⟩ := h.chain id r hr
    rw [materialize, hrec (id, r) (mem_eachEntry.mpr hr), hT.withIds_eq hid hchain]
  refine ⟨hlive, fun j n hn hj => ?_, fun j hj => ?_⟩
  · rw [hout hj] at hn
    exact hentered.node j n hn
  · cases hr : s.records.get? j with
    | some r => exact SortedMap.has_iff.mpr ⟨_, hlive j r hr⟩
    | none =>
      obtain ⟨hjI, c, hc, heq⟩ := hj
      rw [SortedMap.has, hout hr]
      exact hin c hc j ⟨hjI, c, hc, heq⟩ heq

/-- A live materialized node is that of a record. -/
theorem Over.exists_record {j : ℕ} {n : FullNode α} (hn : (materialize s).get? j = some n)
    {l : α × UnifiedSided.Gap} (hl : n.live = some l) :
    ∃ r, s.records.get? j = some r ∧ l = (r.el, r.gap.short) := by
  obtain ⟨hlive, hdead, -⟩ := h.materialize_spec hT
  cases hr : s.records.get? j with
  | none =>
    obtain ⟨-, rfl⟩ := hdead j n hn hr
    cases hl
  | some r =>
    rw [hlive j r hr] at hn
    cases hn
    exact ⟨r, rfl, (Option.some.inj hl).symm⟩

/-- **The materialized nodes** are those of the chains of the state. -/
theorem Over.nodesOver : NodesOver χ (idsOf χ I s) (materialize s) s.rootGap.short := by
  obtain ⟨hlive, hdead, hhas⟩ := h.materialize_spec hT
  have hsucc {g : Gap} (hg : GapOver χ I g) (hheld : Held s g.succChain) {i : ℕ}
      (hi : g.succId = some i) : (materialize s).has i = true := by
    refine hhas i (mem_idsOf hT hheld (hg.succ i hi) ?_)
    rw [hg.chain, hi, chainAt]
  refine ⟨fun j n hn => ?_, fun j n el g i hn hl hi => ?_, fun i hi =>
    hsucc h.rootGap (Or.inl rfl) hi⟩
  · cases hr : s.records.get? j with
    | none =>
      obtain ⟨hj, rfl⟩ := hdead j n hn hr
      exact ⟨hj, rfl⟩
    | some r =>
      rw [hlive j r hr] at hn
      cases hn
      obtain ⟨hj, hchain⟩ := h.chain j r hr
      exact ⟨mem_idsOf hT (Or.inr ⟨j, r, hr, Or.inl rfl⟩) hj hchain, rfl⟩
  · obtain ⟨r, hr, heq⟩ := h.exists_record hT hn hl
    cases heq
    exact hsucc (h.gap j r hr) (Or.inr ⟨j, r, hr, Or.inr rfl⟩) hi

/-- **Shipping** a state over a tree succeeds. -/
theorem Over.exists_shipped (k : ℕ) : ∃ s', ship k s = .ok s' ∧ Shipped χ I k s s' := by
  have hnodes := h.nodesOver hT
  have hTJ := sidedTree_idsOf hT s
  obtain ⟨hlive, -, -⟩ := h.materialize_spec hT
  set m := materialize s with hm
  obtain ⟨kept, hkept, htree, hroots⟩ := hnodes.retained_spec hTJ
    (Snapshot.roots m s.rootGap.short) fun id hid => by
      rcases Snapshot.mem_roots.mp hid with hid | ⟨j, n, l, hn, hl, rfl | hid⟩
      · exact hnodes.rootSucc id hid
      · exact SortedMap.has_iff.mpr ⟨n, hn⟩
      · exact hnodes.succ j n l.1 l.2 id hn hl hid
  have hrecord {id : ℕ} {r : Rec α} (hr : s.records.get? id = some r) :
      kept.has id = true ∧ ∀ q, r.gap.short.succId = some q → kept.has q = true :=
    ⟨hroots id (Snapshot.mem_roots.mpr (Or.inr ⟨id, _, _, hlive id r hr, rfl, Or.inl rfl⟩)),
      fun q hq => hroots q (Snapshot.mem_roots.mpr
        (Or.inr ⟨id, _, _, hlive id r hr, rfl, Or.inr hq⟩))⟩
  set live := kept.entries.filterMap fun e =>
    (m.get? e.1).bind fun n => n.live.map fun l => (e.1, l) with hlist
  set recs := live.map fun e => (e.1, ({
    chain := copied k kept (some e.1), el := e.2.1, gap := decodeGap k kept e.2.2 } : Rec α))
    with hrecs
  have hmem (id : ℕ) (v : Rec α) : (id, v) ∈ recs ↔
      ∃ r, s.records.get? id = some r ∧ v = shippedRec χ k id r := by
    have hcopy {r : Rec α} (hr : s.records.get? id = some r) :
        ({ chain := copied k kept (some id), el := r.el, gap := decodeGap k kept r.gap.short } :
          Rec α) = shippedRec χ k id r := by
      obtain ⟨hid, hsucc⟩ := hrecord hr
      rw [decodeGap, copied_eq htree k hsucc, copied_eq htree k fun q hq => by cases hq; exact hid]
      rfl
    simp only [hrecs, hlist, List.mem_map, List.mem_filterMap, Option.bind_eq_some_iff,
      Option.map_eq_some_iff]
    constructor
    · rintro ⟨_, ⟨e, -, n, hn, l, hl, rfl⟩, heq⟩
      obtain ⟨rfl, rfl⟩ := Prod.mk.inj heq
      obtain ⟨r, hr, rfl⟩ := h.exists_record hT hn hl
      exact ⟨r, hr, hcopy hr⟩
    · rintro ⟨r, hr, rfl⟩
      obtain ⟨c, hc⟩ := SortedMap.has_iff.mp (hrecord hr).1
      exact ⟨_, ⟨(id, c), SortedMap.mem_entries_iff.mpr hc, _, hlive id r hr, _, rfl, rfl⟩,
        Prod.ext rfl (hcopy hr)⟩
  have hsorted : recs.Pairwise fun a b => a.1 < b.1 := by
    rw [hrecs, List.pairwise_map, hlist, List.pairwise_filterMap]
    refine kept.sorted.imp fun {e f} hlt x hx y hy => ?_
    simp only [Option.bind_eq_some_iff, Option.map_eq_some_iff] at hx hy
    obtain ⟨-, -, -, -, rfl⟩ := hx
    obtain ⟨-, -, -, -, rfl⟩ := hy
    exact hlt
  refine ⟨{ records := SortedMap.ofList recs, rootGap := decodeGap k kept s.rootGap.short,
            order := some (Snapshot.policyOrder kept) }, ?_, fun id => ?_, ?_, _, rfl, ?_⟩
  · rw [ship, encodeState, ← hm, Snapshot.encode, hkept]
    simp only [bind, Except.bind, pure, Except.pure, decodeState, Snapshot.decode,
      htree.decodeNodes_eq hTJ]
    rfl
  · ext v
    rw [← SortedMap.mem_entries_iff, SortedMap.entries_ofList hsorted, hmem, Option.map_eq_some_iff]
    simp only [eq_comm]
  · exact congrArg (Gap.mk _ _) (copied_eq htree k fun q hq =>
      hroots q (Snapshot.mem_roots.mpr (Or.inl hq)))
  · obtain ⟨hpair, hin⟩ := htree.policyOrder_spec hTJ
    refine ⟨hpair, fun id hid => (hin id).mpr ?_, fun id hid => ?_⟩
    · obtain ⟨r, hr⟩ := SortedMap.has_iff.mp hid
      exact (hrecord hr).1
    · obtain ⟨c, hc⟩ := SortedMap.has_iff.mp ((hin id).mp hid)
      exact (htree.chain id c hc).1.1

end Shipping

end LiveGap

end SalRuntime
