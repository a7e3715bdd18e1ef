import SalRuntime.Datatypes.LiveGapCopies

/-!
# Runs over states of the production sided kernel

A run prepares and applies operations, merges states, and replaces states by their decoded
encodings. It shows what it shows without the replacements as long as no merge takes over two
copies of a chain node.

## Main definitions

* `LiveGap.Act`, `LiveGap.run` — the runs.
* `LiveGap.HonestRun`, `LiveGap.UnmixedRun` — runs of honest operations, and with unmixed merges.
* `LiveGap.Twin` — a version of a run and its counterpart without the replacements.

## Main results

* `LiveGap.exists_step`, `LiveGap.exists_run` — honest unmixed runs keep the pools alike.
* `LiveGap.ship_transparent` — replaced states do not show in such runs.
-/

namespace SalRuntime.LiveGap

variable {α : Type}

/-! ### Steps -/

/-- A step of a run over states: prepare and apply an operation at a state, merge two states over a
base, or replace a state by its decoded encoding. -/
inductive Act (α : Type)
  /-- A new state by an operation. -/
  | op (i : ℕ) (op : SeqOp α)
  /-- A new state by a merge. -/
  | merge (l a b : ℕ)
  /-- A state is replaced. -/
  | reload (i : ℕ)

/-- A state of a run with the operations in its past. -/
structure Version (α : Type) where
  /-- The state. -/
  state : State α
  /-- The operations. -/
  past : List (SeqOp α)

/-- The initial version. -/
def start : Version α := ⟨init, []⟩

/-- The version with a number. -/
def versionAt (pool : List (Version α)) (i : ℕ) : Except Failure (Version α) :=
  match pool[i]? with
  | some v => .ok v
  | none => .error (.error s!"no state {i}")

/-- A step. States are replaced with `ship`; the copies of the step have the label `k`. -/
def step (ship : ℕ → State α → Except Failure (State α)) (k : ℕ) (pool : List (Version α)) :
    Act α → Except Failure (List (Version α))
  | .op i op => do
    let v ← versionAt pool i
    let s ← apply v.state (← prepare v.state (SidedOp.ofSeq op))
    return pool ++ [⟨s, op :: v.past⟩]
  | .merge l a b => do
    let vl ← versionAt pool l
    let va ← versionAt pool a
    let vb ← versionAt pool b
    return pool ++ [⟨merge3 vl.state va.state vb.state, va.past ++ vb.past⟩]
  | .reload i => do
    let v ← versionAt pool i
    let s ← ship k v.state
    return pool.set i { v with state := s }

/-- A run. -/
def run (ship : ℕ → State α → Except Failure (State α)) :
    ℕ → List (Version α) → List (Act α) → Except Failure (List (Version α))
  | _, pool, [] => .ok pool
  | k, pool, act :: acts => do run ship (k + 1) (← step ship k pool act) acts

/-- States are kept instead of being replaced. -/
def keep (_ : ℕ) (s : State α) : Except Failure (State α) := .ok s

/-- The ids that operations insert. -/
def insertedIds (past : List (SeqOp α)) : List ℕ := past.filterMap SeqOp.insId

/-- A step is honest when it inserts under a fresh id above those that its state has seen, after an
anchor that is live, and merges over a base in the past of both sides. -/
def HonestAct [DecidableEq α] (pool : List (Version α)) : Act α → Prop
  | .op i (.ins id _ anchorId) =>
    match pool[i]? with
    | some v => 0 < id ∧ (∀ w ∈ pool, id ∉ insertedIds w.past) ∧
        (∀ j ∈ insertedIds v.past, j < id) ∧ ∀ a ∈ anchorId, v.state.records.has a = true
    | none => False
  | .op i (.del _) => i < pool.length
  | .merge l a b =>
    match pool[l]?, pool[a]?, pool[b]? with
    | some vl, some va, some vb => (∀ o ∈ vl.past, o ∈ va.past) ∧ ∀ o ∈ vl.past, o ∈ vb.past
    | _, _, _ => False
  | .reload i => i < pool.length

instance decidableHonestAct [DecidableEq α] (pool : List (Version α)) (act : Act α) :
    Decidable (HonestAct pool act) := by
  unfold HonestAct
  split
  · split <;> infer_instance
  · infer_instance
  · split <;> infer_instance
  · infer_instance

/-- Every step of a run, without the replacements, is honest. -/
def HonestRun [DecidableEq α] : ℕ → List (Version α) → List (Act α) → Prop
  | _, _, [] => True
  | k, pool, act :: acts => HonestAct pool act ∧
    match step keep k pool act with
    | .ok pool' => HonestRun (k + 1) pool' acts
    | .error _ => True

/-- A merge takes over one node of every place. -/
def UnmixedAct (pool : List (Version α)) : Act α → Prop
  | .merge l a b =>
    match pool[l]?, pool[a]?, pool[b]? with
    | some vl, some va, some vb => Unmixed vl.state va.state vb.state
    | _, _, _ => True
  | _ => True

/-- Every merge of a run, with the replacements, is unmixed. -/
def UnmixedRun : ℕ → List (Version α) → List (Act α) → Prop
  | _, _, [] => True
  | k, pool, act :: acts => UnmixedAct pool act ∧
    match step ship k pool act with
    | .ok pool' => UnmixedRun (k + 1) pool' acts
    | .error _ => True

instance decidableUnmixedAct (pool : List (Version α)) (act : Act α) :
    Decidable (UnmixedAct pool act) := by
  unfold UnmixedAct
  split
  · split <;> infer_instance
  · infer_instance

/-- Honesty of a run is decided step by step. -/
instance decidableHonestRun [DecidableEq α] : (k : ℕ) → (pool : List (Version α)) →
    (acts : List (Act α)) → Decidable (HonestRun k pool acts)
  | _, _, [] => .isTrue trivial
  | k, pool, act :: acts =>
    match h : step keep k pool act with
    | .ok pool' =>
      have := decidableHonestRun (k + 1) pool' acts
      decidable_of_iff (HonestAct pool act ∧ HonestRun (k + 1) pool' acts) (by rw [HonestRun, h])
    | .error _ => decidable_of_iff (HonestAct pool act ∧ True) (by rw [HonestRun, h])

/-- Whether the merges of a run are unmixed is decided step by step. -/
instance decidableUnmixedRun : (k : ℕ) → (pool : List (Version α)) → (acts : List (Act α)) →
    Decidable (UnmixedRun k pool acts)
  | _, _, [] => .isTrue trivial
  | k, pool, act :: acts =>
    match h : step ship k pool act with
    | .ok pool' =>
      have := decidableUnmixedRun (k + 1) pool' acts
      decidable_of_iff (UnmixedAct pool act ∧ UnmixedRun (k + 1) pool' acts)
        (by rw [UnmixedRun, h])
    | .error _ => decidable_of_iff (UnmixedAct pool act ∧ True) (by rw [UnmixedRun, h])

/-- Two states show the same ids, place every operation alike, and have the same content. -/
structure Agrees (s t : State α) : Prop where
  /-- The reads. -/
  reads : readIds s = readIds t
  /-- The decisions. -/
  prepare : ∀ op, prepare s op = prepare t op
  /-- The content. -/
  content : SameContent s t

/-! ### Runs with and without replacements -/

/-- The ids that are inserted in the past of a version. -/
def Version.ids (v : Version α) : Set ℕ := {j | j ∈ insertedIds v.past}

/-- Two versions with the same past and the same content; the second is a summary of a state of
the full kernel, and in the first a place has one node. -/
structure Twin (χ : ℕ → Chain) (v w : Version α) : Prop where
  /-- The pasts are equal. -/
  past : v.past = w.past
  /-- The inserted ids have chains. -/
  tree : SidedTree χ w.ids
  /-- The second state is a summary. -/
  policy : ∃ u, PolicyState χ w.ids u ∧ Summarizes χ u w.state
  /-- The states have the same content. -/
  content : SameContent v.state w.state
  /-- A place has one node in the first state. -/
  single : Single v.state
  /-- A cached order of the first state lists its ids by descending keys. -/
  ordered : Ordered χ w.ids v.state

section Summary

variable {χ : ℕ → Chain} {I : Set ℕ} {u : UnifiedSided.State α} {s : State α}

/-- A summary is a state over the tree. -/
theorem over_of_summarizes (hu : PolicyState χ I u) (hs : Summarizes χ u s) : Over χ I s := by
  have hgap (g : UnifiedSided.Gap) (hg : ∀ i, g.succId = some i → i ∈ I) :
      GapOver χ I (summaryGap χ g) := ⟨hg, unlabel_unlabel _⟩
  refine ⟨fun id r hr => ?_, fun id r hr => ?_, hs.rootGap ▸ hgap _ hu.rootSucc⟩
  · obtain ⟨hid, hchain, -⟩ := hu.get?_eq_some hs hr
    exact ⟨hid, by rw [hchain, unlabel_unlabel]⟩
  · have hrec := hs.records id
    rw [hr, eq_comm, Option.bind_eq_some_iff] at hrec
    obtain ⟨n, hn, hsum⟩ := hrec
    obtain ⟨el, g, -, hg, rfl⟩ := summaryRec_eq_some_iff.mp hsum
    exact hgap g fun i => (hu.node id n hn).succ g i hg

/-- A summary has nodes without labels. -/
theorem single_of_summarizes (hu : PolicyState χ I u) (hs : Summarizes χ u s) : Single s := by
  refine .of_relabel 0 fun c hc => ?_
  change unlabel c = c
  rcases hc with rfl | ⟨id, r, hr, hc⟩
  · rw [hs.rootGap, summaryGap, unlabel_unlabel]
  · obtain ⟨-, hchain, hsucc⟩ := hu.get?_eq_some hs hr
    rcases hc with rfl | rfl
    · rw [hchain, unlabel_unlabel]
    · rcases hsucc with hnil | ⟨d, -, heq⟩
      · rw [hnil, unlabel_nil]
      · rw [← heq, unlabel_unlabel]

theorem ordered_of_none (h : s.order = none) : Ordered χ I s := fun order ho => by
  rw [h] at ho
  cases ho

end Summary

namespace Twin

variable {χ : ℕ → Chain} {v w : Version α} (h : Twin χ v w)

include h

theorem over_right : Over χ w.ids w.state := by
  obtain ⟨u, hu, hs⟩ := h.policy
  exact over_of_summarizes hu hs

theorem over_left : Over χ w.ids v.state := h.content.over h.over_right

/-- **Twins agree.** -/
theorem agrees : Agrees v.state w.state := by
  obtain ⟨u, hu, hs⟩ := h.policy
  exact ⟨h.content.readIds_eq h.tree h.over_left h.over_right h.single
    (single_of_summarizes hu hs) h.ordered (ordered_of_none hs.order), h.content.prepare_eq,
    h.content⟩

theorem congr {χ' : ℕ → Chain} (heq : ∀ j ∈ w.ids, χ' j = χ j) : Twin χ' v w := by
  obtain ⟨u, hu, hs⟩ := h.policy
  refine ⟨h.past, h.tree.congr heq, ⟨u, hu.congr heq, hs.congr hu heq⟩, h.content, h.single,
    fun order ho => ?_⟩
  obtain ⟨hpair, hin, hsub⟩ := h.ordered order ho
  refine ⟨hpair.imp_of_mem fun {i j} hi hj hlt => ?_, hin, hsub⟩
  rw [heq i (hsub i hi), heq j (hsub j hj)]
  exact hlt

/-- **Replacing** a state. -/
theorem reload (k : ℕ) : ∃ s, ship k v.state = .ok s ∧ Twin χ { v with state := s } w := by
  obtain ⟨s, hok, hship⟩ := h.over_left.exists_shipped h.tree k
  have hover := h.over_left
  have hgap {g : Gap} (hg : GapOver χ w.ids g) : (shippedGap χ k g).unlabel = g.unlabel :=
    Gap.unlabel_eq_iff.mpr ⟨rfl, rfl, by rw [shippedGap, unlabel_relabel, hg.chain]⟩
  have hcontent : SameContent s v.state := by
    refine ⟨fun id => ?_, by rw [hship.rootGap, hgap hover.rootGap]⟩
    rw [hship.records, Option.map_map]
    cases hr : v.state.records.get? id with
    | none => rfl
    | some r =>
      refine congrArg some (Rec.unlabel_eq_iff.mpr ⟨?_, rfl, hgap (hover.gap id r hr)⟩)
      rw [shippedRec, unlabel_relabel, (hover.chain id r hr).2]
  refine ⟨s, hok, h.past, h.tree, h.policy, ?_, .of_relabel k fun c hc => ?_, fun order ho => ?_⟩
  · exact ⟨fun id => (hcontent.records id).trans (h.content.records id),
      hcontent.rootGap.trans h.content.rootGap⟩
  · have hrel (d : Chain) : relabel k (relabel k d) = relabel k d :=
      relabel_congr (unlabel_relabel k d) k
    rcases hc with rfl | ⟨id, r, hr, hc⟩
    · rw [hship.rootGap, shippedGap, hrel]
    · rw [hship.records, Option.map_eq_some_iff] at hr
      obtain ⟨r', -, rfl⟩ := hr
      rcases hc with rfl | rfl
      · exact hrel _
      · exact hrel _
  · obtain ⟨order', horder, hpair, hin, hsub⟩ := hship.order
    rw [horder, Option.some.injEq] at ho
    subst ho
    exact ⟨hpair, fun id hid => hin id (by rwa [hcontent.has_eq] at hid), hsub⟩

/-- **A fresh insertion** after a live anchor. -/
theorem insert {id : ℕ} (el : α) {anchorId : Option ℕ} (hpos : 0 < id) (hseen : ∀ j ∈ w.ids, j < id)
    (hanchor : ∀ a ∈ anchorId, w.state.records.has a = true) : ∃ placed s t χ',
      prepare v.state (.ins id el anchorId none) = .ok placed ∧
      prepare w.state (.ins id el anchorId none) = .ok placed ∧
      apply v.state placed = .ok s ∧ apply w.state placed = .ok t ∧
      (∀ j, j ≠ id → χ' j = χ j) ∧
      Twin χ' ⟨s, .ins id el anchorId :: v.past⟩ ⟨t, .ins id el anchorId :: w.past⟩ := by
  have hid : id ∉ w.ids := fun hid => lt_irrefl _ (hseen id hid)
  obtain ⟨u, hu, hs⟩ := h.policy
  obtain ⟨p, hp, -, hparent, hplace⟩ := hs.prepare hu el hid hpos hseen hanchor
  -- The new id gets the chain of its place.
  set χ' := Function.update χ id
    (chainAt χ p.parentId ++ [⟨p.side, id - p.parentId.getD 0, id⟩]) with hχ'
  have hkeep (j : ℕ) (hj : j ≠ id) : χ' j = χ j := Function.update_of_ne hj _ _
  have hkeepI : ∀ j ∈ w.ids, χ' j = χ j := fun j hj => hkeep j fun heq => hid (heq ▸ hj)
  have hself : χ' id = chainAt χ' p.parentId ++ [⟨p.side, id - p.parentId.getD 0, id⟩] := by
    have hchain : chainAt χ' p.parentId = chainAt χ p.parentId := by
      cases hq : p.parentId with
      | none => rfl
      | some q => exact hkeepI q (hparent q hq)
    rw [hchain]
    exact Function.update_self ..
  have htree : SidedTree χ' (Insert.insert id w.ids) := h.tree.insert hid hparent p.lt
  obtain ⟨u', t, -, ht, hu', hs'⟩ :=
    (hs.congr hu hkeepI).insertAt (hu.congr hkeepI) el hanchor hparent hplace hself
  obtain ⟨g, pc, hg, hpc, hok, hcontent⟩ := h.content.insertAt ht
  have hids : (⟨t, .ins id el anchorId :: w.past⟩ : Version α).ids = Insert.insert id w.ids := by
    ext j
    simp [Version.ids, insertedIds, SeqOp.insId]
  have hover : Over χ' (Insert.insert id w.ids) t := over_of_summarizes hu' hs'
  have hpath : unlabel (pc ++ [⟨p.side, id - p.parentId.getD 0, 0⟩]) = unlabel (χ' id) := by
    have hrec : (LiveGap.linkRec v.state id el anchorId g
        (pc ++ [⟨p.side, id - p.parentId.getD 0, 0⟩])).records.get? id = some
          { chain := pc ++ [⟨p.side, id - p.parentId.getD 0, 0⟩], el,
            gap := { g with hasR := false } } := SortedMap.get?_insert_self ..
    exact ((hcontent.over hover).chain id _ hrec).2
  refine ⟨.ins id el anchorId (some p), _, t, χ', (h.content.prepare_eq _).trans hp, hp, hok, ht,
    hkeep, by rw [h.past], hids ▸ htree, ⟨u', hids ▸ hu', hs'⟩, hcontent, ?_,
    ordered_of_none rfl⟩
  refine h.single.linkRec h.over_left h.tree hg hpc fun j hj heq => ?_
  rw [hpath, ← hkeepI j hj] at heq
  exact hid (htree.unlabel_injOn (Set.mem_insert _ _) (Set.mem_insert_of_mem _ hj) heq ▸ hj)

/-- **A deletion**. -/
theorem delete (id : ℕ) : ∃ s t, apply v.state (.del id) = .ok s ∧ apply w.state (.del id) = .ok t ∧
    Twin χ ⟨s, .del id :: v.past⟩ ⟨t, .del id :: w.past⟩ := by
  obtain ⟨u, hu, hs⟩ := h.policy
  obtain ⟨u', t, -, ht, hu', hs'⟩ := hs.apply_del hu id
  have hhas := h.content.has_eq id
  have hids : (⟨t, .del id :: w.past⟩ : Version α).ids = w.ids := by
    ext j
    simp [Version.ids, insertedIds, SeqOp.insId]
  refine ⟨_, t, rfl, ht, by rw [h.past], hids ▸ h.tree, ⟨u', hids ▸ hu', hs'⟩, ?_, ?_, ?_⟩
  · rw [apply, Except.ok.injEq] at ht
    subst ht
    rw [hhas]
    split_ifs
    · exact h.content.erase id
    · exact h.content
  · split_ifs
    · refine h.single.of_held fun c hc => ?_
      rcases hc with hc | ⟨i, r, hr, hc⟩
      · exact Or.inl hc
      · rw [SortedMap.get?_erase] at hr
        split_ifs at hr
        exact Or.inr ⟨i, r, hr, hc⟩
    · exact h.single
  · rw [hids]
    split_ifs
    · exact ordered_of_none rfl
    · exact h.ordered

omit h in
/-- **An unmixed merge**. -/
theorem merge {vl wl va wa vb wb : Version α} (hl : Twin χ vl wl) (ha : Twin χ va wa)
    (hb : Twin χ vb wb) (hbase : ∀ o ∈ wl.past, o ∈ wa.past)
    (hunmixed : Unmixed vl.state va.state vb.state) :
    Twin χ ⟨merge3 vl.state va.state vb.state, va.past ++ vb.past⟩
      ⟨merge3 wl.state wa.state wb.state, wa.past ++ wb.past⟩ := by
  obtain ⟨l, hul, hsl⟩ := hl.policy
  obtain ⟨a, hua, hsa⟩ := ha.policy
  obtain ⟨b, hub, hsb⟩ := hb.policy
  have hsub : wl.ids ⊆ wa.ids := by
    intro j hj
    obtain ⟨o, ho, hid⟩ := List.mem_filterMap.mp hj
    exact List.mem_filterMap.mpr ⟨o, hbase o ho, hid⟩
  have hids : (⟨merge3 wl.state wa.state wb.state, wa.past ++ wb.past⟩ : Version α).ids =
      wa.ids ∪ wb.ids := by
    ext j
    simp [Version.ids, insertedIds]
  obtain ⟨m, -, hum, hsm⟩ := Summarizes.merge3 hsub hul hua hub hsl hsa hsb
  exact ⟨by rw [ha.past, hb.past], hids ▸ ha.tree.union hb.tree, ⟨m, hids ▸ hum, hsm⟩,
    hl.content.merge3 ha.content hb.content, hunmixed.single, ordered_of_none rfl⟩

end Twin

/-! ### Runs -/

theorem exists_getElem?_of_forall₂ {β γ : Type*} {R : β → γ → Prop} {P : List β} {Q : List γ}
    (h : List.Forall₂ R P Q) {i : ℕ} {w : γ} (hw : Q[i]? = some w) :
    ∃ v, P[i]? = some v ∧ R v w := by
  induction h generalizing i with
  | nil => simp at hw
  | @cons v w' P Q hvw h ih =>
    cases i with
    | zero =>
      rw [List.getElem?_cons_zero, Option.some.injEq] at hw
      exact ⟨v, rfl, hw ▸ hvw⟩
    | succ i => exact ih hw

theorem forall₂_set {β γ : Type*} {R : β → γ → Prop} {P : List β} {Q : List γ}
    (h : List.Forall₂ R P Q) {i : ℕ} {v : β} {w : γ} (hvw : R v w) :
    List.Forall₂ R (P.set i v) (Q.set i w) := by
  induction h generalizing i with
  | nil => exact .nil
  | cons hvw' h ih =>
    cases i with
    | zero => exact .cons hvw h
    | succ i => exact .cons hvw' ih

section Run

variable [DecidableEq α] {χ : ℕ → Chain} {P Q : List (Version α)}

/-- **Honest unmixed steps** keep the pools alike. -/
theorem exists_step (h : List.Forall₂ (Twin χ) P Q) {act : Act α} (hact : HonestAct Q act)
    (hunmixed : UnmixedAct P act) (k : ℕ) : ∃ χ' P' Q', step ship k P act = .ok P' ∧
      step keep k Q act = .ok Q' ∧ List.Forall₂ (Twin χ') P' Q' := by
  have hadd {χ' : ℕ → Chain} (h' : List.Forall₂ (Twin χ') P Q) {v w : Version α}
      (hvw : Twin χ' v w) : List.Forall₂ (Twin χ') (P ++ [v]) (Q ++ [w]) :=
    List.rel_append h' (.cons hvw .nil)
  match act with
  | .op i (.del id) =>
    obtain ⟨v, hv, hvw⟩ := exists_getElem?_of_forall₂ h (List.getElem?_eq_getElem hact)
    obtain ⟨s, t, hs, ht, htwin⟩ := hvw.delete id
    refine ⟨χ, _, _, ?_, ?_, hadd h htwin⟩
    · simp only [step, versionAt, hv, SidedOp.ofSeq, bind, Except.bind, prepare, pure, Except.pure,
        hs]
    · simp only [step, versionAt, List.getElem?_eq_getElem hact, SidedOp.ofSeq, bind, Except.bind,
        prepare, pure, Except.pure, ht]
  | .op i (.ins id el anchorId) =>
    rw [HonestAct] at hact
    cases hw : Q[i]? with
    | none =>
      rw [hw] at hact
      exact hact.elim
    | some w =>
      rw [hw] at hact
      obtain ⟨hpos, hfresh, hseen, hanchor⟩ := hact
      obtain ⟨v, hv, hvw⟩ := exists_getElem?_of_forall₂ h hw
      obtain ⟨placed, s, t, χ', hp, hp', hs, ht, hkeep, htwin⟩ := hvw.insert el hpos hseen hanchor
      -- The other versions have not seen the id.
      have h' : List.Forall₂ (Twin χ') P Q := by
        refine List.forall₂_iff_get.mpr ⟨h.length_eq, fun j hj hj' => ?_⟩
        refine (h.get hj hj').congr fun id' hid' => hkeep id' fun heq => ?_
        exact hfresh _ (List.get_mem Q ⟨j, hj'⟩) (heq ▸ hid')
      refine ⟨χ', _, _, ?_, ?_, hadd h' htwin⟩
      · simp only [step, versionAt, hv, SidedOp.ofSeq, bind, Except.bind, pure, Except.pure, hp, hs]
      · simp only [step, versionAt, hw, SidedOp.ofSeq, bind, Except.bind, pure, Except.pure, hp', ht]
  | .merge l a b =>
    rw [HonestAct] at hact
    cases hl : Q[l]? with
    | none => simp [hl] at hact
    | some wl =>
      cases ha : Q[a]? with
      | none => simp [hl, ha] at hact
      | some wa =>
        cases hb : Q[b]? with
        | none => simp [hl, ha, hb] at hact
        | some wb =>
          obtain ⟨vl, hvl, hl'⟩ := exists_getElem?_of_forall₂ h hl
          obtain ⟨va, hva, ha'⟩ := exists_getElem?_of_forall₂ h ha
          obtain ⟨vb, hvb, hb'⟩ := exists_getElem?_of_forall₂ h hb
          simp only [hl, ha, hb] at hact
          simp only [UnmixedAct, hvl, hva, hvb] at hunmixed
          refine ⟨χ, _, _, ?_, ?_, hadd h (Twin.merge hl' ha' hb' hact.1 hunmixed)⟩
          · simp only [step, versionAt, hvl, hva, hvb, bind, Except.bind, pure, Except.pure]
          · simp only [step, versionAt, hl, ha, hb, bind, Except.bind, pure, Except.pure]
  | .reload i =>
    have hw := List.getElem?_eq_getElem hact
    obtain ⟨v, hv, hvw⟩ := exists_getElem?_of_forall₂ h hw
    obtain ⟨s, hs, htwin⟩ := hvw.reload k
    refine ⟨χ, P.set i { v with state := s }, Q.set i Q[i], ?_, ?_, forall₂_set h htwin⟩
    · simp only [step, versionAt, hv, bind, Except.bind, pure, Except.pure, hs]
    · simp only [step, versionAt, hw, bind, Except.bind, pure, Except.pure, keep]

/-- **Honest unmixed runs** keep the pools alike. -/
theorem exists_run (h : List.Forall₂ (Twin χ) P Q) {k : ℕ} {acts : List (Act α)}
    (hacts : HonestRun k Q acts) (hunmixed : UnmixedRun k P acts) (n : ℕ) : ∃ χ' P' Q',
      run ship k P (acts.take n) = .ok P' ∧ run keep k Q (acts.take n) = .ok Q' ∧
      List.Forall₂ (Twin χ') P' Q' := by
  induction acts generalizing χ P Q k n with
  | nil => exact ⟨χ, P, Q, by rw [List.take_nil]; rfl, by rw [List.take_nil]; rfl, h⟩
  | cons act acts ih =>
    cases n with
    | zero => exact ⟨χ, P, Q, rfl, rfl, h⟩
    | succ n =>
      obtain ⟨χ', P', Q', hP, hQ, h'⟩ := exists_step h hacts.1 hunmixed.1 k
      have hrest := hacts.2
      have hrest' := hunmixed.2
      rw [hQ] at hrest
      rw [hP] at hrest'
      obtain ⟨χ'', P'', Q'', hP', hQ', h''⟩ := ih h' hrest hrest' n
      refine ⟨χ'', P'', Q'', ?_, ?_, h''⟩
      · rw [List.take_succ_cons, run, hP]
        exact hP'
      · rw [List.take_succ_cons, run, hQ]
        exact hQ'

end Run

/-- The initial version is its own twin. -/
theorem twin_start : Twin (fun _ => []) (start : Version α) start := by
  have hpolicy : PolicyState (fun _ => []) (start : Version α).ids
      (UnifiedSided.init : UnifiedSided.State α) := by
    have hids : (start : Version α).ids = ∅ := Set.eq_empty_of_forall_notMem fun _ hj => by cases hj
    exact hids ▸ PolicyState.init
  exact ⟨rfl, fun _ hj => (by cases hj), ⟨_, hpolicy, Summarizes.init⟩, .refl _,
    single_of_summarizes hpolicy Summarizes.init, ordered_of_none rfl⟩

/-- A character is inserted on each side of a merge after one that is replaced in between: the
merge takes over its node from the one side and a copy of it from the other. -/
def mixedActs : List (Act Char) :=
  [.op 0 (.ins 1 'x' none), .op 1 (.ins 2 'y' (some 1)), .reload 1, .op 1 (.ins 3 'z' (some 1)),
    .merge 1 2 3]

end SalRuntime.LiveGap
