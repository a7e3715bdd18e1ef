import SalRuntime.Datatypes.Mrdt
import SalRuntime.Datatypes.SidedOp

/-!
# The production sided kernel

The sided sequence of `src/datatypes/liveGapSidedEmbedRGA.js`. Only live ids keep a record, with
one gap: whether the anchor has a right child, and the id and the chain of what follows it. The
nodes of chains are compared by their object identity, which the labels stand for: a node that an
insertion makes is named by its place under its parent and has the label `0`; the copies that
decoding makes have other labels.

## Main definitions

* `LiveGap.prepare`, `LiveGap.apply`, `LiveGap.merge3`, `LiveGap.readEntries` — the operations.
* `liveGapSided` — the datatype.

## Main results

* `LiveGap.mem_allChains` — the chains of a state are the nonempty prefixes of those it refers to.
* `LiveGap.policyOrder_spec` — in a tree without double nodes the policy order lists the records
  by descending keys.
-/

namespace SalRuntime

variable {α : Type}

namespace LiveGap

/-- A gap: is there a right child, and what follows the anchor. -/
structure Gap where
  /-- Does the anchor have a right child? -/
  hasR : Bool
  /-- The id of the successor. -/
  succId : Option ℕ
  /-- The chain of the successor. -/
  succChain : Chain
  deriving DecidableEq, Repr

/-- A record of a live id. -/
structure Rec (α : Type) where
  /-- The chain. -/
  chain : Chain
  /-- The element. -/
  el : α
  /-- The gap. -/
  gap : Gap
  deriving DecidableEq, Repr

/-- A state. -/
structure State (α : Type) where
  /-- The records of the live ids. -/
  records : SortedMap ℕ (Rec α)
  /-- The gap at the root. -/
  rootGap : Gap
  /-- A cached order. -/
  order : Option (List ℕ)

/-- The empty gap. -/
def gap0 : Gap := ⟨false, none, []⟩

/-- The initial state. -/
def init : State α := { records := SortedMap.empty, rootGap := gap0, order := none }

/-- The gap of an anchor. -/
def anchorGap (s : State α) : Option ℕ → Option Gap
  | none => some s.rootGap
  | some id => (s.records.get? id).map Rec.gap

/-- The chain of the parent of an insertion: that of a record or of the successor in the gap. -/
def parentChain (s : State α) (id : Option ℕ) (g : Gap) : Except Failure Chain :=
  match id with
  | none => .ok []
  | some p =>
    match s.records.get? p with
    | some r => .ok r.chain
    | none =>
      if g.succId = some p then .ok g.succChain
      else .error (.error s!"policy parent chain {p} missing")

/-- Place an insertion, unless it is placed. -/
def prepare (s : State α) : SidedOp α → Except Failure (SidedOp α)
  | .ins id el anchorId none => do
    if id < 1 ∨ s.records.has id = true then throw (.error s!"bad fresh id {id}")
    match anchorGap s anchorId with
    | none => throw (.error s!"anchor {showId anchorId} not retained")
    | some g =>
      let side := mintSide g.hasR g.succId
      let parentId := mintParent g.succId anchorId side
      if h : parentId.getD 0 < id then return .ins id el anchorId (some ⟨side, parentId, h⟩)
      throw (.error "non-positive delta")
  | op => return op

/-- The state with a new record, which is the new successor of the anchor. -/
def linkRec (s : State α) (id : ℕ) (el : α) (anchorId : Option ℕ) (g : Gap) (ch : Chain) :
    State α where
  records := (s.records.modifyAt anchorId fun r => { r with gap := ⟨true, some id, ch⟩ }).insert id
    { chain := ch, el, gap := { g with hasR := false } }
  rootGap := if anchorId.isNone then ⟨true, some id, ch⟩ else s.rootGap
  order := none

/-- Insert a record at a place. -/
def insertAt (s : State α) (id : ℕ) (el : α) (anchorId : Option ℕ) (p : Placement id) :
    Except Failure (State α) :=
  match anchorGap s anchorId with
  | none =>
    if p.side = .L then .error (.error "Cannot read properties of undefined (reading 'succId')")
    else if p.parentId ≠ anchorId then .error (.error "Fugue parent mismatch")
    else .error (.error s!"policy parent chain {showId p.parentId} missing")
  | some g => do
    if p.parentId ≠ mintParent g.succId anchorId p.side then
      throw (.error "Fugue parent mismatch")
    let pc ← parentChain s p.parentId g
    return linkRec s id el anchorId g (pc ++ [⟨p.side, id - p.parentId.getD 0, 0⟩])

/-- Apply an operation. Deleting an id without a record does nothing. -/
def apply (s : State α) : SidedOp α → Except Failure (State α)
  | .del id =>
    .ok (if s.records.has id then { s with records := s.records.erase id, order := none } else s)
  | raw => do
    match ← prepare s raw with
    | .ins id el anchorId (some p) => insertAt s id el anchorId p
    | _ => throw (.error "Fugue parent mismatch")

/-! ### The policy order -/

/-- Push the parent of a chain, unless it is `null`. -/
def pushParent (ch : Chain) (stack : List Chain) : List Chain :=
  if ch.dropLast = [] then stack else ch.dropLast :: stack

/-- The loop that collects chains with their ancestors: a popped chain that was not seen is
recorded, and its parent is pushed. The steps on the stack bound the rounds. -/
def collect : ℕ → List Chain → List Chain → List Chain
  | 0, _, seen => seen
  | _ + 1, [], seen => seen
  | n + 1, ch :: stack, seen =>
    if ch ∈ seen then collect n stack seen
    else collect n (pushParent ch stack) (seen ++ [ch])

/-- The chains that a state refers to, the last one pushed first. -/
def heldChains (s : State α) : List Chain :=
  ((s.rootGap.succChain :: (eachEntry s.records).flatMap fun e =>
    [e.2.chain, e.2.gap.succChain]).filter (· ≠ [])).reverse

/-- The chains that a state refers to, with their ancestors. -/
def allChains (s : State α) : List Chain :=
  collect (((heldChains s).map List.length).sum) (heldChains s) []

/-- Siblings by descending keys. -/
def precedes (c d : Chain) : Prop := blockKey d ≤ blockKey c

instance : DecidableRel precedes := fun c d => inferInstanceAs (Decidable (blockKey d ≤ blockKey c))

/-- The children of a chain. -/
def children (chains : List Chain) (c : Chain) : List Chain :=
  (chains.filter fun k => k.dropLast = c).insertionSort precedes

/-- The children of a chain on the left and on the right. -/
def bands (chains : List Chain) (c : Chain) : List Chain × List Chain :=
  ((children chains c).filter fun k => k.getLast?.map Link.side = some .L,
    (children chains c).filter fun k => k.getLast?.map Link.side = some .R)

/-- The entry of the record that has a chain: the last one of a bulk scan. -/
def entryAt (s : State α) (c : Chain) : Option (ℕ × Rec α) :=
  (eachEntry s.records).reverse.find? fun e => e.2.chain = c

/-- The entries in policy order. A chain is on the stack twice at most. -/
def policyOrder (s : State α) : List (ℕ × Rec α) :=
  let chains := allChains s
  (inOrder (bands chains) (2 * chains.length) ((children chains []).map (·, false))).filterMap
    (entryAt s)

/-- The live entries in display order. -/
def readEntries (s : State α) : List (ℕ × Rec α) :=
  match s.order with
  | some order => order.filterMap fun id => (s.records.get? id).map (id, ·)
  | none => policyOrder s

/-- The live ids in display order. -/
def readIds (s : State α) : List ℕ := (readEntries s).map Prod.fst

/-- The live elements in display order. -/
def read (s : State α) : List α := (readEntries s).map fun e => e.2.el

/-! ### The merge -/

/-- The gap with the later successor. -/
def maxSucc (a b : Gap) : Gap :=
  if a.succId = none then b
  else if b.succId = none then a
  else if coordKey a.succChain < coordKey b.succChain then b else a

/-- Merge the gaps of an anchor. -/
def mergeGap (a b : Gap) : Gap :=
  if a = b then a
  else
    let winner := maxSucc a b
    ⟨a.hasR || b.hasR, winner.succId, winner.succChain⟩

/-- The merged record of an id, if it is kept. -/
def mergeRec (l a b : State α) (id : ℕ) : Option (Rec α) :=
  match a.records.get? id, b.records.get? id with
  | some ra, some rb => some { chain := ra.chain, el := ra.el, gap := mergeGap ra.gap rb.gap }
  | ra, rb => if l.records.has id then none else ra.or rb

/-- The three-way merge: the base, then the two sides. -/
def merge3 (l a b : State α) : State α :=
  let ids := (eachEntry a.records).map Prod.fst ++ (eachEntry b.records).map Prod.fst
  { records := ids.foldl (fun t id => t.insertSome id (mergeRec l a b id)) SortedMap.empty
    rootGap := mergeGap a.rootGap b.rootGap
    order := none }

end LiveGap

/-- The production sided kernel. -/
@[reducible] def liveGapSided (α : Type) : Datatype where
  State := LiveGap.State α
  Op := SidedOp α
  View := List α
  Print := Unit
  printDecEq := inferInstance
  Wire := Unit
  Cut := Unit
  Translate := Unit
  init := LiveGap.init
  prepare := some LiveGap.prepare
  needsPrepare := true
  apply := LiveGap.apply
  applyBatch := some fun s ops => ops.foldlM LiveGap.apply s
  merge3 := fun l a b => .ok (LiveGap.merge3 l a b)
  read := LiveGap.read
  insId := SidedOp.insId
  headOnlyMerge := false
  auditMergeCoverage := none
  fingerprint := none
  encodeState := none
  decodeState := none
  compact := none
  remapState := none
  settledCut := fun _ => ()
  emptyCut := ()
  settledIds := fun _ => none
  cutFromMeet := none
  inverseTranslate := none
  coordInverse := fun _ _ => .ok ()

namespace LiveGap

/-! ### The records of a merge -/

theorem get?_merge3 (l a b : State α) (id : ℕ) :
    (merge3 l a b).records.get? id = mergeRec l a b id := by
  have hmem {m : State α} : id ∈ (eachEntry m.records).map Prod.fst ↔
      ∃ r, m.records.get? id = some r := by
    simp [mem_eachEntry]
  rw [merge3, SortedMap.get?_foldl_insertSome, SortedMap.get?_empty, Option.or_none]
  split_ifs with hid
  · rfl
  · rw [List.mem_append, not_or, hmem, hmem] at hid
    have ha : a.records.get? id = none := Option.eq_none_iff_forall_ne_some.mpr fun r hr =>
      hid.1 ⟨r, hr⟩
    have hb : b.records.get? id = none := Option.eq_none_iff_forall_ne_some.mpr fun r hr =>
      hid.2 ⟨r, hr⟩
    rw [mergeRec, ha, hb]
    simp

/-! ### The chains of a state -/

/-- A nonempty prefix of a chain of a list. -/
def Covered (cs : List Chain) (c : Chain) : Prop := c ≠ [] ∧ ∃ d ∈ cs, c <+: d

/-- The chains of the stack were collected with their ancestors. -/
structure Collected (stack seen result : List Chain) : Prop where
  /-- Every chain is listed once. -/
  nodup : result.Nodup
  /-- Parents are listed. -/
  closed : ∀ c ∈ result, c.dropLast ≠ [] → c.dropLast ∈ result
  /-- What was seen or on the stack is listed. -/
  mem : ∀ c, c ∈ seen ∨ c ∈ stack → c ∈ result
  /-- Nothing else is listed. -/
  covered : ∀ c ∈ result, c ∈ seen ∨ Covered stack c

section PushParent

variable {ch : Chain} {stack : List Chain}

theorem subset_pushParent : stack ⊆ pushParent ch stack := by
  rw [pushParent]
  split_ifs
  · exact List.Subset.refl _
  · exact List.subset_cons_self _ _

theorem dropLast_mem_pushParent (h : ch.dropLast ≠ []) : ch.dropLast ∈ pushParent ch stack := by
  rw [pushParent, if_neg h]
  exact List.mem_cons_self

theorem nil_notMem_pushParent (h : [] ∉ stack) : [] ∉ pushParent ch stack := by
  rw [pushParent]
  split_ifs with htop
  · exact h
  · rw [List.mem_cons, not_or]
    exact ⟨Ne.symm htop, h⟩

theorem Covered.of_pushParent {c : Chain} (h : Covered (pushParent ch stack) c) :
    Covered (ch :: stack) c := by
  obtain ⟨hne, d, hd, hpre⟩ := h
  rw [pushParent] at hd
  split_ifs at hd
  · exact ⟨hne, d, List.mem_cons_of_mem _ hd, hpre⟩
  · rcases List.mem_cons.mp hd with rfl | hd
    · exact ⟨hne, ch, List.mem_cons_self, hpre.trans (List.dropLast_prefix ch)⟩
    · exact ⟨hne, d, List.mem_cons_of_mem _ hd, hpre⟩

theorem sum_length_pushParent (h : ch ≠ []) :
    ((pushParent ch stack).map List.length).sum < ((ch :: stack).map List.length).sum := by
  have hpos := List.length_pos_iff.mpr h
  rw [pushParent]
  split_ifs
  · rw [List.map_cons, List.sum_cons]
    omega
  · rw [List.map_cons, List.map_cons, List.sum_cons, List.sum_cons, List.length_dropLast]
    omega

end PushParent

theorem collected_nil {seen : List Chain} (hnodup : seen.Nodup)
    (hclosed : ∀ c ∈ seen, c.dropLast ≠ [] → c.dropLast ∈ seen ∨ c.dropLast ∈ ([] : List Chain)) :
    Collected [] seen seen where
  nodup := hnodup
  closed c hc hne := (hclosed c hc hne).resolve_right List.not_mem_nil
  mem _ hc := hc.resolve_right List.not_mem_nil
  covered _ hc := Or.inl hc

/-- **The loop** collects the chains of the stack with their ancestors. -/
theorem collected_collect (n : ℕ) (stack seen : List Chain)
    (hn : (stack.map List.length).sum ≤ n) (hstack : [] ∉ stack) (hnodup : seen.Nodup)
    (hclosed : ∀ c ∈ seen, c.dropLast ≠ [] → c.dropLast ∈ seen ∨ c.dropLast ∈ stack) :
    Collected stack seen (collect n stack seen) := by
  induction n generalizing stack seen with
  | zero =>
    cases stack with
    | nil => exact collected_nil hnodup hclosed
    | cons ch stack =>
      have hpos := List.length_pos_iff.mpr (List.ne_of_not_mem_cons hstack).symm
      rw [List.map_cons, List.sum_cons] at hn
      omega
  | succ n ih =>
    cases stack with
    | nil => exact collected_nil hnodup hclosed
    | cons ch stack =>
      have hch : ch ≠ [] := (List.ne_of_not_mem_cons hstack).symm
      have hstack' : [] ∉ stack := List.not_mem_of_not_mem_cons hstack
      have hlt : ((pushParent ch stack).map List.length).sum <
          ((ch :: stack).map List.length).sum := sum_length_pushParent hch
      rw [collect]
      split_ifs with hseen
      · have hpos := List.length_pos_iff.mpr hch
        rw [List.map_cons, List.sum_cons] at hn
        have h := ih stack seen (by omega) hstack' hnodup fun c hc hne => by
          rcases hclosed c hc hne with h | h
          · exact Or.inl h
          · rcases List.mem_cons.mp h with h | h
            · exact Or.inl (h ▸ hseen)
            · exact Or.inr h
        refine ⟨h.nodup, h.closed, fun c hc => h.mem c ?_, fun c hc => ?_⟩
        · rcases hc with hc | hc
          · exact Or.inl hc
          · rcases List.mem_cons.mp hc with rfl | hc
            · exact Or.inl hseen
            · exact Or.inr hc
        · rcases h.covered c hc with hc | ⟨hne, d, hd, hpre⟩
          · exact Or.inl hc
          · exact Or.inr ⟨hne, d, List.mem_cons_of_mem _ hd, hpre⟩
      · -- The parent of the new chain is on the stack now.
        have h := ih (pushParent ch stack) (seen ++ [ch]) (by omega)
          (nil_notMem_pushParent hstack') (List.nodup_append.mpr ⟨hnodup, List.nodup_singleton _,
            fun c hc d hd heq => hseen (List.mem_singleton.mp hd ▸ heq ▸ hc)⟩) fun c hc hne => by
          rcases List.mem_append.mp hc with hc | hc
          · rcases hclosed c hc hne with h | h
            · exact Or.inl (List.mem_append_left _ h)
            · rcases List.mem_cons.mp h with h | h
              · exact Or.inl (h ▸ List.mem_append_right _ List.mem_cons_self)
              · exact Or.inr (subset_pushParent h)
          · obtain rfl := List.mem_singleton.mp hc
            exact Or.inr (dropLast_mem_pushParent hne)
        refine ⟨h.nodup, h.closed, fun c hc => h.mem c ?_, fun c hc => ?_⟩
        · rcases hc with hc | hc
          · exact Or.inl (List.mem_append_left _ hc)
          · rcases List.mem_cons.mp hc with rfl | hc
            · exact Or.inl (List.mem_append_right _ List.mem_cons_self)
            · exact Or.inr (subset_pushParent hc)
        · rcases h.covered c hc with hc | hc
          · rcases List.mem_append.mp hc with hc | hc
            · exact Or.inl hc
            · obtain rfl := List.mem_singleton.mp hc
              exact Or.inr ⟨hch, c, List.mem_cons_self, List.prefix_rfl⟩
          · exact Or.inr hc.of_pushParent

/-- The chains that a state refers to. -/
def Held (s : State α) (c : Chain) : Prop :=
  c = s.rootGap.succChain ∨ ∃ id r, s.records.get? id = some r ∧ (c = r.chain ∨ c = r.gap.succChain)

theorem mem_heldChains {s : State α} {c : Chain} : c ∈ heldChains s ↔ c ≠ [] ∧ Held s c := by
  simp only [heldChains, List.mem_reverse, List.mem_filter, List.mem_cons, List.mem_flatMap,
    mem_eachEntry, decide_eq_true_eq, List.not_mem_nil, or_false, Held, Prod.exists]
  exact and_comm

/-- **The chains of a state** are the nonempty prefixes of those that it refers to. -/
theorem mem_allChains {s : State α} {c : Chain} :
    c ∈ allChains s ↔ c ≠ [] ∧ ∃ d, Held s d ∧ c <+: d := by
  have h : Collected (heldChains s) [] (allChains s) := collected_collect _ _ _ le_rfl
    (fun hnil => (mem_heldChains.mp hnil).1 rfl) List.nodup_nil (by simp)
  constructor
  · intro hc
    obtain ⟨hne, d, hd, hpre⟩ := (h.covered c hc).resolve_left List.not_mem_nil
    exact ⟨hne, d, (mem_heldChains.mp hd).2, hpre⟩
  · rintro ⟨hne, d, hd, e, rfl⟩
    -- Induction on the steps below the prefix.
    have hde : c ++ e ∈ allChains s :=
      h.mem _ (Or.inr (mem_heldChains.mpr ⟨by simp [hne], hd⟩))
    clear hd
    induction e using List.reverseRecOn with
    | nil => simpa using hde
    | append_singleton e x ih =>
      rw [← List.append_assoc] at hde
      have hparent := h.closed _ hde
      rw [List.dropLast_concat] at hparent
      exact ih (hparent (by simp [hne]))

theorem nodup_allChains (s : State α) : (allChains s).Nodup :=
  (collected_collect _ _ _ le_rfl (fun hnil => (mem_heldChains.mp hnil).1 rfl) List.nodup_nil
    (by simp)).nodup

/-! ### The read -/

section Read

variable {s : State α} (hspaced : Spaced {c | c ∈ allChains s})

/-- The entry of a chain is a record. -/
theorem get?_of_entryAt {c : Chain} {e : ℕ × Rec α} (he : entryAt s c = some e) :
    s.records.get? e.1 = some e.2 := by
  have hmem := List.mem_of_find?_eq_some he
  rwa [List.mem_reverse, mem_eachEntry] at hmem

theorem mem_children {chains : List Chain} {c k : Chain} :
    k ∈ children chains c ↔ k ∈ chains ∧ k.dropLast = c := by
  rw [children, List.mem_insertionSort, List.mem_filter, decide_eq_true_eq]

theorem nil_notMem_allChains : [] ∉ allChains s := fun hnil => (mem_allChains.mp hnil).1 rfl

/-- The children of a chain extend it by a step. -/
theorem mem_children_allChains {c k : Chain} :
    k ∈ children (allChains s) c ↔ k ∈ allChains s ∧ ∃ x, k = c ++ [x] := by
  rw [mem_children]
  refine and_congr_right fun hk => ⟨fun hdrop => ?_, ?_⟩
  · have hne : k ≠ [] := (mem_allChains.mp hk).1
    exact ⟨k.getLast hne, by rw [← hdrop, List.dropLast_append_getLast hne]⟩
  · rintro ⟨x, rfl⟩
    exact List.dropLast_concat ..

include hspaced

theorem pairwise_children (c : Chain) :
    (children (allChains s) c).Pairwise fun k k' => coordKey k' < coordKey k := by
  have htotal : Std.Total precedes := ⟨fun _ _ => le_total _ _⟩
  have htrans : IsTrans Chain precedes := ⟨fun _ _ _ h h' => h'.trans h⟩
  refine hspaced.pairwise_coordKey (c := c) (fun k hk => mem_children_allChains.mp hk) ?_ ?_
  · exact (List.perm_insertionSort _ _).nodup_iff.mpr ((nodup_allChains s).filter _)
  · exact List.pairwise_insertionSort _ _

theorem bands_allChains : Bands {c | c ∈ allChains s} Link.isLeft coordKey (bands (allChains s)) := by
  have hside (c k : Chain) (side : FugueSide) :
      k ∈ (children (allChains s) c).filter (fun k => k.getLast?.map Link.side = some side) ↔
        k ∈ allChains s ∧ ∃ x : Link, x.side = side ∧ k = c ++ [x] := by
    rw [List.mem_filter, mem_children_allChains, decide_eq_true_eq]
    constructor
    · rintro ⟨⟨hk, x, rfl⟩, hx⟩
      exact ⟨hk, x, by simpa using hx, rfl⟩
    · rintro ⟨hk, x, hx, rfl⟩
      exact ⟨⟨hk, x, rfl⟩, by simpa using hx⟩
  refine ⟨fun c _ k => ?_, fun c _ k => ?_, fun c _ => ?_, fun c _ => ?_⟩
  · simp only [Link.isLeft_iff]
    exact hside c k .L
  · simp only [Link.isLeft_eq_false_iff]
    exact hside c k .R
  · exact (pairwise_children hspaced c).filter _
  · exact (pairwise_children hspaced c).filter _

/-- **The policy order** lists the records by descending keys. -/
theorem policyOrder_spec (hchain : ∀ id r, s.records.get? id = some r → r.chain ≠ [])
    (hinj : ∀ id r id' r', s.records.get? id = some r → s.records.get? id' = some r' →
      r.chain = r'.chain → id = id') :
    ((policyOrder s).Pairwise fun e f => coordKey f.2.chain < coordKey e.2.chain) ∧
      ∀ e, e ∈ policyOrder s ↔ s.records.get? e.1 = some e.2 := by
  obtain ⟨S, hS, hmem, hlen⟩ := hspaced.exists_sorted (fun _ => Iff.rfl) (nodup_allChains s)
  have horder : policyOrder s = S.filterMap (entryAt s) := by
    have hroots (k : Chain) : k ∈ children (allChains s) [] ↔
        k ∈ allChains s ∧ ∃ x, k = [x] := mem_children_allChains
    rw [policyOrder, inOrder_eq hspaced.inOrderKey (bands_allChains hspaced) hS hmem hroots
      (pairwise_children hspaced []) nil_notMem_allChains (by omega)]
  have hentry {c : Chain} {e : ℕ × Rec α} (he : entryAt s c = some e) :
      s.records.get? e.1 = some e.2 ∧ e.2.chain = c :=
    ⟨get?_of_entryAt he, by simpa using List.find?_some he⟩
  rw [horder]
  constructor
  · refine hS.filterMap _ fun c d hlt e he f hf => ?_
    rw [(hentry he).2, (hentry hf).2]
    exact hlt
  · intro e
    rw [List.mem_filterMap]
    constructor
    · rintro ⟨c, -, hc⟩
      exact (hentry hc).1
    · intro he
      refine ⟨e.2.chain, (hmem _).mpr (mem_allChains.mpr
        ⟨hchain _ _ he, e.2.chain, Or.inr ⟨e.1, e.2, he, Or.inl rfl⟩, List.prefix_rfl⟩), ?_⟩
      -- Only the record itself has its chain.
      cases hfind : entryAt s e.2.chain with
      | none =>
        rw [entryAt, List.find?_eq_none] at hfind
        exact absurd (hfind e (List.mem_reverse.mpr (mem_eachEntry.mpr he))) (by simp)
      | some f =>
        obtain ⟨hf, hchain⟩ := hentry hfind
        have hid := hinj _ _ _ _ hf he hchain
        rw [hid, he] at hf
        rw [show f = e from Prod.ext hid (Option.some.inj hf).symm]

end Read

end LiveGap

end SalRuntime
