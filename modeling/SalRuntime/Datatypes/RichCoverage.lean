import SalRuntime.Datatypes.MarkCover
import SalRuntime.Datatypes.Meanings

/-!
# The coverage certificate of a merge

A merge of rich texts is audited: every mark endpoint has a birth record, and every retained record
carries the union of the delete bits. If authors place marks on characters that they have seen, then no
merge fails its audit.

## Main definitions

* `Peritext.Anchored` — the ends of every mark are born.
* `Peritext.anchoredMeaning` — the meaning of states whose marks have their ends.

## Main results

* `Peritext.auditMergeCoverage_eq_ok` — a merge passes its audit.
* `Peritext.Represents.renderDoc` — what the render shows of a set of operations.
-/

namespace SalRuntime.Peritext

open Replicated

variable {α β μ : Type}

/-! ### Marks and their ends -/

/-- The ends of every mark are born. -/
def Anchored (E : Set (EmbedOp α μ β)) : Prop :=
  ∀ m, RichOp.mark m ∈ E → m.startId ∈ inserted (births E) ∧ m.endId ∈ inserted (births E)

/-- The author of a mark has seen the births of its ends. -/
def SeesEnds (E : Set (EmbedOp α μ β)) (op : EmbedOp α μ β) : Prop :=
  ∀ m, op = .mark m → m.startId ∈ inserted (births E) ∧ m.endId ∈ inserted (births E)

theorem anchored_empty : Anchored (∅ : Set (EmbedOp α μ β)) := fun _ hm => hm.elim

theorem Anchored.insert {E : Set (EmbedOp α μ β)} {op : EmbedOp α μ β} (h : Anchored E)
    (hop : SeesEnds E op) : Anchored (insert op E) := by
  have hmono : inserted (births E) ⊆ inserted (births (Insert.insert op E)) :=
    inserted_mono (births_mono (Set.subset_insert op E))
  rintro m (hm | hm)
  · exact (hop m hm.symm).imp (hmono ·) (hmono ·)
  · exact (h m hm).imp (hmono ·) (hmono ·)

theorem Anchored.union {A B : Set (EmbedOp α μ β)} (hA : Anchored A) (hB : Anchored B) :
    Anchored (A ∪ B) := by
  rintro m (hm | hm)
  · exact (hA m hm).imp (inserted_mono (births_mono Set.subset_union_left) ·)
      (inserted_mono (births_mono Set.subset_union_left) ·)
  · exact (hB m hm).imp (inserted_mono (births_mono Set.subset_union_right) ·)
      (inserted_mono (births_mono Set.subset_union_right) ·)

variable [DecidableEq α]

/-- The meaning of the rich text whose authors place marks on characters that they have seen. -/
def anchoredMeaning (α μ β : Type) [DecidableEq α] [Inhabited α] [LinearOrder μ] [DecidableEq β] :
    (peritextEmbedRGA α μ β).replicated.Meaning ((ℕ → List ℕ) × (ℕ → α)) (ℕ ⊕ ℕ) :=
  (meaning α μ β).restrict Anchored SeesEnds anchored_empty Anchored.insert Anchored.union

/-! ### The audit -/

section Audit

variable {χ : ℕ → List ℕ} {ε : ℕ → α} {L A B E : Set (EmbedOp α μ β)}
  {l a b m s : EmbedState α μ β}

/-- **A merge passes its audit**: no mark endpoint lacks its birth, and no delete bit is lost. -/
theorem auditMergeCoverage_eq_ok (hl : Represents χ ε L l) (ha : Represents χ ε A a)
    (hb : Represents χ ε B b) (hm : Represents χ ε (A ∪ B) m) (hL : L ⊆ A ∩ B)
    (hends : Anchored (A ∪ B)) : auditMergeCoverage l a b m = .ok () := by
  obtain ⟨ctx, hctx, -, hhas, -⟩ := buildCtx_of_lists (lists_embedKernel m.shadow)
  have hbirth (id : ℕ) (hid : id ∈ inserted (births (A ∪ B))) : ctx.hasBirth id = true := by
    rw [hhas]
    exact hm.shadow.has_iff.mpr hid
  have hmissing : (m.marks.values.flatMap fun k =>
      ([k.startId, k.endId].filter fun id => !ctx.hasBirth id).map fun id => [k.mid, id]) = [] := by
    rw [List.flatMap_eq_nil_iff]
    intro k hk
    obtain ⟨⟨mid, k'⟩, hentry, rfl⟩ := List.mem_map.mp hk
    obtain ⟨o, ho, -, rfl⟩ := (hm.marks mid k').mp (SortedMap.mem_entries_iff.mp hentry)
    obtain ⟨hstart, hend⟩ := hends o ho
    simp [frozenMark, hbirth _ hstart, hbirth _ hend]
  have hbits (id : ℕ) : m.deleted.has id =
      (l.deleted.has id || a.deleted.has id || b.deleted.has id) := by
    rw [Bool.eq_iff_iff, Bool.or_eq_true, Bool.or_eq_true, hm.deleted, hl.deleted, ha.deleted,
      hb.deleted]
    constructor
    · rintro (hdel | hdel)
      · exact Or.inl (Or.inr hdel)
      · exact Or.inr hdel
    · rintro ((hdel | hdel) | hdel)
      · exact Or.inl (hL hdel).1
      · exact Or.inl hdel
      · exact Or.inr hdel
  have hmismatches : (ctx.birth.filter fun id => m.deleted.has id !=
      (l.deleted.has id || a.deleted.has id || b.deleted.has id)) = [] := by
    rw [List.filter_eq_nil_iff]
    intro id _
    rw [hbits]
    simp
  rw [auditMergeCoverage, hctx]
  simp only [hmissing, hmismatches]
  rfl

/-! ### The render -/

/-- **The render** shows the characters that are born and not deleted, each once. -/
theorem Represents.renderDoc [LinearOrder μ] (h : Represents χ ε E s) : ∃ doc,
    Peritext.renderDoc s = .ok doc ∧ (doc.map RenderedChar.id).Nodup ∧
    (∀ id, id ∈ doc.map RenderedChar.id ↔ id ∈ inserted (births E) ∧ RichOp.del id ∉ E) ∧
    ∀ x ∈ doc, x.char = some (ε x.id) := by
  obtain ⟨es, hes, hnodup, hhas⟩ := lists_embedKernel s.shadow
  have hentries : es = (EmbedRGA.readEntries s.shadow).map fun e => (e.1, e.2.el) :=
    (Except.ok.inj hes).symm
  have hctx : buildCtx s = .ok
      { birth := es.map Prod.fst
        live := (es.map Prod.fst).filter fun c => !s.deleted.has c
        cp := SortedMap.ofList es
        deleted := s.deleted
        hasBirth := (embedKernel α).has s.shadow } := by
    rw [buildCtx, hes]
    rfl
  have hids {f : ℕ → RenderedChar α μ β} (hf : ∀ c, (f c).id = c) (cs : List ℕ) :
      (cs.map f).map RenderedChar.id = cs := by
    rw [List.map_map]
    exact (List.map_congr_left fun c _ => hf c).trans (List.map_id cs)
  refine ⟨_, by rw [Peritext.renderDoc, hctx]; rfl, ?_, fun id => ?_, fun x hx => ?_⟩
  · rw [hids fun _ => rfl]
    exact hnodup.filter _
  · rw [hids fun _ => rfl, List.mem_filter, ← hhas, Bool.not_eq_true', ← Bool.not_eq_true, h.deleted]
    exact and_congr_left fun _ => h.shadow.has_iff
  · obtain ⟨c, hc, rfl⟩ := List.mem_map.mp hx
    obtain ⟨e, he, rfl⟩ := List.mem_map.mp (List.mem_of_mem_filter hc)
    have hchar : (SortedMap.ofList es).get? e.1 = some e.2 :=
      (SortedMap.get?_foldl_insert Prod.snd hnodup SortedMap.empty).1 e he
    rw [hentries] at he
    obtain ⟨⟨id, r⟩, hr, rfl⟩ := List.mem_map.mp he
    have hget := SortedMap.mem_entries_iff.mp ((List.perm_insertionSort _ _).mem_iff.mp hr)
    dsimp only at hchar ⊢
    rw [hchar, ((h.shadow id r).mp hget).2]
    rfl

end Audit

end SalRuntime.Peritext
