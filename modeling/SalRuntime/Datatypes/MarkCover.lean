import SalRuntime.Datatypes.RichConvergence
import SalRuntime.Datatypes.TextKernels

/-!
# What a mark covers, and which marks win

The resolver of a rich text over a kernel that lists its insertions. A character is live when it has a
birth and is not deleted, and has one place in the reading order. The winner of a mark type on a
character comes from the marks that cover the character.

## Main definitions

* `Peritext.Ctx.Sound` — what the resolver reads is the births and the deletions of a state.
* `Peritext.Reachable` — the states that accepted operations and merges reach.
* `Peritext.Filed` — every mark is filed under its id.

## Main results

* `Peritext.get?_bestMarks` — the winners on a character.
* `Peritext.noteMark_of_newest` — the newest mark wins.
* `Peritext.Reachable.lists` — reachable states list their births, under any kernel.
-/

namespace SalRuntime.Peritext

variable {α β μ : Type}

/-! ### The context of the resolver -/

/-- The births are listed once, the live ones are those that are not deleted, and `hasBirth` tells the
births. -/
structure Ctx.Sound (ctx : Ctx α) : Prop where
  /-- Births are listed once. -/
  nodup : ctx.birth.Nodup
  /-- The live ids. -/
  live : ctx.live = ctx.birth.filter fun c => !ctx.deleted.has c
  /-- The births. -/
  hasBirth : ∀ a, ctx.hasBirth a = true ↔ a ∈ ctx.birth

namespace Ctx.Sound

variable {ctx : Ctx α}

theorem nodup_live (h : ctx.Sound) : ctx.live.Nodup := h.live ▸ h.nodup.filter _

theorem mem_live_iff (h : ctx.Sound) {a : ℕ} :
    a ∈ ctx.live ↔ a ∈ ctx.birth ∧ ctx.deleted.has a = false := by
  rw [h.live, List.mem_filter, Bool.not_eq_true']

theorem isLive_iff (h : ctx.Sound) {a : ℕ} : ctx.isLive a = true ↔ a ∈ ctx.live := by
  rw [Ctx.isLive, Bool.and_eq_true, Bool.not_eq_true', h.hasBirth, h.mem_live_iff]

/-- A live id is at one index. -/
theorem idxOf_live (h : ctx.Sound) {i : ℕ} (hi : i < ctx.live.length) :
    ctx.live.idxOf ctx.live[i] = i := h.nodup_live.idxOf_getElem i hi

theorem isLive_getElem (h : ctx.Sound) {i : ℕ} (hi : i < ctx.live.length) :
    ctx.isLive ctx.live[i] = true := h.isLive_iff.mpr (List.getElem_mem hi)

end Ctx.Sound

/-- **The context** of a state whose kernel lists its births. -/
theorem buildCtx_of_lists {K : TextKernel α} {s : State K μ β} (h : K.Lists s.shadow) :
    ∃ ctx, buildCtx s = .ok ctx ∧ ctx.Sound ∧ ctx.hasBirth = K.has s.shadow ∧
      ctx.deleted = s.deleted := by
  obtain ⟨es, hes, hnodup, hhas⟩ := h
  refine ⟨{ birth := es.map Prod.fst
            live := (es.map Prod.fst).filter fun c => !s.deleted.has c
            cp := SortedMap.ofList es
            deleted := s.deleted
            hasBirth := K.has s.shadow }, ?_, ⟨hnodup, rfl, hhas⟩, rfl, rfl⟩
  rw [buildCtx, hes]
  rfl

/-- The covered characters are live, and each is covered once. -/
theorem coveredIds_sublist (m : Mark μ β) (ctx : Ctx α) : (coveredIds m ctx).Sublist ctx.live := by
  rw [coveredIds]
  split
  · split_ifs
    · exact List.nil_sublist _
    · exact (List.drop_sublist _ _).trans (List.take_sublist _ _)
  · exact List.nil_sublist _

/-! ### The winners -/

section Winners

variable [LinearOrder μ] {ctx : Ctx α}

/-- Noting a mark on the characters that it covers. -/
theorem get?_foldl_noteMark (m : Mark μ β) {cs : List ℕ} (hcs : cs.Nodup)
    (best : SortedMap ℕ (SortedMap μ (Winner β))) (c : ℕ) :
    (cs.foldl (fun best c =>
      match best.get? c with
      | some bc => best.insert c (noteMark bc m)
      | none => best) best).get? c =
      if c ∈ cs then (best.get? c).map (noteMark · m) else best.get? c := by
  induction cs generalizing best with
  | nil => rfl
  | cons x cs ih =>
    obtain ⟨hx, hcs⟩ := List.nodup_cons.mp hcs
    rw [List.foldl_cons, ih hcs]
    have hstep : (match best.get? x with
        | some bc => best.insert x (noteMark bc m)
        | none => best).get? c =
        if c = x then (best.get? c).map (noteMark · m) else best.get? c := by
      cases hbx : best.get? x with
      | none =>
        split_ifs with hc
        · rw [hc, hbx]
          rfl
        · rfl
      | some bc =>
        rw [SortedMap.get?_insert]
        split_ifs with hc
        · rw [hc, hbx]
          rfl
        · rfl
    rw [hstep]
    by_cases hc : c = x
    · subst hc
      rw [if_neg hx, if_pos rfl, if_pos List.mem_cons_self]
    · rw [if_neg hc]
      simp only [List.mem_cons, hc, false_or]

/-- **The winners** on a live character come from the marks that cover it. -/
theorem get?_bestMarks (h : ctx.live.Nodup) (ms : List (Mark μ β)) {c : ℕ} (hc : c ∈ ctx.live) :
    (bestMarks ctx ms).get? c =
      some ((ms.filter fun m => c ∈ coveredIds m ctx).foldl noteMark SortedMap.empty) := by
  have hstart : (ctx.live.foldl (fun best c => best.insert c SortedMap.empty)
      (SortedMap.empty : SortedMap ℕ (SortedMap μ (Winner β)))).get? c = some SortedMap.empty := by
    have hrun (cs : List ℕ) (t : SortedMap ℕ (SortedMap μ (Winner β)))
        (hin : c ∈ cs ∨ t.get? c = some SortedMap.empty) :
        (cs.foldl (fun best c => best.insert c SortedMap.empty) t).get? c =
          some SortedMap.empty := by
      induction cs generalizing t with
      | nil => exact hin.resolve_left List.not_mem_nil
      | cons x cs ih =>
        refine ih _ ?_
        by_cases hx : c = x
        · exact Or.inr (by rw [hx, SortedMap.get?_insert_self])
        · rw [SortedMap.get?_insert_of_ne _ _ hx]
          exact hin.imp_left fun hmem => (List.mem_cons.mp hmem).resolve_left hx
    exact hrun _ _ (Or.inl hc)
  have hrun (ms : List (Mark μ β)) (best : SortedMap ℕ (SortedMap μ (Winner β)))
      (bc : SortedMap μ (Winner β)) (hbc : best.get? c = some bc) :
      (ms.foldl (fun best m => (coveredIds m ctx).foldl (fun best c =>
        match best.get? c with
        | some bc => best.insert c (noteMark bc m)
        | none => best) best) best).get? c =
        some ((ms.filter fun m => c ∈ coveredIds m ctx).foldl noteMark bc) := by
    induction ms generalizing best bc with
    | nil => exact hbc
    | cons m ms ih =>
      have hm := get?_foldl_noteMark m ((coveredIds_sublist m ctx).nodup h) best c
      rw [List.foldl_cons]
      by_cases hcov : c ∈ coveredIds m ctx
      · rw [if_pos hcov, hbc] at hm
        rw [ih _ _ hm, List.filter_cons, if_pos (decide_eq_true hcov), List.foldl_cons]
      · rw [if_neg hcov, hbc] at hm
        rw [ih _ _ hm, List.filter_cons, if_neg (by simpa using hcov)]
  exact hrun ms _ _ hstart

/-- The winners come from the marks. -/
theorem exists_of_winner {ms : List (Mark μ β)} {bc : SortedMap μ (Winner β)} {t : μ} {w : Winner β}
    (h : (ms.foldl noteMark bc).get? t = some w) :
    bc.get? t = some w ∨ ∃ m ∈ ms, m.mid = w.mid := by
  induction ms generalizing bc with
  | nil => exact Or.inl h
  | cons m ms ih =>
    rcases ih h with hw | ⟨m', hm', hmid⟩
    · rw [noteMark] at hw
      have hinsert (hw : (bc.insert m.mtype { mid := m.mid, removed := m.removed
                                              value := m.value }).get? t = some w) :
          bc.get? t = some w ∨ ∃ m' ∈ m :: ms, m'.mid = w.mid := by
        rw [SortedMap.get?_insert] at hw
        split_ifs at hw
        · cases hw
          exact Or.inr ⟨m, List.mem_cons_self, rfl⟩
        · exact Or.inl hw
      split at hw
      · exact hinsert hw
      · split_ifs at hw
        · exact hinsert hw
        · exact Or.inl hw
    · exact Or.inr ⟨m', List.mem_cons_of_mem _ hm', hmid⟩

/-- **The newest mark wins.** -/
theorem noteMark_of_newest {bc : SortedMap μ (Winner β)} {m : Mark μ β}
    (h : ∀ w, bc.get? m.mtype = some w → w.mid < m.mid) :
    noteMark bc m = bc.insert m.mtype { mid := m.mid, removed := m.removed, value := m.value } := by
  rw [noteMark]
  cases hw : bc.get? m.mtype with
  | none => rfl
  | some w => exact if_pos (h w hw)

end Winners

/-! ### Reachable states -/

section Reachable

variable {K : TextKernel α} (raw : Insertion α → K.Ins)

/-- The states that operations and merges reach, with the insertions they have seen. Insertions are
honest, as the kernel asks; deletions and marks are arbitrary. A batch is the fold of its
operations. -/
inductive Reachable (U : Set K.Ins) : Set K.Ins → State K μ β → Prop
  | init : Reachable U ∅ init
  | ins {E s i s'} (h : Reachable U E s) (hi : K.Authored raw U E s.shadow i)
      (hs : apply s (.ins i) = .ok s') : Reachable U (insert i E) s'
  | del {E s id s'} (h : Reachable U E s) (hs : apply s (.del id) = .ok s') : Reachable U E s'
  | mark {E s op s'} (h : Reachable U E s) (hs : apply s (.mark op) = .ok s') : Reachable U E s'
  | merge {L A B l a b m} (hl : Reachable U L l) (ha : Reachable U A a) (hb : Reachable U B b)
      (hm : merge3 l a b = .ok m) : Reachable U (A ∪ B) m

variable {raw} {U E : Set K.Ins} {s s' : State K μ β}

/-- The shadow of a rich text after an insertion. -/
theorem apply_ins_eq_ok {i : K.Ins} (h : apply s (.ins i) = .ok s') :
    ∃ t, K.apply s.shadow i = .ok t ∧ s' = { s with shadow := t } := by
  rw [apply] at h
  cases ht : K.apply s.shadow i with
  | error e =>
    rw [ht] at h
    cases h
  | ok t =>
    rw [ht] at h
    cases h
    exact ⟨t, rfl, rfl⟩

/-- The kernel prepares insertions. -/
theorem prepare_ins (s : State K μ β) (i : K.Ins) :
    prepare s (.ins i) = (K.prepared s.shadow i).map RichOp.ins := by
  rw [prepare, TextKernel.prepared]
  cases K.prepare with
  | none => rfl
  | some prep =>
    show (do return .ins (← prep s.shadow i) : Except Failure (RichOp K.Ins μ β)) =
      (prep s.shadow i).map RichOp.ins
    cases prep s.shadow i <;> rfl

theorem merge3_eq_ok {l a b m : State K μ β} (h : merge3 l a b = .ok m) :
    ∃ t, K.merge3 K.init a.shadow b.shadow = .ok t ∧
      m = { shadow := t, deleted := unionIds (unionIds a.deleted l.deleted) b.deleted
            marks := unionMarks (unionMarks a.marks l.marks) b.marks } := by
  rw [merge3] at h
  cases ht : K.merge3 K.init a.shadow b.shadow with
  | error e =>
    rw [ht] at h
    cases h
  | ok t =>
    rw [ht] at h
    cases h
    exact ⟨t, rfl, rfl⟩

theorem Reachable.version (h : Reachable raw U E s) : K.Version raw U E s.shadow := by
  induction h with
  | init => exact .init
  | ins _ hi hs ih =>
    obtain ⟨t, ht, rfl⟩ := apply_ins_eq_ok hs
    exact .apply ih hi ht
  | del _ hs ih =>
    cases hs
    exact ih
  | mark _ hs ih =>
    cases hs
    exact ih
  | merge _ _ _ hm _ iha ihb =>
    obtain ⟨t, ht, rfl⟩ := merge3_eq_ok hm
    exact .merge iha ihb ht

/-- Every mark is filed under its id. -/
def Filed (s : State K μ β) : Prop := ∀ mid m, s.marks.get? mid = some m → m.mid = mid

theorem filed_init : Filed (init : State K μ β) := fun _ _ => nofun

/-- **Operations** file marks under their ids. -/
theorem Filed.apply (h : Filed s) {op : RichOp K.Ins μ β} (hs : apply s op = .ok s') : Filed s' := by
  cases op with
  | ins i =>
    obtain ⟨t, -, rfl⟩ := apply_ins_eq_ok hs
    exact h
  | del id =>
    cases hs
    exact h
  | mark o =>
    cases hs
    intro mid m hm
    rw [SortedMap.get?_insert] at hm
    split_ifs at hm with heq
    · cases hm
      exact heq.symm
    · exact h mid m hm

/-- **Merges** leave marks under their ids. -/
theorem Filed.merge3 {l a b m : State K μ β} (hl : Filed l) (ha : Filed a) (hb : Filed b)
    (hm : merge3 l a b = .ok m) : Filed m := by
  have hunion {p q : SortedMap ℕ (Mark μ β)} (hp : ∀ mid m, p.get? mid = some m → m.mid = mid)
      (hq : ∀ mid m, q.get? mid = some m → m.mid = mid) (mid : ℕ) (m : Mark μ β)
      (hm : (unionMarks p q).get? mid = some m) : m.mid = mid := by
    rw [get?_unionMarks] at hm
    rcases Option.or_eq_some_iff.mp hm with hpm | ⟨-, hqm⟩
    · exact hp mid m hpm
    · exact hq mid m hqm
  obtain ⟨t, -, rfl⟩ := merge3_eq_ok hm
  exact hunion (hunion ha hl) hb

/-- **Marks** are filed under their ids. -/
theorem Reachable.filed (h : Reachable raw U E s) : Filed s := by
  induction h with
  | init => exact filed_init
  | ins _ _ hs ih => exact ih.apply hs
  | del _ hs ih => exact ih.apply hs
  | mark _ hs ih => exact ih.apply hs
  | merge _ _ _ hm ihl iha ihb => exact ihl.merge3 iha ihb hm

end Reachable

/-- **Reachable states list their births**, whichever the kernel. -/
theorem Reachable.lists [DecidableEq α] {k : TextRGA} {U E : Set (k.kernel α).Ins}
    {s : State (k.kernel α) μ β} (hU : Set.InjOn (k.kernel α).insId U)
    (h : Reachable k.insertion U E s) : (k.kernel α).Lists s.shadow := k.lists hU h.version

end SalRuntime.Peritext
