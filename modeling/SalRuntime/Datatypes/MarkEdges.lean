import SalRuntime.Datatypes.MarkBounds

/-!
# Newer text at the edge of a mark

An end of a mark that does not grow should leave out text that is newer than the mark. The resolver
skips such text next to the end, also if the end has been deleted and its neighbour takes its place.
But if there is no neighbour to take its place, since everything on that side has been deleted too,
then the resolver starts at the first live character, or ends at the last one, and skips nothing. What
has been typed at that edge since is then formatted.

## Main definitions

* `Peritext.OuterExcluded` — a mark does not begin or end with newer text where it should not grow.
* `Peritext.LostStart`, `Peritext.LostEnd` — an end has no neighbour on its outer side.
* `Peritext.EdgesKept` — no newer text stands at a lost end.

## Main results

* `Peritext.outerExcluded_iff` — newer text is left out exactly if none stands at a lost end.
* `Peritext.outerExcluded_fails` — a start that is deleted formats what was typed after it.
-/

namespace SalRuntime.Peritext

variable {α β μ : Type}

/-- Where a mark does not grow, it neither begins nor ends with newer text. -/
structure OuterExcluded (m : Mark μ β) (ctx : Ctx α) : Prop where
  /-- The first covered character. -/
  first : m.startSide = .after → ∀ c, (coveredIds m ctx).head? = some c → c ≤ m.ts
  /-- The last covered character. -/
  last : m.endSide = .before → ∀ c, (coveredIds m ctx).getLast? = some c → c ≤ m.ts

/-- The start does not grow, and neither it nor anything born before it is live. -/
def LostStart (m : Mark μ β) (ctx : Ctx α) : Prop :=
  m.startSide = .after ∧ ∀ c ∈ ctx.live, ctx.born m.startId < ctx.born c

/-- The end does not grow, and neither it nor anything born after it is live. -/
def LostEnd (m : Mark μ β) (ctx : Ctx α) : Prop :=
  m.endSide = .before ∧ ∀ c ∈ ctx.live, ctx.born c < ctx.born m.endId

/-- The live character `c` lies on the inner side of the start. Behind a start that does not grow and
is not lost it has to be older than the mark. -/
def FromStart (m : Mark μ β) (ctx : Ctx α) (c : ℕ) : Prop :=
  match m.startSide with
  | .before => ctx.born m.startId ≤ ctx.born c
  | .after => ctx.born m.startId < ctx.born c ∧ (LostStart m ctx ∨ c ≤ m.ts)

/-- The live character `c` lies on the inner side of the end. In front of an end that does not grow and
is not lost it has to be older than the mark. -/
def UpToEnd (m : Mark μ β) (ctx : Ctx α) (c : ℕ) : Prop :=
  match m.endSide with
  | .after => ctx.born c ≤ ctx.born m.endId
  | .before => ctx.born c < ctx.born m.endId ∧ (LostEnd m ctx ∨ c ≤ m.ts)

/-- No newer text stands at a lost end, unless there is nothing up to the other end. -/
structure EdgesKept (m : Mark μ β) (ctx : Ctx α) : Prop where
  /-- The beginning of the live text, if the start is lost. -/
  start : LostStart m ctx → (∃ c ∈ ctx.live, UpToEnd m ctx c) →
    ∀ c, ctx.live.head? = some c → c ≤ m.ts
  /-- The end of the live text, if the end is lost. -/
  stop : LostEnd m ctx → (∃ c ∈ ctx.live, FromStart m ctx c) →
    ∀ c, ctx.live.getLast? = some c → c ≤ m.ts

/-! ### Runs of newer characters -/

section Runs

variable {m : Mark μ β} (cs : List ℕ)

theorem newerRun_le (m : Mark μ β) : newerRun m cs ≤ cs.length :=
  (List.takeWhile_prefix _).length_le

/-- Behind the run there is an older character. -/
theorem le_of_getElem?_newerRun {c : ℕ} (hc : cs[newerRun m cs]? = some c) : c ≤ m.ts := by
  induction cs with
  | nil => cases hc
  | cons x cs ih =>
    rw [newerRun] at hc
    by_cases hx : m.ts < x
    · rw [List.takeWhile_cons_of_pos (by simpa using hx), List.length_cons,
        List.getElem?_cons_succ] at hc
      exact ih hc
    · rw [List.takeWhile_cons_of_neg (by simpa using hx), List.length_nil,
        List.getElem?_cons_zero] at hc
      cases hc
      exact not_lt.mp hx

theorem newerRun_lt_iff (m : Mark μ β) : newerRun m cs < cs.length ↔ ∃ c ∈ cs, c ≤ m.ts := by
  constructor
  · intro hlt
    exact ⟨_, List.getElem_mem hlt, le_of_getElem?_newerRun cs (List.getElem?_eq_getElem hlt)⟩
  · rintro ⟨c, hc, hle⟩
    refine lt_of_le_of_ne (newerRun_le cs m) fun heq => ?_
    obtain ⟨j, hj⟩ := List.mem_iff_getElem?.mp hc
    have hlt := (List.getElem?_eq_some_iff.mp hj).1
    exact absurd (newer_of_lt_run cs (heq ▸ hlt) hj) (not_lt.mpr hle)

end Runs

/-! ### Cuts of the live text -/

namespace Ctx

variable {ctx : Ctx α} {a : ℕ}

theorem upTo_eq_zero_iff : ctx.upTo a = 0 ↔ ∀ c ∈ ctx.live, ctx.born a < ctx.born c := by
  rw [Ctx.upTo, List.length_eq_zero_iff, List.filter_eq_nil_iff]
  simp only [decide_eq_true_eq, not_le]

theorem before_eq_length_iff :
    ctx.before a = ctx.live.length ↔ ∀ c ∈ ctx.live, ctx.born c < ctx.born a := by
  rw [Ctx.before, List.length_filter_eq_length_iff]
  simp only [decide_eq_true_eq]

theorem before_le (ctx : Ctx α) (a : ℕ) : ctx.before a ≤ ctx.live.length :=
  List.length_filter_le _ _

namespace Sound

variable (hs : ctx.Sound) (ha : a ∈ ctx.birth)

include hs ha

theorem mem_drop_upTo_iff {c : ℕ} :
    c ∈ ctx.live.drop (ctx.upTo a) ↔ c ∈ ctx.live ∧ ctx.born a < ctx.born c := by
  constructor
  · intro hc
    obtain ⟨j, hj⟩ := List.mem_iff_getElem?.mp hc
    rw [List.getElem?_drop] at hj
    exact ⟨List.mem_of_getElem? hj,
      not_le.mp fun hle => absurd ((hs.lt_upTo_iff ha hj).mpr hle) (by omega)⟩
  · rintro ⟨hc, hlt⟩
    obtain ⟨j, hj⟩ := List.mem_iff_getElem?.mp hc
    have hge : ctx.upTo a ≤ j := not_lt.mp fun hj' =>
      absurd ((hs.lt_upTo_iff ha hj).mp hj') (not_le.mpr hlt)
    refine List.mem_of_getElem? (i := j - ctx.upTo a) ?_
    rw [List.getElem?_drop, Nat.add_sub_of_le hge]
    exact hj

theorem mem_take_before_iff {c : ℕ} :
    c ∈ ctx.live.take (ctx.before a) ↔ c ∈ ctx.live ∧ ctx.born c < ctx.born a := by
  constructor
  · intro hc
    obtain ⟨j, hj⟩ := List.mem_iff_getElem?.mp hc
    rw [List.getElem?_take] at hj
    split_ifs at hj with hlt
    exact ⟨List.mem_of_getElem? hj, (hs.lt_before_iff ha hj).mp hlt⟩
  · rintro ⟨hc, hlt⟩
    obtain ⟨j, hj⟩ := List.mem_iff_getElem?.mp hc
    refine List.mem_of_getElem? (i := j) ?_
    rw [List.getElem?_take_of_lt ((hs.lt_before_iff ha hj).mpr hlt)]
    exact hj

end Sound

end Ctx

/-! ### The edges of what is covered -/

section Edges

variable {ctx : Ctx α} (hs : ctx.Sound) {m : Mark μ β}

theorem head?_coveredIds {first : ℕ} {last : ℤ} (hfirst : startIndex m ctx = some first)
    (hlast : endIndex m ctx = some last) :
    (coveredIds m ctx).head? = if last < first then none else ctx.live[first]? := by
  rw [coveredIds, hfirst, hlast]
  simp only
  split_ifs with hlt
  · rfl
  · rw [List.head?_drop, List.getElem?_take_of_lt (by omega)]

theorem getLast?_coveredIds {first : ℕ} {last : ℤ} (hfirst : startIndex m ctx = some first)
    (hlast : endIndex m ctx = some last) (hlen : last < ctx.live.length) :
    (coveredIds m ctx).getLast? = if last < first then none else ctx.live[last.toNat]? := by
  rw [coveredIds, hfirst, hlast]
  simp only
  split_ifs with hlt
  · rfl
  · have hlt' : last.toNat < ctx.live.length := by omega
    rw [List.getLast?_drop, if_neg (by rw [List.length_take]; omega), List.getLast?_take,
      if_neg (Nat.succ_ne_zero _), Nat.add_sub_cancel, List.getElem?_eq_getElem hlt']
    rfl

theorem coveredIds_eq_nil_of_none (h : startIndex m ctx = none ∨ endIndex m ctx = none) :
    coveredIds m ctx = [] := by
  rw [coveredIds]
  rcases h with h | h
  · rw [h]
  · rw [h]
    cases startIndex m ctx <;> rfl

include hs

/-- There is text up to the end. -/
theorem endIndex_nonneg_iff (hend : m.endId ∈ ctx.birth) :
    (∃ last, endIndex m ctx = some last ∧ 0 ≤ last) ↔ ∃ c ∈ ctx.live, UpToEnd m ctx c := by
  cases hside : m.endSide with
  | after =>
    simp only [UpToEnd, hside]
    rw [endIndex_after hs hend hside]
    by_cases h : ctx.upTo m.endId = 0
    · rw [if_pos h]
      refine iff_of_false (by simp) ?_
      rintro ⟨c, hc, hle⟩
      exact absurd hle (not_le.mpr (Ctx.upTo_eq_zero_iff.mp h c hc))
    · rw [if_neg h]
      refine iff_of_true ⟨_, rfl, by omega⟩ ?_
      rw [Ctx.upTo_eq_zero_iff] at h
      push Not at h
      exact h
  | before =>
    simp only [UpToEnd, hside, LostEnd, true_and]
    rw [endIndex_before hs hend hside, ← Ctx.before_eq_length_iff]
    by_cases h : ctx.before m.endId = ctx.live.length
    · simp only [h, if_true, true_or, and_true, Option.some.injEq, exists_eq_left']
      rw [Ctx.before_eq_length_iff] at h
      cases hlive : ctx.live with
      | nil => simp
      | cons c cs =>
        refine iff_of_true (by simp) ⟨c, List.mem_cons_self, h c (hlive ▸ List.mem_cons_self)⟩
    · simp only [h, if_false, false_or, Option.some.injEq, exists_eq_left']
      have hlen : (ctx.live.take (ctx.before m.endId)).reverse.length = ctx.before m.endId := by
        rw [List.length_reverse, List.length_take_of_le (ctx.before_le _)]
      have hiff := newerRun_lt_iff (ctx.live.take (ctx.before m.endId)).reverse m
      rw [hlen] at hiff
      simp only [List.mem_reverse, hs.mem_take_before_iff hend, and_assoc] at hiff
      rw [← hiff]
      omega

/-- There is text from the start on. -/
theorem startIndex_lt_iff (hstart : m.startId ∈ ctx.birth) :
    (∃ first, startIndex m ctx = some first ∧ first < ctx.live.length) ↔
      ∃ c ∈ ctx.live, FromStart m ctx c := by
  cases hside : m.startSide with
  | before =>
    simp only [FromStart, hside]
    rw [startIndex_before hs hstart hside]
    by_cases h : ctx.before m.startId = ctx.live.length
    · rw [if_pos h]
      refine iff_of_false (by simp) ?_
      rintro ⟨c, hc, hle⟩
      exact absurd hle (not_le.mpr (Ctx.before_eq_length_iff.mp h c hc))
    · rw [if_neg h]
      refine iff_of_true ⟨_, rfl, lt_of_le_of_ne (ctx.before_le _) h⟩ ?_
      rw [Ctx.before_eq_length_iff] at h
      push Not at h
      exact h
  | after =>
    simp only [FromStart, hside, LostStart, true_and]
    rw [startIndex_after hs hstart hside, ← Ctx.upTo_eq_zero_iff]
    by_cases h : ctx.upTo m.startId = 0
    · simp only [h, if_true, true_or, and_true, Option.some.injEq, exists_eq_left']
      rw [Ctx.upTo_eq_zero_iff] at h
      cases hlive : ctx.live with
      | nil => simp
      | cons c cs =>
        refine iff_of_true (by simp) ⟨c, List.mem_cons_self, h c (hlive ▸ List.mem_cons_self)⟩
    · simp only [h, if_false, false_or, Option.some.injEq, exists_eq_left']
      have hlen : (ctx.live.drop (ctx.upTo m.startId)).length =
          ctx.live.length - ctx.upTo m.startId := List.length_drop
      have hiff := newerRun_lt_iff (ctx.live.drop (ctx.upTo m.startId)) m
      rw [hlen] at hiff
      simp only [hs.mem_drop_upTo_iff hstart, and_assoc] at hiff
      rw [← hiff]
      omega

/-- **The first covered character.** -/
theorem first_le_iff (hstart : m.startId ∈ ctx.birth) (hend : m.endId ∈ ctx.birth) :
    (m.startSide = .after → ∀ c, (coveredIds m ctx).head? = some c → c ≤ m.ts) ↔
      (LostStart m ctx → (∃ c ∈ ctx.live, UpToEnd m ctx c) →
        ∀ c, ctx.live.head? = some c → c ≤ m.ts) := by
  rw [← endIndex_nonneg_iff hs hend, LostStart]
  cases hside : m.startSide with
  | before => simp
  | after =>
    rw [← Ctx.upTo_eq_zero_iff]
    simp only [forall_const, true_and]
    have hfirst := startIndex_after hs hstart hside
    by_cases h : ctx.upTo m.startId = 0
    · rw [if_pos h] at hfirst
      simp only [h, forall_const]
      cases hlast : endIndex m ctx with
      | none => simp [coveredIds_eq_nil_of_none (Or.inr hlast)]
      | some last =>
        rw [head?_coveredIds hfirst hlast]
        by_cases hneg : last < 0
        · rw [if_pos (by omega)]
          refine iff_of_true nofun ?_
          rintro ⟨_, hl, hge⟩
          cases hl
          omega
        · rw [if_neg (by omega), ← List.head?_eq_getElem?]
          exact ⟨fun hc _ => hc, fun hc => hc ⟨last, rfl, not_lt.mp hneg⟩⟩
    · rw [if_neg h] at hfirst
      simp only [h, false_imp_iff, iff_true]
      intro c hc
      cases hlast : endIndex m ctx with
      | none =>
        rw [coveredIds_eq_nil_of_none (Or.inr hlast)] at hc
        cases hc
      | some last =>
        rw [head?_coveredIds hfirst hlast] at hc
        split_ifs at hc
        rw [← List.getElem?_drop] at hc
        exact le_of_getElem?_newerRun _ hc

/-- **The last covered character.** -/
theorem last_le_iff (hstart : m.startId ∈ ctx.birth) (hend : m.endId ∈ ctx.birth) :
    (m.endSide = .before → ∀ c, (coveredIds m ctx).getLast? = some c → c ≤ m.ts) ↔
      (LostEnd m ctx → (∃ c ∈ ctx.live, FromStart m ctx c) →
        ∀ c, ctx.live.getLast? = some c → c ≤ m.ts) := by
  rw [← startIndex_lt_iff hs hstart, LostEnd]
  cases hside : m.endSide with
  | after => simp
  | before =>
    rw [← Ctx.before_eq_length_iff]
    simp only [forall_const, true_and]
    have hlast := endIndex_before hs hend hside
    by_cases h : ctx.before m.endId = ctx.live.length
    · rw [if_pos h] at hlast
      simp only [h, forall_const]
      cases hfirst : startIndex m ctx with
      | none => simp [coveredIds_eq_nil_of_none (Or.inl hfirst)]
      | some first =>
        rw [getLast?_coveredIds hfirst hlast (by omega)]
        by_cases hge : ctx.live.length ≤ first
        · rw [if_pos (by omega)]
          refine iff_of_true nofun ?_
          rintro ⟨_, hf, hlt⟩
          cases hf
          omega
        · rw [if_neg (by omega), List.getLast?_eq_getElem?,
            show ((ctx.live.length : ℤ) - 1).toNat = ctx.live.length - 1 by omega]
          exact ⟨fun hc _ => hc, fun hc => hc ⟨first, rfl, not_le.mp hge⟩⟩
    · rw [if_neg h] at hlast
      simp only [h, false_imp_iff, iff_true]
      intro c hc
      cases hfirst : startIndex m ctx with
      | none =>
        rw [coveredIds_eq_nil_of_none (Or.inl hfirst)] at hc
        cases hc
      | some first =>
        have hle := ctx.before_le m.endId
        rw [getLast?_coveredIds hfirst hlast (by omega)] at hc
        split_ifs at hc with hlt
        -- the text in front of the end, read backwards
        set before := ctx.live.take (ctx.before m.endId) with hbefore
        have hlen : before.length = ctx.before m.endId := List.length_take_of_le hle
        have hidx : ctx.before m.endId - 1 - newerRun m before.reverse =
            ((ctx.before m.endId : ℤ) - 1 - newerRun m before.reverse).toNat := by omega
        refine le_of_getElem?_newerRun before.reverse ?_
        rw [List.getElem?_reverse (by omega), hlen, hidx]
        exact (List.getElem?_take_of_lt (by omega)).trans hc

/-- **Newer text is left out exactly if none stands at a lost end.** -/
theorem Ctx.Sound.excludes_iff (hstart : m.startId ∈ ctx.birth) (hend : m.endId ∈ ctx.birth) :
    OuterExcluded m ctx ↔ EdgesKept m ctx :=
  ⟨fun h => ⟨(first_le_iff hs hstart hend).mp h.first, (last_le_iff hs hstart hend).mp h.last⟩,
    fun h => ⟨(first_le_iff hs hstart hend).mpr h.start, (last_le_iff hs hstart hend).mpr h.stop⟩⟩

end Edges

/-- **What was typed at an edge that does not grow** is left out exactly if it does not stand at a lost
end: in any state over the embedded-chain kernel, and in any reachable state over the other
kernels. -/
theorem outerExcluded_iff [DecidableEq α] :
    (∀ s : State (embedKernel α) μ β,
      ForMarks s fun m ctx => OuterExcluded m ctx ↔ EdgesKept m ctx) ∧
      ∀ (k : TextRGA) (U E : Set (k.kernel α).Ins) (s : State (k.kernel α) μ β),
        Set.InjOn (k.kernel α).insId U → Reachable k.insertion U E s →
          ForMarks s fun m ctx => OuterExcluded m ctx ↔ EdgesKept m ctx :=
  ⟨fun s => .of_lists (lists_embedKernel s.shadow) fun _ hs _ hstart hend =>
      hs.excludes_iff hstart hend,
    fun _ _ _ _ hU h => .of_lists (h.lists hU) fun _ hs _ hstart hend =>
      hs.excludes_iff hstart hend⟩

section LostStart

/-- The letters `ab`, a mark that starts after `a`, an `x` that is typed after `a`, and the deletion of
`a`. -/
def lostStartOps : List (RichOp (Insertion Char) String String) :=
  [.ins ⟨1, 'a', none⟩, .ins ⟨2, 'b', some 1⟩,
    .mark { removed := false, mid := 3, mtype := "link", startId := 1, endId := 2
            startSide := some .after, endSide := some .after },
    .ins ⟨4, 'x', some 1⟩, .del 1]

/-- The mark covers the newer `x` once its start has been deleted. -/
theorem outerExcluded_fails :
    ∃ (s : State (embedKernel Char) String String) (ctx : Ctx Char) (m : Mark String String),
      lostStartOps.foldlM apply init = .ok s ∧ buildCtx s = .ok ctx ∧ s.marks.values = [m] ∧
        (embedKernel Char).has s.shadow m.startId = true ∧
        (embedKernel Char).has s.shadow m.endId = true ∧ coveredIds m ctx = [4, 2] ∧
        ¬ OuterExcluded m ctx := by
  refine ⟨_, _, _, rfl, rfl, rfl, by decide, by decide, rfl, fun h => ?_⟩
  have hle := h.first rfl 4 rfl
  exact absurd hle (by decide)

end LostStart

end SalRuntime.Peritext
