import Mathlib.Data.List.TakeWhile
import SalRuntime.Datatypes.MarkCover

/-!
# Where a mark starts and ends

The ends of a mark are characters, live or deleted, and the resolver turns them into indices of the
live text. A deleted end is replaced by its nearest live neighbour, on the inner side for an end that
grows and on the outer side for one that does not. Either way the live text falls into what is born
before the end and what is born after it, and the index lies at the cut, moved by the run of
characters that are newer than the mark.

## Main definitions

* `Peritext.Ctx.born` — the place of a character in birth order.
* `Peritext.Ctx.Around` — the live characters before and after a character.
* `Peritext.Contained` — a mark stays between its ends.

## Main results

* `Peritext.startIndex_before`, `Peritext.startIndex_after`, `Peritext.endIndex_before`,
  `Peritext.endIndex_after` — the indices.
* `Peritext.marks_contained` — no mark leaks outside its ends.
-/

namespace SalRuntime.Peritext

variable {α β μ : Type}

/-! ### Around a character -/

/-- The place of a character in birth order. -/
def Ctx.born (ctx : Ctx α) (a : ℕ) : ℕ := ctx.birth.idxOf a

/-- The live characters `L` are born before `a`, and `R` after it. -/
structure Ctx.Around (ctx : Ctx α) (a : ℕ) (L R : List ℕ) : Prop where
  /-- The live text. -/
  live : ctx.live = L ++ ((if ctx.isLive a then [a] else []) ++ R)
  /-- What is born before `a`. -/
  left : ∀ c ∈ L, ctx.born c < ctx.born a
  /-- What is born after `a`. -/
  right : ∀ c ∈ R, ctx.born a < ctx.born c
  /-- The nearest live character to the left. -/
  scan_left : ctx.scan a false = L.getLast?
  /-- The nearest live character to the right. -/
  scan_right : ctx.scan a true = R.head?

/-- Every birth cuts the live text. -/
theorem Ctx.Sound.around {ctx : Ctx α} (h : ctx.Sound) {a : ℕ} (ha : a ∈ ctx.birth) :
    ∃ L R, ctx.Around a L R := by
  obtain ⟨pre, post, hbirth⟩ := List.append_of_mem ha
  have hnodup := h.nodup
  rw [hbirth, List.nodup_append, List.nodup_cons] at hnodup
  obtain ⟨-, ⟨hpost, -⟩, hdisj⟩ := hnodup
  have hpre : a ∉ pre := fun hmem => hdisj a hmem a List.mem_cons_self rfl
  have hidx : ctx.birth.idxOf a = pre.length := by
    rw [hbirth, List.idxOf_append_of_notMem hpre, List.idxOf_cons_self, Nat.add_zero]
  have hidx? : ctx.birth.idxOf? a = some pre.length := by
    obtain ⟨i, hi⟩ := Option.isSome_iff_exists.mp (List.isSome_idxOf?.mpr ha)
    rw [← hidx, List.idxOf_eq_getD_idxOf?, hi]
    rfl
  refine ⟨pre.filter fun c => !ctx.deleted.has c, post.filter fun c => !ctx.deleted.has c, ?_, ?_, ?_,
    ?_, ?_⟩
  · rw [h.live, hbirth, List.filter_append, List.filter_cons, Ctx.isLive, (h.hasBirth a).mpr ha,
      Bool.true_and]
    split_ifs <;> rfl
  · intro c hc
    rw [Ctx.born, Ctx.born, hidx, hbirth, List.idxOf_append_of_mem (List.mem_of_mem_filter hc)]
    exact List.idxOf_lt_length_of_mem (List.mem_of_mem_filter hc)
  · intro c hc
    have hmem := List.mem_of_mem_filter hc
    have hne : c ≠ a := fun heq => hpost (heq ▸ hmem)
    have hnot : c ∉ pre := fun hpre => hdisj c hpre c (List.mem_cons_of_mem _ hmem) rfl
    rw [Ctx.born, Ctx.born, hidx, hbirth, List.idxOf_append_of_notMem hnot,
      List.idxOf_cons_ne _ hne.symm]
    omega
  · rw [Ctx.scan, hidx?, List.getLast?_filter, hbirth]
    simp only [Bool.false_eq_true, if_false, List.take_left]
  · rw [Ctx.scan, hidx?, List.head?_filter, hbirth]
    simp only [if_true, List.drop_append, Nat.add_sub_cancel_left, List.drop_one, List.tail_cons,
      List.drop_eq_nil_of_le (Nat.le_succ pre.length), List.nil_append]

/-! ### The indices -/

section Indices

variable {ctx : Ctx α} {a : ℕ} {L R : List ℕ} {m : Mark μ β}

namespace Ctx.Around

theorem idxOf_self (h : ctx.Around a L R) (ha : ctx.isLive a = true) :
    ctx.live.idxOf a = L.length := by
  have hL : a ∉ L := fun hmem => (h.left a hmem).false
  rw [h.live, if_pos ha, List.idxOf_append_of_notMem hL, List.singleton_append, List.idxOf_cons_self,
    Nat.add_zero]

/-- The nearest live character to the right of a deleted one. -/
theorem idxOf_right (h : ctx.Around a L R) (ha : ctx.isLive a = false) {r : ℕ}
    (hr : R.head? = some r) : ctx.live.idxOf r = L.length := by
  obtain ⟨R', rfl⟩ := List.head?_eq_some_iff.mp hr
  have hL : r ∉ L := fun hmem =>
    ((h.left r hmem).trans (h.right r List.mem_cons_self)).false
  rw [h.live, if_neg (by simp [ha]), List.nil_append, List.idxOf_append_of_notMem hL,
    List.idxOf_cons_self, Nat.add_zero]

/-- The nearest live character to the left of a deleted one. -/
theorem idxOf_left (h : ctx.Around a L R) (hs : ctx.Sound) (ha : ctx.isLive a = false) {l : ℕ}
    (hl : L.getLast? = some l) : ctx.live.idxOf l + 1 = L.length := by
  obtain ⟨L', rfl⟩ := List.getLast?_eq_some_iff.mp hl
  have hnodup := hs.nodup_live
  rw [h.live, if_neg (by simp [ha]), List.nil_append] at hnodup ⊢
  have hL' : l ∉ L' := fun hmem => List.disjoint_of_nodup_append
    (List.nodup_append.mp hnodup).1 hmem List.mem_cons_self
  rw [List.append_assoc, List.idxOf_append_of_notMem hL', List.singleton_append, List.idxOf_cons_self,
    List.length_append, List.length_singleton, Nat.add_zero]

theorem drop_self (h : ctx.Around a L R) (ha : ctx.isLive a = true) :
    ctx.live.drop (L.length + 1) = R := by
  rw [h.live, if_pos ha, List.drop_append, List.drop_eq_nil_of_le (Nat.le_succ _), List.nil_append,
    Nat.add_sub_cancel_left]
  rfl

theorem drop_dead (h : ctx.Around a L R) (ha : ctx.isLive a = false) :
    ctx.live.drop L.length = R := by
  rw [h.live, if_neg (by simp [ha]), List.nil_append, List.drop_left]

theorem take_left (h : ctx.Around a L R) : ctx.live.take L.length = L := by
  rw [h.live, List.take_left]

end Ctx.Around

/-- The live characters that are born before `a`. -/
def Ctx.before (ctx : Ctx α) (a : ℕ) : ℕ :=
  (ctx.live.filter fun c => ctx.born c < ctx.born a).length

/-- The live characters that are born before `a`, and `a` if it is live. -/
def Ctx.upTo (ctx : Ctx α) (a : ℕ) : ℕ :=
  (ctx.live.filter fun c => ctx.born c ≤ ctx.born a).length

namespace Ctx.Around

theorem before_eq (h : ctx.Around a L R) : ctx.before a = L.length := by
  have hL : L.filter (fun c => ctx.born c < ctx.born a) = L :=
    List.filter_eq_self.mpr fun c hc => decide_eq_true (h.left c hc)
  have hR : R.filter (fun c => ctx.born c < ctx.born a) = [] :=
    List.filter_eq_nil_iff.mpr fun c hc => by simpa using (h.right c hc).le
  rw [Ctx.before, h.live, List.filter_append, List.filter_append, hL, hR]
  split_ifs
  · simp
  · simp

theorem upTo_eq (h : ctx.Around a L R) :
    ctx.upTo a = L.length + if ctx.isLive a then 1 else 0 := by
  have hL : L.filter (fun c => ctx.born c ≤ ctx.born a) = L :=
    List.filter_eq_self.mpr fun c hc => decide_eq_true (h.left c hc).le
  have hR : R.filter (fun c => ctx.born c ≤ ctx.born a) = [] :=
    List.filter_eq_nil_iff.mpr fun c hc => by simpa using h.right c hc
  rw [Ctx.upTo, h.live, List.filter_append, List.filter_append, hL, hR]
  split_ifs
  · simp
  · simp

theorem length_live (h : ctx.Around a L R) : ctx.live.length = ctx.upTo a + R.length := by
  rw [h.upTo_eq, h.live]
  split_ifs
  · simp
    omega
  · simp

theorem drop_upTo (h : ctx.Around a L R) : ctx.live.drop (ctx.upTo a) = R := by
  rw [h.upTo_eq]
  cases ha : ctx.isLive a with
  | true => exact h.drop_self ha
  | false => exact h.drop_dead ha

theorem take_before (h : ctx.Around a L R) : ctx.live.take (ctx.before a) = L := by
  rw [h.before_eq, h.take_left]

theorem lt_before_iff (h : ctx.Around a L R) {j c : ℕ} (hj : ctx.live[j]? = some c) :
    j < ctx.before a ↔ ctx.born c < ctx.born a := by
  rw [h.before_eq]
  rw [h.live] at hj
  constructor
  · intro hlt
    rw [List.getElem?_append_left hlt] at hj
    exact h.left c (List.mem_of_getElem? hj)
  · intro hborn
    by_contra hge
    rw [List.getElem?_append_right (Nat.le_of_not_lt hge)] at hj
    rcases List.mem_append.mp (List.mem_of_getElem? hj) with hc | hc
    · have hca : c = a := by
        split_ifs at hc
        · exact List.mem_singleton.mp hc
        · cases hc
      exact (hca ▸ hborn).false
    · exact (hborn.trans (h.right c hc)).false

theorem lt_upTo_iff (h : ctx.Around a L R) {j c : ℕ} (hj : ctx.live[j]? = some c) :
    j < ctx.upTo a ↔ ctx.born c ≤ ctx.born a := by
  constructor
  · intro hlt
    have htake : c ∈ ctx.live.take (ctx.upTo a) :=
      List.mem_of_getElem? ((List.getElem?_take_of_lt hlt).trans hj)
    have hsplit : ctx.live.take (ctx.upTo a) = L ++ (if ctx.isLive a then [a] else []) := by
      rw [h.upTo_eq, h.live, ← List.append_assoc]
      refine List.take_left' ?_
      split_ifs
      · simp
      · simp
    rw [hsplit] at htake
    rcases List.mem_append.mp htake with hc | hc
    · exact (h.left c hc).le
    · split_ifs at hc
      · exact (congrArg ctx.born (List.mem_singleton.mp hc)).le
      · cases hc
  · intro hborn
    by_contra hge
    have hR : c ∈ R := by
      rw [← h.drop_upTo]
      refine List.mem_of_getElem? (i := j - ctx.upTo a) ?_
      rw [List.getElem?_drop, Nat.add_sub_of_le (Nat.le_of_not_lt hge)]
      exact hj
    exact absurd hborn (not_le.mpr (h.right c hR))

end Ctx.Around

/-- The number of leading characters that are newer than the mark. -/
def newerRun (m : Mark μ β) (cs : List ℕ) : ℕ := (cs.takeWhile fun c => m.ts < c).length

section Ends

variable (hs : ctx.Sound)

include hs

/-- **A start that grows** lies where the text from the start on begins, if there is any. -/
theorem startIndex_before (ha : m.startId ∈ ctx.birth) (hside : m.startSide = .before) :
    startIndex m ctx =
      if ctx.before m.startId = ctx.live.length then none else some (ctx.before m.startId) := by
  obtain ⟨L, R, h⟩ := hs.around ha
  rw [startIndex, h.length_live, h.upTo_eq, h.before_eq]
  cases hlive : ctx.isLive m.startId with
  | true =>
    have hne : L.length ≠ L.length + 1 + R.length := by omega
    simp [hside, h.idxOf_self hlive, hne]
  | false =>
    rcases hr : R.head? with _ | r
    · have hR : R = [] := List.head?_eq_none_iff.mp hr
      simp [hside, h.scan_right, hR]
    · have hR : R ≠ [] := by
        rintro rfl
        cases hr
      simp [hside, h.scan_right, hr, hR, h.idxOf_right hlive hr]

/-- **A start that does not grow** lies after the newer characters behind it, but nothing is skipped
if no live character is born at the start or before it. -/
theorem startIndex_after (ha : m.startId ∈ ctx.birth) (hside : m.startSide = .after) :
    startIndex m ctx = if ctx.upTo m.startId = 0 then some 0
      else some (ctx.upTo m.startId + newerRun m (ctx.live.drop (ctx.upTo m.startId))) := by
  obtain ⟨L, R, h⟩ := hs.around ha
  rw [startIndex, h.drop_upTo, h.upTo_eq]
  cases hlive : ctx.isLive m.startId with
  | true => simp [hside, h.idxOf_self hlive, h.drop_self hlive, newerRun]
  | false =>
    rcases hl : L.getLast? with _ | l
    · have hL : L = [] := List.getLast?_eq_none_iff.mp hl
      simp [hside, h.scan_left, hL]
    · have hL : L ≠ [] := by
        rintro rfl
        cases hl
      simp [hside, h.scan_left, hl, hL, h.idxOf_left hs hlive hl, h.drop_dead hlive, newerRun]

/-- **An end that grows** lies after the newer characters behind it, if there is any text up to the
end. -/
theorem endIndex_after (ha : m.endId ∈ ctx.birth) (hside : m.endSide = .after) :
    endIndex m ctx = if ctx.upTo m.endId = 0 then none
      else some ((ctx.upTo m.endId : ℤ) - 1 + newerRun m (ctx.live.drop (ctx.upTo m.endId))) := by
  obtain ⟨L, R, h⟩ := hs.around ha
  rw [endIndex, h.drop_upTo, h.upTo_eq]
  cases hlive : ctx.isLive m.endId with
  | true => simp [hside, h.idxOf_self hlive, h.drop_self hlive, newerRun]
  | false =>
    rcases hl : L.getLast? with _ | l
    · have hL : L = [] := List.getLast?_eq_none_iff.mp hl
      simp [hside, h.scan_left, hL]
    · have hL : L ≠ [] := by
        rintro rfl
        cases hl
      have hidx := h.idxOf_left hs hlive hl
      have hcast : (ctx.live.idxOf l : ℤ) = (L.length : ℤ) - 1 := by omega
      simp [hside, h.scan_left, hl, hL, hidx, hcast, h.drop_dead hlive, newerRun]

/-- **An end that does not grow** lies before the newer characters in front of it, but nothing is
skipped if all live characters are born before the end. -/
theorem endIndex_before (ha : m.endId ∈ ctx.birth) (hside : m.endSide = .before) :
    endIndex m ctx =
      if ctx.before m.endId = ctx.live.length then some ((ctx.live.length : ℤ) - 1)
      else some ((ctx.before m.endId : ℤ) - 1 -
        newerRun m (ctx.live.take (ctx.before m.endId)).reverse) := by
  obtain ⟨L, R, h⟩ := hs.around ha
  rw [endIndex, h.take_before, h.length_live, h.upTo_eq, h.before_eq]
  cases hlive : ctx.isLive m.endId with
  | true =>
    have hne : L.length ≠ L.length + 1 + R.length := by omega
    simp [hside, h.idxOf_self hlive, h.take_left, newerRun, hne]
  | false =>
    rcases hr : R.head? with _ | r
    · have hR : R = [] := List.head?_eq_none_iff.mp hr
      simp [hside, h.scan_right, hR]
    · have hR : R ≠ [] := by
        rintro rfl
        cases hr
      simp [hside, h.scan_right, hr, hR, h.idxOf_right hlive hr, h.take_left, newerRun]

theorem Ctx.Sound.lt_before_iff (ha : a ∈ ctx.birth) {j c : ℕ} (hj : ctx.live[j]? = some c) :
    j < ctx.before a ↔ ctx.born c < ctx.born a := by
  obtain ⟨L, R, h⟩ := hs.around ha
  exact h.lt_before_iff hj

theorem Ctx.Sound.lt_upTo_iff (ha : a ∈ ctx.birth) {j c : ℕ} (hj : ctx.live[j]? = some c) :
    j < ctx.upTo a ↔ ctx.born c ≤ ctx.born a := by
  obtain ⟨L, R, h⟩ := hs.around ha
  exact h.lt_upTo_iff hj

end Ends

end Indices

/-! ### What is covered -/

section Covered

variable {ctx : Ctx α} {m : Mark μ β}

/-- The covered characters lie between the two indices. -/
theorem mem_coveredIds_iff {first : ℕ} {last : ℤ} (hfirst : startIndex m ctx = some first)
    (hlast : endIndex m ctx = some last) {c : ℕ} :
    c ∈ coveredIds m ctx ↔ ∃ j : ℕ, ctx.live[j]? = some c ∧ first ≤ j ∧ (j : ℤ) ≤ last := by
  rw [coveredIds, hfirst, hlast]
  simp only
  split_ifs with hlt
  · refine iff_of_false List.not_mem_nil ?_
    rintro ⟨j, -, hj, hj'⟩
    omega
  · rw [List.mem_iff_getElem?]
    constructor
    · rintro ⟨k, hk⟩
      rw [List.getElem?_drop, List.getElem?_take] at hk
      split_ifs at hk with hlt'
      exact ⟨first + k, hk, by omega, by omega⟩
    · rintro ⟨j, hj, hge, hle⟩
      refine ⟨j - first, ?_⟩
      rw [List.getElem?_drop, Nat.add_sub_of_le hge, List.getElem?_take_of_lt (by omega)]
      exact hj

/-- What is covered has both indices. -/
theorem exists_indices {c : ℕ} (hc : c ∈ coveredIds m ctx) :
    ∃ first last, startIndex m ctx = some first ∧ endIndex m ctx = some last := by
  rw [coveredIds] at hc
  cases hfirst : startIndex m ctx with
  | none => simp [hfirst] at hc
  | some first =>
    cases hlast : endIndex m ctx with
    | none => simp [hfirst, hlast] at hc
    | some last => exact ⟨first, last, rfl, rfl⟩

/-- The characters of a run are newer than the mark. -/
theorem newer_of_lt_run (cs : List ℕ) {j c : ℕ} (hj : j < newerRun m cs) (hc : cs[j]? = some c) :
    m.ts < c := by
  rw [← List.takeWhile_append_dropWhile (p := fun c => m.ts < c) (l := cs),
    List.getElem?_append_left hj] at hc
  simpa using List.mem_takeWhile_imp (List.mem_of_getElem? hc)

end Covered

/-- A mark stays between its ends. -/
structure Contained (m : Mark μ β) (ctx : Ctx α) : Prop where
  /-- The covered characters are a run of the live text. -/
  run : coveredIds m ctx <:+: ctx.live
  /-- They are born at or after the start. -/
  start_le : ∀ c ∈ coveredIds m ctx, ctx.born m.startId ≤ ctx.born c
  /-- They are born after a start that does not grow. -/
  start_lt : m.startSide = .after → ∀ c ∈ coveredIds m ctx, ctx.born m.startId < ctx.born c
  /-- They are born before an end that does not grow. -/
  lt_end : m.endSide = .before → ∀ c ∈ coveredIds m ctx, ctx.born c < ctx.born m.endId
  /-- Beyond an end that grows they are newer than the mark. -/
  newer : m.endSide = .after → ∀ c ∈ coveredIds m ctx, ctx.born m.endId < ctx.born c → m.ts < c
  /-- Between ends that grow everything is covered. -/
  full : m.startSide = .before → m.endSide = .after → ∀ c ∈ ctx.live,
    ctx.born m.startId ≤ ctx.born c → ctx.born c ≤ ctx.born m.endId → c ∈ coveredIds m ctx

/-- From a start that does not grow everything is born after the start. -/
theorem Ctx.Sound.start_lt {ctx : Ctx α} (hs : ctx.Sound) {m : Mark μ β}
    (hstart : m.startId ∈ ctx.birth) (hside : m.startSide = .after) {first j c : ℕ}
    (hfirst : startIndex m ctx = some first) (hj : ctx.live[j]? = some c) (hge : first ≤ j) :
    ctx.born m.startId < ctx.born c := by
  by_contra hle
  have hupTo := (hs.lt_upTo_iff hstart hj).mpr (not_lt.mp hle)
  rw [startIndex_after hs hstart hside] at hfirst
  split_ifs at hfirst
  · omega
  · cases hfirst
    omega

/-- **Marks stay between their ends.** -/
theorem Ctx.Sound.contained {ctx : Ctx α} (hs : ctx.Sound) {m : Mark μ β}
    (hstart : m.startId ∈ ctx.birth) (hend : m.endId ∈ ctx.birth) : Contained m ctx where
  run := by
    rw [coveredIds]
    split
    · split_ifs
      · exact List.nil_infix
      · exact (List.drop_suffix _ _).isInfix.trans (List.take_prefix _ _).isInfix
    · exact List.nil_infix
  start_le c hc := by
    obtain ⟨first, last, hfirst, hlast⟩ := exists_indices hc
    obtain ⟨j, hj, hge, -⟩ := (mem_coveredIds_iff hfirst hlast).mp hc
    cases hside : m.startSide with
    | before =>
      rw [startIndex_before hs hstart hside] at hfirst
      split_ifs at hfirst
      cases hfirst
      exact not_lt.mp fun hlt => absurd ((hs.lt_before_iff hstart hj).mpr hlt) (by omega)
    | after => exact (hs.start_lt hstart hside hfirst hj hge).le
  start_lt hside c hc := by
    obtain ⟨first, last, hfirst, hlast⟩ := exists_indices hc
    obtain ⟨j, hj, hge, -⟩ := (mem_coveredIds_iff hfirst hlast).mp hc
    exact hs.start_lt hstart hside hfirst hj hge
  lt_end hside c hc := by
    obtain ⟨first, last, hfirst, hlast⟩ := exists_indices hc
    obtain ⟨j, hj, -, hle⟩ := (mem_coveredIds_iff hfirst hlast).mp hc
    refine (hs.lt_before_iff hend hj).mp ?_
    rw [endIndex_before hs hend hside] at hlast
    split_ifs at hlast
    · cases hlast
      omega
    · cases hlast
      omega
  newer hside c hc hborn := by
    obtain ⟨first, last, hfirst, hlast⟩ := exists_indices hc
    obtain ⟨j, hj, -, hle⟩ := (mem_coveredIds_iff hfirst hlast).mp hc
    have hge : ctx.upTo m.endId ≤ j := by
      by_contra hlt
      exact absurd ((hs.lt_upTo_iff hend hj).mp (not_le.mp hlt)) (not_le.mpr hborn)
    rw [endIndex_after hs hend hside] at hlast
    split_ifs at hlast
    cases hlast
    refine newer_of_lt_run (ctx.live.drop (ctx.upTo m.endId)) (j := j - ctx.upTo m.endId)
      (by omega) ?_
    rw [List.getElem?_drop, Nat.add_sub_of_le hge]
    exact hj
  full hstartSide hendSide c hc hge hle := by
    obtain ⟨j, hj⟩ := List.mem_iff_getElem?.mp hc
    have hlen := (List.getElem?_eq_some_iff.mp hj).1
    have hbefore : ctx.before m.startId ≤ j := by
      by_contra hlt
      exact absurd ((hs.lt_before_iff hstart hj).mp (not_le.mp hlt)) (not_lt.mpr hge)
    have hupTo : j < ctx.upTo m.endId := (hs.lt_upTo_iff hend hj).mpr hle
    have hfirst := startIndex_before hs hstart hstartSide
    rw [if_neg (by omega)] at hfirst
    have hlast := endIndex_after hs hend hendSide
    rw [if_neg (by omega)] at hlast
    exact (mem_coveredIds_iff hfirst hlast).mpr ⟨j, hj, hbefore, by omega⟩

/-! ### All states -/

/-- Every mark whose ends have births has the property `p` in the state. -/
def ForMarks {K : TextKernel α} (s : State K μ β) (p : Mark μ β → Ctx α → Prop) : Prop :=
  ∃ ctx, buildCtx s = .ok ctx ∧ ∀ m : Mark μ β, K.has s.shadow m.startId = true →
    K.has s.shadow m.endId = true → p m ctx

theorem ForMarks.of_lists {K : TextKernel α} {s : State K μ β} (h : K.Lists s.shadow)
    {p : Mark μ β → Ctx α → Prop}
    (hp : ∀ ctx : Ctx α, ctx.Sound → ∀ m : Mark μ β, m.startId ∈ ctx.birth → m.endId ∈ ctx.birth →
      p m ctx) : ForMarks s p := by
  obtain ⟨ctx, hctx, hsound, hhas, -⟩ := buildCtx_of_lists h
  refine ⟨ctx, hctx, fun m hstart hend => hp ctx hsound m ?_ ?_⟩
  · rwa [← hsound.hasBirth, hhas]
  · rwa [← hsound.hasBirth, hhas]

/-- **No mark leaks outside its ends**, in any state over the embedded-chain kernel, and in any
reachable state over the other kernels. -/
theorem marks_contained [DecidableEq α] :
    (∀ s : State (embedKernel α) μ β, ForMarks s Contained) ∧
      ∀ (k : TextRGA) (U E : Set (k.kernel α).Ins) (s : State (k.kernel α) μ β),
        Set.InjOn (k.kernel α).insId U → Reachable k.insertion U E s → ForMarks s Contained :=
  ⟨fun s => .of_lists (lists_embedKernel s.shadow) fun _ hs _ hstart hend =>
      hs.contained hstart hend,
    fun _ _ _ _ hU h => .of_lists (h.lists hU) fun _ hs _ hstart hend => hs.contained hstart hend⟩

end SalRuntime.Peritext
