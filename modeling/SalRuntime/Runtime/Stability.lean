import Mathlib.Data.Fin.VecNotation
import SalRuntime.Datatypes.EmbedRGA
import SalRuntime.Foundations.Authorship
import SalRuntime.Foundations.Effect
import SalRuntime.Runtime.Spec

/-!
# Certificates of stability in the shared-store runtime

In a run of commits, synchronizations and compactions over one store, with distinct names, the heads only
move up and every operation is made on top of its author's head. So the certified cut of a replica is
settled: every replica has its operations, and every operation that the certifying head has not absorbed,
also one made later, is made on top of the whole cut.

## Main definitions

* `Runtime.Grows`, `Runtime.Extends` — what calls, and one call, do to the history.
* `Runtime.MadeBy`, `Runtime.Signed` — the authors of the operations.

## Main results

* `Runtime.Sound.extends_call` — every call that returns extends the history, unless it collects it.
* `Runtime.stableCut_settled` — a complete cut is settled.
-/

namespace SalRuntime.Runtime

variable {D : Datatype} {N : ℕ} {rt rt' rt'' : Runtime D N}

/-! ### What calls do to the history -/

/-- The runtime `rt'` has grown from `rt`: heads have moved up, and every new operation is above the old
head of its author. -/
structure Grows (rt rt' : Runtime D N) : Prop where
  /-- Commits are kept. -/
  has : ∀ {x}, rt.dag.has x = true → rt'.dag.has x = true
  /-- The ancestry of a commit does not change. -/
  reaches : ∀ {x y}, rt.dag.has x = true → (rt'.dag.Reaches x y ↔ rt.dag.Reaches x y)
  /-- Heads move up. -/
  up : ∀ k, rt'.dag.Reaches (rt'.headId k) (rt.headId k)
  /-- Names do not change. -/
  name : ∀ k, (rt'.replicas k).name = (rt.replicas k).name
  /-- Operations are kept. -/
  kept : ∀ {x op}, rt.dag.opOf x = some op → rt'.dag.opOf x = some op
  /-- A new operation is above the old head of its author. -/
  above : ∀ {x op}, rt'.dag.opOf x = some op → rt.dag.opOf x = some op ∨
    ∃ k, op.replica = (rt.replicas k).name ∧ rt'.dag.Reaches x (rt.headId k)

/-- The runtime `rt'` has grown from `rt` by one call: a new operation is the new head of its author,
under its next sequence number. -/
structure Extends (rt rt' : Runtime D N) : Prop extends Grows rt rt' where
  /-- Sequence numbers do not decrease. -/
  seq : ∀ k, (rt.replicas k).seq ≤ (rt'.replicas k).seq
  /-- A new operation is the head of its author. -/
  made : ∀ {x op}, rt'.dag.opOf x = some op → rt.dag.opOf x = some op ∨
    ∃ k, x = rt'.headId k ∧ op.replica = (rt.replicas k).name ∧ op.seq = (rt.replicas k).seq ∧
      op.seq < (rt'.replicas k).seq

theorem Grows.refl (rt : Runtime D N) : rt.Grows rt :=
  ⟨id, fun _ => Iff.rfl, fun _ => .refl, fun _ => rfl, id, Or.inl⟩

theorem Grows.trans (h : rt.Grows rt') (h' : rt'.Grows rt'') (hsound' : rt'.Sound) :
    rt.Grows rt'' where
  has hx := h'.has (h.has hx)
  reaches hx := (h'.reaches (h.has hx)).trans (h.reaches hx)
  up k := (h'.up k).trans ((h'.reaches (hsound'.has_head k)).mpr (h.up k))
  name k := (h'.name k).trans (h.name k)
  kept hx := h'.kept (h.kept hx)
  above {x op} hx := by
    rcases h'.above hx with hx' | ⟨k, hk, hr⟩
    · obtain ⟨c, hc, -⟩ := Dag.opOf_eq_some_iff.mp hx'
      rcases h.above hx' with hx' | ⟨k, hk, hr⟩
      · exact Or.inl hx'
      · exact Or.inr ⟨k, hk, (h'.reaches (Dag.has_iff.mpr ⟨c, hc⟩)).mpr hr⟩
    · exact Or.inr ⟨k, hk.trans (h.name k), hr.trans ((h'.reaches (hsound'.has_head k)).mpr (h.up k))⟩

/-- A call extends the history if its new operations are new heads above the old ones. -/
theorem Extends.of_made (hhas : ∀ {x}, rt.dag.has x = true → rt'.dag.has x = true)
    (hreaches : ∀ {x y}, rt.dag.has x = true → (rt'.dag.Reaches x y ↔ rt.dag.Reaches x y))
    (hup : ∀ k, rt'.dag.Reaches (rt'.headId k) (rt.headId k))
    (hname : ∀ k, (rt'.replicas k).name = (rt.replicas k).name)
    (hseq : ∀ k, (rt.replicas k).seq ≤ (rt'.replicas k).seq)
    (hkept : ∀ {x op}, rt.dag.opOf x = some op → rt'.dag.opOf x = some op)
    (hmade : ∀ {x op}, rt'.dag.opOf x = some op → rt.dag.opOf x = some op ∨
      ∃ k, x = rt'.headId k ∧ op.replica = (rt.replicas k).name ∧ op.seq = (rt.replicas k).seq ∧
        op.seq < (rt'.replicas k).seq) : rt.Extends rt' where
  has := hhas
  reaches := hreaches
  up := hup
  name := hname
  kept := hkept
  above hx := by
    rcases hmade hx with hx | ⟨k, rfl, hk, -⟩
    · exact Or.inl hx
    · exact Or.inr ⟨k, hk, hup k⟩
  seq := hseq
  made := hmade

theorem Extends.refl (rt : Runtime D N) : rt.Extends rt :=
  .of_made id (fun _ => Iff.rfl) (fun _ => .refl) (fun _ => rfl) (fun _ => le_rfl) id Or.inl

/-- Moving a head up. -/
theorem Extends.moveHead {i : Fin N} {head : Commit D.State D.Op} (fr : Frontier)
    (hr : rt.dag.Reaches head.id (rt.headId i)) : rt.Extends (rt.moveHead i head fr) := by
  refine .of_made id (fun _ => Iff.rfl) (fun k => ?_) (name_moveHead i head fr)
    (fun k => (seq_moveHead i head fr k).ge) id Or.inl
  rw [headId, head_moveHead]
  split_ifs with hk
  · exact hk ▸ hr
  · exact .refl

section Push

variable {parents : List ℕ} {op : Option (Op D.Op)} {state : D.State}

theorem opOf_push (x : ℕ) : (rt.dag.push parents op state).opOf x =
    if x = rt.dag.nextId then op else rt.dag.opOf x := by
  rw [Dag.opOf, Dag.get?_push]
  split_ifs <;> rfl

theorem has_push_of_has {x : ℕ} (hx : rt.dag.has x = true) :
    (rt.dag.push parents op state).has x = true := by
  rw [Dag.has_push, hx, Bool.or_true]

variable (hd : rt.dag.Wf)

include hd

/-- The operations of the old commits are kept. -/
theorem opOf_push_of_opOf {x : ℕ} {o : Op D.Op} (hx : rt.dag.opOf x = some o) :
    (rt.dag.push parents op state).opOf x = some o := by
  obtain ⟨c, hc, -⟩ := Dag.opOf_eq_some_iff.mp hx
  rw [opOf_push, if_neg (hd.id_lt x c hc).ne, hx]

theorem reaches_push_iff {x y : ℕ} (hx : rt.dag.has x = true) :
    (rt.dag.push parents op state).Reaches x y ↔ rt.dag.Reaches x y :=
  hd.reaches_push_of_ne (hd.lt_of_has hx).ne

end Push

/-- The runtime after a compaction. -/
def recoded (rt : Runtime D N) (i : Fin N) (state : D.State) (translate : D.Translate)
    (fr : Frontier) : Runtime D N :=
  let rt' : Runtime D N := { rt with
    dag := rt.dag.push [rt.headId i] none state
    epochs := rt.epochs ++ [translate]
    epochOf := rt.epochOf.insert rt.dag.nextId (rt.epochAt (rt.headId i) + 1) }
  rt'.moveHead i { id := rt.dag.nextId, parents := [rt.headId i], op := none, state } fr

namespace Sound

variable (h : rt.Sound)

include h

theorem extends_committed (i : Fin N) (op : D.Op) (state : D.State) (fr : Frontier) :
    rt.Extends (rt.committed i op state fr) := by
  have hpar : ∀ p ∈ [rt.headId i], rt.dag.has p = true := by simpa using h.has_head i
  have hhead (k : Fin N) : (rt.committed i op state fr).headId k =
      if k = i then rt.dag.nextId else rt.headId k := by
    rw [headId, Runtime.committed]
    simp only [Function.update_apply]
    split_ifs <;> rfl
  refine .of_made has_push_of_has (reaches_push_iff h.wf) (fun k => ?_) (fun k => ?_)
    (fun k => ?_) (opOf_push_of_opOf h.wf) fun {x o} hx => ?_
  · rw [hhead]
    split_ifs with hk
    · subst hk
      exact (h.wf.reaches_push_self hpar).mpr (Or.inr ⟨_, List.mem_singleton_self _, .refl⟩)
    · exact .refl
  · rw [Runtime.committed]
    simp only [Function.update_apply]
    split_ifs with hk
    · rw [hk]
    · rfl
  · rw [Runtime.committed]
    simp only [Function.update_apply]
    split_ifs with hk
    · rw [hk]
      exact Nat.le_succ _
    · exact le_rfl
  · have hx' : (rt.dag.push [rt.headId i] (some ⟨(rt.replicas i).name, (rt.replicas i).seq, op⟩)
        state).opOf x = some o := hx
    rw [opOf_push] at hx'
    split_ifs at hx' with heq
    · obtain rfl := Option.some.inj hx'
      refine Or.inr ⟨i, by rw [hhead, if_pos rfl, heq], rfl, rfl, ?_⟩
      rw [Runtime.committed]
      simp only [Function.update_self]
      exact Nat.lt_succ_self _
    · exact Or.inl hx'

theorem extends_merged (i j : Fin N) (state : D.State) (epoch : ℕ) (fr : Frontier) :
    rt.Extends (rt.merged i j state epoch fr) := by
  have hpar : ∀ p ∈ [rt.headId i, rt.headId j], rt.dag.has p = true := by
    simpa using ⟨h.has_head i, h.has_head j⟩
  refine .of_made has_push_of_has (reaches_push_iff h.wf) (fun k => ?_) (fun k => ?_)
    (fun k => ?_) (opOf_push_of_opOf h.wf) fun {x o} hx => ?_
  · rw [headId, Runtime.merged, head_moveHead, head_moveHead]
    split_ifs with hj hi
    · subst hj
      exact (h.wf.reaches_push_self hpar).mpr (Or.inr ⟨_, by simp, .refl⟩)
    · subst hi
      exact (h.wf.reaches_push_self hpar).mpr (Or.inr ⟨_, by simp, .refl⟩)
    · exact .refl
  · rw [Runtime.merged, name_moveHead, name_moveHead]
  · rw [Runtime.merged, seq_moveHead, seq_moveHead]
  · have hx' : (rt.dag.push [rt.headId i, rt.headId j] none state).opOf x = some o := hx
    rw [opOf_push] at hx'
    split_ifs at hx'
    exact Or.inl hx'

theorem extends_recoded (i : Fin N) (state : D.State) (translate : D.Translate) (fr : Frontier) :
    rt.Extends (rt.recoded i state translate fr) := by
  have hpar : ∀ p ∈ [rt.headId i], rt.dag.has p = true := by simpa using h.has_head i
  refine .of_made has_push_of_has (reaches_push_iff h.wf) (fun k => ?_) (fun k => ?_)
    (fun k => ?_) (opOf_push_of_opOf h.wf) fun {x o} hx => ?_
  · rw [headId, recoded, head_moveHead]
    split_ifs with hi
    · subst hi
      exact (h.wf.reaches_push_self hpar).mpr (Or.inr ⟨_, by simp, .refl⟩)
    · exact .refl
  · rw [recoded, name_moveHead]
  · rw [recoded, seq_moveHead]
  · have hx' : (rt.dag.push [rt.headId i] none state).opOf x = some o := hx
    rw [opOf_push] at hx'
    split_ifs at hx'
    exact Or.inl hx'

theorem recoded (i : Fin N) (state : D.State) (translate : D.Translate) (fr : Frontier) :
    (rt.recoded i state translate fr).Sound := by
  have hpar : ∀ p ∈ [rt.headId i], rt.dag.has p = true := by simpa using h.has_head i
  refine ⟨h.wf.push hpar, fun k => ?_⟩
  rw [headId, Runtime.recoded, head_moveHead]
  split_ifs
  · exact ⟨_, Dag.get?_push_self .., rfl⟩
  · obtain ⟨c, hc, hstate⟩ := h.head k
    exact ⟨c, (h.wf.get?_push_of_has (h.has_head k)).trans hc, hstate⟩

/-! ### Every call -/

omit h in
/-- Setting the head to a known commit moves the head. -/
theorem eq_moveHead_of_setHead {i : Fin N} {head : Commit D.State D.Op}
    (hhead : rt.dag.has head.id = true) (hrt' : rt.setHead i head = .ok rt') :
    ∃ fr, rt' = rt.moveHead i head fr := by
  obtain ⟨fr, hfr⟩ := setHead_eq hhead
  exact ⟨fr, Except.ok.inj (hrt'.symm.trans hfr)⟩

/-- What a compaction returns, if it returns. -/
theorem yields_compact (i : Fin N) (cut : D.Cut) (opts : CompactOpts) : Yields
    (fun res => ∃ state translate fr, res.1 = rt.recoded i state translate fr)
    (rt.compact i cut opts) := by
  have hpar : ∀ p ∈ [rt.headId i], rt.dag.has p = true := by simpa using h.has_head i
  rw [compact]
  split
  · dsimp only
    split_ifs
    · exact .error _
    refine .bind fun result _ => .bind fun added hadded => ?_
    rw [show (rt.replicas i).head.id = rt.headId i from rfl, Dag.add_eq_ok hpar] at hadded
    cases hadded
    refine .bind fun rt' hrt' => .ok ?_
    obtain ⟨fr, rfl⟩ := eq_moveHead_of_setHead (by simp [Dag.has_push]) hrt'
    exact ⟨result.state, result.translate, fr, rfl⟩
  · exact .error _

/-- **A compaction** at the certified cut re-codes the head, or does nothing. -/
theorem yields_compactStable (i : Fin N) (opts : CompactOpts) : Yields
    (fun res => res.1 = rt ∨ ∃ state translate fr, res.1 = rt.recoded i state translate fr)
    (rt.compactStable i opts) := by
  rw [compactStable]
  split_ifs
  · exact .ok (Or.inl rfl)
  refine .bind fun cut _ => ?_
  split_ifs
  · exact .ok (Or.inl rfl)
  dsimp only
  split_ifs
  · exact .ok (Or.inl rfl)
  refine .bind fun res hres => .ok (Or.inr ?_)
  exact h.yields_compact i _ opts res hres

/-- **Every call that returns** extends the history, unless it collects it. -/
theorem extends_call {act : Act D.Op N} (hact : act ≠ .gc) (hcall : rt.call act = .ok rt') :
    rt'.Sound ∧ rt.Extends rt' := by
  have hmerged (i j : Fin N) : Yields (fun rt' => rt'.Sound ∧ rt.Extends rt') (rt.sync i j) := by
    by_cases hij : rt.headId i = rt.headId j
    · rw [sync_of_eq hij]
      exact .ok ⟨h, .refl rt⟩
    by_cases hl : rt.dag.Reaches (rt.headId j) (rt.headId i)
    · obtain ⟨fr, hsync⟩ := sync_of_reaches_left h hij hl
      rw [hsync]
      exact .ok ⟨h.moveHead i j fr, .moveHead fr hl⟩
    by_cases hr : rt.dag.Reaches (rt.headId i) (rt.headId j)
    · obtain ⟨fr, hsync⟩ := sync_of_reaches_right h hij hr
      rw [hsync]
      exact .ok ⟨h.moveHead j i fr, .moveHead fr hr⟩
    obtain ⟨fr, hsync⟩ := sync_of_mergeOver h hij hl hr
    rw [hsync]
    exact .bind fun l _ => .bind fun m _ => .ok ⟨h.merged .., h.extends_merged ..⟩
  have hyields : Yields (fun rt' => rt'.Sound ∧ rt.Extends rt') (rt.call act) := by
    cases act with
    | commit i payload =>
      obtain ⟨fr, hcommit⟩ := commit_eq h i payload
      rw [call, hcommit]
      exact .bind fun op _ => .bind fun state _ => .ok ⟨h.committed .., h.extends_committed ..⟩
    | sync i j => exact hmerged i j
    | gc => exact absurd rfl hact
    | compactStable i =>
      refine .bind fun res hres => .ok ?_
      rcases h.yields_compactStable i {} res hres with heq | ⟨state, translate, fr, heq⟩
      · rw [heq]
        exact ⟨h, .refl rt⟩
      · rw [heq]
        exact ⟨h.recoded .., h.extends_recoded ..⟩
  exact hyields rt' hcall

end Sound

/-! ### Authors -/

/-- The commit `x` is the operation number `n` of replica `k`. -/
def MadeBy (rt : Runtime D N) (x : ℕ) (k : Fin N) (n : ℕ) : Prop :=
  ∃ op, rt.dag.opOf x = some op ∧ op.replica = (rt.replicas k).name ∧ op.seq = n

/-- The operations of the store are those of the replicas, on top of their heads. -/
structure Signed (rt : Runtime D N) : Prop where
  /-- The store holds the heads. -/
  sound : rt.Sound
  /-- Names are distinct. -/
  names : Function.Injective fun k => (rt.replicas k).name
  /-- Operations have authors. -/
  author : ∀ x op, rt.dag.opOf x = some op → ∃ k, op.replica = (rt.replicas k).name
  /-- An author's operations are a chain below its head. -/
  authorship : Authorship rt.dag.Par rt.MadeBy rt.headId fun k => (rt.replicas k).seq

theorem Signed.start {names : Fin N → String} (hnames : Function.Injective names) :
    (start D names).Signed := by
  have hnone (x : ℕ) : (Runtime.start D names).dag.opOf x = none := by
    rw [Dag.opOf, get?_start]
    split_ifs <;> rfl
  refine ⟨.start names, hnames, fun x op hx => ?_, ⟨?_, ?_⟩⟩
  · simp [hnone] at hx
  · rintro x k n ⟨op, hop, -⟩
    simp [hnone] at hop
  · rintro x x' k n n' ⟨op, hop, -⟩
    simp [hnone] at hop

theorem Signed.step (h : rt.Signed) {act : Act D.Op N} (hact : act ≠ .gc) :
    (rt.step act).Signed ∧ rt.Grows (rt.step act) := by
  rw [Runtime.step]
  cases hcall : rt.call act with
  | error e => exact ⟨h, .refl rt⟩
  | ok rt' =>
    obtain ⟨hsound, hext⟩ := h.sound.extends_call hact hcall
    refine ⟨⟨hsound, ?_, fun x op hx => ?_, ?_⟩, hext.toGrows⟩
    · simp only [hext.name]
      exact h.names
    · rcases hext.above hx with hx | ⟨k, hk, -⟩
      · obtain ⟨k, hk⟩ := h.author x op hx
        exact ⟨k, hk.trans (hext.name k).symm⟩
      · exact ⟨k, hk.trans (hext.name k).symm⟩
    · refine h.authorship.step (fun {x y} hr => ?_) hext.up hext.seq fun {x k n} hx => ?_
      · rcases Relation.ReflTransGen.cases_head hr with rfl | ⟨z, hz, -⟩
        · exact .refl
        · exact (hext.reaches (Dag.has_of_par_left hz)).mpr hr
      · obtain ⟨op, hop, hk, hn⟩ := hx
        rw [hext.name] at hk
        rcases hext.made hop with hop | ⟨k', hx', hk', hseq, hlt⟩
        · exact Or.inl ⟨op, hop, hk, hn⟩
        · obtain rfl := h.names (hk.symm.trans hk')
          exact Or.inr ⟨hx', hn.symm.trans hseq, hn ▸ hlt⟩

theorem Signed.run (h : rt.Signed) {acts : List (Act D.Op N)} (hgc : Act.gc ∉ acts) :
    (rt.run acts).Signed ∧ rt.Grows (rt.run acts) := by
  induction acts generalizing rt with
  | nil => exact ⟨h, .refl rt⟩
  | cons act acts ih =>
    rw [List.mem_cons, not_or] at hgc
    obtain ⟨h', hgrows⟩ := h.step (Ne.symm hgc.1)
    obtain ⟨h'', hgrows'⟩ := ih h' hgc.2
    exact ⟨h'', hgrows.trans hgrows' h'.sound⟩

/-- **A complete cut is settled.** In a run without collections, every replica has the operations of the
cut from then on, and every operation that the certifying head has not absorbed, also one made later, is
made on top of the whole cut. -/
theorem stableCut_settled {names : Fin N → String} (hnames : Function.Injective names)
    (before after : List (Act D.Op N)) (hgc : Act.gc ∉ before ++ after) (i : Fin N) :
    ∃ cut, (run (start D names) before).stableCut i = .ok cut ∧ (cut.complete = true →
      ∀ key op, cut.meet.get? key = some op → op.key = key ∧
        ∃ x, (run (start D names) before).dag.opOf x = some op ∧
          (∀ k, (run (start D names) (before ++ after)).dag.Reaches
            ((run (start D names) (before ++ after)).headId k) x) ∧
          ∀ y op', (run (start D names) (before ++ after)).dag.opOf y = some op' →
            (run (start D names) before).dag.Reaches ((run (start D names) before).headId i) y ∨
            (run (start D names) (before ++ after)).dag.Reaches y x) := by
  rw [List.mem_append, not_or] at hgc
  have hrun : run (start D names) (before ++ after) = run (run (start D names) before) after :=
    List.foldl_append
  rw [hrun]
  obtain ⟨h, -⟩ := (Signed.start (D := D) hnames).run hgc.1
  set rt := run (start D names) before
  obtain ⟨h', hgrows⟩ := h.run hgc.2
  obtain ⟨cut, hcut, hcertified⟩ := Dag.stableCut_spec (h.sound.has_head i) rt.registeredNames
    (rt.replicas i).name
  refine ⟨cut, hcut, fun hcomplete key op hmeet => ?_⟩
  obtain ⟨hheard, hbelow⟩ := hcertified hcomplete
  obtain ⟨hkey, x, hx, hop⟩ := hbelow key op hmeet
  have hrank := h.sound.wf.par_lt
  obtain ⟨kx, hkx⟩ := h.author x op hop
  -- What another replica had absorbed is found under the same key.
  have hsettled := h.authorship.settled (S := Set.univ) hx fun k _ hk => by
    have hmem : (rt.replicas k).name ∈ rt.registeredNames := List.mem_ofFn.mpr ⟨k, rfl⟩
    obtain ⟨e, ope, he, hope, hreplica, -, hseen⟩ := hheard _ hmem fun heq => hk (h.names heq)
    obtain ⟨z, opz, hz, hopz, hkeyz⟩ := hseen key (SortedMap.has_iff.mpr ⟨op, hmeet⟩)
    have hkeys : op.key = opz.key := hkey.trans hkeyz.symm
    injection hkeys with hreplica' hseq
    have heq : x = z := h.authorship.eq_of_made hrank ⟨op, hop, hkx, rfl⟩
      ⟨opz, hopz, hreplica' ▸ hkx, hseq.symm⟩
    exact ⟨e, ope.seq, ⟨ope, hope, hreplica, rfl⟩, he, heq ▸ hz⟩
  have hhas {y : ℕ} {o : Op D.Op} (hy : rt.dag.opOf y = some o) : rt.dag.has y = true := by
    obtain ⟨c, hc, -⟩ := Dag.opOf_eq_some_iff.mp hy
    exact Dag.has_iff.mpr ⟨c, hc⟩
  have hhead (k : Fin N) : (rt.run after).dag.Reaches (rt.headId k) x :=
    (hgrows.reaches (h.sound.has_head k)).mpr (hsettled.1 k (Set.mem_univ k))
  refine ⟨hkey, x, hop, fun k => (hgrows.up k).trans (hhead k), fun y o hy => ?_⟩
  rcases hgrows.above hy with hy | ⟨k, -, hr⟩
  · obtain ⟨k, hk⟩ := h.author y o hy
    refine (hsettled.2 k (Set.mem_univ k) y o.seq ⟨o, hy, hk, rfl⟩).imp_right fun hr => ?_
    exact (hgrows.reaches (hhas hy)).mpr hr
  · exact Or.inr (hr.trans (hhead k))

/-- Two replicas type a character each and exchange them, and the first one types another. -/
theorem stableCut_settled_typed : ∃ cut,
    (run (start (embedRGA Char) ![ "a", "b"]) [.commit 0 (.ins 1 'h' none), .sync 0 1,
      .commit 1 (.ins 2 'i' (some 1)), .sync 1 0]).stableCut 0 = .ok cut ∧
    (cut.complete = true → ∀ key op, cut.meet.get? key = some op → op.key = key) := by
  have hnames : Function.Injective ![ "a", "b"] := by decide
  obtain ⟨cut, hcut, hsettled⟩ := stableCut_settled (D := embedRGA Char) hnames
    [.commit 0 (.ins 1 'h' none), .sync 0 1, .commit 1 (.ins 2 'i' (some 1)), .sync 1 0]
    [.commit 0 (.ins 3 '!' (some 2))] (by simp) 0
  exact ⟨cut, hcut, fun hcomplete key op hmeet => (hsettled hcomplete key op hmeet).1⟩

end SalRuntime.Runtime
