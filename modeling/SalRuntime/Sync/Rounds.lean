import SalRuntime.Sync.Exchange

/-!
# Rounds between peers

A round exchanges what either peer lacks and joins the two heads. It is refused when the heads have
several maximal common ancestors, and never throws. If it is not refused, both peers end with the same
head, which stands for everything that either of them had seen.

## Main definitions

* `ContentHash.Joinable` — two content ids can be joined.
* `PeerNetwork.Standing` — the states of all peers stand for the operations their heads have seen.
* `PeerNetwork.Honest`, `PeerNetwork.HonestRun` — operations are applicable and create fresh ids.
* `PeerNetwork.EachCall`, `PeerNetwork.Unrefused` — what the calls of a run return.

## Main results

* `PeerNetwork.Standing.commit`, `PeerNetwork.Standing.sync` — what the calls do.
* `PeerNetwork.standing_run` — honest runs.
-/

namespace SalRuntime

variable {D : Datatype} {γ κ ι : Type} [LinearOrder γ]

/-! ### Joins of content ids -/

namespace ContentHash

variable (H : ContentHash D.Op D.Print γ)

/-- One content id subsumes the other, or the two have only one maximal common ancestor. -/
def Joinable (x y : γ) : Prop := H.Reaches x y ∨ H.Reaches y x ∨ ∃ l, OnlyMca H.Par x y l

variable {H}

theorem pastOf_joinId (x y : γ) : H.pastOf (H.joinId x y) = H.pastOf x ∪ H.pastOf y := by
  rw [joinId]
  split_ifs with hxy hyx
  · exact (Set.union_eq_self_of_subset_right (past_subset_of_reaches hxy)).symm
  · exact (Set.union_eq_self_of_subset_left (past_subset_of_reaches hyx)).symm
  · exact H.pastOf_mergeId x y

omit [LinearOrder γ] in
theorem Joinable.symm {x y : γ} (h : H.Joinable x y) : H.Joinable y x := by
  rcases h with h | h | ⟨l, hl⟩
  · exact Or.inr (Or.inl h)
  · exact Or.inl h
  · exact Or.inr (Or.inr ⟨l, hl.symm⟩)

end ContentHash

variable {H : ContentHash D.Op D.Print γ} {M : D.replicated.Meaning κ ι} {c : κ} {K : Set γ}

/-- The join of two known content ids becomes known. -/
theorem KnownIds.insert_join (h : KnownIds H M c K) {x y : γ} (hx : x ∈ K) (hy : y ∈ K)
    (hjoin : H.Joinable x y) : KnownIds H M c (insert (H.joinId x y) K) := by
  rw [ContentHash.joinId]
  split_ifs with hxy hyx
  · rwa [Set.insert_eq_of_mem hx]
  · rwa [Set.insert_eq_of_mem hy]
  · obtain ⟨l, hl⟩ := (hjoin.resolve_left hxy).resolve_left hyx
    exact h.insert_merge hx hy hl

namespace Peer

variable {p : Peer D γ}

/-- **Joining the head** with a held commit. -/
theorem Stands.exec_mergeWithGid (h : Stands H M c K p) {x y : γ} (hx : p.headGid = some x)
    (hy : y ∈ p.held) (hjoin : H.Joinable x y) (hK : KnownIds H M c (insert (H.joinId x y) K))
    (hnew : ¬ H.Reaches x y → ¬ H.Reaches y x → mergeId H x y ∉ p.held) :
    ∃ p', Effect.exec (mergeWithGid H (some y)) p = (.ok (some (H.joinId x y)), p') ∧
      Stands H M c (insert (H.joinId x y) K) p' ∧ p'.held = insert (H.joinId x y) p.held ∧
      p'.headGid = some (H.joinId x y) ∧ p'.name = p.name ∧ p'.seq = p.seq := by
  have hmono : Stands H M c (insert (H.joinId x y) K) p :=
    ⟨h.indexed, h.known.trans (Set.subset_insert _ _), h.rep⟩
  have hxheld : x ∈ p.held := ⟨_, hx⟩
  by_cases hxy : H.Reaches x y
  · rw [ContentHash.joinId_of_reaches hxy] at hmono ⊢
    exact ⟨p, h.exec_mergeWithGid_of_reaches hx hy hxy, hmono,
      (Set.insert_eq_of_mem hxheld).symm, hx, rfl, rfl⟩
  by_cases hyx : H.Reaches y x
  · have heq : H.joinId x y = y := by rw [ContentHash.joinId, if_neg hxy, if_pos hyx]
    rw [heq] at hmono ⊢
    obtain ⟨p', hexec, hstands, hheld, hrest⟩ := hmono.exec_mergeWithGid_of_reached hx hy hyx
      fun heq => hxy (heq ▸ .refl)
    exact ⟨p', hexec, hstands, hheld.trans (Set.insert_eq_of_mem hy).symm, hrest⟩
  · have heq : H.joinId x y = mergeId H x y := by rw [ContentHash.joinId, if_neg hxy, if_neg hyx]
    rw [heq] at hmono hK ⊢
    obtain ⟨l, hl⟩ := (hjoin.resolve_left hxy).resolve_left hyx
    exact hmono.exec_mergeWithGid_of_onlyMca hx hy hxy hyx hK hl (Set.mem_insert _ _)
      (hnew hxy hyx)

/-- A peer is whole exactly when its head reaches all content ids that it holds. -/
theorem Indexed.whole_iff (h : Indexed H p) {x : γ} (hx : p.headGid = some x) :
    p.Whole ↔ ∀ g ∈ p.held, H.Reaches x g := by
  constructor
  · exact fun hwhole g hg => h.reaches_of_held hwhole hx hg
  · intro hall y hy
    obtain ⟨g, hg⟩ := h.exists_gid hy
    exact (h.labelled.reaches_iff hx hg).mpr (hall g ⟨y, hg⟩)

/-- A merge of the head of a whole peer with another commit is not held. -/
theorem Indexed.mergeId_not_mem_held (h : Indexed H p) (hwhole : p.Whole) {x y : γ}
    (hx : p.headGid = some x) (hxy : ¬ H.Reaches x y) : mergeId H x y ∉ p.held := by
  intro hheld
  have hback : H.Reaches x (mergeId H x y) := h.reaches_of_held hwhole hx hheld
  exact hxy (hback.tail (H.par_mergeId_iff.mpr (Or.inr rfl)))

end Peer

/-! ### Networks -/

namespace PeerNetwork

variable {N : ℕ} {w : PeerNetwork D γ N}

theorem exec_on {α : Type} (i : Fin N) (call : Peer.Call D γ α) (w : PeerNetwork D γ N) :
    Effect.exec (on i call) w =
      ((Effect.exec call (w i)).1, Function.update w i (Effect.exec call (w i)).2) := by
  rw [on, Effect.exec_bind_ok (Effect.exec_get w)]
  dsimp only
  rw [Effect.exec_bind_ok (Effect.exec_set _ w), Effect.exec_lift]

/-- What holds of two new peers and of all old peers but these. -/
theorem forall_update_pair {P : Fin N → Peer D γ → Prop} {i j : Fin N} {a b : Peer D γ} (hi : P i a)
    (hj : P j b) (hk : ∀ k, k ≠ i → k ≠ j → P k (w k)) (k : Fin N) :
    P k (Function.update (Function.update w j b) i a k) := by
  by_cases hki : k = i
  · subst hki
    rwa [Function.update_self]
  · rw [Function.update_of_ne hki]
    by_cases hkj : k = j
    · subst hkj
      rwa [Function.update_self]
    · rw [Function.update_of_ne hkj]
      exact hk k hki hkj

/-- The states of all peers stand for the operations that their heads have seen, and nothing else is
held. -/
structure Standing (H : ContentHash D.Op D.Print γ) (M : D.replicated.Meaning κ ι) (c : κ) (K : Set γ)
    (w : PeerNetwork D γ N) : Prop where
  /-- What the peers hold is known. -/
  known : KnownIds H M c K
  /-- The states stand for the operations in the ancestry of their commits. -/
  stands : ∀ i, (w i).Stands H M c K
  /-- Everything that is held is in the ancestry of the head. -/
  whole : ∀ i, (w i).Whole
  /-- Every operation has been seen by some head. -/
  seen : ∀ o ∈ carried H.made K, ∃ i, o ∈ (w i).events

/-- The operations of an honest run: an operation is applicable to what its author has seen, and creates
ids that no peer has seen; a round is between two peers. -/
def Honest (M : D.replicated.Meaning κ ι) (w : PeerNetwork D γ N) : Act D.Op N → Prop
  | .commit i op => M.Applicable (w i).events op ∧
      ∀ k, ∀ o ∈ (w k).events, ∀ a ∈ M.creates op, a ∉ M.creates o
  | .sync i j => i ≠ j

/-- Every call is honest. -/
def HonestRun (H : ContentHash D.Op D.Print γ) (M : D.replicated.Meaning κ ι) :
    PeerNetwork D γ N → List (Act D.Op N) → Prop
  | _, [] => True
  | w, act :: acts => Honest M w act ∧ HonestRun H M (step H w act) acts

/-- The result of every call has the property `P`. -/
def EachCall (H : ContentHash D.Op D.Print γ) (P : Except Failure Bool → Prop) :
    PeerNetwork D γ N → List (Act D.Op N) → Prop
  | _, [] => True
  | w, act :: acts => P ((call H act).exec w).1 ∧ EachCall H P (step H w act) acts

/-- No round is refused. -/
abbrev Unrefused (H : ContentHash D.Op D.Print γ) : PeerNetwork D γ N → List (Act D.Op N) → Prop :=
  EachCall H (· ≠ .ok false)

theorem honestRun_append {acts acts' : List (Act D.Op N)} :
    HonestRun H M w (acts ++ acts') ↔
      HonestRun H M w acts ∧ HonestRun H M (PeerNetwork.run H w acts) acts' := by
  induction acts generalizing w with
  | nil => exact (true_and _).symm.to_iff
  | cons act acts ih =>
    rw [List.cons_append, HonestRun, HonestRun, ih, and_assoc]
    rfl

theorem eachCall_append {P : Except Failure Bool → Prop} {acts acts' : List (Act D.Op N)} :
    EachCall H P w (acts ++ acts') ↔
      EachCall H P w acts ∧ EachCall H P (PeerNetwork.run H w acts) acts' := by
  induction acts generalizing w with
  | nil => exact (true_and _).symm.to_iff
  | cons act acts ih =>
    rw [List.cons_append, EachCall, EachCall, ih, and_assoc]
    rfl

theorem EachCall.mono {P Q : Except Failure Bool → Prop} (hPQ : ∀ r, P r → Q r)
    {acts : List (Act D.Op N)} (h : EachCall H P w acts) : EachCall H Q w acts := by
  induction acts generalizing w with
  | nil => trivial
  | cons act acts ih => exact ⟨hPQ _ h.1, ih h.2⟩

theorem EachCall.unrefused {acts : List (Act D.Op N)} (h : EachCall H (· = .ok true) w acts) :
    Unrefused H w acts := h.mono fun r hr => by
  rw [hr]
  simp

/-- New peers have seen nothing. -/
theorem events_start (names : Fin N → String) (i : Fin N) :
    (PeerNetwork.start D H names i).events = ∅ := by
  have hgid : (PeerNetwork.start D H names i).headGid = some (H.digest .root) :=
    SortedMap.get?_insert_self ..
  have hindexed : (PeerNetwork.start D H names i).Indexed H := Peer.Indexed.create (names i)
  rw [hindexed.events_eq hgid, ContentHash.pastOf_root]

/-- The state of the head. -/
theorem Standing.exists_head (h : Standing H M c K w) (i : Fin N) : ∃ cm,
    (w i).dag.get (w i).headId = .ok cm ∧ M.Rep c (w i).events cm.state := by
  obtain ⟨g, hg⟩ := (h.stands i).indexed.exists_headGid
  obtain ⟨cm, hcm, hrep⟩ := (h.stands i).exists_commit hg
  exact ⟨cm, Dag.get_eq_ok.mpr hcm, (h.stands i).indexed.events_eq hg ▸ hrep⟩

/-- New peers. -/
theorem Standing.start (names : Fin N → String) : ∃ c,
    Standing H M c {H.digest .root} (PeerNetwork.start D H names) := by
  obtain ⟨c, hc⟩ := KnownIds.start (H := H) (M := M)
  refine ⟨c, hc, fun i => ⟨Peer.Indexed.create _, ?_, ?_⟩, fun i x hx => ?_, ?_⟩
  · rintro g ⟨x, hx⟩
    rw [PeerNetwork.start, Peer.get?_gid_create] at hx
    split_ifs at hx
    exact (Option.some.inj hx).symm
  · intro x cm g hcm hg
    rw [PeerNetwork.start, Peer.get?_create] at hcm
    rw [PeerNetwork.start, Peer.get?_gid_create] at hg
    split_ifs at hcm hg
    cases hcm
    cases hg
    rw [ContentHash.pastOf_root]
    exact M.init
  · obtain ⟨cm, hcm⟩ := Dag.has_iff.mp hx
    rw [PeerNetwork.start, Peer.get?_create] at hcm
    split_ifs at hcm with hzero
    exact hzero ▸ .refl
  · rintro o ⟨g, rfl, ho⟩
    rw [ContentHash.made_root] at ho
    exact ho.elim

/-- **A commit** of an honest run returns, and its author has seen the operation. -/
theorem Standing.commit (h : Standing H M c K w) {i : Fin N} {op : D.Op}
    (hhonest : Honest M w (.commit i op)) : ∃ c' pg w', (w i).headGid = some pg ∧
      Effect.exec (call H (.commit i op)) w = (.ok true, w') ∧
      Standing H M c' (insert (H.opGid pg (w i).name (w i).seq op) K) w' ∧
      (w' i).events = insert op (w i).events ∧
      (w' i).headGid = some (H.opGid pg (w i).name (w i).seq op) ∧
      (w' i).name = (w i).name ∧ (w' i).seq = (w i).seq + 1 ∧ ∀ k, k ≠ i → w' k = w k := by
  obtain ⟨happ, hfresh⟩ := hhonest
  obtain ⟨pg, hpg⟩ := (h.stands i).indexed.exists_headGid
  have hpgheld : pg ∈ (w i).held := ⟨_, hpg⟩
  rw [(h.stands i).indexed.events_eq hpg] at happ
  set g := H.opGid pg (w i).name (w i).seq op with hg
  -- The new commit is above the head, so it is not held yet.
  have hpar : H.Par g pg := (H.par_digest_iff).mpr (by simp [Preimage.parents])
  have hnew : g ∉ (w i).held := by
    intro hheld
    have hreach := (h.stands i).indexed.reaches_of_held (h.whole i) hpg hheld
    have heq := (h.stands i).indexed.reaches_antisymm hpgheld hreach (.single hpar)
    obtain ⟨x, hx⟩ := hheld
    obtain ⟨q, hq, hq'⟩ := (h.stands i).indexed.labelled.back hx hpar
    have hlt := (h.stands i).indexed.wf.par_lt x q hq
    rw [(h.stands i).indexed.gid_injective hq' (heq ▸ hx)] at hlt
    exact lt_irrefl _ hlt
  obtain ⟨c', hknown, hkeep⟩ := h.known.insert_op ((h.stands i).known hpgheld) (w i).name (w i).seq
    happ fun a ha o ho => by
      obtain ⟨k, hk⟩ := h.seen o ho
      exact hfresh k o hk a ha
  have hmono (k : Fin N) : (w k).Stands H M c' (insert g K) :=
    (h.stands k).mono h.known (Set.subset_insert _ _) hkeep
  obtain ⟨p', hexec, hstands, hheld, hhead, hname, hseq⟩ := (hmono i).exec_commit hknown hpg
    (Set.mem_insert _ _) hnew
  have hevents : p'.events = insert op (w i).events := by
    rw [hstands.indexed.events_eq hhead, ContentHash.pastOf_opGid,
      (h.stands i).indexed.events_eq hpg]
  refine ⟨c', pg, Function.update w i p', hpg, ?_, ⟨hknown, fun k => ?_, fun k => ?_, ?_⟩, ?_, ?_, ?_,
    ?_, fun k hk => Function.update_of_ne hk _ _⟩
  · rw [call, Effect.exec_bind, exec_on, hexec]
    rfl
  · by_cases hk : k = i
    · subst hk
      rwa [Function.update_self]
    · rw [Function.update_of_ne hk]
      exact hmono k
  · by_cases hk : k = i
    · subst hk
      rw [Function.update_self, hstands.indexed.whole_iff hhead, hheld]
      rintro a (rfl | ha)
      · exact .refl
      · exact .head hpar ((h.stands k).indexed.reaches_of_held (h.whole k) hpg ha)
    · rw [Function.update_of_ne hk]
      exact h.whole k
  · rw [KnownIds.carried_insert, H.made_authored]
    rintro o (rfl | ho)
    · exact ⟨i, by rw [Function.update_self, hevents]; exact Set.mem_insert _ _⟩
    · obtain ⟨k, hk⟩ := h.seen o ho
      refine ⟨k, ?_⟩
      by_cases hki : k = i
      · subst hki
        rw [Function.update_self, hevents]
        exact Or.inr hk
      · rwa [Function.update_of_ne hki]
  · rw [Function.update_self, hevents]
  · rw [Function.update_self, hhead]
  · rw [Function.update_self, hname]
  · rw [Function.update_self, hseq]

/-! ### Rounds -/

section Sync

variable {i j : Fin N} (hij : i ≠ j)

/-- What is left of a round after both peers have ingested: the two peers, and the two merges. -/
structure Exchanged (H : ContentHash D.Op D.Print γ) (M : D.replicated.Meaning κ ι) (c : κ)
    (K : Set γ) (w : PeerNetwork D γ N) (i j : Fin N) (a b : Peer D γ) : Prop where
  /-- The first peer stands. -/
  left : a.Stands H M c K
  /-- The second peer stands. -/
  right : b.Stands H M c K
  /-- The first peer has received what the second held. -/
  grownLeft : Peer.Grown (w j).held (w i) a
  /-- The second peer has received what the first held. -/
  grownRight : Peer.Grown (w i).held (w j) b
  /-- The calls that are left. -/
  exec : ∃ toBCount toACount, Effect.exec (syncPeers H i j) w = Effect.exec (do
    let merged ← mergeHeads H i j (w i).headGid (w j).headGid
    return { toBCount, toACount, merged }) (Function.update (Function.update w j b) i a)

include hij

/-- **The exchange** of deltas never throws. -/
theorem Standing.exchange (h : Standing H M c K w) : ∃ a b, Exchanged H M c K w i j a b := by
  obtain ⟨hasA, hhasA, hmemA⟩ := (h.stands i).indexed.exec_ancestryGids (h.whole i)
  obtain ⟨hasB, hhasB, hmemB⟩ := (h.stands j).indexed.exec_ancestryGids (h.whole j)
  obtain ⟨toB, nB, b, htoB, hingestB, hb, hgrownB⟩ := (h.stands j).exec_ingest h.known
    (h.stands i).indexed (h.whole i) (h.stands i).known hmemB
  obtain ⟨toA, nA, a, htoA, hingestA, ha, hgrownA⟩ := (h.stands i).exec_ingest h.known
    (h.stands j).indexed (h.whole j) (h.stands j).known hmemA
  refine ⟨a, b, ha, hb, hgrownA, hgrownB, toB.length, toA.length, ?_⟩
  have hj : Effect.exec (on j (Peer.ingest H (overWire toB))) w =
      (.ok nB, Function.update w j b) := by rw [exec_on, hingestB]
  have hi : Effect.exec (on i (Peer.ingest H (overWire toA))) (Function.update w j b) =
      (.ok nA, Function.update (Function.update w j b) i a) := by
    rw [exec_on, Function.update_of_ne hij, hingestA]
  rw [syncPeers, Effect.exec_bind_ok (Effect.exec_get w)]
  simp only [Effect.exec_bind, Effect.exec_lift, hhasA, hhasB, htoB, htoA, hj, hi]

/-- **A round whose heads can be joined**: both peers end with the join. -/
theorem Standing.sync (h : Standing H M c K w) {x y : γ} (hx : (w i).headGid = some x)
    (hy : (w j).headGid = some y) (hjoin : H.Joinable x y) : ∃ outcome w',
    Effect.exec (syncPeers H i j) w = (.ok outcome, w') ∧ outcome.merged = true ∧
      Standing H M c (insert (H.joinId x y) K) w' ∧ (w' i).headGid = some (H.joinId x y) ∧
      (w' j).headGid = some (H.joinId x y) ∧ (∀ k, k ≠ i → k ≠ j → w' k = w k) ∧
      ∀ k, (w' k).name = (w k).name ∧ (w' k).seq = (w k).seq := by
  obtain ⟨a, b, ex⟩ := h.exchange hij
  obtain ⟨toBCount, toACount, hexec⟩ := ex.exec
  have hxi : x ∈ (w i).held := ⟨_, hx⟩
  have hyj : y ∈ (w j).held := ⟨_, hy⟩
  have hknown := h.known.insert_join ((h.stands i).known hxi) ((h.stands j).known hyj) hjoin
  have hcomm : H.joinId y x = H.joinId x y :=
    ContentHash.joinId_comm fun hyx hxy => (h.stands j).indexed.reaches_antisymm hyj hyx hxy
  have hmergeA : ¬ H.Reaches x y → ¬ H.Reaches y x → mergeId H x y ∉ a.held := by
    intro hxy hyx hheld
    rw [ex.grownLeft.held] at hheld
    rcases hheld with hheld | hheld
    · exact (h.stands i).indexed.mergeId_not_mem_held (h.whole i) hx hxy hheld
    · rw [ContentHash.mergeId_comm] at hheld
      exact (h.stands j).indexed.mergeId_not_mem_held (h.whole j) hy hyx hheld
  have hmergeB : ¬ H.Reaches y x → ¬ H.Reaches x y → mergeId H y x ∉ b.held := by
    intro hyx hxy hheld
    rw [ex.grownRight.held] at hheld
    rcases hheld with hheld | hheld
    · exact (h.stands j).indexed.mergeId_not_mem_held (h.whole j) hy hyx hheld
    · rw [ContentHash.mergeId_comm] at hheld
      exact (h.stands i).indexed.mergeId_not_mem_held (h.whole i) hx hxy hheld
  obtain ⟨a', hexecA, ha', hheldA, hheadA, hnameA, hseqA⟩ := ex.left.exec_mergeWithGid
    (ex.grownLeft.headGid hx) (by rw [ex.grownLeft.held]; exact Or.inr hyj) hjoin hknown hmergeA
  obtain ⟨b', hexecB, hb', hheldB, hheadB, hnameB, hseqB⟩ := ex.right.exec_mergeWithGid
    (ex.grownRight.headGid hy) (by rw [ex.grownRight.held]; exact Or.inr hxi) hjoin.symm
    (hcomm ▸ hknown) hmergeB
  rw [hcomm] at hexecB hb' hheldB hheadB
  set w' := Function.update (Function.update w j b') i a' with hw'
  have hwi : w' i = a' := Function.update_self ..
  have hwj : w' j = b' := by rw [hw', Function.update_of_ne hij.symm, Function.update_self]
  have hwk (k : Fin N) (hki : k ≠ i) (hkj : k ≠ j) : w' k = w k := by
    rw [hw', Function.update_of_ne hki, Function.update_of_ne hkj]
  have hreach := ContentHash.reaches_joinId (H := H) x y
  -- The join reaches everything that either peer held.
  have hall : ∀ g ∈ (w i).held ∪ (w j).held, H.Reaches (H.joinId x y) g := by
    rintro g (hg | hg)
    · exact hreach.1.trans ((h.stands i).indexed.reaches_of_held (h.whole i) hx hg)
    · exact hreach.2.trans ((h.stands j).indexed.reaches_of_held (h.whole j) hy hg)
  have hwhole {p' : Peer D γ} (hp : p'.Stands H M c (insert (H.joinId x y) K))
      (hhead : p'.headGid = some (H.joinId x y))
      (hheld : p'.held ⊆ insert (H.joinId x y) ((w i).held ∪ (w j).held)) : p'.Whole := by
    rw [hp.indexed.whole_iff hhead]
    intro g hg
    rcases hheld hg with rfl | hg
    · exact .refl
    · exact hall g hg
  have hevents {p' : Peer D γ} (hp : p'.Stands H M c (insert (H.joinId x y) K))
      (hhead : p'.headGid = some (H.joinId x y)) : p'.events = (w i).events ∪ (w j).events := by
    rw [hp.indexed.events_eq hhead, ContentHash.pastOf_joinId, (h.stands i).indexed.events_eq hx,
      (h.stands j).indexed.events_eq hy]
  refine ⟨⟨toBCount, toACount, true⟩, w', ?_, rfl, ⟨hknown, fun k => ?_, fun k => ?_, ?_⟩,
    hwi ▸ hheadA, hwj ▸ hheadB, hwk, fun k => ?_⟩
  · have hupdate : Function.update (Function.update (Function.update w j b) i a) j b' =
        Function.update (Function.update w j b') i a := by
      rw [Function.update_comm hij a b' (Function.update w j b), Function.update_idem]
    have hmerge : Effect.exec (mergeHeads H i j (w i).headGid (w j).headGid)
        (Function.update (Function.update w j b) i a) = (.ok true, w') := by
      rw [mergeHeads, Effect.exec_tryCatch, Effect.exec_bind, exec_on,
        Function.update_of_ne hij.symm, Function.update_self, hx, hexecB]
      dsimp only
      rw [hupdate, Effect.exec_bind, exec_on, Function.update_self, hy, hexecA]
      dsimp only
      rw [Function.update_idem]
      rfl
    rw [hexec, Effect.exec_bind_ok hmerge]
    rfl
  · exact forall_update_pair (P := fun _ p => p.Stands H M c (insert (H.joinId x y) K)) ha' hb'
      (fun k _ _ => ⟨(h.stands k).indexed, (h.stands k).known.trans (Set.subset_insert _ _),
        (h.stands k).rep⟩) k
  · refine forall_update_pair (P := fun _ p => p.Whole) ?_ ?_ (fun k _ _ => h.whole k) k
    · exact hwhole ha' hheadA (by rw [hheldA, ex.grownLeft.held])
    · exact hwhole hb' hheadB (by rw [hheldB, ex.grownRight.held, Set.union_comm])
  · intro o ho
    have hmade : H.made (H.joinId x y) ⊆ (w i).events ∪ (w j).events := by
      rw [← hevents ha' hheadA, ha'.indexed.events_eq hheadA]
      exact ops_subset_past _
    rw [KnownIds.carried_insert] at ho
    have hsome : ∃ k, o ∈ (w k).events := by
      rcases ho with ho | ho
      · rcases hmade ho with ho | ho
        · exact ⟨i, ho⟩
        · exact ⟨j, ho⟩
      · exact h.seen o ho
    obtain ⟨k, hk⟩ := hsome
    by_cases hki : k = i
    · exact ⟨i, by rw [hwi, hevents ha' hheadA]; exact Or.inl (hki ▸ hk)⟩
    · by_cases hkj : k = j
      · exact ⟨i, by rw [hwi, hevents ha' hheadA]; exact Or.inr (hkj ▸ hk)⟩
      · exact ⟨k, by rwa [hwk k hki hkj]⟩
  · exact forall_update_pair (P := fun k p => p.name = (w k).name ∧ p.seq = (w k).seq)
      ⟨hnameA.trans ex.grownLeft.name, hseqA.trans ex.grownLeft.seq⟩
      ⟨hnameB.trans ex.grownRight.name, hseqB.trans ex.grownRight.seq⟩ (fun _ _ _ => ⟨rfl, rfl⟩) k

/-- **A round whose heads cannot be joined** reports a criss-cross, and moves no head. -/
theorem Standing.sync_refused (h : Standing H M c K w) {x y : γ} (hx : (w i).headGid = some x)
    (hy : (w j).headGid = some y) (hjoin : ¬ H.Joinable x y) : ∃ outcome w',
    Effect.exec (syncPeers H i j) w = (.ok outcome, w') ∧ outcome.merged = false ∧
      (∀ k, (w' k).Stands H M c K ∧ (w' k).headGid = (w k).headGid) ∧
      ∀ k, k ≠ i → k ≠ j → w' k = w k := by
  obtain ⟨a, b, ex⟩ := h.exchange hij
  obtain ⟨toBCount, toACount, hexec⟩ := ex.exec
  have hxb : x ∈ b.held := by
    rw [ex.grownRight.held]
    exact Or.inr ⟨_, hx⟩
  obtain ⟨hxy, hyx, hnone⟩ : ¬ H.Reaches x y ∧ ¬ H.Reaches y x ∧ ¬ ∃ l, OnlyMca H.Par x y l := by
    simpa only [ContentHash.Joinable, not_or] using hjoin
  obtain ⟨mcas, hmerge⟩ := ex.right.exec_mergeWithGid_of_not_onlyMca (ex.grownRight.headGid hy) hxb
    hyx hxy fun ⟨l, hl⟩ => hnone ⟨l, hl.symm⟩
  have hupdate : Function.update (Function.update (Function.update w j b) i a) j b =
      Function.update (Function.update w j b) i a := by
    rw [Function.update_comm hij a b (Function.update w j b), Function.update_idem]
  have hheads : Effect.exec (mergeHeads H i j (w i).headGid (w j).headGid)
      (Function.update (Function.update w j b) i a) =
        (.ok false, Function.update (Function.update w j b) i a) := by
    rw [mergeHeads, Effect.exec_tryCatch, Effect.exec_bind, exec_on,
      Function.update_of_ne hij.symm, Function.update_self, hx, hmerge]
    dsimp only
    rw [hupdate]
    rfl
  refine ⟨⟨toBCount, toACount, false⟩, Function.update (Function.update w j b) i a, ?_, rfl, ?_,
    fun k hki hkj => ?_⟩
  · rw [hexec, Effect.exec_bind_ok hheads]
    rfl
  · refine forall_update_pair (P := fun k p => p.Stands H M c K ∧ p.headGid = (w k).headGid) ?_ ?_
      fun k _ _ => ⟨h.stands k, rfl⟩
    · exact ⟨ex.left, (ex.grownLeft.headGid hx).trans hx.symm⟩
    · exact ⟨ex.right, (ex.grownRight.headGid hy).trans hy.symm⟩
  · rw [Function.update_of_ne hki, Function.update_of_ne hkj]

end Sync

/-! ### Runs -/

/-- **An honest call** that is not refused completes, and keeps the peers standing. -/
theorem Standing.step (h : Standing H M c K w) {act : Act D.Op N} (hhonest : Honest M w act)
    (hresult : ((call H act).exec w).1 ≠ .ok false) : ((call H act).exec w).1 = .ok true ∧
      ∃ c' K', Standing H M c' K' (step H w act) := by
  cases act with
  | commit i op =>
    obtain ⟨c', pg, w', -, hexec, hw', -⟩ := h.commit hhonest
    exact ⟨by rw [hexec], c', _, by rwa [PeerNetwork.step, hexec]⟩
  | sync i j =>
    obtain ⟨x, hx⟩ := (h.stands i).indexed.exists_headGid
    obtain ⟨y, hy⟩ := (h.stands j).indexed.exists_headGid
    by_cases hjoin : H.Joinable x y
    · obtain ⟨outcome, w', hexec, hmerged, hw', -⟩ := h.sync hhonest hx hy hjoin
      have hcall : Effect.exec (call H (.sync i j)) w = (.ok true, w') := by
        rw [call, Effect.exec_bind_ok hexec, Effect.exec_pure, hmerged]
      exact ⟨by rw [hcall], c, insert (H.joinId x y) K, by rwa [PeerNetwork.step, hcall]⟩
    · obtain ⟨outcome, w', hexec, hmerged, -⟩ := h.sync_refused hhonest hx hy hjoin
      refine absurd ?_ hresult
      rw [call, Effect.exec_bind_ok hexec, Effect.exec_pure, hmerged]

theorem Standing.run {acts : List (Act D.Op N)} (h : Standing H M c K w)
    (hhonest : HonestRun H M w acts) (hresults : Unrefused H w acts) :
    ∃ c' K', Standing H M c' K' (run H w acts) := by
  induction acts generalizing w c K with
  | nil => exact ⟨c, K, h⟩
  | cons act acts ih =>
    obtain ⟨-, c', K', h'⟩ := h.step hhonest.1 hresults.1
    exact ih h' hhonest.2 hresults.2

/-- **Honest runs** without refused rounds keep the peers standing. -/
theorem standing_run {names : Fin N → String} {acts : List (Act D.Op N)}
    (hhonest : HonestRun H M (start D H names) acts)
    (hresults : Unrefused H (start D H names) acts) :
    ∃ c K, Standing H M c K (PeerNetwork.run H (start D H names) acts) := by
  obtain ⟨c, h⟩ := Standing.start (H := H) (M := M) names
  exact h.run hhonest hresults

end PeerNetwork

end SalRuntime
