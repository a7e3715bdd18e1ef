import SalRuntime.Store.Frontier
import SalRuntime.Sync.Convergence

/-!
# Certificates of stability

A peer certifies a cut as stable from its own store only: the latest operation that it knows of every
replica it has heard of tells what that replica had seen when it made it. If the names of the peers are
distinct, the certificate is sound for all peers of the network: a registered peer has seen the
operations of a complete cut, and all its later heads have.

## Main definitions

* `PeerNetwork.Authors` — who has authored the known operations.

## Main results

* `PeerNetwork.authors_of_reached` — operations are in the ancestry of their author's head, under keys of
  their own.
* `PeerNetwork.stableCut_sound` — a complete cut has been seen by every registered peer, for ever.
-/

namespace SalRuntime

variable {D : Datatype} {γ κ ι : Type} [LinearOrder γ] {H : ContentHash D.Op D.Print γ}
  {M : D.replicated.Meaning κ ι} {c : κ} {K : Set γ}

/-- The content id of a stored operation. -/
theorem Peer.Indexed.exists_authored {p : Peer D γ} (h : Indexed H p) {x : ℕ}
    {op : Op (Payload D.Op)} (hop : p.dag.opOf x = some op) : ∃ pg o, op.payload = .one o ∧
      p.gid.get? x = some (H.digest (.authored [pg] op.replica op.seq (.one o))) := by
  obtain ⟨cm, hcm, hcmop⟩ := Dag.opOf_eq_some_iff.mp hop
  obtain ⟨pre, hpre, hg⟩ := h.content x cm hcm
  cases hpre with
  | root hp hnone => simp [hcmop] at hnone
  | merge hp hx hy hnone => simp [hcmop] at hnone
  | @authored q pg replica seq o hp hpg hsome =>
    rw [hcmop, Option.some.injEq] at hsome
    subst hsome
    exact ⟨pg, o, rfl, hg⟩

namespace PeerNetwork

variable {N : ℕ} {w : PeerNetwork D γ N}

/-- Known operations are in the ancestry of their author's head, and no two have the same key. -/
structure Authors (H : ContentHash D.Op D.Print γ) (K : Set γ) (w : PeerNetwork D γ N) : Prop where
  /-- Names are distinct. -/
  names : Function.Injective fun i => (w i).name
  /-- The author of a known operation. -/
  own : ∀ g ∈ K, ∀ parents replica seq payload, H.digest (.authored parents replica seq payload) = g →
    ∃ k x, (w k).name = replica ∧ seq < (w k).seq ∧ (w k).headGid = some x ∧ H.Reaches x g
  /-- No two operations have the same key. -/
  keys : ∀ g ∈ K, ∀ g' ∈ K, ∀ parents parents' replica seq payload payload',
    H.digest (.authored parents replica seq payload) = g →
    H.digest (.authored parents' replica seq payload') = g' → g = g'

namespace Authors

theorem start {names : Fin N → String} (hnames : Function.Injective names) :
    Authors H {H.digest .root} (PeerNetwork.start D H names) := by
  refine ⟨hnames, ?_, ?_⟩
  · rintro g rfl parents replica seq payload heq
    cases H.injective heq
  · rintro g rfl g' rfl _ _ _ _ _ _ _ _
    rfl

/-- **A commit** has a new key. -/
theorem commit (h : Authors H K w) (hw : Standing H M c K w) {i : Fin N} {op : D.Op}
    (hhonest : Honest M w (.commit i op)) : ∃ c' K',
      Standing H M c' K' (step H w (.commit i op)) ∧ Authors H K' (step H w (.commit i op)) := by
  obtain ⟨c', pg, w', hpg, hexec, hw', -, hhead, hname, hseq, hother⟩ := hw.commit hhonest
  have hstep : step H w (.commit i op) = w' := by rw [step, hexec]
  rw [hstep]
  set g := H.opGid pg (w i).name (w i).seq op with hg
  have hpar : H.Par g pg := (H.par_digest_iff).mpr (by simp [Preimage.parents])
  have hnames (k : Fin N) : (w' k).name = (w k).name := by
    by_cases hk : k = i
    · rw [hk, hname]
    · rw [hother k hk]
  -- An author's head only moves up.
  have hup {k : Fin N} {x b : γ} (hx : (w k).headGid = some x) (hb : H.Reaches x b) :
      ∃ x', (w' k).headGid = some x' ∧ H.Reaches x' b := by
    by_cases hk : k = i
    · subst hk
      rw [hpg, Option.some.injEq] at hx
      exact ⟨g, hhead, .head hpar (hx ▸ hb)⟩
    · exact ⟨x, hother k hk ▸ hx, hb⟩
  have hle (k : Fin N) : (w k).seq ≤ (w' k).seq := by
    by_cases hk : k = i
    · rw [hk, hseq]
      omega
    · rw [hother k hk]
  have hnew {b : γ} (hb : b ∈ K) {parents : List γ} {payload : Payload D.Op}
      (heq : H.digest (.authored parents (w i).name (w i).seq payload) = b) : False := by
    obtain ⟨k, x, hk, hlt, -⟩ := h.own b hb _ _ _ _ heq
    rw [h.names hk] at hlt
    exact lt_irrefl _ hlt
  refine ⟨c', insert g K, hw', ?_, ?_, ?_⟩
  · simp only [hnames]
    exact h.names
  · rintro b (rfl | hb) parents replica seq payload heq
    · injection H.injective heq with _ hreplica hnum _
      exact ⟨i, g, hname.trans hreplica.symm, by omega, hhead, .refl⟩
    · obtain ⟨k, x, hk, hlt, hx, hreach⟩ := h.own b hb _ _ _ _ heq
      obtain ⟨x', hx', hreach'⟩ := hup hx hreach
      exact ⟨k, x', (hnames k).trans hk, hlt.trans_le (hle k), hx', hreach'⟩
  · rintro b (rfl | hb) b' (rfl | hb') parents parents' replica seq payload payload' heq heq'
    · rfl
    · injection H.injective heq with _ hreplica hnum _
      exact (hnew hb' (hreplica ▸ hnum ▸ heq')).elim
    · injection H.injective heq' with _ hreplica hnum _
      exact (hnew hb (hreplica ▸ hnum ▸ heq)).elim
    · exact h.keys b hb b' hb' _ _ _ _ _ _ heq heq'

/-- **A round** makes no operation. -/
theorem sync (h : Authors H K w) (hw : Standing H M c K w) {i j : Fin N} (hij : i ≠ j)
    (hresult : ((call H (.sync i j)).exec w).1 ≠ .ok false) : ∃ K',
      Standing H M c K' (step H w (.sync i j)) ∧ Authors H K' (step H w (.sync i j)) := by
  obtain ⟨x, hx⟩ := (hw.stands i).indexed.exists_headGid
  obtain ⟨y, hy⟩ := (hw.stands j).indexed.exists_headGid
  by_cases hjoin : H.Joinable x y
  · obtain ⟨outcome, w', hexec, hmerged, hw', hheadi, hheadj, hother, hauthor⟩ :=
      hw.sync hij hx hy hjoin
    have hstep : step H w (.sync i j) = w' := by
      rw [step, call, Effect.exec_bind_ok hexec]
      rfl
    rw [hstep]
    have hreach := ContentHash.reaches_joinId (H := H) x y
    have hup {k : Fin N} {z b : γ} (hz : (w k).headGid = some z) (hb : H.Reaches z b) :
        ∃ z', (w' k).headGid = some z' ∧ H.Reaches z' b := by
      by_cases hki : k = i
      · subst hki
        rw [hx, Option.some.injEq] at hz
        exact ⟨_, hheadi, hreach.1.trans (hz ▸ hb)⟩
      · by_cases hkj : k = j
        · subst hkj
          rw [hy, Option.some.injEq] at hz
          exact ⟨_, hheadj, hreach.2.trans (hz ▸ hb)⟩
        · exact ⟨z, hother k hki hkj ▸ hz, hb⟩
    -- An operation that is known after the round was known before.
    have hold {b : γ} (hb : b ∈ insert (H.joinId x y) K) {parents : List γ} {replica : String}
        {seq : ℕ} {payload : Payload D.Op}
        (heq : H.digest (.authored parents replica seq payload) = b) : b ∈ K := by
      rcases hb with rfl | hb
      · rw [ContentHash.joinId] at heq ⊢
        split_ifs at heq ⊢
        · exact (hw.stands i).known ⟨_, hx⟩
        · exact (hw.stands j).known ⟨_, hy⟩
        · cases H.injective heq
      · exact hb
    refine ⟨_, hw', ?_, ?_, ?_⟩
    · simp only [hauthor]
      exact h.names
    · intro b hb parents replica seq payload heq
      obtain ⟨k, z, hk, hlt, hz, hzb⟩ := h.own b (hold hb heq) _ _ _ _ heq
      obtain ⟨z', hz', hzb'⟩ := hup hz hzb
      exact ⟨k, z', (hauthor k).1.trans hk, (hauthor k).2 ▸ hlt, hz', hzb'⟩
    · intro b hb b' hb' _ _ _ _ _ _ heq heq'
      exact h.keys b (hold hb heq) b' (hold hb' heq') _ _ _ _ _ _ heq heq'
  · obtain ⟨outcome, w', hexec, hmerged, -⟩ := hw.sync_refused hij hx hy hjoin
    refine absurd ?_ hresult
    rw [call, Effect.exec_bind_ok hexec, Effect.exec_pure, hmerged]

theorem run (h : Authors H K w) (hw : Standing H M c K w) {acts : List (Act D.Op N)}
    (hhonest : HonestRun H M w acts) (hresults : Unrefused H w acts) : ∃ c' K',
      Standing H M c' K' (PeerNetwork.run H w acts) ∧ Authors H K' (PeerNetwork.run H w acts) := by
  induction acts generalizing w c K with
  | nil => exact ⟨c, K, hw, h⟩
  | cons act acts ih =>
    cases act with
    | commit i op =>
      obtain ⟨c', K', hw', h'⟩ := h.commit hw hhonest.1
      exact ih h' hw' hhonest.2 hresults.2
    | sync i j =>
      obtain ⟨K', hw', h'⟩ := h.sync hw hhonest.1 hresults.1
      exact ih h' hw' hhonest.2 hresults.2

end Authors

theorem authors_of_reached {names : Fin N → String} (hnames : Function.Injective names)
    (hw : Reached H M names w) : ∃ c K, Standing H M c K w ∧ Authors H K w := by
  obtain ⟨acts, hhonest, hresults, rfl⟩ := hw
  obtain ⟨c, h⟩ := Standing.start (H := H) (M := M) names
  exact (Authors.start hnames).run h hhonest hresults

/-- **A complete cut is stable.** Every peer that the certifying peer has heard of has seen the operations
of the cut, and so it has in every later state. -/
theorem stableCut_sound {names : Fin N → String} (hnames : Function.Injective names)
    (hw : Reached H M names w) (i : Fin N) : ∃ cut, (w i).stableCut = .ok cut ∧
      (cut.complete = true → ∀ key op, cut.meet.get? key = some op → op.key = key ∧
        ∃ o, op.payload = .one o ∧ ∀ k, (w k).name ∈ (w i).registered → ∀ acts,
          HonestRun H M w acts → Unrefused H w acts → o ∈ (run H w acts k).events) := by
  obtain ⟨c, K, h, hauthors⟩ := authors_of_reached hnames hw
  have hi := (h.stands i).indexed
  obtain ⟨cut, hcut, hcertified⟩ :=
    Dag.stableCut_spec hi.head (w i).registered (w i).name
  refine ⟨cut, hcut, fun hcomplete key op hmeet => ?_⟩
  obtain ⟨hheard, hbelow⟩ := hcertified hcomplete
  obtain ⟨hkey, x, hx, hop⟩ := hbelow key op hmeet
  obtain ⟨pg, o, hpayload, hg⟩ := hi.exists_authored hop
  refine ⟨hkey, o, hpayload, fun k hk acts hhonest hresults => ?_⟩
  refine h.events_subset_run hhonest hresults k ?_
  by_cases hki : (w k).name = (w i).name
  · obtain rfl := hauthors.names hki
    exact ⟨x, hx, op.replica, op.seq, by rw [hop, ← hpayload]⟩
  · -- What peer `k` had seen when it made its latest operation that `i` knows of.
    obtain ⟨y, opk, hy, hopk, hreplica, -, hseen⟩ := hheard _ hk hki
    obtain ⟨z, opz, hz, hopz, hkeyz⟩ := hseen key (SortedMap.has_iff.mpr ⟨op, hmeet⟩)
    obtain ⟨pgy, oy, -, hgy⟩ := hi.exists_authored hopk
    obtain ⟨pgz, oz, hpayloadz, hgz⟩ := hi.exists_authored hopz
    have hK {x : ℕ} {g : γ} (hg : (w i).gid.get? x = some g) : g ∈ K := (h.stands i).known ⟨x, hg⟩
    -- The two operations under the key are the same.
    have hsame : o = oz := by
      have hkeys : op.key = opz.key := hkey.trans hkeyz.symm
      injection hkeys with hreplica' hseq
      rw [← hreplica', ← hseq] at hgz
      have heq := hauthors.keys _ (hK hg) _ (hK hgz) _ _ _ _ _ _ rfl rfl
      injection H.injective heq with _ _ _ hone
      injection hone
    obtain ⟨k', gk, hk', -, hgk, hreach⟩ := hauthors.own _ (hK hgy) _ _ _ _ rfl
    obtain rfl : k' = k := hauthors.names (hk'.trans hreplica)
    rw [(h.stands k').indexed.events_eq hgk]
    refine ⟨_, hreach.trans ((hi.labelled.reaches_iff hgy hgz).mp hz), ?_⟩
    rw [hsame, H.made_authored]
    rfl

theorem stableCut_sound_insertedPair : ∃ cut, (insertedPair 0).stableCut = .ok cut ∧
    (cut.complete = true → ∀ key op, cut.meet.get? key = some op → op.key = key ∧
      ∃ o, op.payload = .one o ∧ ∀ k, (insertedPair k).name ∈ (insertedPair 0).registered → ∀ acts,
        HonestRun textHash (embedMeaning Char) insertedPair acts →
        Unrefused textHash insertedPair acts → o ∈ (run textHash insertedPair acts k).events) :=
  stableCut_sound (by decide) reached_insertedPair 0

end PeerNetwork

end SalRuntime
