import Mathlib.Data.Fin.VecNotation
import SalRuntime.Foundations.Spread
import SalRuntime.Sync.Rounds

/-!
# Rounds along an acyclic graph

If the peers that have rounds with each other form a graph without cycles, no round is ever refused.
The heads of two neighbours have exactly the commits in common that both had after their last round, and
these lie below one commit.

## Main definitions

* `PeerNetwork.rounds` — the graph of the pairs that have rounds.
* `PeerNetwork.Spreading` — what the peers hold spreads along the graph.

## Main results

* `PeerNetwork.completed_of_acyclic` — every call of such a run returns, and no round is refused.
-/

namespace SalRuntime

variable {D : Datatype} {γ κ ι : Type} [LinearOrder γ] {H : ContentHash D.Op D.Print γ}
  {M : D.replicated.Meaning κ ι} {c : κ} {K : Set γ}

/-- What a whole peer holds is what its head reaches. -/
theorem Peer.Indexed.held_eq {p : Peer D γ} (h : Indexed H p) (hwhole : p.Whole) {x : γ}
    (hx : p.headGid = some x) : p.held = {g | H.Reaches x g} := by
  ext g
  exact ⟨fun hg => h.reaches_of_held hwhole hx hg, fun hg => h.held_of_reaches ⟨_, hx⟩ hg⟩

/-- The join reaches itself and what either side reaches. -/
theorem ContentHash.reaches_joinId_iff {x y g : γ} :
    H.Reaches (H.joinId x y) g ↔ g = H.joinId x y ∨ H.Reaches x g ∨ H.Reaches y g := by
  have hreach := ContentHash.reaches_joinId (H := H) x y
  constructor
  · intro hg
    rw [ContentHash.joinId] at hg ⊢
    split_ifs at hg ⊢ with hxy hyx
    · exact Or.inr (Or.inl hg)
    · exact Or.inr (Or.inr hg)
    · rcases Relation.ReflTransGen.cases_head hg with heq | ⟨p, hp, hpg⟩
      · exact Or.inl heq.symm
      · rcases H.par_mergeId_iff.mp hp with rfl | rfl
        · exact Or.inr (Or.inl hpg)
        · exact Or.inr (Or.inr hpg)
  · rintro (rfl | hg | hg)
    · exact .refl
    · exact hreach.1.trans hg
    · exact hreach.2.trans hg

namespace PeerNetwork

variable {N : ℕ} {w : PeerNetwork D γ N}

/-- The graph of the pairs of peers that have rounds with each other. -/
def rounds {ω : Type} (acts : List (Act ω N)) : SimpleGraph (Fin N) :=
  SimpleGraph.fromRel fun i j => Act.sync i j ∈ acts

/-- What the peers hold spreads along the graph `G`. -/
structure Spreading (H : ContentHash D.Op D.Print γ) (M : D.replicated.Meaning κ ι)
    (G : SimpleGraph (Fin N)) (c : κ) (K : Set γ) (L : Fin N → Fin N → Set γ)
    (w : PeerNetwork D γ N) : Prop where
  /-- The peers stand. -/
  standing : Standing H M c K w
  /-- What they hold spreads. -/
  spread : Spread G {H.digest .root} (fun i => (w i).held) L
  /-- What two neighbours had when they last met lies below one commit. -/
  principal : ∀ i j, G.Adj i j → ∃ m, L i j = {g | H.Reaches m g}
  /-- Names are distinct. -/
  names : Function.Injective fun i => (w i).name
  /-- What a peer has authored has a smaller sequence number than its next operation. -/
  authored : ∀ i k, ∀ g ∈ (w i).held, ∀ parents seq payload,
    H.digest (.authored parents (w k).name seq payload) = g → seq < (w k).seq

namespace Spreading

variable {G : SimpleGraph (Fin N)} {L : Fin N → Fin N → Set γ}

/-- At the start. -/
theorem start (G : SimpleGraph (Fin N)) {names : Fin N → String}
    (hnames : Function.Injective names) : ∃ c, Spreading H M G c {H.digest .root}
      (fun _ _ => {H.digest .root}) (PeerNetwork.start D H names) := by
  obtain ⟨c, hc⟩ := Standing.start (H := H) (M := M) names
  have hheld (i : Fin N) : (PeerNetwork.start D H names i).held = {H.digest .root} :=
    ((hc.stands i).known).antisymm fun g hg => by
      rw [Set.mem_singleton_iff.mp hg]
      exact (hc.stands i).indexed.root_mem_held
  refine ⟨c, hc, ?_, fun i j _ => ⟨H.digest .root, ?_⟩, hnames, ?_⟩
  · simp only [hheld]
    exact Spread.start G _
  · ext g
    rw [Set.mem_singleton_iff, Set.mem_ofPred_eq, H.reaches_digest_iff]
    simp [Preimage.parents]
  · intro i k g hg parents seq payload heq
    rw [hheld, Set.mem_singleton_iff] at hg
    cases H.injective (heq.trans hg)

/-- **A commit** is new to all peers. -/
theorem commit (h : Spreading H M G c K L w) (hG : G.IsAcyclic) {i : Fin N} {op : D.Op}
    (hhonest : Honest M w (.commit i op)) : ((call H (.commit i op)).exec w).1 = .ok true ∧
      ∃ c' K', Spreading H M G c' K' L (step H w (.commit i op)) := by
  obtain ⟨c', pg, w', hpg, hexec, hw', -, hhead, hname, hseq, hother⟩ :=
    h.standing.commit hhonest
  set g := H.opGid pg (w i).name (w i).seq op with hg
  have hpar : H.Par g pg := (H.par_digest_iff).mpr (by simp [Preimage.parents])
  have hheld : (w' i).held = insert g (w i).held := by
    rw [(hw'.stands i).indexed.held_eq (hw'.whole i) hhead,
      (h.standing.stands i).indexed.held_eq (h.standing.whole i) hpg]
    ext k
    rw [Set.mem_ofPred_eq, hg, H.reaches_digest_iff]
    simp [Preimage.parents]
  have hnew (k : Fin N) : g ∉ (w k).held := fun hmem =>
    lt_irrefl _ (h.authored k i g hmem [pg] (w i).seq (.one op) rfl)
  have hupdate : (fun k => (w' k).held) =
      Function.update (fun k => (w k).held) i (insert g (w i).held) := by
    funext k
    by_cases hk : k = i
    · subst hk
      rw [Function.update_self, hheld]
    · rw [Function.update_of_ne hk, hother k hk]
  have hnames (k : Fin N) : (w' k).name = (w k).name := by
    by_cases hk : k = i
    · rw [hk, hname]
    · rw [hother k hk]
  have hle (k : Fin N) : (w k).seq ≤ (w' k).seq := by
    by_cases hk : k = i
    · rw [hk, hseq]
      exact Nat.le_succ _
    · rw [hother k hk]
  have hstep : step H w (.commit i op) = w' := by rw [step, hexec]
  refine ⟨by rw [hexec], c', insert g K, ?_⟩
  rw [hstep]
  refine ⟨hw', ?_, h.principal, ?_, ?_⟩
  · rw [hupdate]
    exact h.spread.create hG i hnew
  · simp only [hnames]
    exact h.names
  · intro j k b hb parents seq payload heq
    rw [hnames] at heq
    have hcases : b = g ∨ ∃ l, b ∈ (w l).held := by
      by_cases hj : j = i
      · subst hj
        rw [hheld] at hb
        exact hb.imp_right fun hb => ⟨j, hb⟩
      · rw [hother j hj] at hb
        exact Or.inr ⟨j, hb⟩
    rcases hcases with rfl | ⟨l, hl⟩
    · -- The new commit: its author is the peer of that name.
      injection H.injective heq with _ hauthor hnum _
      obtain rfl := h.names hauthor
      rw [hnum, hseq]
      exact Nat.lt_succ_self _
    · exact (h.authored l k b hl parents seq payload heq).trans_le (hle k)

/-- The heads of two neighbours can be joined. -/
theorem joinable (h : Spreading H M G c K L w) {i j : Fin N} (hadj : G.Adj i j) {x y : γ}
    (hx : (w i).headGid = some x) (hy : (w j).headGid = some y) : H.Joinable x y := by
  obtain ⟨m, hm⟩ := h.principal i j hadj
  have hinter := h.spread.inter_eq hadj
  rw [(h.standing.stands i).indexed.held_eq (h.standing.whole i) hx,
    (h.standing.stands j).indexed.held_eq (h.standing.whole j) hy, hm] at hinter
  have hiff (z : γ) : H.Reaches x z ∧ H.Reaches y z ↔ H.Reaches m z := Set.ext_iff.mp hinter z
  have hheld : m ∈ (w i).held :=
    (h.standing.stands i).indexed.held_of_reaches ⟨_, hx⟩ ((hiff m).mpr .refl).1
  exact Or.inr (Or.inr ⟨m, OnlyMca.of_forall hiff fun z hmz hzm =>
    ((h.standing.stands i).indexed.reaches_antisymm hheld hmz hzm).symm⟩)

/-- **A round between neighbours** is not refused. -/
theorem sync (h : Spreading H M G c K L w) (hG : G.IsAcyclic) {i j : Fin N} (hadj : G.Adj i j) :
    ((call H (.sync i j)).exec w).1 = .ok true ∧
      ∃ c' K' L', Spreading H M G c' K' L' (step H w (.sync i j)) := by
  obtain ⟨x, hx⟩ := (h.standing.stands i).indexed.exists_headGid
  obtain ⟨y, hy⟩ := (h.standing.stands j).indexed.exists_headGid
  obtain ⟨outcome, w', hexec, hmerged, hw', hheadi, hheadj, hother, hauthor⟩ :=
    h.standing.sync hadj.ne hx hy (h.joinable hadj hx hy)
  have hsi := (h.standing.stands i).indexed.held_eq (h.standing.whole i) hx
  have hsj := (h.standing.stands j).indexed.held_eq (h.standing.whole j) hy
  have hclosed (k : Fin N) {b d : γ} (hb : b ∈ (w k).held) (hbd : H.Par b d) : d ∈ (w k).held :=
    (h.standing.stands k).indexed.held_of_reaches hb (.single hbd)
  -- The join is held already, or it is new to all peers.
  set Z : Set γ := {H.joinId x y} \ ((w i).held ∪ (w j).held) with hZ
  have hnew : ∀ k, ∀ z ∈ Z, z ∉ (w k).held := by
    rintro k z ⟨rfl, hz⟩ hk
    rw [Set.mem_union, not_or, hsi, hsj] at hz
    by_cases hxy : H.Reaches x y
    · rw [ContentHash.joinId_of_reaches hxy] at hz
      exact hz.1 .refl
    by_cases hyx : H.Reaches y x
    · rw [ContentHash.joinId, if_neg hxy, if_pos hyx] at hz
      exact hz.2 .refl
    · rw [ContentHash.joinId, if_neg hxy, if_neg hyx] at hk
      refine h.spread.not_both hadj (x := x) (y := y) (by rw [hsi]; exact .refl)
        (by rw [hsj]; exact hyx) (by rw [hsj]; exact .refl) (by rw [hsi]; exact hxy) k ⟨?_, ?_⟩
      · exact hclosed k hk (H.par_mergeId_iff.mpr (Or.inl rfl))
      · exact hclosed k hk (H.par_mergeId_iff.mpr (Or.inr rfl))
  have hT : {g | H.Reaches (H.joinId x y) g} = (w i).held ∪ (w j).held ∪ Z := by
    ext g
    rw [Set.mem_ofPred_eq, ContentHash.reaches_joinId_iff, hZ, hsi, hsj]
    by_cases hg : g = H.joinId x y
    · by_cases hold : H.Reaches x g ∨ H.Reaches y g <;> simp_all
    · simp [hg]
  have hheldi := (hw'.stands i).indexed.held_eq (hw'.whole i) hheadi
  have hheldj := (hw'.stands j).indexed.held_eq (hw'.whole j) hheadj
  have hupdate : (fun k => (w' k).held) = Function.update (Function.update (fun k => (w k).held) i
      ((w i).held ∪ (w j).held ∪ Z)) j ((w i).held ∪ (w j).held ∪ Z) := by
    funext k
    by_cases hkj : k = j
    · rw [hkj, Function.update_self, hheldj, hT]
    · rw [Function.update_of_ne hkj]
      by_cases hki : k = i
      · rw [hki, Function.update_self, hheldi, hT]
      · rw [Function.update_of_ne hki, hother k hki hkj]
  have hcall : Effect.exec (call H (.sync i j)) w = (.ok true, w') := by
    rw [call, Effect.exec_bind_ok hexec, Effect.exec_pure, hmerged]
  have hstep : step H w (.sync i j) = w' := by rw [step, hcall]
  refine ⟨by rw [hcall], c, insert (H.joinId x y) K,
    Spread.met L i j ((w i).held ∪ (w j).held ∪ Z), ?_⟩
  rw [hstep]
  refine ⟨hw', ?_, fun a b hab => ?_, ?_, ?_⟩
  · rw [hupdate]
    exact h.spread.meet hG hadj hnew
  · rw [Spread.met]
    split_ifs with hedge
    · exact ⟨H.joinId x y, hT.symm⟩
    · exact h.principal a b hab
  · simp only [hauthor]
    exact h.names
  · intro a k b hb parents seq payload heq
    rw [(hauthor k).1] at heq
    rw [(hauthor k).2]
    -- A join is no operation, so an operation was held before.
    have hcases : ∃ l, b ∈ (w l).held := by
      have hold (hmem : b ∈ {g | H.Reaches (H.joinId x y) g}) : ∃ l, b ∈ (w l).held := by
        rw [hT] at hmem
        rcases hmem with (hmem | hmem) | ⟨hmem, hnone⟩
        · exact ⟨i, hmem⟩
        · exact ⟨j, hmem⟩
        · exfalso
          rw [Set.mem_union, not_or, hsi, hsj] at hnone
          rw [Set.mem_singleton_iff.mp hmem, ContentHash.joinId] at hnone
          rw [Set.mem_singleton_iff.mp hmem, ContentHash.joinId] at heq
          split_ifs at hnone heq
          · exact hnone.1 .refl
          · exact hnone.2 .refl
          · cases H.injective heq
      by_cases hai : a = i
      · exact hold (hheldi ▸ hai ▸ hb)
      · by_cases haj : a = j
        · exact hold (hheldj ▸ haj ▸ hb)
        · exact ⟨a, by rwa [hother a hai haj] at hb⟩
    obtain ⟨l, hl⟩ := hcases
    exact h.authored l k b hl parents seq payload heq

end Spreading

/-- The rounds of a run are along the graph `G`. -/
def Along (G : SimpleGraph (Fin N)) {ω : Type} (acts : List (Act ω N)) : Prop :=
  ∀ i j, Act.sync i j ∈ acts → i ≠ j → G.Adj i j

theorem along_rounds {ω : Type} (acts : List (Act ω N)) : Along (rounds acts) acts :=
  fun _ _ hmem hne => (SimpleGraph.fromRel_adj _ _ _).mpr ⟨hne, Or.inl hmem⟩

theorem Spreading.completed {G : SimpleGraph (Fin N)} {L : Fin N → Fin N → Set γ}
    (h : Spreading H M G c K L w) (hG : G.IsAcyclic) {acts : List (Act D.Op N)}
    (halong : Along G acts) (hhonest : HonestRun H M w acts) : EachCall H (· = .ok true) w acts := by
  induction acts generalizing w c K L with
  | nil => trivial
  | cons act acts ih =>
    have halong' : Along G acts := fun i j hmem => halong i j (List.mem_cons_of_mem _ hmem)
    cases act with
    | commit i op =>
      obtain ⟨hresult, c', K', h'⟩ := h.commit hG hhonest.1
      exact ⟨hresult, ih h' halong' hhonest.2⟩
    | sync i j =>
      obtain ⟨hresult, c', K', L', h'⟩ :=
        h.sync hG (halong i j List.mem_cons_self hhonest.1)
      exact ⟨hresult, ih h' halong' hhonest.2⟩

/-- A hash of the commits of texts. -/
noncomputable def textHash : ContentHash (embedRGA Char).Op (embedRGA Char).Print ℕ :=
  ContentHash.ofTable []

/-- The first of two peers inserts a character, and the two have a round. -/
def insertThenSync : List (Act (SeqOp Char) 2) :=
  [.commit ⟨0, Nat.zero_lt_two⟩ (.ins 1 'a' none), .sync ⟨0, Nat.zero_lt_two⟩ ⟨1, Nat.one_lt_two⟩]

theorem honestRun_insertThenSync : HonestRun textHash (embedMeaning Char)
    (start (embedRGA Char) textHash ![ "a", "b"]) insertThenSync := by
  refine ⟨⟨?_, fun k o ho => ?_⟩, Fin.zero_ne_one, trivial⟩
  · rw [events_start]
    exact ⟨by simp [inserted], by decide, nofun⟩
  · rw [events_start] at ho
    exact ho.elim

end PeerNetwork

end SalRuntime
