import SalRuntime.Mint.MintedReplica
import SalRuntime.Replica.Linked

/-!
# Clocks ahead of their stores

As long as the states that a replica receives hold only ids that its mint has observed, the next time
of the mint is later than every id in the store: ids come with operations, which the mint observes, or
with states.

## Main definitions

* `Clocked` — the mint of a replica is ahead of every id in its store.
* `Honest` — the times of the operations are safe integers.
* `Covered` — the states that a delta carries hold only ids that the mint is ahead of.

## Main results

* `Clocked.ends_mintTime`, `Clocked.ends_commit`, `Clocked.ends_ingest`, `Clocked.ends_onReplica` —
  every call keeps the mint ahead.
-/

namespace SalRuntime

variable {D : Datatype} {γ : Type} [LinearOrder γ] {H : ContentHash (Timed D.Op) D.Print γ}
  {M : Dated D}

/-- The times of the operations are safe integers. -/
def Honest (M : Dated D) (payload : Payload (Timed D.Op)) : Prop :=
  ∀ op ∈ payload.ops, ∀ t ∈ M.operationTime op, t ≤ MAX_SAFE_INTEGER

instance decidableHonest (M : Dated D) (payload : Payload (Timed D.Op)) :
    Decidable (Honest M payload) :=
  inferInstanceAs (Decidable (∀ op ∈ payload.ops, ∀ t ∈ M.operationTime op, t ≤ MAX_SAFE_INTEGER))

/-- A mint that has observed a payload is ahead of its operations, and no earlier than before. -/
theorem observed_spec (mint : LamportMint) {payload : Payload (Timed D.Op)}
    (hpayload : Honest M payload) :
    mint.nextTime ≤ (MintedReplica.observed M mint payload).nextTime ∧
      (MintedReplica.observed M mint payload).slot = mint.slot ∧
      (MintedReplica.observed M mint payload).stride = mint.stride ∧
      M.Earlier (MintedReplica.observed M mint payload).nextTime payload := by
  rw [MintedReplica.observed, Dated.Earlier]
  rw [Honest] at hpayload
  generalize payload.ops = ops at hpayload
  induction ops generalizing mint with
  | nil => exact ⟨le_rfl, rfl, rfl, by simp⟩
  | cons op ops ih =>
    rw [List.forall_mem_cons] at hpayload
    obtain ⟨hle, hslot, hstride, hearlier⟩ :=
      ih (mint.observe (M.operationTime op)) hpayload.2
    rw [List.foldl_cons]
    refine ⟨(mint.nextTime_le_observe _).trans hle, by simpa using hslot, by simpa using hstride,
      List.forall_mem_cons.mpr ⟨fun t ht => ?_, hearlier⟩⟩
    have hlt := mint.lt_nextTime_observe (hpayload.1 t ht)
    rw [← Option.mem_def.mp ht] at hlt
    exact hlt.trans_le hle

/-- The next time of a replica with a mint. -/
def MintedReplica.nextTime (m : MintedReplica D γ) : ℕ := (m.mint.map LamportMint.nextTime).getD 0

/-- Every id of the state that a wire commit carries is smaller than `n`. -/
def carriedBelow (M : Dated D) (n : ℕ) (wc : WireCommit (timed D) γ) : Bool :=
  match (timed D).decodeState, wc.body.state with
  | some decodeState, some wireState =>
    match decodeState wireState with
    | .ok s => decide (M.Below n s)
    | .error _ => true
  | _, _ => true

omit [LinearOrder γ] in
theorem inline_of_carriedBelow {n : ℕ} {wc : WireCommit (timed D) γ}
    (h : carriedBelow M n wc = true) : Replica.Inline (M.Below n) wc := by
  intro decodeState hdecode wireState hstate s hs
  rw [carriedBelow, hdecode, Option.mem_def.mp hstate] at h
  simpa only [hs, decide_eq_true_eq] using h

/-- Whenever a commit of a delta is ingested, the mint is ahead of the state that it carries. -/
def covered (H : ContentHash (Timed D.Op) D.Print γ) (M : Dated D) (m : MintedReplica D γ)
    (prior : Option γ) : List (WireCommit (timed D) γ) → Bool
  | [] => true
  | wc :: rest =>
    if wc.gid.any m.replica.byGid.has then covered H M m wc.gid rest
    else
      carriedBelow M m.nextTime wc &&
        match Effect.exec (MintedReplica.ingestNew H M wc (wc.parents.map fun p => p.or prior)) m with
        | (.ok g, m') => covered H M m' (some g) rest
        | (.error _, _) => true

/-- The mint has the slot and the stride, and its next time is later than every id in the store and
every time that it gave. These times are different, and were later than what the replica held. -/
structure Clocked (H : ContentHash (Timed D.Op) D.Print γ) (M : Dated D) (slot stride : ℕ)
    (m : MintedReplica D γ) : Prop where
  /-- The operations of the store are linked, and honest. -/
  linked : Replica.Linked H (Honest M) m.replica
  /-- The mint. -/
  mint : ∃ mint, m.mint = some mint ∧ mint.slot = slot ∧ mint.stride = stride ∧
    m.replica.Holds (M.Below mint.nextTime) ∧ ∀ issue ∈ m.issued, issue.time < mint.nextTime
  /-- The times are different. -/
  distinct : (m.issued.map Issue.time).Nodup
  /-- The times tell the slot. -/
  slotted : ∀ issue ∈ m.issued, issue.time % stride = slot
  /-- The times were later than what the replica held. -/
  above : ∀ issue ∈ m.issued, ∀ i ∈ issue.seen, i < issue.time

/-- What carries no operation keeps the states of a store below a bound. -/
theorem stable_below (M : Dated D) (n : ℕ) :
    Replica.Stable H (M.Below n) (fun _ _ => False) fun r : Replica (timed D) γ =>
      Replica.Sound H r ∧ r.Holds (M.Below n) :=
  Replica.Holds.stable (M.closed_below n) fun hW _ => hW.elim

namespace Clocked

variable {slot stride : ℕ} {m : MintedReplica D γ}

theorem create (name : String) (mint : LamportMint) :
    Clocked H M mint.slot mint.stride (MintedReplica.create D H name (some mint)) where
  linked := .create name
  mint := by
    refine ⟨mint, rfl, rfl, rfl, fun x c hc => ?_, by simp [MintedReplica.create]⟩
    simp only [MintedReplica.create, Replica.create, Dag.get?_push] at hc
    split_ifs at hc
    · cases hc
      exact (M.closed_below _).init
    · cases hc
  distinct := List.nodup_nil
  slotted := by simp [MintedReplica.create]
  above := by simp [MintedReplica.create]

/-- What is observed, and what happens to the replica, when the mint is still ahead. -/
theorem of_replica (h : Clocked H M slot stride m) {mint : LamportMint} {r : Replica (timed D) γ}
    (hlinked : Replica.Linked H (Honest M) r) (hslot : mint.slot = slot)
    (hstride : mint.stride = stride) (hholds : r.Holds (M.Below mint.nextTime))
    (hle : m.nextTime ≤ mint.nextTime) :
    Clocked H M slot stride { m with replica := r, mint := some mint } where
  linked := hlinked
  mint := by
    obtain ⟨mint', hmint, -, -, -, hissued⟩ := h.mint
    refine ⟨mint, rfl, hslot, hstride, hholds, fun issue hissue => ?_⟩
    rw [MintedReplica.nextTime, hmint] at hle
    exact (hissued issue hissue).trans_le hle
  distinct := h.distinct
  slotted := h.slotted
  above := h.above

/-! ### Minting -/

theorem holds (h : Clocked H M slot stride m) : m.replica.Holds (M.Below m.nextTime) := by
  obtain ⟨mint, hmint, -, -, hholds, -⟩ := h.mint
  rw [MintedReplica.nextTime, hmint]
  exact hholds

theorem headIds_lt (h : Clocked H M slot stride m) {i : ℕ} (hi : i ∈ m.headIds M) :
    i < m.nextTime := by
  obtain ⟨mint, hmint, -, -, hholds, -⟩ := h.mint
  rw [MintedReplica.nextTime, hmint]
  rw [MintedReplica.headIds] at hi
  split at hi
  · rename_i s hs
    have hstate : Yields (M.Below mint.nextTime) m.replica.headState :=
      .bind fun _ hc => .ok (hholds.of_get hc)
    exact hstate s hs i hi
  · cases hi

/-- **Minting** gives a time that is later than every id in the head state, and than every time
before. -/
theorem ends_mintTime (h : Clocked H M slot stride m) :
    Effect.Ends (Clocked H M slot stride) (MintedReplica.mintTime M) m := by
  refine .bind_get ?_
  split
  · exact .throw h _
  · rename_i mint hmint
    refine .bind_lift h fun res hres => ?_
    obtain ⟨time, mint'⟩ := res
    refine .bind_ok (Effect.exec_set _ m) (.pure ?_ _)
    obtain ⟨mint₀, hmint₀, hslot, hstride, hholds, hissued⟩ := h.mint
    obtain rfl : mint = mint₀ := Option.some.inj (hmint.symm.trans hmint₀)
    obtain ⟨rfl, -, hslot', hstride', -⟩ := LamportMint.next_eq_ok hres
    have hlt := LamportMint.nextTime_lt_of_next hres
    have hnext : m.nextTime = mint.nextTime := by rw [MintedReplica.nextTime, hmint]; rfl
    refine ⟨h.linked, ⟨mint', rfl, hslot'.trans hslot, hstride'.trans hstride,
      fun x c hc => (hholds x c hc).mono hlt.le, ?_⟩, ?_, ?_, ?_⟩
    · intro issue hissue
      rcases List.mem_append.mp hissue with hissue | hissue
      · exact (hissued issue hissue).trans hlt
      · rw [List.mem_singleton.mp hissue]
        exact hlt
    · rw [List.map_append, List.map_singleton, List.nodup_append]
      refine ⟨h.distinct, List.nodup_singleton _, fun t ht t' ht' => ?_⟩
      obtain ⟨issue, hissue, rfl⟩ := List.mem_map.mp ht
      rw [List.mem_singleton.mp ht']
      exact (hissued issue hissue).ne
    · intro issue hissue
      rcases List.mem_append.mp hissue with hissue | hissue
      · exact h.slotted issue hissue
      · rw [List.mem_singleton.mp hissue, ← hstride, ← hslot]
        exact mint.nextTime_mod
    · intro issue hissue i hi
      rcases List.mem_append.mp hissue with hissue | hissue
      · exact h.above issue hissue i hi
      · rw [List.mem_singleton.mp hissue] at hi ⊢
        rw [← hnext]
        exact h.headIds_lt hi

theorem ends_generate (h : Clocked H M slot stride m) (payload : Timed D.Op) :
    Effect.Ends (Clocked H M slot stride) (MintedReplica.generate M payload) m :=
  .bind h.ends_mintTime fun _ _ _ h' => .pure h' _

theorem ends_generateBatch (h : Clocked H M slot stride m) (payloads : List (Timed D.Op)) :
    Effect.Ends (Clocked H M slot stride) (MintedReplica.generateBatch M payloads) m := by
  induction payloads generalizing m with
  | nil => exact .pure h _
  | cons payload payloads ih =>
    exact .bind (h.ends_generate payload) fun _ _ _ h' => .bind (ih h') fun _ _ _ h'' => .pure h'' _

/-! ### Calls of the replica -/

/-- **A call that leaves the mint alone** keeps it ahead, if the replica stays linked and the mint is
ahead of the new states. -/
theorem ends_onReplica (h : Clocked H M slot stride m) {α : Type} {call : Call (timed D) γ α}
    (hlinked : Effect.Ends (Replica.Linked H (Honest M)) call m.replica)
    (hholds : Effect.Ends (Replica.Holds (M.Below m.nextTime)) call m.replica) :
    Effect.Ends (Clocked H M slot stride) (MintedReplica.onReplica call) m := by
  refine .of_exec_eq (MintedReplica.exec_onReplica call m) ?_
  obtain ⟨mint, hmint, hslot, hstride, -⟩ := h.mint
  have hnext : m.nextTime = mint.nextTime := by rw [MintedReplica.nextTime, hmint]; rfl
  have hkept := h.of_replica hlinked hslot hstride (hnext ▸ hholds) hnext.le
  rwa [← hmint] at hkept

/-- Observing an honest payload. -/
theorem observed (h : Clocked H M slot stride m) {payload : Payload (Timed D.Op)}
    (hpayload : Honest M payload) : ∃ mint, m.mint = some mint ∧
      m.nextTime ≤ (MintedReplica.observed M mint payload).nextTime ∧
      M.Earlier (MintedReplica.observed M mint payload).nextTime payload ∧
      Clocked H M slot stride
        { m with mint := some (MintedReplica.observed M mint payload) } := by
  obtain ⟨mint, hmint, hslot, hstride, hholds, -⟩ := h.mint
  obtain ⟨hle, hslot', hstride', hearlier⟩ := observed_spec mint hpayload
  have hnext : m.nextTime = mint.nextTime := by rw [MintedReplica.nextTime, hmint]; rfl
  refine ⟨mint, hmint, hnext ▸ hle, hearlier, ?_⟩
  exact h.of_replica h.linked (hslot'.trans hslot) (hstride'.trans hstride)
    (fun x c hc => (hholds x c hc).mono hle) (hnext ▸ hle)

/-- **An operation of its own** that the mint has observed. -/
theorem ends_author (h : Clocked H M slot stride m) {payload : Payload (Timed D.Op)}
    (hpayload : Honest M payload) {state : (timed D).State}
    (hstate : ∀ n, m.nextTime ≤ n → M.Earlier n payload → M.Below n state) :
    Effect.Ends (Clocked H M slot stride) (do
      MintedReplica.observePayload M payload
      MintedReplica.onReplica (Replica.author H payload state)) m := by
  obtain ⟨mint, hmint, hle, hearlier, h'⟩ := h.observed hpayload
  refine .bind_ok (MintedReplica.exec_observePayload M payload hmint) ?_
  refine h'.ends_onReplica (h'.linked.ends_author hpayload state) ?_
  obtain ⟨pg, hpg⟩ := h'.linked.headed
  obtain ⟨frontier, hexec⟩ := h'.linked.sound.exec_author hpg payload state
  obtain ⟨mint', hmint', -, -, hholds, -⟩ := h'.mint
  cases hmint'
  exact .of_exec_eq hexec (hholds.push (hstate _ hle hearlier))

/-! ### Operations of its own -/

theorem below_headState (h : Clocked H M slot stride m) :
    Yields (M.Below m.nextTime) m.replica.headState := by
  obtain ⟨mint, hmint, -, -, hholds, -⟩ := h.mint
  rw [MintedReplica.nextTime, hmint]
  exact .bind fun _ hc => .ok (hholds.of_get hc)

/-- **Committing an honest operation.** -/
theorem ends_commit (h : Clocked H M slot stride m) {op : Timed D.Op}
    (hop : Honest M (.one op)) : Effect.Ends (Clocked H M slot stride) (MintedReplica.commit H M op) m := by
  refine .bind_get (.bind_lift h fun head hhead => .bind_lift h fun prepared hprepared =>
    .bind_lift h fun state hstate => ?_)
  have htime : M.operationTime prepared = M.operationTime op :=
    M.yields_prepared head op prepared hprepared
  refine h.ends_author (fun t ht => ?_) fun n hle hearlier => ?_
  · rw [List.mem_singleton.mp ht, htime]
    exact hop op (List.mem_singleton_self op)
  · exact M.yields_applyOps hearlier ((h.below_headState head hhead).mono hle) state hstate

/-- **Committing honest operations** as one. -/
theorem ends_commitBatch (h : Clocked H M slot stride m) {ops : List (Timed D.Op)}
    (hops : Honest M (.many ops)) :
    Effect.Ends (Clocked H M slot stride) (MintedReplica.commitBatch H M ops) m := by
  refine .bind_get ?_
  split
  · exact .pure h _
  · exact h.ends_commit fun op hop => hops op hop
  · refine .bind_lift h fun head hhead => ?_
    have hbelow : M.Below m.nextTime head := h.below_headState head hhead
    split_ifs
    · refine .bind_lift h fun res hres => ?_
      obtain ⟨prepared, state⟩ := res
      have hprepared := M.yields_prepareEach head _ _ hres
      refine h.ends_author (fun t ht => ?_) fun n hle hearlier => ?_
      · obtain ⟨op, hop, htime⟩ := hprepared.exists_of_mem ht
        rw [← htime]
        exact hops op hop
      · exact hprepared.below (hbelow.mono hle) hearlier
    · refine .bind_lift h fun state hstate => ?_
      exact h.ends_author hops fun n hle hearlier =>
        M.yields_applyOps hearlier (hbelow.mono hle) state hstate

/-- What is generated is honest. -/
theorem honest_generate (payload : Timed D.Op) :
    Effect.Returns (fun op => Honest M (.one op)) (MintedReplica.generate M payload) m := by
  refine .bind fun time m' htime => .pure fun op hop t ht => ?_
  rw [List.mem_singleton.mp hop, M.operationTime_stampOperation, Option.mem_some_iff] at ht
  have hsafe : Effect.Returns (· ≤ MAX_SAFE_INTEGER) (MintedReplica.mintTime M) m := by
    refine .bind_get ?_
    split
    · exact .throw _
    · refine .bind_lift fun res hres => .bind fun _ _ _ => .pure ?_
      exact (LamportMint.next_eq_ok hres).2.1
  exact ht ▸ hsafe time m' htime

theorem honest_generateBatch (payloads : List (Timed D.Op)) :
    Effect.Returns (fun ops => Honest M (.many ops)) (MintedReplica.generateBatch M payloads) m := by
  induction payloads generalizing m with
  | nil => exact .pure (by simp [Honest, Payload.ops])
  | cons payload payloads ih =>
    refine .bind fun op m' hop => .bind fun ops m'' hops => .pure ?_
    exact List.forall_mem_cons.mpr
      ⟨honest_generate payload op m' hop op (List.mem_singleton_self op), ih ops m'' hops⟩

theorem ends_commitGenerated (h : Clocked H M slot stride m) (payload : Timed D.Op) :
    Effect.Ends (Clocked H M slot stride) (MintedReplica.commitGenerated H M payload) m :=
  .bind (h.ends_generate payload) fun op m' hop h' =>
    .bind (h'.ends_commit (honest_generate payload op m' hop)) fun _ _ _ h'' => .pure h'' _

theorem ends_commitGeneratedBatch (h : Clocked H M slot stride m) (payloads : List (Timed D.Op)) :
    Effect.Ends (Clocked H M slot stride) (MintedReplica.commitGeneratedBatch H M payloads) m :=
  .bind (h.ends_generateBatch payloads) fun ops m' hops h' =>
    .bind (h'.ends_commitBatch (honest_generateBatch payloads ops m' hops)) fun _ _ _ h'' =>
      .pure h'' _

/-! ### Deltas -/

section Ingest

open Replica (Linked Allowed Resolves Inline Holds)

variable {wc : WireCommit (timed D) γ} {parentGids : List (Option γ)}

/-- **Ingesting a wire commit that carries a state** moves no mint. -/
theorem ends_carried (h : Clocked H M slot stride m)
    (hop : ∀ replica seq payload, wc.body ≠ .op replica seq payload)
    (hcarried : carriedBelow M m.nextTime wc = true) :
    Effect.Ends (Clocked H M slot stride)
      (MintedReplica.onReplica (Replica.ingestNew H wc parentGids)) m := by
  refine h.ends_onReplica (Linked.stable.ends_ingestNew h.linked
    ⟨fun op hbody => absurd hbody (hop _ _ _), Replica.inline_true wc⟩) ?_
  exact ((stable_below M m.nextTime).ends_ingestNew ⟨h.linked.sound, h.holds⟩
    ⟨fun op hbody => absurd hbody (hop _ _ _), inline_of_carriedBelow hcarried⟩).2

/-- **Ingesting an operation** moves the mint, unless it throws. -/
theorem ends_received (h : Clocked H M slot stride m)
    (hwc : Resolves H (Allowed H (Honest M)) wc parentGids) (op : Op (Payload (Timed D.Op)))
    (hbody : wc.body = .op op.replica op.seq op.payload) :
    Effect.Ends (Clocked H M slot stride) (do
      let g ← MintedReplica.onReplica (Replica.ingestNew H wc parentGids)
      MintedReplica.observePayload M op.payload
      return g) m := by
  obtain ⟨pg, rfl, hgid, hallowed⟩ := hwc op hbody
  obtain ⟨mint, hmint, hle, hearlier, h'⟩ := h.observed hallowed.1
  have hlinked := Linked.stable.ends_ingestNew h.linked ⟨hwc.accepts, Replica.inline_true wc⟩
  have hexec := MintedReplica.exec_onReplica (Replica.ingestNew H wc [some pg]) m
  rcases h.linked.sound.exec_ingestNew_op hbody hgid with ⟨r', hok⟩ | ⟨e, herror⟩
  · rw [hok] at hexec
    rw [Effect.Ends, hok] at hlinked
    refine .bind_ok hexec (.bind_ok (MintedReplica.exec_observePayload M op.payload hmint)
      (.pure ?_ _))
    set n := (MintedReplica.observed M mint op.payload).nextTime
    have hstable := Holds.stable (H := H) (W := fun _ op => M.Earlier n op.payload)
      (M.closed_below n) fun hW hs => M.yields_applyOps hW hs
    have hinline : Inline (M.Below n) wc := by
      intro _ _ state hstate
      simp [hbody, WireBody.state] at hstate
    have hop : Replica.AcceptsOp H (fun _ op => M.Earlier n op.payload) wc [some pg] := by
      intro op' hbody' _ _
      obtain rfl : op = op' := by simpa [hbody, Op.ext_iff] using hbody'
      exact hearlier
    have hholds := (hstable.ends_ingestNew ⟨h.linked.sound, h'.holds⟩ ⟨hop, hinline⟩).2
    rw [hok] at hholds
    obtain ⟨mint', hmint', hslot, hstride, -⟩ := h'.mint
    cases hmint'
    exact h.of_replica hlinked hslot hstride hholds hle
  · rw [herror] at hexec
    have hroot := h.ends_onReplica (Linked.stable.ends_reconstructRoot h.linked [some pg])
      ((stable_below M m.nextTime).ends_reconstructRoot ⟨h.linked.sound, h.holds⟩ [some pg]).2
    rw [Effect.Ends, MintedReplica.exec_onReplica, Replica.exec_reconstructRoot h.linked.sound] at hroot
    exact .bind (.of_exec_eq hexec hroot) fun _ _ hok _ => by rw [hexec] at hok; cases hok

/-- **Ingesting a wire commit** keeps the mint ahead. -/
theorem ends_ingestNew (h : Clocked H M slot stride m)
    (hwc : Resolves H (Allowed H (Honest M)) wc parentGids)
    (hcarried : carriedBelow M m.nextTime wc = true) :
    Effect.Ends (Clocked H M slot stride) (MintedReplica.ingestNew H M wc parentGids) m := by
  rw [MintedReplica.ingestNew]
  cases hbody : wc.body with
  | op replica seq payload => exact h.ends_received hwc ⟨replica, seq, payload⟩ hbody
  | merge | compact cut state | base epoch fp roster proof state =>
    exact .bind (h.ends_carried (by simp [hbody]) hcarried) fun _ _ _ h' => .pure h' _

end Ingest

theorem ends_refresh (h : Clocked H M slot stride m) :
    Effect.Ends (Clocked H M slot stride) (MintedReplica.onReplica Replica.refresh) m :=
  h.ends_onReplica (Replica.Linked.stable.ends_refresh h.linked)
    ((stable_below M m.nextTime).ends_refresh ⟨h.linked.sound, h.holds⟩).2

/-- **Ingesting a delta** keeps the mint ahead, if its operations are resolved and the mint is ahead
of the states that it carries. -/
theorem ends_ingestFrom (h : Clocked H M slot stride m) {prior : Option γ}
    {commits : List (WireCommit (timed D) γ)}
    (hres : Replica.Resolved H (Replica.Allowed H (Honest M)) prior commits)
    (hcovered : covered H M m prior commits = true) :
    Effect.Ends (Clocked H M slot stride) (MintedReplica.ingestFrom H M prior commits) m := by
  induction commits generalizing prior m with
  | nil => exact .pure h _
  | cons wc rest ih =>
    rw [covered] at hcovered
    refine .bind_get ?_
    split_ifs at hcovered ⊢ with hheld
    · exact ih h (hres.2 _ (Replica.names_of_held hres.1 hheld)) hcovered
    · rw [Bool.and_eq_true] at hcovered
      refine .bind (h.ends_ingestNew hres.1 hcovered.1) fun g m' hok h' => ?_
      have hrest : covered H M m' (some g) rest = true := by simpa only [hok] using hcovered.2
      refine .bind (ih h' (hres.2 _ ?_) hrest) fun _ _ _ h'' => .pure h'' _
      obtain ⟨r', hreplica⟩ := MintedReplica.returns_ingestNew g m' hok
      exact h.linked.sound.names_of_ingestNew hres.1 hreplica

theorem ends_ingest (h : Clocked H M slot stride m) {commits : List (WireCommit (timed D) γ)}
    (hres : Replica.Resolved H (Replica.Allowed H (Honest M)) none commits)
    (hcovered : covered H M m none commits = true) :
    Effect.Ends (Clocked H M slot stride) (MintedReplica.ingest H M commits) m := by
  refine .bind (h.ends_ingestFrom hres hcovered) fun n m' _ h' => ?_
  split_ifs
  · exact .bind h'.ends_refresh fun _ _ _ h'' => .pure h'' _
  · exact .pure h' _

/-! ### Other calls -/

theorem ends_register (h : Clocked H M slot stride m) (name : String) :
    Effect.Ends (Clocked H M slot stride) (MintedReplica.onReplica (Replica.register name)) m :=
  h.ends_onReplica (Replica.Linked.stable.ends_register h.linked name)
    ((stable_below M m.nextTime).ends_register ⟨h.linked.sound, h.holds⟩ name).2

theorem ends_mergeWithGid (h : Clocked H M slot stride m) (g : γ) :
    Effect.Ends (Clocked H M slot stride)
      (MintedReplica.onReplica (Replica.mergeWithGid H g)) m :=
  h.ends_onReplica (Replica.Linked.stable.ends_mergeWithGid h.linked g)
    ((stable_below M m.nextTime).ends_mergeWithGid ⟨h.linked.sound, h.holds⟩ g).2

theorem ends_acknowledgeFetch (h : Clocked H M slot stride m) (peer : String) (headGid : γ)
    (epochKey : EpochKey γ) : Effect.Ends (Clocked H M slot stride)
      (MintedReplica.onReplica (Replica.acknowledgeFetch peer headGid epochKey)) m :=
  h.ends_onReplica (Replica.Linked.stable.ends_acknowledgeFetch h.linked peer headGid epochKey)
    ((stable_below M m.nextTime).ends_acknowledgeFetch ⟨h.linked.sound, h.holds⟩ peer headGid
      epochKey).2

theorem ends_compactStable (h : Clocked H M slot stride m) (opts : CompactOpts) :
    Effect.Ends (Clocked H M slot stride)
      (MintedReplica.onReplica (Replica.compactStable H opts)) m :=
  h.ends_onReplica (Replica.Linked.stable.ends_compactStable h.linked opts)
    ((stable_below M m.nextTime).ends_compactStable ⟨h.linked.sound, h.holds⟩ opts).2

theorem ends_gc (h : Clocked H M slot stride m) :
    Effect.Ends (Clocked H M slot stride) (MintedReplica.onReplica Replica.gc) m :=
  h.ends_onReplica h.linked.ends_gc
    (Replica.ends_gc_of h.holds fun _ _ hdag => (Replica.shrinks_collected hdag).holds h.holds)

theorem ends_pruneToEpochBase (h : Clocked H M slot stride m) :
    Effect.Ends (Clocked H M slot stride) (MintedReplica.onReplica Replica.pruneToEpochBase) m :=
  h.ends_onReplica h.linked.ends_pruneToEpochBase
    (Replica.ends_pruneToEpochBase_of h.holds (fun hr _ => hr)
      fun _ _ _ _ hdag => (Replica.shrinks_pruned hdag _ _).holds h.holds)

end Clocked

end SalRuntime
