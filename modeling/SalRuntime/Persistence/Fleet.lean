import SalRuntime.Datatypes.EmbedRGA
import SalRuntime.Persistence.Records
import SalRuntime.Replica.Resync

/-!
# Nodes that are stopped and rebuilt

Nodes commit and synchronize, store their records, stop, and are rebuilt from stored records, under
the name they were stored under or another one. The events of a node are keyed by its name and its
sequence number. The number is restored for the stored name only, and only as high as it was when the
node was stored, so a node that is rebuilt may use the keys of earlier events again.

## Main definitions

* `Fleet`, `Fleet.Act`, `Fleet.run` — nodes, their records, and runs.
* `Fleet.opCommits` — every operation commit of every store, message and record.
* `Fleet.UniqueKeys` — two operation commits with the same key are the same.
* `Fleet.Orderly` — a node is rebuilt with a sequence number that no event of its name has reached.

## Main results

* `Fleet.uniqueKeys_of_orderly` — event keys are unique in orderly runs.
-/

namespace SalRuntime

/-- Nodes, some of them running, and what was ever stored. -/
structure Fleet (D : Datatype) (γ : Type) [LinearOrder γ] (N : ℕ) where
  /-- The nodes and what they sent. -/
  net : Network D γ N
  /-- The running nodes. -/
  running : Fin N → Bool
  /-- Every record that was stored. -/
  records : List (CommitRecord D γ)
  /-- The heads that were stored. -/
  heads : List (Heads γ)

variable {D : Datatype} {γ : Type} [LinearOrder γ] {N : ℕ} {H : ContentHash D.Op D.Print γ}

/-- The operation commits of a store, with their content ids. -/
def Replica.opCommits (r : Replica D γ) : List (Option γ × Op (Payload D.Op)) :=
  r.dag.commits.entries.filterMap fun e => e.2.op.map fun op => (r.gid.get? e.1, op)

omit [LinearOrder γ] in
/-- The operation of a wire commit, with its content id. -/
def WireCommit.opCommit (wc : WireCommit D γ) : Option (Option γ × Op (Payload D.Op)) :=
  match wc.body with
  | .op replica seq payload => some (wc.gid, ⟨replica, seq, payload⟩)
  | _ => none

namespace Fleet

/-- What happens to the nodes. -/
inductive Act (ω γ : Type) (N : ℕ)
  /-- Node `i` commits an operation. -/
  | commit (i : Fin N) (payload : ω)
  /-- Node `i` commits a batch. -/
  | commitBatch (i : Fin N) (ops : List ω)
  /-- Node `i` sends the delta for a peer that holds the given content ids. -/
  | send (i : Fin N) (theirGids : List γ)
  /-- Node `i` ingests the sent wire commits at the given positions. -/
  | deliver (i : Fin N) (positions : List ℕ)
  /-- Node `i` merges with a commit of its store. -/
  | mergeWithGid (i : Fin N) (g : γ)
  /-- A round between two nodes. -/
  | sync (i j : Fin N)
  /-- Node `i` compacts at its certified cut. -/
  | compactStable (i : Fin N)
  /-- Node `i` stores its records and its heads. -/
  | persist (i : Fin N)
  /-- Node `i` stops. -/
  | stop (i : Fin N)
  /-- Node `i` is rebuilt from the stored records at the given positions and the `k`-th stored heads,
  under their name or another one. -/
  | rebuild (i : Fin N) (positions : List ℕ) (k : ℕ) (name : Option String)
  deriving DecidableEq, Repr

/-- A call of running nodes. -/
def onRunning (H : ContentHash D.Op D.Print γ) (w : Fleet D γ N) (nodes : List (Fin N))
    (act : Network.Act D.Op γ N) : Fleet D γ N :=
  if nodes.all w.running then { w with net := Network.step H w.net act } else w

/-- Store the records of a node. -/
def persist (w : Fleet D γ N) (i : Fin N) : Fleet D γ N :=
  match (w.net.replicas i).nodeRecords with
  | .ok (records, heads) =>
    if w.running i then { w with records := w.records ++ records, heads := w.heads ++ [heads] }
    else w
  | .error _ => w

/-- Rebuild a node. -/
def rebuild (H : ContentHash D.Op D.Print γ) (w : Fleet D γ N) (i : Fin N) (positions : List ℕ)
    (heads : Heads γ) (name : Option String) : Fleet D γ N :=
  match rebuildNode H (positions.filterMap (w.records[·]?)) heads name with
  | .ok r =>
    { w with
      net := { w.net with replicas := Function.update w.net.replicas i r }
      running := Function.update w.running i true }
  | .error _ => w

/-- A step. -/
def step (H : ContentHash D.Op D.Print γ) (w : Fleet D γ N) : Act D.Op γ N → Fleet D γ N
  | .commit i payload => w.onRunning H [i] (.commit i payload)
  | .commitBatch i ops => w.onRunning H [i] (.commitBatch i ops)
  | .send i theirGids => w.onRunning H [i] (.send i theirGids)
  | .deliver i positions => w.onRunning H [i] (.deliver i positions)
  | .mergeWithGid i g => w.onRunning H [i] (.mergeWithGid i g)
  | .sync i j => w.onRunning H [i, j] (.sync i j)
  | .compactStable i => w.onRunning H [i] (.compactStable i)
  | .persist i => w.persist i
  | .stop i => { w with running := Function.update w.running i false }
  | .rebuild i positions k name =>
    match w.heads[k]? with
    | some heads => w.rebuild H i positions heads name
    | none => w

/-- A run. -/
def run (H : ContentHash D.Op D.Print γ) (w : Fleet D γ N) (acts : List (Act D.Op γ N)) :
    Fleet D γ N := acts.foldl (step H) w

/-- New nodes that have registered each other. -/
def start (D : Datatype) (H : ContentHash D.Op D.Print γ) (names : Fin N → String) :
    Fleet D γ N where
  net := Network.start D H names
  running _ := true
  records := []
  heads := []

/-- The operation commits of the stores, of the messages and of the records. -/
def opCommits (w : Fleet D γ N) : List (Option γ × Op (Payload D.Op)) :=
  (List.ofFn w.net.replicas).flatMap Replica.opCommits ++ w.net.sent.filterMap WireCommit.opCommit ++
    (w.records.filterMap CommitRecord.wire).filterMap WireCommit.opCommit

/-- Operation commits with the same event key are the same. -/
def UniqueKeys (w : Fleet D γ N) : Prop :=
  ∀ e ∈ w.opCommits, ∀ e' ∈ w.opCommits,
    e.2.replica = e'.2.replica → e.2.seq = e'.2.seq → e = e'

/-- A node is rebuilt under a name that runs nowhere else, and with a sequence number that no event of
the name has reached. -/
def Orderly (w : Fleet D γ N) : Act D.Op γ N → Prop
  | .rebuild i _ k name => ∀ heads ∈ w.heads[k]?,
      (∀ j, w.running j = true → (w.net.replicas j).name = name.getD heads.replica → j = i) ∧
      ∀ e ∈ w.opCommits, e.2.replica = name.getD heads.replica →
        e.2.seq < restoredSeq heads (name.getD heads.replica)
  | _ => True

/-- The steps of a run are orderly. -/
def OrderlyRun (H : ContentHash D.Op D.Print γ) : Fleet D γ N → List (Act D.Op γ N) → Prop
  | _, [] => True
  | w, act :: acts => Orderly w act ∧ OrderlyRun H (step H w act) acts

/-! ### The invariant -/

/-- Every replica is keyed, and what was sent is faithful. -/
structure NetKeyed (H : ContentHash D.Op D.Print γ) (W : γ → Op (Payload D.Op) → Prop)
    (names : Fin N → String) (seqs : Fin N → ℕ) (net : Network D γ N) : Prop where
  /-- The replicas. -/
  replicas : ∀ i, Replica.Keyed H W (names i) (seqs i) (net.replicas i)
  /-- What was sent. -/
  sent : ∀ wc ∈ net.sent, Replica.Faithful H W wc

/-- The operations that `W` allows have unique keys, and no running node has reached theirs. -/
structure Fresh (W : γ → Op (Payload D.Op) → Prop) (names : Fin N → String) (seqs : Fin N → ℕ)
    (running : Fin N → Bool) : Prop where
  /-- Operations with the same key are the same. -/
  unique : ∀ g g' op op', W g op → W g' op' → op.replica = op'.replica → op.seq = op'.seq →
    g = g' ∧ op = op'
  /-- A running node has passed the operations of its name. -/
  next : ∀ i, running i = true → ∀ g op, W g op → op.replica = names i → op.seq < seqs i
  /-- Running nodes have different names. -/
  distinct : ∀ i j, running i = true → running j = true → names i = names j → i = j

/-- The invariant: what is in the stores, messages and records is allowed, and allowed operations have
unique keys. -/
structure Invariant (H : ContentHash D.Op D.Print γ) (W : γ → Op (Payload D.Op) → Prop)
    (names : Fin N → String) (seqs : Fin N → ℕ) (w : Fleet D γ N) : Prop where
  /-- The nodes. -/
  net : NetKeyed H W names seqs w.net
  /-- The records. -/
  records : ∀ rec ∈ w.records, rec.Faithful H W
  /-- Operations are allowed under the ids of their contents. -/
  allowed : Replica.Sealed H W
  /-- Keys are unique. -/
  fresh : Fresh W names seqs w.running

section Net

variable {W : γ → Op (Payload D.Op) → Prop} {names : Fin N → String} {seqs : Fin N → ℕ}
  {net : Network D γ N}

/-- A call of one replica. -/
theorem NetKeyed.ends_on {α : Type} {i : Fin N} {call : Call D γ α}
    (h : NetKeyed H W names seqs net)
    (hcall : Effect.Ends (Replica.Keyed H W (names i) (seqs i)) call (net.replicas i)) :
    Effect.Ends (NetKeyed H W names seqs) (Network.on i call) net := by
  rw [Effect.Ends, Network.exec_on]
  refine ⟨fun k => ?_, h.sent⟩
  by_cases hk : k = i
  · subst hk
    show Replica.Keyed H W _ _ (Function.update net.replicas k _ k)
    rw [Function.update_self]
    exact hcall
  · simpa [Function.update_of_ne hk] using h.replicas k

variable (hsealed : Replica.Sealed H W)

include hsealed

theorem NetKeyed.ends_syncReplicas (h : NetKeyed H W names seqs net) (i j : Fin N) :
    Effect.Ends (NetKeyed H W names seqs) (Network.syncReplicas H i j) net := by
  have hQ (k : Fin N) : Replica.Stable H (fun _ => True) W (Replica.Keyed H W (names k) (seqs k)) :=
    Replica.Keyed.stable hsealed
  refine .bind_get (.bind_lift h fun _ _ => .bind_lift h fun _ _ => .bind_lift h fun toB hB =>
    .bind_lift h fun toA hA => ?_)
  have hfaithfulB wc (hwc : wc ∈ toB) := (h.replicas i).faithful_of_mem_delta hB hwc
  have hfaithfulA wc (hwc : wc ∈ toA) := (h.replicas j).faithful_of_mem_delta hA hwc
  refine .bind (h.ends_on ((hQ j).ends_ingest_resolved (fun wc _ => Replica.inline_true wc)
    (Replica.resolved_overWire hfaithfulB) (h.replicas j))) fun _ _ _ h => ?_
  refine .bind (h.ends_on ((hQ i).ends_ingest_resolved (fun wc _ => Replica.inline_true wc)
    (Replica.resolved_overWire hfaithfulA) (h.replicas i))) fun _ _ _ h => ?_
  refine .bind (h.ends_on ((hQ j).ends_mergeWithGid (h.replicas j) _)) fun _ _ _ h => ?_
  refine .bind (h.ends_on ((hQ i).ends_mergeWithGid (h.replicas i) _)) fun _ w _ h => .bind_get ?_
  refine .bind (h.ends_on ((hQ i).ends_acknowledgeFetch (h.replicas i) ..)) fun _ w _ h =>
    .bind_get ?_
  exact .bind (h.ends_on ((hQ j).ends_acknowledgeFetch (h.replicas j) ..)) fun _ _ _ h => .pure h _

omit hsealed in
theorem NetKeyed.ends_send (h : NetKeyed H W names seqs net) (i : Fin N) (theirGids : List γ) :
    Effect.Ends (NetKeyed H W names seqs) (Network.send H i theirGids) net := by
  refine .bind_get (.bind_lift h fun delta hdelta => .of_exec_eq (Effect.exec_set _ net) ?_)
  refine ⟨h.replicas, fun wc hwc => ?_⟩
  rcases List.mem_append.mp hwc with hwc | hwc
  · exact h.sent wc hwc
  · exact (h.replicas i).faithful_of_mem_delta hdelta hwc

theorem NetKeyed.ends_deliver (h : NetKeyed H W names seqs net) (i : Fin N) (positions : List ℕ) :
    Effect.Ends (NetKeyed H W names seqs) (Network.deliver H i positions) net := by
  refine .bind_get (.bind (h.ends_on ((Replica.Keyed.stable hsealed).ends_ingest_resolved
    (fun wc _ => Replica.inline_true wc) (Replica.resolved_of_faithful ?_ none) (h.replicas i)))
    fun _ _ _ h => .pure h _)
  intro wc hwc
  obtain ⟨k, -, hk⟩ := List.mem_filterMap.mp hwc
  exact h.sent wc (List.mem_of_getElem? hk)

omit hsealed in
/-- A call of one replica that authors at most one operation. -/
theorem NetKeyed.ends_authors {α : Type} {i : Fin N} {call : Call D γ α}
    (h : NetKeyed H W names seqs net)
    (hcall : Effect.Ends (Replica.Keyed.Authors H W (names i) (seqs i)) call (net.replicas i)) :
    Effect.Ends (fun net => NetKeyed H W names seqs net ∨ ∃ pg payload,
      NetKeyed H (Replica.Keyed.allowing W (opId H pg ⟨names i, seqs i, payload⟩)
        ⟨names i, seqs i, payload⟩) names (Function.update seqs i (seqs i + 1)) net)
      (Network.on i call) net := by
  rw [Effect.Ends, Network.exec_on]
  rcases hcall with hkept | ⟨pg, payload, hauthored⟩
  · refine Or.inl ⟨fun k => ?_, h.sent⟩
    by_cases hk : k = i
    · subst hk
      show Replica.Keyed H W _ _ (Function.update net.replicas k _ k)
      rw [Function.update_self]
      exact hkept
    · simpa [Function.update_of_ne hk] using h.replicas k
  · refine Or.inr ⟨pg, payload, fun k => ?_, fun wc hwc => ?_⟩
    · by_cases hk : k = i
      · subst hk
        show Replica.Keyed H _ _ (Function.update seqs k _ k) (Function.update net.replicas k _ k)
        rw [Function.update_self, Function.update_self]
        exact hauthored
      · show Replica.Keyed H _ _ (Function.update seqs i _ k) (Function.update net.replicas i _ k)
        rw [Function.update_of_ne hk, Function.update_of_ne hk]
        exact (h.replicas k).mono fun g op hW => Or.inl hW
    · exact (h.sent wc hwc).mono fun g op hW => Or.inl hW

end Net

/-! ### What is carried -/

theorem mem_opCommits_replica {r : Replica D γ} {e : Option γ × Op (Payload D.Op)} :
    e ∈ r.opCommits ↔ ∃ x c, r.dag.commits.get? x = some c ∧ c.op = some e.2 ∧
      r.gid.get? x = e.1 := by
  simp only [Replica.opCommits, List.mem_filterMap, Prod.exists, SortedMap.mem_entries_iff,
    Option.map_eq_some_iff]
  constructor
  · rintro ⟨x, c, hc, op, hop, rfl⟩
    exact ⟨x, c, hc, hop, rfl⟩
  · rintro ⟨x, c, hc, hop, hgid⟩
    exact ⟨x, c, hc, e.2, hop, Prod.ext hgid rfl⟩

omit [LinearOrder γ] in
theorem opCommit_eq_some_iff {wc : WireCommit D γ} {e : Option γ × Op (Payload D.Op)} :
    wc.opCommit = some e ↔ wc.body = .op e.2.replica e.2.seq e.2.payload ∧ wc.gid = e.1 := by
  obtain ⟨g, op⟩ := e
  cases hbody : wc.body with
  | op replica seq payload =>
    simp only [WireCommit.opCommit, hbody, Option.some.injEq, Prod.mk.injEq, WireBody.op.injEq]
    constructor
    · rintro ⟨rfl, rfl⟩
      simp
    · rintro ⟨⟨rfl, rfl, rfl⟩, rfl⟩
      simp
  | merge => simp [WireCommit.opCommit, hbody]
  | compact cut state => simp [WireCommit.opCommit, hbody]
  | base epoch fp roster proof state => simp [WireCommit.opCommit, hbody]

theorem mem_opCommits {w : Fleet D γ N} {e : Option γ × Op (Payload D.Op)} :
    e ∈ w.opCommits ↔ (∃ i, e ∈ (w.net.replicas i).opCommits) ∨
      (∃ wc ∈ w.net.sent, wc.opCommit = some e) ∨
      ∃ rec ∈ w.records, ∃ wc, rec.wire = some wc ∧ wc.opCommit = some e := by
  simp only [opCommits, List.mem_append, List.mem_flatMap, List.mem_ofFn, List.mem_filterMap,
    exists_exists_eq_and, or_assoc]
  refine or_congr_right (or_congr_right ?_)
  exact ⟨fun ⟨wc, ⟨rec, hrec, hwc⟩, he⟩ => ⟨rec, hrec, wc, hwc, he⟩,
    fun ⟨rec, hrec, wc, hwc, he⟩ => ⟨wc, ⟨rec, hrec, hwc⟩, he⟩⟩

/-- The operation is carried somewhere under the content id. -/
def Carries (w : Fleet D γ N) (g : γ) (op : Op (Payload D.Op)) : Prop := (some g, op) ∈ w.opCommits

section Invariant

variable {W : γ → Op (Payload D.Op) → Prop} {names : Fin N → String} {seqs : Fin N → ℕ}
  {w : Fleet D γ N}

/-- What is carried is allowed. -/
theorem Invariant.allowed_of_mem (h : Invariant H W names seqs w)
    {e : Option γ × Op (Payload D.Op)} (he : e ∈ w.opCommits) : ∃ g, e.1 = some g ∧ W g e.2 := by
  rcases mem_opCommits.mp he with ⟨i, hi⟩ | ⟨wc, hwc, hop⟩ | ⟨rec, hrec, wc, hwc, hop⟩
  · obtain ⟨x, c, hc, hop, hgid⟩ := mem_opCommits_replica.mp hi
    obtain ⟨p, pg, -, -, hx, hW⟩ := (h.net.replicas i).ops x c e.2 hc hop
    exact ⟨_, hgid.symm.trans hx, hW⟩
  · obtain ⟨hbody, hgid⟩ := opCommit_eq_some_iff.mp hop
    obtain ⟨pg, -, hx, hW⟩ := h.net.sent wc hwc e.2 hbody
    exact ⟨_, hgid.symm.trans hx, hW⟩
  · obtain ⟨hbody, hgid⟩ := opCommit_eq_some_iff.mp hop
    obtain ⟨pg, -, hx, hW⟩ := h.records rec hrec wc hwc e.2 hbody
    exact ⟨_, hgid.symm.trans hx, hW⟩

/-- **Keys are unique** under the invariant. -/
theorem Invariant.uniqueKeys (h : Invariant H W names seqs w) : UniqueKeys w := by
  intro e he e' he' hreplica hseq
  obtain ⟨g, hg, hW⟩ := h.allowed_of_mem he
  obtain ⟨g', hg', hW'⟩ := h.allowed_of_mem he'
  obtain ⟨rfl, hop⟩ := h.fresh.unique g g' e.2 e'.2 hW hW' hreplica hseq
  exact Prod.ext (hg.trans hg'.symm) hop

/-- Only what is carried need be allowed. -/
theorem Invariant.tighten (h : Invariant H W names seqs w) :
    Invariant H w.Carries names seqs w := by
  have hW {g : γ} {op : Op (Payload D.Op)} (hcarries : w.Carries g op) : W g op := by
    obtain ⟨g', hg', hW⟩ := h.allowed_of_mem hcarries
    exact Option.some.inj hg' ▸ hW
  refine ⟨⟨fun i => ?_, fun wc hwc op hbody => ?_⟩, fun rec hrec wc hwc op hbody => ?_,
    fun g op hcarries => h.allowed g op (hW hcarries), ?_⟩
  · obtain ⟨hsound, hheaded, hops, hname, hseq⟩ := h.net.replicas i
    refine ⟨hsound, hheaded, fun x c op hc hop => ?_, hname, hseq⟩
    obtain ⟨p, pg, hp, hpg, hx, -⟩ := hops x c op hc hop
    exact ⟨p, pg, hp, hpg, hx, mem_opCommits.mpr (Or.inl ⟨i, mem_opCommits_replica.mpr
      ⟨x, c, hc, hop, hx⟩⟩)⟩
  · obtain ⟨pg, hp, hx, -⟩ := h.net.sent wc hwc op hbody
    exact ⟨pg, hp, hx, mem_opCommits.mpr (Or.inr (Or.inl ⟨wc, hwc,
      opCommit_eq_some_iff.mpr ⟨hbody, hx⟩⟩))⟩
  · obtain ⟨pg, hp, hx, -⟩ := h.records rec hrec wc hwc op hbody
    exact ⟨pg, hp, hx, mem_opCommits.mpr (Or.inr (Or.inr ⟨rec, hrec, wc, hwc,
      opCommit_eq_some_iff.mpr ⟨hbody, hx⟩⟩))⟩
  · exact ⟨fun g g' op op' ho ho' => h.fresh.unique g g' op op' (hW ho) (hW ho'),
      fun i hi g op ho => h.fresh.next i hi g op (hW ho), h.fresh.distinct⟩

/-! ### Steps -/

/-- A call of the running nodes that authors nothing. -/
theorem Invariant.onRunning (h : Invariant H W names seqs w) {nodes : List (Fin N)}
    {act : Network.Act D.Op γ N}
    (hact : Effect.Ends (NetKeyed H W names seqs) (Network.call H act) w.net) :
    Invariant H W names seqs (w.onRunning H nodes act) := by
  rw [Fleet.onRunning]
  split_ifs
  · exact ⟨hact, h.records, h.allowed, h.fresh⟩
  · exact h

omit [LinearOrder γ] in
/-- **A local operation** gets a key that no operation has. -/
theorem Fresh.author {running : Fin N → Bool} (h : Fresh W names seqs running) {i : Fin N}
    (hi : running i = true) (g : γ) (payload : Payload D.Op) :
    Fresh (Replica.Keyed.allowing W g ⟨names i, seqs i, payload⟩) names
      (Function.update seqs i (seqs i + 1)) running := by
  refine ⟨?_, fun j hj g' op hop hname => ?_, h.distinct⟩
  · rintro k k' op op' (hop | ⟨rfl, rfl⟩) (hop' | ⟨rfl, rfl⟩) hreplica hseq
    · exact h.unique k k' op op' hop hop' hreplica hseq
    · exact absurd hseq (h.next i hi k op hop hreplica).ne
    · exact absurd hseq.symm (h.next i hi k' op' hop' hreplica.symm).ne
    · exact ⟨rfl, rfl⟩
  · by_cases hji : j = i
    · subst hji
      rw [Function.update_self]
      rcases hop with hop | ⟨-, rfl⟩
      · exact (h.next j hj g' op hop hname).trans (Nat.lt_succ_self _)
      · exact Nat.lt_succ_self _
    · rw [Function.update_of_ne hji]
      rcases hop with hop | ⟨-, rfl⟩
      · exact h.next j hj g' op hop hname
      · exact absurd (h.distinct i j hi hj hname).symm hji

/-- A running node authors at most one operation. -/
theorem Invariant.author (h : Invariant H W names seqs w) {i : Fin N} {α : Type}
    (act : Network.Act D.Op γ N) {call : Call D γ α}
    (hact : Network.call H act = do let _ ← Network.on i call)
    (hcall : Effect.Ends (Replica.Keyed.Authors H W (names i) (seqs i)) call (w.net.replicas i)) :
    ∃ W' seqs', Invariant H W' names seqs' (w.onRunning H [i] act) := by
  rw [Fleet.onRunning]
  split_ifs with hrunning
  swap
  · exact ⟨W, seqs, h⟩
  have hi : w.running i = true := by simpa using hrunning
  have hstep : (Effect.exec (Network.call H act) w.net).2 =
      (Effect.exec (Network.on i call) w.net).2 := by
    rw [hact, Effect.exec_bind]
    rcases Effect.exec (Network.on i call) w.net with ⟨e | a, net⟩
    · rfl
    · rfl
  have hends := h.net.ends_authors hcall
  rw [Effect.Ends, ← hstep] at hends
  rcases hends with hkept | ⟨pg, payload, hauthored⟩
  · exact ⟨W, seqs, hkept, h.records, h.allowed, h.fresh⟩
  · refine ⟨_, _, hauthored, fun rec hrec wc hwc => ?_, ?_, h.fresh.author hi _ payload⟩
    · exact (h.records rec hrec wc hwc).mono fun g op hW => Or.inl hW
    · rintro g op (hop | ⟨rfl, rfl⟩)
      · exact h.allowed g op hop
      · exact ⟨pg, rfl⟩

theorem Invariant.persist (h : Invariant H W names seqs w) (i : Fin N) :
    Invariant H W names seqs (w.persist i) := by
  rw [Fleet.persist]
  split
  · rename_i records heads hrecords
    split_ifs
    · refine ⟨h.net, fun rec hrec => ?_, h.allowed, h.fresh⟩
      rcases List.mem_append.mp hrec with hrec | hrec
      · exact h.records rec hrec
      · exact (h.net.replicas i).faithful_of_mem_nodeRecords hrecords hrec
    · exact h
  · exact h

theorem Invariant.stop (h : Invariant H W names seqs w) (i : Fin N) :
    Invariant H W names seqs { w with running := Function.update w.running i false } := by
  have hrunning {j : Fin N} (hj : Function.update w.running i false j = true) :
      w.running j = true := by
    by_cases hji : j = i
    · subst hji
      rw [Function.update_self] at hj
      cases hj
    · rwa [Function.update_of_ne hji] at hj
  exact ⟨h.net, h.records, h.allowed, h.fresh.unique,
    fun j hj => h.fresh.next j (hrunning hj),
    fun j k hj hk => h.fresh.distinct j k (hrunning hj) (hrunning hk)⟩

/-- **An orderly rebuild** goes on above the operations of the name. -/
theorem Invariant.rebuild (h : Invariant H W names seqs w) {i : Fin N} (positions : List ℕ)
    {heads : Heads γ} {name : Option String}
    (hname : ∀ j, w.running j = true → (w.net.replicas j).name = name.getD heads.replica → j = i)
    (hseq : ∀ g op, W g op → op.replica = name.getD heads.replica →
      op.seq < restoredSeq heads (name.getD heads.replica)) :
    ∃ names' seqs', Invariant H W names' seqs' (w.rebuild H i positions heads name) := by
  rw [Fleet.rebuild]
  split
  swap
  · exact ⟨names, seqs, h⟩
  rename_i r hr
  set asName := name.getD heads.replica
  have hrecords : ∀ rec ∈ positions.filterMap (w.records[·]?), rec.Faithful H W := by
    intro rec hrec
    obtain ⟨k, -, hk⟩ := List.mem_filterMap.mp hrec
    exact h.records rec (List.mem_of_getElem? hk)
  have hkeyed := Replica.Keyed.rebuildNode h.allowed hrecords hr
  have hrunning {j : Fin N} (hji : j ≠ i) (hj : Function.update w.running i true j = true) :
      w.running j = true := by rwa [Function.update_of_ne hji] at hj
  have hother {j : Fin N} (hji : j ≠ i) (hj : Function.update w.running i true j = true) :
      names j ≠ asName := fun heq =>
    hji (hname j (hrunning hji hj) ((h.net.replicas j).name.trans heq))
  refine ⟨Function.update names i asName, Function.update seqs i (restoredSeq heads asName),
    ⟨fun j => ?_, h.net.sent⟩, h.records, h.allowed, h.fresh.unique, fun j hj g op hop hopname => ?_,
    fun j k hj hk hjk => ?_⟩
  · by_cases hji : j = i
    · subst hji
      show Replica.Keyed H W (Function.update names j _ j) (Function.update seqs j _ j)
        (Function.update w.net.replicas j r j)
      rw [Function.update_self, Function.update_self, Function.update_self]
      exact hkeyed
    · show Replica.Keyed H W (Function.update names i _ j) (Function.update seqs i _ j)
        (Function.update w.net.replicas i r j)
      rw [Function.update_of_ne hji, Function.update_of_ne hji, Function.update_of_ne hji]
      exact h.net.replicas j
  · by_cases hji : j = i
    · subst hji
      rw [Function.update_self] at hopname ⊢
      exact hseq g op hop hopname
    · rw [Function.update_of_ne hji] at hopname ⊢
      exact h.fresh.next j (hrunning hji hj) g op hop hopname
  · by_cases hji : j = i
    · subst hji
      by_cases hkj : k = j
      · exact hkj.symm
      · rw [Function.update_self, Function.update_of_ne hkj] at hjk
        exact absurd hjk.symm (hother hkj hk)
    · by_cases hki : k = i
      · subst hki
        rw [Function.update_self, Function.update_of_ne hji] at hjk
        exact absurd hjk (hother hji hj)
      · rw [Function.update_of_ne hji, Function.update_of_ne hki] at hjk
        exact h.fresh.distinct j k (hrunning hji hj) (hrunning hki hk) hjk

/-- **Orderly steps** keep the invariant. -/
theorem Invariant.step (h : Invariant H W names seqs w) {act : Act D.Op γ N}
    (hact : Orderly w act) :
    ∃ W' names' seqs', Invariant H W' names' seqs' (step H w act) := by
  have hQ (i : Fin N) : Replica.Stable H (fun _ => True) W
      (Replica.Keyed H W (names i) (seqs i)) :=
    Replica.Keyed.stable h.allowed
  match act with
  | .commit i payload =>
    obtain ⟨W', seqs', h'⟩ := h.author (.commit i payload) rfl
      ((h.net.replicas i).ends_commit payload)
    exact ⟨W', names, seqs', h'⟩
  | .commitBatch i ops =>
    obtain ⟨W', seqs', h'⟩ := h.author (.commitBatch i ops) rfl
      ((h.net.replicas i).ends_commitBatch ops)
    exact ⟨W', names, seqs', h'⟩
  | .send i theirGids => exact ⟨W, names, seqs, h.onRunning (h.net.ends_send i theirGids)⟩
  | .deliver i positions =>
    exact ⟨W, names, seqs, h.onRunning (h.net.ends_deliver h.allowed i positions)⟩
  | .mergeWithGid i g =>
    exact ⟨W, names, seqs, h.onRunning (.bind
      (h.net.ends_on ((hQ i).ends_mergeWithGid (h.net.replicas i) g)) fun _ _ _ h => .pure h _)⟩
  | .sync i j => exact ⟨W, names, seqs, h.onRunning (h.net.ends_syncReplicas h.allowed i j)⟩
  | .compactStable i =>
    exact ⟨W, names, seqs, h.onRunning (.bind
      (h.net.ends_on ((hQ i).ends_compactStable (h.net.replicas i) _)) fun _ _ _ h => .pure h _)⟩
  | .persist i => exact ⟨W, names, seqs, h.persist i⟩
  | .stop i => exact ⟨W, names, seqs, h.stop i⟩
  | .rebuild i positions k name =>
    rw [Fleet.step]
    split
    · rename_i heads hheads
      obtain ⟨hname, hseq⟩ := hact heads hheads
      have hcarried : ∀ g op, w.Carries g op → op.replica = name.getD heads.replica →
          op.seq < restoredSeq heads (name.getD heads.replica) := fun g op hop => hseq _ hop
      obtain ⟨names', seqs', h'⟩ := h.tighten.rebuild positions hname hcarried
      exact ⟨_, names', seqs', h'⟩
    · exact ⟨W, names, seqs, h⟩

end Invariant

/-- **Orderly runs** keep keys unique. -/
theorem Invariant.run {W : γ → Op (Payload D.Op) → Prop} {names : Fin N → String}
    {seqs : Fin N → ℕ} {w : Fleet D γ N} (h : Invariant H W names seqs w)
    {acts : List (Act D.Op γ N)} (hacts : OrderlyRun H w acts) (k : ℕ) :
    UniqueKeys (run H w (acts.take k)) := by
  induction acts generalizing W names seqs w k with
  | nil =>
    rw [List.take_nil]
    exact h.uniqueKeys
  | cons act acts ih =>
    cases k with
    | zero => exact h.uniqueKeys
    | succ k =>
      obtain ⟨W', names', seqs', h'⟩ := h.step hacts.1
      exact ih h' hacts.2 k

/-- New nodes with different names. -/
theorem invariant_start {names : Fin N → String} (hnames : Function.Injective names) :
    Invariant H (fun _ _ => False) names (fun _ => 0) (start D H names) where
  net := ⟨fun i =>
    have h := Replica.Keyed.create (H := H) (W := fun _ _ => False) (names i)
    ⟨h.sound.congr rfl rfl rfl rfl h.sound.head, h.headed, h.ops, rfl, rfl⟩,
    by simp [start, Network.start]⟩
  records := by simp [start]
  allowed := by simp [Replica.Sealed]
  fresh := ⟨by simp, by simp, fun i j _ _ hij => hnames hij⟩

/-- **Unique event keys.** In a run of nodes that commit, synchronize, store their records and are
rebuilt, always under a name that runs nowhere else and with a sequence number that no event of the
name has reached, operation commits with the same key are the same. -/
theorem uniqueKeys_of_orderly {names : Fin N → String} (hnames : Function.Injective names)
    {acts : List (Act D.Op γ N)} (hacts : OrderlyRun H (start D H names) acts) (k : ℕ) :
    UniqueKeys (run H (start D H names) (acts.take k)) :=
  (invariant_start hnames).run hacts k

section Reopened

instance decidableOrderly (w : Fleet D γ N) : (act : Act D.Op γ N) → Decidable (Orderly w act)
  | .rebuild _ _ k _ => inferInstanceAs (Decidable (∀ heads ∈ w.heads[k]?, _ ∧ _))
  | .commit .. => .isTrue trivial
  | .commitBatch .. => .isTrue trivial
  | .send .. => .isTrue trivial
  | .deliver .. => .isTrue trivial
  | .mergeWithGid .. => .isTrue trivial
  | .sync .. => .isTrue trivial
  | .compactStable .. => .isTrue trivial
  | .persist .. => .isTrue trivial
  | .stop .. => .isTrue trivial

instance decidableOrderlyRun (H : ContentHash D.Op D.Print γ) : (w : Fleet D γ N) →
    (acts : List (Act D.Op γ N)) → Decidable (OrderlyRun H w acts)
  | _, [] => .isTrue trivial
  | w, act :: acts =>
    have := decidableOrderlyRun H (step H w act) acts
    inferInstanceAs (Decidable (_ ∧ _))

/-- A hash for two keystrokes of `a`. -/
noncomputable def reopenHash : ContentHash (embedRGA Char).Op (embedRGA Char).Print ℕ :=
  .ofTable [.root, .authored [0] "a" 0 (.one (.ins 1 'x' none)),
    .authored [1] "a" 1 (.one (.ins 2 'y' (some 1))),
    .authored [1] "a" 0 (.one (.ins 2 'y' (some 1)))]

/-- The names of two nodes. -/
def reopenNames : Fin 2 → String := ![ "a", "b"]

theorem reopenNames_injective : Function.Injective reopenNames := by decide

/-- The two nodes. -/
noncomputable def reopenStart : Fleet (embedRGA Char) ℕ 2 := start _ reopenHash reopenNames

/-- The first node. -/
def nodeA : Fin 2 := ⟨0, Nat.zero_lt_two⟩

/-- The second node. -/
def nodeB : Fin 2 := ⟨1, Nat.one_lt_two⟩

/-- The node `a` types, stores its records, stops, is rebuilt, and types again. -/
def reopened : List (Act (embedRGA Char).Op ℕ 2) :=
  [.commit nodeA (.ins 1 'x' none), .persist nodeA, .stop nodeA, .rebuild nodeA [0, 1] 0 none,
    .commit nodeA (.ins 2 'y' (some 1))]

theorem uniqueKeys_of_orderly_reopened :
    UniqueKeys (run reopenHash reopenStart (reopened.take 5)) :=
  uniqueKeys_of_orderly reopenNames_injective (by decide) 5

/-- The node `a` types, `b` synchronizes with it and stores its records, and `a` stops. The records
are opened under the name `a`, and the next character is typed. -/
def renamed : List (Act (embedRGA Char).Op ℕ 2) :=
  [.commit nodeA (.ins 1 'x' none), .sync nodeA nodeB, .persist nodeB, .stop nodeA,
    .rebuild nodeA [0, 1] 0 (some "a"), .commit nodeA (.ins 2 'y' (some 1))]

/-- **A name that returns uses its keys again.** The name `a` has authored and runs nowhere. Yet its
next event has the key of its first one. -/
theorem not_uniqueKeys_renamed :
    let w := run reopenHash reopenStart (renamed.take 4)
    (∀ j, w.running j = true → (w.net.replicas j).name ≠ "a") ∧
      (∃ e ∈ w.opCommits, e.2.replica = "a") ∧
      ¬ UniqueKeys (run reopenHash reopenStart renamed) := by
  refine ⟨by decide +kernel, by decide +kernel, fun hunique => ?_⟩
  have h := hunique (some 1, ⟨"a", 0, .one (.ins 1 'x' none)⟩) (by decide +kernel)
    (some 3, ⟨"a", 0, .one (.ins 2 'y' (some 1))⟩) (by decide +kernel) rfl rfl
  cases h

end Reopened

end Fleet

end SalRuntime
