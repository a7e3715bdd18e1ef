import Mathlib.Data.Fin.VecNotation
import SalRuntime.Mint.Clocked
import SalRuntime.Mint.DatedText

/-!
# Networks of replicas that mint

Replicas with mints that exchange deltas. The mints have different slots and one stride. The times
that they give are fresh and later than every id in the head state of their replica, as long as no
replica receives a state with an id that its mint has not passed: the mints observe the operations
that are received, but not the states of epoch bases and boundaries.

## Main definitions

* `MintedNetwork`, `MintedNetwork.Act`, `MintedNetwork.run` — replicas with mints, and runs.
* `MintedNetwork.Lamport` — the times are fresh, and later than what their replicas held.
* `MintedNetwork.coversRun` — the mints are ahead of the states that their replicas receive.

## Main results

* `MintedNetwork.lamport_of_covers` — the times are fresh and later in runs that cover.
* `MintedNetwork.not_lamport_bootstrapped` — a replica that starts from an epoch base mints a time
  that is earlier than the ids in the base.
-/

namespace SalRuntime

/-- Replicas with mints, and the deltas that were sent. -/
structure MintedNetwork (D : Datatype) (γ : Type) [LinearOrder γ] (N : ℕ) where
  /-- The replicas. -/
  replicas : Fin N → MintedReplica D γ
  /-- Every delta that was ever sent, in order. -/
  sent : List (List (WireCommit (timed D) γ))

variable {D : Datatype} {γ : Type} [LinearOrder γ] {N : ℕ} {H : ContentHash (Timed D.Op) D.Print γ}
  {M : Dated D}

namespace MintedNetwork

/-- A call in a network, over operations `ω` and content ids `γ`. -/
inductive Act (ω γ : Type) (N : ℕ)
  /-- Replica `i` mints a time. -/
  | mintTime (i : Fin N)
  /-- Replica `i` stamps an operation. -/
  | generate (i : Fin N) (payload : ω)
  /-- Replica `i` stamps operations. -/
  | generateBatch (i : Fin N) (payloads : List ω)
  /-- Replica `i` stamps an operation and commits it. -/
  | commitGenerated (i : Fin N) (payload : ω)
  /-- Replica `i` stamps operations and commits them as one. -/
  | commitGeneratedBatch (i : Fin N) (payloads : List ω)
  /-- Replica `i` commits an operation. -/
  | commit (i : Fin N) (payload : ω)
  /-- Replica `i` commits a batch. -/
  | commitBatch (i : Fin N) (ops : List ω)
  /-- Replica `i` registers a member. -/
  | register (i : Fin N) (name : String)
  /-- Replica `i` sends the delta for a peer that holds the given content ids. -/
  | send (i : Fin N) (theirGids : List γ)
  /-- Replica `i` ingests the `k`-th delta, over the wire or as it is. -/
  | deliver (i : Fin N) (k : ℕ) (wire : Bool)
  /-- Replica `i` merges with a commit of its store. -/
  | mergeWithGid (i : Fin N) (g : γ)
  /-- Replica `i` records that a peer has fetched a head. -/
  | acknowledgeFetch (i : Fin N) (peer : String) (headGid : γ) (epochKey : EpochKey γ)
  /-- Replica `i` compacts at its certified cut. -/
  | compactStable (i : Fin N) (opts : CompactOpts)
  /-- Replica `i` collects its history. -/
  | gc (i : Fin N)
  /-- Replica `i` prunes its history. -/
  | prune (i : Fin N)

/-- Call a replica. -/
def on {α : Type} (i : Fin N) (call : MintCall D γ α) : Effect (MintedNetwork D γ N) Failure α := do
  let w ← get
  let (res, m) := call.exec (w.replicas i)
  set { w with replicas := Function.update w.replicas i m }
  liftM res

theorem exec_on {α : Type} (i : Fin N) (call : MintCall D γ α) (w : MintedNetwork D γ N) :
    Effect.exec (on i call) w = ((call.exec (w.replicas i)).1,
      { w with replicas := Function.update w.replicas i (call.exec (w.replicas i)).2 }) := by
  rw [on, Effect.exec_bind_ok (Effect.exec_get w)]
  exact (Effect.exec_bind_ok (Effect.exec_set _ w) _).trans (Effect.exec_lift _ _)

variable (H M)

/-- Send a delta. A commit whose parent has no content id cannot be encoded. -/
def send (i : Fin N) (theirGids : List γ) : Effect (MintedNetwork D γ N) Failure Unit := do
  let w ← get
  let delta ← (w.replicas i).replica.delta H theirGids
  if delta.any fun wc => wc.parents.any Option.isNone then
    throw (.error "wire: unsupported value undefined")
  else set { w with sent := w.sent ++ [delta] }

/-- A delta, over the wire or as it is. -/
def received (wire : Bool) (delta : List (WireCommit (timed D) γ)) :
    List (WireCommit (timed D) γ) := if wire then overWire delta else delta

/-- Deliver a delta. -/
def deliver (i : Fin N) (k : ℕ) (wire : Bool) : Effect (MintedNetwork D γ N) Failure Unit := do
  let w ← get
  match w.sent[k]? with
  | some delta => do let _ ← on i (MintedReplica.ingest H M (received wire delta))
  | none => pure ()

/-- The calls. -/
def call : Act (Timed D.Op) γ N → Effect (MintedNetwork D γ N) Failure Unit
  | .mintTime i => do let _ ← on i (MintedReplica.mintTime M)
  | .generate i payload => do let _ ← on i (MintedReplica.generate M payload)
  | .generateBatch i payloads => do let _ ← on i (MintedReplica.generateBatch M payloads)
  | .commitGenerated i payload => do let _ ← on i (MintedReplica.commitGenerated H M payload)
  | .commitGeneratedBatch i payloads => do
    let _ ← on i (MintedReplica.commitGeneratedBatch H M payloads)
  | .commit i payload => do let _ ← on i (MintedReplica.commit H M payload)
  | .commitBatch i ops => do let _ ← on i (MintedReplica.commitBatch H M ops)
  | .register i name => do let _ ← on i (MintedReplica.onReplica (Replica.register name))
  | .send i theirGids => send H i theirGids
  | .deliver i k wire => deliver H M i k wire
  | .mergeWithGid i g => do let _ ← on i (MintedReplica.onReplica (Replica.mergeWithGid H g))
  | .acknowledgeFetch i peer headGid epochKey => do
    let _ ← on i (MintedReplica.onReplica (Replica.acknowledgeFetch peer headGid epochKey))
  | .compactStable i opts => do
    let _ ← on i (MintedReplica.onReplica (Replica.compactStable H opts))
  | .gc i => do let _ ← on i (MintedReplica.onReplica Replica.gc)
  | .prune i => do let _ ← on i (MintedReplica.onReplica Replica.pruneToEpochBase)

/-- The network after a call. What a call that throws has changed stays changed. -/
def step (w : MintedNetwork D γ N) (act : Act (Timed D.Op) γ N) : MintedNetwork D γ N :=
  ((call H M act).exec w).2

/-- The network after a sequence of calls. -/
def run (w : MintedNetwork D γ N) (acts : List (Act (Timed D.Op) γ N)) : MintedNetwork D γ N :=
  acts.foldl (step H M) w

/-- New replicas with mints. -/
def start (D : Datatype) (H : ContentHash (Timed D.Op) D.Print γ) (names : Fin N → String)
    (mints : Fin N → LamportMint) : MintedNetwork D γ N where
  replicas i := MintedReplica.create D H (names i) (some (mints i))
  sent := []

variable {H M}

/-- The times that were given. -/
def times (w : MintedNetwork D γ N) : List ℕ :=
  (List.ofFn w.replicas).flatMap fun m => m.issued.map Issue.time

/-- **Fresh and later times.** The times that were given are different, and each was later than the
ids in the head state of its replica. -/
structure Lamport (w : MintedNetwork D γ N) : Prop where
  /-- No time is given twice. -/
  fresh : w.times.Nodup
  /-- A time is later than what its replica held. -/
  later : ∀ i, ∀ issue ∈ (w.replicas i).issued, ∀ id ∈ issue.seen, id < issue.time

variable (H M)

/-- Operations that are committed are honest, and whenever a commit with a state is ingested, the mint
of the receiver is ahead of the state. -/
def covers (w : MintedNetwork D γ N) : Act (Timed D.Op) γ N → Bool
  | .commit _ payload => decide (Honest M (.one payload))
  | .commitBatch _ ops => decide (Honest M (.many ops))
  | .deliver i k wire =>
    match w.sent[k]? with
    | some delta => covered H M (w.replicas i) none (received wire delta)
    | none => true
  | _ => true

/-- The steps of a run cover. -/
def coversRun (w : MintedNetwork D γ N) : List (Act (Timed D.Op) γ N) → Bool
  | [] => true
  | act :: acts => covers H M w act && coversRun (step H M w act) acts

/-! ### The invariant -/

/-- Every mint is ahead of the store of its replica, and what was sent is faithful. -/
structure Ahead (mints : Fin N → LamportMint) (w : MintedNetwork D γ N) : Prop where
  /-- The replicas. -/
  replicas : ∀ i, Clocked H M (mints i).slot (mints i).stride (w.replicas i)
  /-- What was sent. -/
  sent : ∀ delta ∈ w.sent, ∀ wc ∈ delta,
    Replica.Faithful H (Replica.Allowed H (Honest M)) wc

variable {H M}

namespace Ahead

variable {mints : Fin N → LamportMint} {w : MintedNetwork D γ N}

theorem start (names : Fin N → String) : Ahead H M mints (start D H names mints) where
  replicas i := Clocked.create (names i) (mints i)
  sent := by simp [MintedNetwork.start]

/-- **Ahead mints give fresh and later times.** -/
theorem lamport (h : Ahead H M mints w)
    (hslots : Function.Injective fun i => (mints i).slot) {stride : ℕ}
    (hstride : ∀ i, (mints i).stride = stride) : Lamport w where
  fresh := by
    rw [times, List.nodup_flatMap]
    constructor
    · intro m hm
      obtain ⟨i, rfl⟩ := List.mem_ofFn.mp hm
      exact (h.replicas i).distinct
    · rw [List.pairwise_ofFn]
      intro i j hij t hi hj
      obtain ⟨issue, hissue, rfl⟩ := List.mem_map.mp hi
      obtain ⟨issue', hissue', heq⟩ := List.mem_map.mp hj
      have hmod := (h.replicas i).slotted issue hissue
      have hmod' := (h.replicas j).slotted issue' hissue'
      rw [hstride] at hmod hmod'
      rw [heq, hmod] at hmod'
      exact hij.ne (hslots hmod')
  later i := (h.replicas i).above

/-- A call of one replica. -/
theorem ends_on {α : Type} {i : Fin N} {call : MintCall D γ α} (h : Ahead H M mints w)
    (hcall : Effect.Ends (Clocked H M (mints i).slot (mints i).stride) call (w.replicas i)) :
    Effect.Ends (Ahead H M mints) (on i call) w := by
  rw [Effect.Ends] at hcall
  rw [Effect.Ends, exec_on]
  refine ⟨fun k => ?_, h.sent⟩
  by_cases hk : k = i
  · subst hk
    simpa using hcall
  · simpa [Function.update_of_ne hk] using h.replicas k

theorem ends_send (h : Ahead H M mints w) (i : Fin N) (theirGids : List γ) :
    Effect.Ends (Ahead H M mints) (send H i theirGids) w := by
  refine .bind_get (.bind_lift h fun delta hdelta => ?_)
  split_ifs with hnone
  · exact .throw h _
  · refine .of_exec_eq (Effect.exec_set _ w) ⟨h.replicas, fun delta' hmem wc hwc => ?_⟩
    rcases List.mem_append.mp hmem with hold | hnew
    · exact h.sent delta' hold wc hwc
    · rw [List.mem_singleton.mp hnew] at hwc
      refine (h.replicas i).linked.faithful_of_mem_delta hdelta hwc fun hmem => hnone ?_
      exact List.any_eq_true.mpr ⟨wc, hwc, List.any_eq_true.mpr ⟨none, hmem, rfl⟩⟩

theorem resolved_received (h : Ahead H M mints w) {delta : List (WireCommit (timed D) γ)}
    (hdelta : delta ∈ w.sent) (wire : Bool) :
    Replica.Resolved H (Replica.Allowed H (Honest M)) none (received wire delta) := by
  cases wire with
  | true => exact Replica.resolved_overWire (h.sent delta hdelta)
  | false => exact Replica.resolved_of_faithful (h.sent delta hdelta) none

/-- **A call that covers** keeps the mints ahead. -/
theorem ends_call (h : Ahead H M mints w) {act : Act (Timed D.Op) γ N}
    (hact : covers H M w act = true) : Effect.Ends (Ahead H M mints) (call H M act) w := by
  cases act with
  | mintTime i =>
    exact .bind (h.ends_on (h.replicas i).ends_mintTime) fun _ _ _ h' => .pure h' _
  | generate i payload =>
    exact .bind (h.ends_on ((h.replicas i).ends_generate payload)) fun _ _ _ h' => .pure h' _
  | generateBatch i payloads =>
    exact .bind (h.ends_on ((h.replicas i).ends_generateBatch payloads)) fun _ _ _ h' => .pure h' _
  | commitGenerated i payload =>
    exact .bind (h.ends_on ((h.replicas i).ends_commitGenerated payload)) fun _ _ _ h' =>
      .pure h' _
  | commitGeneratedBatch i payloads =>
    exact .bind (h.ends_on ((h.replicas i).ends_commitGeneratedBatch payloads)) fun _ _ _ h' =>
      .pure h' _
  | commit i payload =>
    have hhonest : Honest M (.one payload) := of_decide_eq_true hact
    exact .bind (h.ends_on ((h.replicas i).ends_commit hhonest)) fun _ _ _ h' => .pure h' _
  | commitBatch i ops =>
    have hhonest : Honest M (.many ops) := of_decide_eq_true hact
    exact .bind (h.ends_on ((h.replicas i).ends_commitBatch hhonest)) fun _ _ _ h' => .pure h' _
  | register i name =>
    exact .bind (h.ends_on ((h.replicas i).ends_register name)) fun _ _ _ h' => .pure h' _
  | send i theirGids => exact h.ends_send i theirGids
  | deliver i k wire =>
    refine .bind_get ?_
    rw [covers] at hact
    cases hdelta : w.sent[k]? with
    | none => exact .pure h _
    | some delta =>
      simp only [hdelta] at hact
      have hres := h.resolved_received (List.mem_of_getElem? hdelta) wire
      exact .bind (h.ends_on ((h.replicas i).ends_ingest hres hact)) fun _ _ _ h' => .pure h' _
  | mergeWithGid i g =>
    exact .bind (h.ends_on ((h.replicas i).ends_mergeWithGid g)) fun _ _ _ h' => .pure h' _
  | acknowledgeFetch i peer headGid epochKey =>
    exact .bind (h.ends_on ((h.replicas i).ends_acknowledgeFetch peer headGid epochKey))
      fun _ _ _ h' => .pure h' _
  | compactStable i opts =>
    exact .bind (h.ends_on ((h.replicas i).ends_compactStable opts)) fun _ _ _ h' => .pure h' _
  | gc i => exact .bind (h.ends_on (h.replicas i).ends_gc) fun _ _ _ h' => .pure h' _
  | prune i =>
    exact .bind (h.ends_on (h.replicas i).ends_pruneToEpochBase) fun _ _ _ h' => .pure h' _

/-- **Runs that cover** keep the mints ahead. -/
theorem run (h : Ahead H M mints w) {acts : List (Act (Timed D.Op) γ N)}
    (hacts : coversRun H M w acts = true) (k : ℕ) : Ahead H M mints (run H M w (acts.take k)) := by
  induction acts generalizing w k with
  | nil => simpa [MintedNetwork.run] using h
  | cons act acts ih =>
    rw [coversRun, Bool.and_eq_true] at hacts
    cases k with
    | zero => simpa [MintedNetwork.run] using h
    | succ k => exact ih (h.ends_call hacts.1) hacts.2 k

end Ahead

/-- **Fresh and later times.** In a run of replicas whose mints have different slots and one stride,
the times are different and later than what their replicas held, if the committed operations are
honest and no replica receives a state with an id that its mint has not passed. -/
theorem lamport_of_covers (names : Fin N → String) {mints : Fin N → LamportMint}
    (hslots : Function.Injective fun i => (mints i).slot) {stride : ℕ}
    (hstride : ∀ i, (mints i).stride = stride) {acts : List (Act (Timed D.Op) γ N)}
    (hacts : coversRun H M (start D H names mints) acts = true) (k : ℕ) :
    Lamport (run H M (start D H names mints) (acts.take k)) :=
  ((Ahead.start names).run hacts k).lamport hslots hstride

section Bootstrap

/-- A hash for two keystrokes and their compaction, and for a reply to the first. -/
noncomputable def bootHash : ContentHash (Timed (compactibleEmbedRGA Char).Op)
    (compactibleEmbedRGA Char).Print ℕ :=
  .ofTable [.root, .authored [0] "a" 0 (.one ⟨.ins 5 'x' none, none⟩),
    .authored [1] "a" 1 (.one ⟨.ins 9 'y' (some 5), none⟩),
    .compact [2] [(5, [false], 'x'), (9, [false, false], 'y')],
    .authored [1] "b" 0 (.one ⟨.ins 10 'z' (some 5), none⟩)]

/-- The names of two replicas. -/
def bootNames : Fin 2 → String := ![ "a", "b"]

/-- Mints with the slots 1 and 2. -/
def bootMints : Fin 2 → LamportMint :=
  ![⟨1, 0, 4, by decide, by decide, by decide, by decide⟩,
    ⟨2, 0, 4, by decide, by decide, by decide, by decide⟩]

theorem bootMints_injective : Function.Injective fun i => (bootMints i).slot := by decide

theorem bootMints_stride (i : Fin 2) : (bootMints i).stride = 4 := by
  revert i
  decide

/-- The two replicas. -/
noncomputable def bootStart : MintedNetwork (compactibleEmbedRGA Char) ℕ 2 :=
  start _ bootHash bootNames bootMints

/-- The first replica. -/
def author : Fin 2 := ⟨0, Nat.zero_lt_two⟩

/-- The second replica. -/
def reader : Fin 2 := ⟨1, Nat.one_lt_two⟩

/-- The author types, and the reader replies. -/
def replied : List (Act (Timed (compactibleEmbedRGA Char).Op) ℕ 2) :=
  [.commitGenerated author ⟨.ins 0 'x' none, none⟩, .send author [0], .deliver reader 0 true,
    .mergeWithGid reader 1, .commitGenerated reader ⟨.ins 0 'z' (some 5), none⟩]

/-- The clock of the reader has followed the keystroke that it received. -/
theorem lamport_of_covers_replied :
    Lamport (run bootHash (datedCompactibleEmbedRGA Char) bootStart (replied.take 5)) :=
  lamport_of_covers bootNames bootMints_injective bootMints_stride rfl 5

/-- The author types two characters, compacts and prunes. The reader starts from the epoch base, and
mints a time. -/
def bootstrapped : List (Act (Timed (compactibleEmbedRGA Char).Op) ℕ 2) :=
  [.commitGenerated author ⟨.ins 0 'x' none, none⟩,
    .commitGenerated author ⟨.ins 0 'y' (some 5), none⟩, .compactStable author {}, .prune author,
    .send author [0], .deliver reader 0 true, .mergeWithGid reader 3, .mintTime reader]

/-- **An epoch base moves no clock.** The reader shows the characters 5 and 9, and mints the time 6. -/
theorem not_lamport_bootstrapped :
    let w := run bootHash (datedCompactibleEmbedRGA Char) bootStart bootstrapped
    (w.replicas reader).headIds (datedCompactibleEmbedRGA Char) = [5, 9] ∧
      (w.replicas reader).issued = [⟨6, [5, 9]⟩] ∧ ¬ Lamport w := by
  intro w
  have hissued : (w.replicas reader).issued = [⟨6, [5, 9]⟩] := by decide +kernel
  refine ⟨by decide +kernel, hissued, fun h => ?_⟩
  have hlater : 9 < 6 := h.later reader ⟨6, [5, 9]⟩ (by simp [hissued]) 9 (by simp)
  omega

end Bootstrap

end MintedNetwork

end SalRuntime
