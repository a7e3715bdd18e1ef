import Mathlib.Data.String.Basic
import SalRuntime.Foundations.SortedMap

/-!
# The relay

The WebSocket relay of `src/relay.mjs`. A connection opens, joins a room under a name, sends, and
closes. The relay keeps the connection of every name of a room; it tells a newcomer the roster and
the room of joins and leaves, and passes on the gossip. The sync hub of a room hears of everything.

A close announces a leave even when a newer connection has taken over the name. The roster and the
leaves are accurate as long as no connection closes while another one is joined under its name.

## Main definitions

* `Relay`, `Relay.step`, `Relay.run` — the relay and its runs.
* `Relay.Joined` — an open connection is joined to a room under a name.
* `Relay.StepAccurate` — a step reports an accurate roster and announces accurate leaves.

## Main results

* `Relay.Accurate.step` — orderly steps keep the rooms in step with the connections.
* `Relay.Accurate.run` — orderly runs are accurate.
-/

namespace SalRuntime

/-- The name and the room of a connection that joined. -/
structure Membership where
  /-- The name. -/
  name : String
  /-- The room. -/
  room : String
  deriving DecidableEq, Repr

/-- What a client sends: a join, or gossip to the room or to one name. -/
inductive ClientMsg (β : Type)
  /-- Join a room under a name. -/
  | join (name room : String)
  /-- Gossip. -/
  | gossip (dest : Option String) (body : β)
  deriving DecidableEq, Repr

/-- What the relay sends to a client. -/
inductive ServerMsg (β : Type)
  /-- The names in the room. -/
  | roster (names : List String)
  /-- A peer joined. -/
  | join (name : String)
  /-- A peer left. -/
  | leave (name : String)
  /-- Gossip of a peer. -/
  | gossip (sender : String) (dest : Option String) (body : β)
  deriving DecidableEq, Repr

/-- What the relay does: send to a connection, or tell the hub of a room. -/
inductive RelayOutput (β : Type)
  /-- Send to a connection. -/
  | client (ws : ℕ) (msg : ServerMsg β)
  /-- Tell the hub. -/
  | hub (room : String) (msg : ServerMsg β)
  deriving DecidableEq, Repr

/-- What happens at the relay. -/
inductive RelayEvent (β : Type)
  /-- A connection opens. -/
  | connect
  /-- A message arrives. -/
  | message (ws : ℕ) (msg : ClientMsg β)
  /-- A connection closes. -/
  | close (ws : ℕ)
  deriving DecidableEq, Repr

/-- The relay. -/
structure Relay where
  /-- The open connections, and the memberships of those that joined. -/
  conns : SortedMap ℕ (Option Membership)
  /-- The connection of every name of every room. -/
  rooms : SortedMap String (SortedMap String ℕ)
  /-- The rooms that have a hub. -/
  hubs : List String
  /-- The number of the next connection. -/
  next : ℕ

namespace Relay

variable {β : Type}

/-- The name of the hub. -/
def HUB_NAME : String := "#hub"

/-- A relay without connections. -/
def start : Relay :=
  { conns := SortedMap.empty, rooms := SortedMap.empty, hubs := [], next := 0 }

/-- The connections of a room. -/
def roomOf (relay : Relay) (r : String) : SortedMap String ℕ :=
  (relay.rooms.get? r).getD SortedMap.empty

/-- Send to a connection, if it is open. -/
def send (conns : SortedMap ℕ (Option Membership)) (ws : ℕ) (msg : ServerMsg β) :
    List (RelayOutput β) :=
  if conns.has ws then [.client ws msg] else []

/-- Send to the names of a room that satisfy a condition. -/
def sendAll (conns : SortedMap ℕ (Option Membership)) (room : SortedMap String ℕ)
    (dest : String → Bool) (msg : ServerMsg β) : List (RelayOutput β) :=
  room.entries.flatMap fun e => if dest e.1 then send conns e.2 msg else []

/-- Tell the hub of a room, if there is one. -/
def tellHub (hubs : List String) (room : String) (msg : ServerMsg β) : List (RelayOutput β) :=
  if room ∈ hubs then [.hub room msg] else []

/-- A connection joins a room: it hears the roster, the others hear of it. -/
def join (hub : Bool) (relay : Relay) (ws : ℕ) (name room : String) :
    Relay × List (RelayOutput β) :=
  let members := (relay.roomOf room).insert name ws
  let conns := relay.conns.insert ws (some ⟨name, room⟩)
  let hubs := if hub then relay.hubs.insert room else relay.hubs
  ({ relay with conns, rooms := relay.rooms.insert room members, hubs },
    send conns ws (.roster (relay.roomOf room).keys) ++
      sendAll conns members (· ≠ name) (.join name) ++ tellHub hubs room (.join name))

/-- Pass on the gossip of a member. -/
def gossip (relay : Relay) (m : Membership) (dest : Option String) (body : β) :
    List (RelayOutput β) :=
  let room := relay.roomOf m.room
  let tagged := .gossip m.name dest body
  match dest.filter (· ≠ "") with
  | some n =>
    if n = HUB_NAME then tellHub relay.hubs m.room tagged
    else ((room.get? n).toList.flatMap fun peer => send relay.conns peer tagged)
  | none => sendAll relay.conns room (· ≠ m.name) tagged ++ tellHub relay.hubs m.room tagged

/-- The rooms with new connections of a room. A room without connections is dropped. -/
def setRoom (rooms : SortedMap String (SortedMap String ℕ)) (r : String)
    (members : SortedMap String ℕ) : SortedMap String (SortedMap String ℕ) :=
  if members.size = 0 then rooms.erase r else rooms.insert r members

/-- The connections of the room of a member whose connection closes: the name is dropped unless a
newer connection has it. -/
def remaining (relay : Relay) (ws : ℕ) (m : Membership) : SortedMap String ℕ :=
  if (relay.roomOf m.room).get? m.name = some ws then (relay.roomOf m.room).erase m.name
  else relay.roomOf m.room

/-- The connection of a member closes. The leave is announced in any case. -/
def leave (relay : Relay) (ws : ℕ) (m : Membership) : Relay × List (RelayOutput β) :=
  let conns := relay.conns.erase ws
  let members := relay.remaining ws m
  ({ relay with conns, rooms := setRoom relay.rooms m.room members },
    sendAll conns members (fun _ => true) (.leave m.name) ++ tellHub relay.hubs m.room (.leave m.name))

/-- The membership of an open connection, unless its room has the empty name. -/
def memberOf (relay : Relay) (ws : ℕ) : Option Membership :=
  ((relay.conns.get? ws).bind fun m => m).filter fun m => m.room ≠ ""

/-- A step of the relay. Nothing arrives from a connection that is not open. -/
def step (hub : Bool) (relay : Relay) : RelayEvent β → Relay × List (RelayOutput β)
  | .connect => ({ relay with conns := relay.conns.insert relay.next none, next := relay.next + 1 }, [])
  | .message ws (.join name room) =>
    if relay.conns.has ws then join hub relay ws name room else (relay, [])
  | .message ws (.gossip dest body) =>
    match relay.memberOf ws with
    | some m => ({ relay with rooms := relay.rooms.insert m.room (relay.roomOf m.room) },
        gossip relay m dest body)
    | none => (relay, [])
  | .close ws =>
    match relay.memberOf ws with
    | some m => leave relay ws m
    | none => ({ relay with conns := relay.conns.erase ws }, [])

/-- A run of the relay. -/
def run (hub : Bool) (relay : Relay) (events : List (RelayEvent β)) : Relay :=
  events.foldl (fun relay ev => (step hub relay ev).1) relay

/-- An open connection is joined to the room under the name. -/
def Joined (relay : Relay) (name room : String) : Prop :=
  ∃ ws, relay.conns.get? ws = some (some ⟨name, room⟩)

/-- Whoever hears of a leave is in a room to which no open connection is joined under the name, and
the roster that a newcomer hears lists the names of the open connections of its room. -/
structure StepAccurate (hub : Bool) (relay : Relay) (ev : RelayEvent β) : Prop where
  /-- The leaves. -/
  leaves : ∀ ws n m, .client ws (.leave n) ∈ (step hub relay ev).2 →
    relay.conns.get? ws = some (some m) → ¬ (step hub relay ev).1.Joined n m.room
  /-- The rosters. -/
  rosters : ∀ ws name room names, ev = .message ws (.join name room) →
    .client ws (.roster names) ∈ (step hub relay ev).2 → ∀ n, n ∈ names ↔ relay.Joined n room

/-- A close is orderly when the room has a name and no other open connection is joined to it under the
name. A join is orderly when the connection is not the one of another name of a room. -/
def Orderly (relay : Relay) : RelayEvent β → Prop
  | .message ws (.join name room) => ∀ m, relay.conns.get? ws = some (some m) →
      m = ⟨name, room⟩ ∨ (relay.roomOf m.room).get? m.name ≠ some ws
  | .close ws => ∀ m, relay.conns.get? ws = some (some m) →
      m.room ≠ "" ∧ ∀ ws', relay.conns.get? ws' = some (some m) → ws' = ws
  | _ => True

/-! ### The invariant -/

/-- The rooms hold open connections that joined, and every name of one. -/
structure Accurate (relay : Relay) : Prop where
  /-- The connection of a name of a room is joined under the name. -/
  joined : ∀ r n ws, (relay.roomOf r).get? n = some ws →
    relay.conns.get? ws = some (some ⟨n, r⟩)
  /-- A name under which a connection is joined is in the room. -/
  has : ∀ r n, relay.Joined n r → (relay.roomOf r).has n = true
  /-- Connections are numbered. -/
  lt_next : ∀ ws, relay.conns.has ws = true → ws < relay.next

theorem accurate_start : Accurate start :=
  ⟨fun r n ws h => by simp [roomOf, start] at h, fun r n ⟨ws, h⟩ => by simp [start] at h,
    fun ws h => by simp [start] at h⟩

theorem mem_sendAll {conns : SortedMap ℕ (Option Membership)} {room : SortedMap String ℕ}
    {dest : String → Bool} {msg : ServerMsg β} {o : RelayOutput β} :
    o ∈ sendAll conns room dest msg ↔ ∃ n ws, room.get? n = some ws ∧ dest n = true ∧
      conns.has ws = true ∧ o = .client ws msg := by
  simp only [sendAll, List.mem_flatMap, Prod.exists, SortedMap.mem_entries_iff, send]
  refine exists_congr fun n => exists_congr fun ws => and_congr_right fun _ => ?_
  split_ifs with h h'
  · simp [h, h']
  · simp [h']
  · simp [h]

theorem getD_setRoom (rooms : SortedMap String (SortedMap String ℕ)) (r : String)
    (members : SortedMap String ℕ) (r' : String) :
    ((setRoom rooms r members).get? r').getD SortedMap.empty =
      if r' = r then members else (rooms.get? r').getD SortedMap.empty := by
  rw [setRoom]
  split_ifs with hsize hr hr
  · rw [SortedMap.get?_erase, if_pos hr, Option.getD_none]
    refine SortedMap.ext_get? fun k => ?_
    rw [SortedMap.get?, SortedMap.get?, List.length_eq_zero_iff.mp hsize]
    rfl
  · rw [SortedMap.get?_erase, if_neg hr]
  · rw [SortedMap.get?_insert, if_pos hr, Option.getD_some]
  · rw [SortedMap.get?_insert, if_neg hr]

section Step

variable {relay : Relay} (h : Accurate relay)

include h

/-- The roster of an accurate relay. -/
theorem Accurate.has_iff {r n : String} : (relay.roomOf r).has n = true ↔ relay.Joined n r :=
  ⟨fun hn => (SortedMap.has_iff.mp hn).imp fun ws hws => h.joined r n ws hws, h.has r n⟩

theorem Accurate.connect : Accurate { relay with
    conns := relay.conns.insert relay.next none, next := relay.next + 1 } := by
  have hget (ws : ℕ) (m : Membership) :
      (relay.conns.insert relay.next none).get? ws = some (some m) ↔
        relay.conns.get? ws = some (some m) := by
    rw [SortedMap.get?_insert]
    split_ifs with hws
    · refine ⟨fun hm => (by cases hm), fun hm => ?_⟩
      have := h.lt_next ws (SortedMap.has_iff.mpr ⟨_, hm⟩)
      omega
    · rfl
  refine ⟨fun r n ws hws => (hget ws _).mpr (h.joined r n ws hws),
    fun r n ⟨ws, hws⟩ => h.has r n ⟨ws, (hget ws _).mp hws⟩, fun ws hws => ?_⟩
  rw [SortedMap.has_insert, Bool.or_eq_true, decide_eq_true_eq] at hws
  rcases hws with rfl | hws
  · exact Nat.lt_succ_self _
  · exact (h.lt_next ws hws).trans (Nat.lt_succ_self _)

/-- **Orderly joins** keep the rooms accurate. -/
theorem Accurate.join {ws : ℕ} (hws : relay.conns.has ws = true) {name room : String} (hub : Bool)
    (hord : Orderly relay (.message ws (.join name room) : RelayEvent β)) :
    Accurate (join (β := β) hub relay ws name room).1 := by
  have hget (ws' : ℕ) : (Relay.join (β := β) hub relay ws name room).1.conns.get? ws' =
      if ws' = ws then some (some ⟨name, room⟩) else relay.conns.get? ws' :=
    SortedMap.get?_insert ..
  have hroomOf (r : String) : (Relay.join (β := β) hub relay ws name room).1.roomOf r =
      if r = room then (relay.roomOf room).insert name ws else relay.roomOf r := by
    simp only [Relay.join, roomOf, SortedMap.get?_insert]
    split_ifs <;> rfl
  -- The connection of a name of a room is the one that joins, or it keeps its membership.
  have hjoined (r n : String) (ws' : ℕ) (hn : (relay.roomOf r).get? n = some ws') :
      (if ws' = ws then some (some ⟨name, room⟩) else relay.conns.get? ws') =
        some (some (⟨n, r⟩ : Membership)) := by
    have hm := h.joined r n ws' hn
    split_ifs with heq
    · subst heq
      rcases hord ⟨n, r⟩ hm with heq | hne
      · rw [heq]
      · exact absurd hn hne
    · exact hm
  refine ⟨fun r n ws' hn => ?_, fun r n hjoined' => ?_, fun ws' hws' => ?_⟩
  · rw [hget]
    rw [hroomOf] at hn
    split_ifs at hn with hr
    · rw [SortedMap.get?_insert] at hn
      split_ifs at hn with hname
      · rw [Option.some.injEq] at hn
        rw [if_pos hn.symm, hr, hname]
      · exact hjoined r n ws' (hr ▸ hn)
    · exact hjoined r n ws' hn
  · obtain ⟨ws', hws'⟩ := hjoined'
    rw [hget] at hws'
    rw [hroomOf]
    split_ifs at hws' with heq
    · simp only [Option.some.injEq, Membership.mk.injEq] at hws'
      rw [if_pos hws'.2.symm, SortedMap.has_insert, ← hws'.1]
      simp
    · have hn := h.has r n ⟨ws', hws'⟩
      split_ifs with hr
      · rw [SortedMap.has_insert, ← hr, hn, Bool.or_true]
      · exact hn
  · obtain ⟨m, hm⟩ := SortedMap.has_iff.mp hws'
    rw [hget] at hm
    split_ifs at hm with heq
    · exact heq ▸ h.lt_next ws hws
    · exact h.lt_next ws' (SortedMap.has_iff.mpr ⟨m, hm⟩)

/-- The members of an accurate relay that a close orderly takes. -/
theorem Accurate.remaining_eq {ws : ℕ} {m : Membership}
    (hws : relay.conns.get? ws = some (some m))
    (hother : ∀ ws', relay.conns.get? ws' = some (some m) → ws' = ws) :
    relay.remaining ws m = (relay.roomOf m.room).erase m.name := by
  obtain ⟨ws', hws'⟩ := SortedMap.has_iff.mp (h.has m.room m.name ⟨ws, hws⟩)
  rw [remaining, if_pos]
  rw [hws', hother ws' (h.joined _ _ _ hws')]

/-- **Orderly leaves** keep the rooms accurate. -/
theorem Accurate.leave {ws : ℕ} {m : Membership} (hws : relay.conns.get? ws = some (some m))
    (hother : ∀ ws', relay.conns.get? ws' = some (some m) → ws' = ws) :
    Accurate (leave (β := β) relay ws m).1 := by
  have hroomOf (r : String) : (Relay.leave (β := β) relay ws m).1.roomOf r =
      if r = m.room then (relay.roomOf m.room).erase m.name else relay.roomOf r := by
    rw [← h.remaining_eq hws hother]
    exact getD_setRoom ..
  have hget (ws' : ℕ) : (Relay.leave (β := β) relay ws m).1.conns.get? ws' =
      if ws' = ws then none else relay.conns.get? ws' := SortedMap.get?_erase ..
  -- A name of a room other than the one that leaves has another connection.
  have hjoined (r n : String) (ws' : ℕ) (hn : (relay.roomOf r).get? n = some ws')
      (hne : (⟨n, r⟩ : Membership) ≠ m) :
      (if ws' = ws then none else relay.conns.get? ws') = some (some (⟨n, r⟩ : Membership)) := by
    have hm := h.joined r n ws' hn
    rw [if_neg, hm]
    rintro rfl
    rw [hws, Option.some.injEq, Option.some.injEq] at hm
    exact hne hm.symm
  refine ⟨fun r n ws' hn => ?_, fun r n hjoined' => ?_, fun ws' hws' => ?_⟩
  · rw [hget]
    rw [hroomOf] at hn
    split_ifs at hn with hr
    · rw [SortedMap.get?_erase] at hn
      split_ifs at hn with hname
      exact hjoined r n ws' (hr ▸ hn) fun heq => hname (congrArg Membership.name heq)
    · exact hjoined r n ws' hn fun heq => hr (congrArg Membership.room heq)
  · obtain ⟨ws', hws'⟩ := hjoined'
    rw [hget] at hws'
    split_ifs at hws' with heq
    have hn := h.has r n ⟨ws', hws'⟩
    rw [hroomOf]
    split_ifs with hr
    · rw [SortedMap.has_erase, ← hr, hn, Bool.and_true, decide_eq_true_eq]
      rintro rfl
      subst hr
      exact heq (hother ws' hws')
    · exact hn
  · obtain ⟨m', hm⟩ := SortedMap.has_iff.mp hws'
    rw [hget] at hm
    split_ifs at hm
    exact h.lt_next ws' (SortedMap.has_iff.mpr ⟨m', hm⟩)

/-- Gossip creates at most an entry for a room without connections. -/
theorem Accurate.gossip (r : String) :
    Accurate { relay with rooms := relay.rooms.insert r (relay.roomOf r) } := by
  have hroomOf (r' : String) :
      ({ relay with rooms := relay.rooms.insert r (relay.roomOf r) } : Relay).roomOf r' =
        relay.roomOf r' := by
    rw [roomOf, SortedMap.get?_insert]
    split_ifs with hr
    · rw [hr]
      rfl
    · rfl
  refine ⟨fun r' n ws hn => h.joined r' n ws (hroomOf r' ▸ hn), fun r' n hjoined => ?_, h.lt_next⟩
  rw [hroomOf]
  exact h.has r' n hjoined

/-- The connection of a client that did not join closes. -/
theorem Accurate.erase {ws : ℕ} (hws : ∀ m, relay.conns.get? ws ≠ some (some m)) :
    Accurate { relay with conns := relay.conns.erase ws } := by
  have hget (ws' : ℕ) (m : Membership) : (relay.conns.erase ws).get? ws' = some (some m) ↔
      relay.conns.get? ws' = some (some m) := by
    rw [SortedMap.get?_erase]
    split_ifs with heq
    · exact ⟨fun hm => (by cases hm), fun hm => absurd hm (heq ▸ hws m)⟩
    · rfl
  refine ⟨fun r n ws' hn => (hget ws' _).mpr (h.joined r n ws' hn),
    fun r n ⟨ws', hn⟩ => h.has r n ⟨ws', (hget ws' _).mp hn⟩, fun ws' hws' => h.lt_next ws' ?_⟩
  obtain ⟨m, hm⟩ := SortedMap.has_iff.mp hws'
  rw [SortedMap.get?_erase] at hm
  split_ifs at hm
  exact SortedMap.has_iff.mpr ⟨m, hm⟩

omit h in
/-- The member that a connection is. -/
theorem memberOf_eq_some_iff {ws : ℕ} {m : Membership} :
    relay.memberOf ws = some m ↔ relay.conns.get? ws = some (some m) ∧ m.room ≠ "" := by
  rw [memberOf, Option.filter_eq_some_iff, Option.bind_eq_some_iff, decide_eq_true_eq]
  exact and_congr_left fun _ => ⟨fun ⟨_, hm, heq⟩ => heq ▸ hm, fun hm => ⟨_, hm, rfl⟩⟩

/-- **Orderly steps** keep the rooms accurate. -/
theorem Accurate.step (hub : Bool) {ev : RelayEvent β} (hord : Orderly relay ev) :
    Accurate (step hub relay ev).1 := by
  match ev with
  | .connect => exact h.connect
  | .message ws (.join name room) =>
    rw [Relay.step]
    split_ifs with hws
    · exact h.join hws hub hord
    · exact h
  | .message ws (.gossip dest body) =>
    rw [Relay.step]
    split
    · exact h.gossip _
    · exact h
  | .close ws =>
    rw [Relay.step]
    split
    · rename_i m hm
      have hws := (memberOf_eq_some_iff.mp hm).1
      exact h.leave hws (hord m hws).2
    · rename_i hnone
      refine h.erase fun m hm => ?_
      rw [memberOf_eq_some_iff.mpr ⟨hm, (hord m hm).1⟩] at hnone
      cases hnone

/-- **Orderly leaves of an accurate relay**: no connection of the room has the name any more. -/
theorem Accurate.leaves {ws : ℕ} {m : Membership} (hws : relay.conns.get? ws = some (some m))
    (hother : ∀ ws', relay.conns.get? ws' = some (some m) → ws' = ws)
    {ws' : ℕ} {n : String} (hout : .client ws' (.leave n) ∈ (Relay.leave (β := β) relay ws m).2)
    {m' : Membership} (hws' : relay.conns.get? ws' = some (some m')) :
    ¬ (Relay.leave (β := β) relay ws m).1.Joined n m'.room := by
  obtain ⟨n', hn', rfl⟩ : ∃ n', (relay.remaining ws m).get? n' = some ws' ∧ n = m.name := by
    rw [Relay.leave, List.mem_append, mem_sendAll] at hout
    rcases hout with ⟨n', ws'', hn', -, -, heq⟩ | hout
    · cases heq
      exact ⟨n', hn', rfl⟩
    · simp [tellHub] at hout
  -- Whoever hears of the leave is in the room.
  have hroom : m'.room = m.room := by
    rw [h.remaining_eq hws hother, SortedMap.get?_erase] at hn'
    split_ifs at hn'
    have hm' := h.joined _ _ _ hn'
    rw [hws', Option.some.injEq, Option.some.injEq] at hm'
    rw [hm']
  rw [hroom]
  rintro ⟨ws'', hjoined⟩
  change (relay.conns.erase ws).get? ws'' = _ at hjoined
  rw [SortedMap.get?_erase] at hjoined
  split_ifs at hjoined with heq
  exact heq (hother ws'' hjoined)

omit h in
theorem leave_notMem_gossip {m : Membership} {dest : Option String} {body : β} {ws : ℕ}
    {n : String} : .client ws (.leave n) ∉ Relay.gossip relay m dest body := by
  rw [Relay.gossip]
  split
  · split_ifs
    · simp [tellHub]
    · simp [send]
  · simp [mem_sendAll, tellHub]

omit h in
theorem roster_eq_of_mem_join {hub : Bool} {ws ws' : ℕ} {name room : String} {names : List String}
    (hout : .client ws' (.roster names) ∈ (Relay.join (β := β) hub relay ws name room).2) :
    names = (relay.roomOf room).keys := by
  rw [Relay.join, List.mem_append, List.mem_append, mem_sendAll] at hout
  rcases hout with (hout | ⟨_, _, _, _, _, heq⟩) | hout
  · rw [send] at hout
    split_ifs at hout
    · cases List.mem_singleton.mp hout
      rfl
    · cases hout
  · cases heq
  · simp [tellHub] at hout

/-- **Orderly steps of an accurate relay** are accurate. -/
theorem Accurate.stepAccurate (hub : Bool) {ev : RelayEvent β} (hord : Orderly relay ev) :
    StepAccurate hub relay ev := by
  constructor
  · intro ws n m hout hws
    match ev with
    | .connect => cases hout
    | .message ws' (.join name room) =>
      rw [Relay.step] at hout
      split_ifs at hout
      · simp [Relay.join, send, tellHub, mem_sendAll] at hout
      · cases hout
    | .message ws' (.gossip dest body) =>
      rw [Relay.step] at hout
      split at hout
      · exact absurd hout leave_notMem_gossip
      · cases hout
    | .close ws' =>
      rw [Relay.step] at hout ⊢
      split at hout
      · rename_i m' hm'
        have hws' := (memberOf_eq_some_iff.mp hm').1
        exact h.leaves hws' (hord m' hws').2 hout hws
      · cases hout
  · rintro ws name room names rfl hout n
    rw [Relay.step] at hout
    split_ifs at hout
    · rw [roster_eq_of_mem_join hout, SortedMap.mem_keys_iff, ← SortedMap.has_iff, h.has_iff]
    · cases hout

end Step

/-- The steps of a run are orderly. -/
def OrderlyRun (hub : Bool) : Relay → List (RelayEvent β) → Prop
  | _, [] => True
  | relay, ev :: evs => Orderly relay ev ∧ OrderlyRun hub (step hub relay ev).1 evs

/-- **Orderly runs** keep the relay accurate, and their steps are. -/
theorem Accurate.run {relay : Relay} (h : Accurate relay) {hub : Bool}
    {events : List (RelayEvent β)} (hevents : OrderlyRun hub relay events) {k : ℕ}
    {ev : RelayEvent β} (hev : events[k]? = some ev) :
    StepAccurate hub (run hub relay (events.take k)) ev := by
  induction events generalizing relay k with
  | nil => simp at hev
  | cons ev' evs ih =>
    cases k with
    | zero =>
      rw [List.getElem?_cons_zero, Option.some.injEq] at hev
      exact hev ▸ h.stepAccurate hub hevents.1
    | succ k => exact ih (h.step hub hevents.1) hevents.2 (by simpa using hev)

theorem orderly_join_iff {relay : Relay} {ws : ℕ} {name room : String} :
    (∀ m ∈ (relay.conns.get? ws).bind id, m = ⟨name, room⟩ ∨
      (relay.roomOf m.room).get? m.name ≠ some ws) ↔
    Orderly relay (.message ws (.join name room) : RelayEvent β) := by
  simp [Orderly, Option.bind_eq_some_iff]

theorem orderly_close_iff {relay : Relay} {ws : ℕ} :
    (∀ m ∈ (relay.conns.get? ws).bind id, m.room ≠ "" ∧
      ∀ e ∈ relay.conns.entries, e.2 = some m → e.1 = ws) ↔
    Orderly relay (.close ws : RelayEvent β) := by
  simp only [Orderly, Option.mem_def, Option.bind_eq_some_iff, Prod.forall, SortedMap.mem_entries_iff]
  grind

instance decidableOrderly (relay : Relay) (ev : RelayEvent β) : Decidable (Orderly relay ev) :=
  match ev with
  | .message _ (.join ..) => decidable_of_iff _ orderly_join_iff
  | .close _ => decidable_of_iff _ orderly_close_iff
  | .connect => .isTrue trivial
  | .message _ (.gossip ..) => .isTrue trivial

instance decidableOrderlyRun (hub : Bool) : (relay : Relay) → (events : List (RelayEvent β)) →
    Decidable (OrderlyRun hub relay events)
  | _, [] => .isTrue trivial
  | relay, ev :: evs =>
    have := decidableOrderlyRun hub (step hub relay ev).1 evs
    inferInstanceAs (Decidable (_ ∧ _))

end Relay

end SalRuntime
