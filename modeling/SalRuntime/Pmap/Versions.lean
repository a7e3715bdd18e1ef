import Mathlib.Data.List.Forall2
import SalRuntime.Pmap.Handles

/-!
# Versions of a map

A program holds any number of persistent maps and transients, and calls them in any order. What it
sees is what it would see with finite maps in their place: a persistent map never changes, a
transient is a variable of its own, and a frozen transient throws.

The proof relates the heap and the handles to the finite maps. A live transient is the only handle
whose trie has nodes with its token, so a call that writes into such nodes leaves all other handles
as they are.

## Main definitions

* `Command`, `Reply` — the calls and what they return.
* `World`, `World.step`, `World.run` — a program with its heap, its maps and its transients.
* `Ledger`, `Ledger.step`, `Ledger.run` — the finite maps of the same program.
* `Refines` — the maps and the transients of a world represent the finite maps of a ledger.

## Main results

* `Refines.step` — a call returns what the finite maps return, and the relation holds again.
* `run_persistent` — in every program all calls return what the finite maps return, and no call
  changes a persistent map or another transient.
-/

namespace SalRuntime

namespace PMap

variable {α : Type}

/-! ### Programs -/

/-- A call on the persistent map or the transient with the given number. -/
inductive Command (α : Type)
  | get (i : ℕ) (k : Key)
  | has (i : ℕ) (k : Key)
  | size (i : ℕ)
  | entries (i : ℕ)
  | set (i : ℕ) (k : Key) (v : α)
  | delete (i : ℕ) (k : Key)
  | begin (i : ℕ)
  | transientGet (j : ℕ) (k : Key)
  | transientHas (j : ℕ) (k : Key)
  | transientSize (j : ℕ)
  | transientSet (j : ℕ) (k : Key) (v : α)
  | transientDelete (j : ℕ) (k : Key)
  | freeze (j : ℕ)

/-- A handle of a program, with its number. -/
inductive Handle
  | map (i : ℕ)
  | transient (j : ℕ)

namespace Command

/-- The handle that the call is on. -/
def handle : Command α → Handle
  | .get i _ => .map i
  | .has i _ => .map i
  | .size i => .map i
  | .entries i => .map i
  | .set i _ _ => .map i
  | .delete i _ => .map i
  | .begin i => .map i
  | .transientGet j _ => .transient j
  | .transientHas j _ => .transient j
  | .transientSize j => .transient j
  | .transientSet j _ _ => .transient j
  | .transientDelete j _ => .transient j
  | .freeze j => .transient j

/-- The call only reads. -/
def reads : Command α → Bool
  | .get _ _ | .has _ _ | .size _ | .entries _ => true
  | .transientGet _ _ | .transientHas _ _ | .transientSize _ => true
  | _ => false

end Command

/-- What a call returns. -/
inductive Reply (α : Type)
  | value (v : Option α)
  | flag (b : Bool)
  | count (n : ℕ)
  | pairs (es : List (Key × α))
  /-- A new persistent map, with its number. -/
  | map (i : ℕ)
  /-- A new transient, with its number. -/
  | transient (j : ℕ)
  | done
  | thrown (f : Fault)
  /-- There is no such handle. -/
  | unbound

/-- The reply of a call that may throw. -/
def Reply.of {β : Type} (f : β → Reply α) : Except Fault β → Reply α
  | .ok b => f b
  | .error e => .thrown e

/-- The heap, the next token, and the handles of a program. -/
structure World (α : Type) where
  /-- The heap. -/
  heap : Heap Key α
  /-- The next token. -/
  token : ℕ
  /-- The persistent maps. -/
  maps : List PMap
  /-- The transients. -/
  transients : List TransientPMap

namespace World

/-- A program starts with the empty map. -/
def start : World α := ⟨⟨0, fun _ => none⟩, 0, [PMap.empty], []⟩

/-- The reply of a persistent map. -/
def onMap (w : World α) (i : ℕ) (f : PMap → Reply α) : Reply α :=
  match w.maps[i]? with
  | some m => f m
  | none => .unbound

/-- The reply of a transient. -/
def onTransient (w : World α) (j : ℕ) (f : TransientPMap → Reply α) : Reply α :=
  match w.transients[j]? with
  | some t => f t
  | none => .unbound

/-- A call of a persistent map that returns a persistent map. -/
def newMap (w : World α) (i : ℕ) (f : PMap → Calls Key α PMap) : World α × Reply α :=
  match w.maps[i]? with
  | none => (w, .unbound)
  | some m =>
    match (f m).exec w.heap with
    | (.ok m', H) => ({ w with heap := H, maps := w.maps ++ [m'] }, .map w.maps.length)
    | (.error e, H) => ({ w with heap := H }, .thrown e)

/-- A call of a transient that changes it. -/
def change (w : World α) (j : ℕ) (f : TransientPMap → Calls Key α TransientPMap) :
    World α × Reply α :=
  match w.transients[j]? with
  | none => (w, .unbound)
  | some t =>
    match (f t).exec w.heap with
    | (.ok t', H) => ({ w with heap := H, transients := w.transients.set j t' }, .done)
    | (.error e, H) => ({ w with heap := H }, .thrown e)

/-- One call. -/
def step [DecidableEq α] (w : World α) : Command α → World α × Reply α
  | .get i k => (w, w.onMap i fun m => .of .value (m.get w.heap k))
  | .has i k => (w, w.onMap i fun m => .of .flag (m.has w.heap k))
  | .size i => (w, w.onMap i fun m => .count m.size)
  | .entries i => (w, w.onMap i fun m => .of .pairs (m.entries w.heap))
  | .set i k v => w.newMap i fun m => m.set k v
  | .delete i k => w.newMap i fun m => m.delete k
  | .begin i =>
    match w.maps[i]? with
    | none => (w, .unbound)
    | some m =>
      ({ w with token := w.token + 1, transients := w.transients ++ [m.begin w.token] },
        .transient w.transients.length)
  | .transientGet j k => (w, w.onTransient j fun t => .of .value (t.get w.heap k))
  | .transientHas j k => (w, w.onTransient j fun t => .of .flag (t.has w.heap k))
  | .transientSize j => (w, w.onTransient j fun t => .of .count t.getSize)
  | .transientSet j k v => w.change j fun t => t.set k v
  | .transientDelete j k => w.change j fun t => t.delete k
  | .freeze j =>
    match w.transients[j]? with
    | none => (w, .unbound)
    | some t =>
      match t.freeze with
      | .ok (t', m) =>
        ({ w with transients := w.transients.set j t', maps := w.maps ++ [m] }, .map w.maps.length)
      | .error e => (w, .thrown e)

/-- The world after the calls, and what they return. -/
def run [DecidableEq α] (w : World α) : List (Command α) → World α × List (Reply α)
  | [] => (w, [])
  | c :: cs => (((w.step c).1.run cs).1, (w.step c).2 :: ((w.step c).1.run cs).2)

/-- The program has the handle. -/
def Bound (w : World α) : Handle → Prop
  | .map i => i < w.maps.length
  | .transient j => j < w.transients.length

/-- The tokens of the transients. -/
def edits (w : World α) : List (Option ℕ) := w.transients.map TransientPMap.edit

end World

/-! ### The finite maps of a program -/

/-- The finite maps in place of the handles of a program; a frozen transient has none. -/
structure Ledger (α : Type) where
  /-- The persistent maps. -/
  maps : List (SortedMap Key α)
  /-- The transients. -/
  transients : List (Option (SortedMap Key α))

namespace Ledger

/-- A program starts with the empty map. -/
def start : Ledger α := ⟨[SortedMap.empty], []⟩

/-- The reply of a persistent map. -/
def onMap (r : Ledger α) (i : ℕ) (f : SortedMap Key α → Reply α) : Reply α :=
  match r.maps[i]? with
  | some M => f M
  | none => .unbound

/-- The reply of a transient. -/
def onTransient (r : Ledger α) (j : ℕ) (f : SortedMap Key α → Reply α) : Reply α :=
  match r.transients[j]? with
  | some (some M) => f M
  | some none => .thrown .frozen
  | none => .unbound

/-- A new persistent map from an old one. -/
def newMap (r : Ledger α) (i : ℕ) (f : SortedMap Key α → SortedMap Key α) : Ledger α × Reply α :=
  match r.maps[i]? with
  | none => (r, .unbound)
  | some M => ({ r with maps := r.maps ++ [f M] }, .map r.maps.length)

/-- A change of a transient. -/
def change (r : Ledger α) (j : ℕ) (f : SortedMap Key α → SortedMap Key α) : Ledger α × Reply α :=
  match r.transients[j]? with
  | none => (r, .unbound)
  | some none => (r, .thrown .frozen)
  | some (some M) => ({ r with transients := r.transients.set j (some (f M)) }, .done)

/-- One call. -/
def step (r : Ledger α) : Command α → Ledger α × Reply α
  | .get i k => (r, r.onMap i fun M => .value (M.get? k))
  | .has i k => (r, r.onMap i fun M => .flag (M.has k))
  | .size i => (r, r.onMap i fun M => .count M.size)
  | .entries i => (r, r.onMap i fun M => .pairs M.entries)
  | .set i k v => r.newMap i fun M => M.insert k v
  | .delete i k => r.newMap i fun M => M.erase k
  | .begin i =>
    match r.maps[i]? with
    | none => (r, .unbound)
    | some M => ({ r with transients := r.transients ++ [some M] }, .transient r.transients.length)
  | .transientGet j k => (r, r.onTransient j fun M => .value (M.get? k))
  | .transientHas j k => (r, r.onTransient j fun M => .flag (M.has k))
  | .transientSize j => (r, r.onTransient j fun M => .count M.size)
  | .transientSet j k v => r.change j fun M => M.insert k v
  | .transientDelete j k => r.change j fun M => M.erase k
  | .freeze j =>
    match r.transients[j]? with
    | none => (r, .unbound)
    | some none => (r, .thrown .frozen)
    | some (some M) =>
      (⟨r.maps ++ [M], r.transients.set j none⟩, .map r.maps.length)

/-- The finite maps after the calls, and what they return. -/
def run (r : Ledger α) : List (Command α) → Ledger α × List (Reply α)
  | [] => (r, [])
  | c :: cs => (((r.step c).1.run cs).1, (r.step c).2 :: ((r.step c).1.run cs).2)

end Ledger

/-! ### The refinement -/

/-- The token `e` is `own`, or no transient has it. -/
def Foreign (es : List (Option ℕ)) (own e : Option ℕ) : Prop := e ≠ none → e ≠ own → e ∉ es

/-- What a transient stands for. -/
def Mirrors (H : Heap Key α) (es : List (Option ℕ)) (t : TransientPMap) :
    Option (SortedMap Key α) → Prop
  | none => t.edit = none
  | some M => t.edit ≠ none ∧ Represents H (Foreign es t.edit) t.root t.size M

/-- The handles of a world represent the finite maps of a ledger, and a token is that of one
transient only. -/
structure Refines (w : World α) (r : Ledger α) : Prop where
  bounded : w.heap.Bounded
  minted : ∀ x n y, w.heap.node x = some n → n.edit = some y → y < w.token
  tokens : ∀ y, some y ∈ w.edits → y < w.token
  distinct : ∀ (i j y : ℕ), w.edits[i]? = some (some y) → w.edits[j]? = some (some y) → i = j
  maps : List.Forall₂ (fun m M => Represents w.heap (Foreign w.edits none) m.root m.size M) w.maps
    r.maps
  transients : List.Forall₂ (Mirrors w.heap w.edits) w.transients r.transients

/-! ### Lists of handles -/

section Lists

variable {β γ : Type} {R R' : β → γ → Prop} {l : List β} {l' : List γ}

/-- Two lists that are related have the same places, and what is at a place is related. -/
theorem forall₂_getElem? (h : List.Forall₂ R l l') (i : ℕ) :
    l[i]? = none ∧ l'[i]? = none ∨ ∃ b c, l[i]? = some b ∧ l'[i]? = some c ∧ R b c := by
  induction h generalizing i with
  | nil => exact Or.inl ⟨rfl, rfl⟩
  | @cons b c _ _ hbc _ ih =>
    cases i with
    | zero => exact Or.inr ⟨b, c, rfl, rfl, hbc⟩
    | succ i => exact ih i

theorem forall₂_imp (h : List.Forall₂ R l l')
    (himp : ∀ (i : ℕ) b c, l[i]? = some b → l'[i]? = some c → R b c → R' b c) :
    List.Forall₂ R' l l' := by
  induction h with
  | nil => exact .nil
  | cons hbc _ ih => exact .cons (himp 0 _ _ rfl rfl hbc) (ih fun i => himp (i + 1))

theorem forall₂_set (h : List.Forall₂ R l l') {j : ℕ} {b : β} {c : γ} (hbc : R' b c)
    (himp : ∀ (i : ℕ) b c, i ≠ j → l[i]? = some b → l'[i]? = some c → R b c → R' b c) :
    List.Forall₂ R' (l.set j b) (l'.set j c) := by
  induction h generalizing j with
  | nil => exact .nil
  | cons hbc' htail ih =>
    cases j with
    | zero =>
      exact .cons hbc (forall₂_imp htail fun i _ _ => himp (i + 1) _ _ (Nat.succ_ne_zero i))
    | succ j =>
      exact .cons (himp 0 _ _ (Nat.succ_ne_zero j).symm rfl rfl hbc')
        (ih fun i _ _ hij => himp (i + 1) _ _ fun h => hij (Nat.succ.inj h))

theorem forall₂_concat (h : List.Forall₂ R l l') {b : β} {c : γ} (hbc : R b c) :
    List.Forall₂ R (l ++ [b]) (l' ++ [c]) :=
  List.rel_append h (.cons hbc .nil)

end Lists

/-! ### Tokens -/

theorem Foreign.own (es : List (Option ℕ)) (e : Option ℕ) : Foreign es e e := fun _ h => absurd rfl h

/-- A persistent map does not write. -/
theorem owns_none (e : Option ℕ) : owns none e = false := rfl

/-- A transient does not write into what belongs to another handle. -/
theorem Foreign.owns_eq_false {es : List (Option ℕ)} {own e : Option ℕ} {y : ℕ}
    (h : Foreign es own e) (hmem : some y ∈ es) (hne : own ≠ some y) : owns (some y) e = false := by
  by_contra ho
  have he : e = some y := by simpa [owns] using ho
  exact h (he ▸ Option.some_ne_none y) (he ▸ hne.symm) (he ▸ hmem)

/-- A node keeps its owner when a token is added that no node has. -/
theorem Foreign.append {es : List (Option ℕ)} {own e : Option ℕ} {y : ℕ} (h : Foreign es own e)
    (hne : e ≠ some y) : Foreign (es ++ [some y]) own e := by
  intro he hown hmem
  rcases List.mem_append.mp hmem with hmem | hmem
  · exact h he hown hmem
  · exact hne (List.mem_singleton.mp hmem)

/-- A node keeps its owner when a token is given up. -/
theorem Foreign.set {es : List (Option ℕ)} {own e : Option ℕ} (h : Foreign es own e) (j : ℕ) :
    Foreign (es.set j none) own e := by
  intro he hown hmem
  rcases List.mem_or_eq_of_mem_set hmem with hmem | hmem
  · exact h he hown hmem
  · exact he hmem

/-! ### One call -/

open Effect

theorem Mirrors.imp {H H' : Heap Key α} {es es' : List (Option ℕ)} {t : TransientPMap}
    {o : Option (SortedMap Key α)} (h : Mirrors H es t o)
    (himp : ∀ M, t.edit ≠ none → Represents H (Foreign es t.edit) t.root t.size M →
      Represents H' (Foreign es' t.edit) t.root t.size M) : Mirrors H' es' t o := by
  cases o with
  | none => exact h
  | some M => exact ⟨h.1, himp M h.1 h.2⟩

theorem World.getElem?_edits {w : World α} {j : ℕ} {t : TransientPMap}
    (h : w.transients[j]? = some t) : w.edits[j]? = some t.edit := by
  rw [World.edits, List.getElem?_map, h, Option.map_some]

theorem World.edits_set (w : World α) (j : ℕ) (t' : TransientPMap) :
    (w.transients.set j t').map TransientPMap.edit = w.edits.set j t'.edit := by
  rw [List.map_set, World.edits]

theorem set_self {β : Type} {l : List β} {j : ℕ} {b : β} (h : l[j]? = some b) : l.set j b = l := by
  refine List.ext_getElem? fun i => ?_
  rw [List.getElem?_set]
  split_ifs with hij hj
  · rw [← hij, h]
  · rw [← hij, List.getElem?_eq_none (Nat.le_of_not_lt hj)]
  · rfl

namespace Refines

variable {w : World α} {r : Ledger α} {H' : Heap Key α} {edit : Option ℕ}

theorem start : Refines (World.start : World α) Ledger.start where
  bounded _ _ h := nomatch h
  minted _ _ _ h := nomatch h
  tokens _ h := nomatch h
  distinct _ _ _ h := nomatch h
  maps := .cons (Represents.empty _ _) .nil
  transients := .nil

/-- A call makes nodes with the token of its transient only. -/
theorem minted_keeps (h : Refines w r) (hk : Keeps edit Set.univ w.heap H')
    (hedit : edit ≠ none → edit ∈ w.edits) :
    ∀ x n y, H'.node x = some n → n.edit = some y → y < w.token := by
  intro x n y hn hy
  rcases hk.token x n hn with he | ⟨n₀, hn₀, he⟩
  · have heq : edit = some y := he.symm.trans hy
    exact h.tokens y (heq ▸ hedit (heq ▸ Option.some_ne_none y))
  · exact h.minted x n₀ y hn₀ (he.trans hy)

/-- **A new persistent map.** -/
theorem newMap (h : Refines w r) (i : ℕ) {f : PMap → Calls Key α PMap}
    {g : SortedMap Key α → SortedMap Key α}
    (hf : ∀ m M, Represents w.heap (Foreign w.edits none) m.root m.size M →
      ∃ m' H', exec (f m) w.heap = (.ok m', H') ∧
        Represents H' (Foreign w.edits none) m'.root m'.size (g M) ∧
        Keeps none Set.univ w.heap H') :
    (w.newMap i f).2 = (r.newMap i g).2 ∧ Refines (w.newMap i f).1 (r.newMap i g).1 := by
  rcases forall₂_getElem? h.maps i with ⟨hw, hr⟩ | ⟨m, M, hw, hr, hrep⟩
  · simp only [World.newMap, Ledger.newMap, hw, hr]
    exact ⟨trivial, h⟩
  · obtain ⟨m', H', hexec, hrep', hk⟩ := hf m M hrep
    simp only [World.newMap, Ledger.newMap, hw, hr, hexec]
    exact ⟨congrArg Reply.map h.maps.length_eq,
      { bounded := hk.bounded
        minted := h.minted_keeps hk fun hne => absurd rfl hne
        tokens := h.tokens
        distinct := h.distinct
        maps := forall₂_concat (h.maps.imp fun _ _ hm => hm.frame hk fun _ _ => rfl) hrep'
        transients := h.transients.imp fun _ _ ht => ht.imp fun _ _ hm =>
          hm.frame hk fun _ _ => rfl }⟩

/-- **A change of a transient** keeps the persistent maps and the other transients. -/
theorem change (h : Refines w r) (j : ℕ) {f : TransientPMap → Calls Key α TransientPMap}
    {g : SortedMap Key α → SortedMap Key α}
    (hfrozen : ∀ t : TransientPMap, t.edit = none → exec (f t) w.heap = (.error .frozen, w.heap))
    (hf : ∀ (t : TransientPMap) M, t.edit ≠ none →
      Represents w.heap (Foreign w.edits t.edit) t.root t.size M →
      ∃ t' H', exec (f t) w.heap = (.ok t', H') ∧ t'.edit = t.edit ∧
        Represents H' (Foreign w.edits t.edit) t'.root t'.size (g M) ∧
        Keeps t.edit Set.univ w.heap H') :
    (w.change j f).2 = (r.change j g).2 ∧ Refines (w.change j f).1 (r.change j g).1 := by
  rcases forall₂_getElem? h.transients j with ⟨hw, hr⟩ | ⟨t, o, hw, hr, hmir⟩
  · simp only [World.change, Ledger.change, hw, hr]
    exact ⟨trivial, h⟩
  cases o with
  | none =>
    simp only [World.change, Ledger.change, hw, hr, hfrozen t hmir]
    exact ⟨trivial, h⟩
  | some M =>
    obtain ⟨halive, hrep⟩ := hmir
    obtain ⟨t', H', hexec, hedit, hrep', hk⟩ := hf t M halive hrep
    obtain ⟨y, hy⟩ := Option.ne_none_iff_exists'.mp halive
    have hmem : some y ∈ w.edits := hy ▸ List.mem_of_getElem? (World.getElem?_edits hw)
    have hedits : (w.transients.set j t').map TransientPMap.edit = w.edits := by
      rw [World.edits_set, hedit, set_self (World.getElem?_edits hw)]
    simp only [World.change, Ledger.change, hw, hr, hexec]
    refine ⟨trivial, hk.bounded, h.minted_keeps hk fun _ => hy ▸ hmem, ?_, ?_, ?_, ?_⟩
    · rw [World.edits, hedits]
      exact h.tokens
    · rw [World.edits, hedits]
      exact h.distinct
    · rw [World.edits, hedits]
      exact h.maps.imp fun m M hm => hm.frame hk fun e he =>
        hy ▸ he.owns_eq_false hmem (Option.some_ne_none y).symm
    · rw [World.edits, hedits]
      refine forall₂_set h.transients ⟨hedit ▸ halive, hedit ▸ hrep'⟩ fun i t₁ o₁ hij ht₁ _ ho => ?_
      refine ho.imp fun M₁ _ hm => hm.frame hk fun e he => ?_
      rw [hy]
      refine he.owns_eq_false hmem fun heq => hij ?_
      exact h.distinct i j y (heq ▸ World.getElem?_edits ht₁) (hy ▸ World.getElem?_edits hw)

/-- **A new transient** has a token that no node has. -/
theorem begin (h : Refines w r) {m : PMap} {M : SortedMap Key α}
    (hrep : Represents w.heap (Foreign w.edits none) m.root m.size M) :
    Refines { w with token := w.token + 1, transients := w.transients ++ [m.begin w.token] }
      { r with transients := r.transients ++ [some M] } := by
  have hedits : (w.transients ++ [m.begin w.token]).map TransientPMap.edit =
      w.edits ++ [some w.token] := by
    rw [List.map_append, World.edits]
    rfl
  have hfresh : ∀ x n, w.heap.node x = some n → n.edit ≠ some w.token := fun x n hn he =>
    (h.minted x n w.token hn he).false
  have hnew : some w.token ∉ w.edits := fun hmem => (h.tokens w.token hmem).false
  refine ⟨h.bounded, fun x n y hn hy => Nat.lt_succ_of_lt (h.minted x n y hn hy), ?_, ?_, ?_, ?_⟩
  · intro y hy
    rw [World.edits, hedits, List.mem_append] at hy
    rcases hy with hy | hy
    · exact Nat.lt_succ_of_lt (h.tokens y hy)
    · rw [List.mem_singleton, Option.some.injEq] at hy
      exact hy ▸ Nat.lt_succ_self _
  · intro i j y hi hj
    rw [World.edits, hedits] at hi hj
    have hlast : ∀ i : ℕ, (w.edits ++ [some w.token])[i]? = some (some y) →
        w.edits[i]? = some (some y) ∨ i = w.edits.length ∧ y = w.token := fun i hi => by
      rcases Nat.lt_trichotomy i w.edits.length with hlt | rfl | hgt
      · exact Or.inl (by rwa [List.getElem?_append_left hlt] at hi)
      · rw [List.getElem?_concat_length, Option.some.injEq, Option.some.injEq] at hi
        exact Or.inr ⟨rfl, hi.symm⟩
      · rw [List.getElem?_eq_none (by simp; omega)] at hi
        cases hi
    rcases hlast i hi with hi | ⟨rfl, rfl⟩
    · rcases hlast j hj with hj | ⟨rfl, rfl⟩
      · exact h.distinct i j y hi hj
      · exact absurd (List.mem_of_getElem? hi) hnew
    · rcases hlast j hj with hj | ⟨rfl, -⟩
      · exact absurd (List.mem_of_getElem? hj) hnew
      · rfl
  · rw [World.edits, hedits]
    exact h.maps.imp fun _ _ hm => hm.mono fun x n hn he => he.append (hfresh x n hn)
  · rw [World.edits, hedits]
    refine forall₂_concat (h.transients.imp fun _ _ ht => ht.imp fun _ _ hm =>
      hm.mono fun x n hn he => he.append (hfresh x n hn)) ⟨Option.some_ne_none _, ?_⟩
    exact hrep.mono fun x n hn he => (show Foreign w.edits (some w.token) n.edit from
      fun hne _ => he hne hne).append (hfresh x n hn)

/-- **A frozen transient** becomes a persistent map. -/
theorem freeze (h : Refines w r) {j : ℕ} {t : TransientPMap} {M : SortedMap Key α}
    (hw : w.transients[j]? = some t)
    (hrep : Represents w.heap (Foreign w.edits t.edit) t.root t.size M) :
    Refines { w with
        transients := w.transients.set j ⟨none, t.root, t.size⟩
        maps := w.maps ++ [if t.size = 0 then PMap.empty else ⟨t.root, t.size⟩] }
      ⟨r.maps ++ [M], r.transients.set j none⟩ := by
  have hedits := w.edits_set j ⟨none, t.root, t.size⟩
  have hset : ∀ (i y : ℕ), (w.edits.set j none)[i]? = some (some y) →
      i ≠ j ∧ w.edits[i]? = some (some y) := fun i y hi => by
    rw [List.getElem?_set] at hi
    split_ifs at hi with hij hlt
    · cases hi
    · exact ⟨Ne.symm hij, hi⟩
  refine ⟨h.bounded, h.minted, ?_, ?_, ?_, ?_⟩
  · intro y hy
    rw [World.edits, hedits] at hy
    obtain ⟨i, hi⟩ := List.mem_iff_getElem?.mp hy
    exact h.tokens y (List.mem_of_getElem? (hset i y hi).2)
  · intro i i' y hi hi'
    rw [World.edits, hedits] at hi hi'
    exact h.distinct i i' y (hset i y hi).2 (hset i' y hi').2
  · rw [World.edits, hedits]
    refine forall₂_concat (h.maps.imp fun _ _ hm => hm.mono fun _ _ _ he => he.set j) ?_
    by_cases hs : t.size = 0
    · have hM : M = SortedMap.empty := by
        rw [hrep.size_eq] at hs
        exact SortedMap.ext_get? fun k => by
          rw [SortedMap.get?, List.length_eq_zero_iff.mp hs]
          rfl
      rw [if_pos hs, hM]
      exact Represents.empty _ _
    · rw [if_neg hs]
      refine hrep.mono fun x n hn he hne _ hmem => ?_
      obtain ⟨i, hi⟩ := List.mem_iff_getElem?.mp hmem
      obtain ⟨y, hy⟩ := Option.ne_none_iff_exists'.mp hne
      obtain ⟨hij, hi'⟩ := hset i y (hy ▸ hi)
      -- a token of another transient is not the one given up
      refine he hne (fun hown => hij ?_) (hy ▸ List.mem_of_getElem? hi')
      exact h.distinct i j y hi' (hy ▸ hown ▸ World.getElem?_edits hw)
  · rw [World.edits, hedits]
    exact forall₂_set h.transients rfl fun _ _ _ _ _ _ ht => ht.imp fun _ _ hm =>
      hm.mono fun _ _ _ he => he.set j

/-- What a persistent map returns. -/
theorem onMap (h : Refines w r) (i : ℕ) {f : PMap → Reply α} {g : SortedMap Key α → Reply α}
    (hf : ∀ (m : PMap) M, Represents w.heap (Foreign w.edits none) m.root m.size M → f m = g M) :
    w.onMap i f = r.onMap i g := by
  rcases forall₂_getElem? h.maps i with ⟨hw, hr⟩ | ⟨m, M, hw, hr, hrep⟩
  · simp only [World.onMap, Ledger.onMap, hw, hr]
  · simp only [World.onMap, Ledger.onMap, hw, hr, hf m M hrep]

/-- What a transient returns. -/
theorem onTransient (h : Refines w r) (j : ℕ) {f : TransientPMap → Reply α}
    {g : SortedMap Key α → Reply α} (hfrozen : ∀ t : TransientPMap, t.edit = none →
      f t = .thrown .frozen)
    (hf : ∀ (t : TransientPMap) M, t.edit ≠ none →
      Represents w.heap (Foreign w.edits t.edit) t.root t.size M → f t = g M) :
    w.onTransient j f = r.onTransient j g := by
  rcases forall₂_getElem? h.transients j with ⟨hw, hr⟩ | ⟨t, o, hw, hr, hmir⟩
  · simp only [World.onTransient, Ledger.onTransient, hw, hr]
  cases o with
  | none => simp only [World.onTransient, Ledger.onTransient, hw, hr, hfrozen t hmir]
  | some M => simp only [World.onTransient, Ledger.onTransient, hw, hr, hf t M hmir.1 hmir.2]

/-- **One call** returns what the finite maps return, and the relation holds again. -/
theorem step [DecidableEq α] (h : Refines w r) (c : Command α) :
    (w.step c).2 = (r.step c).2 ∧ Refines (w.step c).1 (r.step c).1 := by
  have hnone : Foreign w.edits none none := .own _ _
  cases c with
  | get i k =>
    refine ⟨h.onMap i fun m M hm => ?_, h⟩
    rw [PMap.get, hm.nodeGet k]
    rfl
  | has i k =>
    refine ⟨h.onMap i fun m M hm => ?_, h⟩
    rw [PMap.has, hm.nodeGet k]
    rfl
  | size i =>
    refine ⟨h.onMap i fun m M hm => ?_, h⟩
    rw [hm.size_eq]
  | entries i =>
    refine ⟨h.onMap i fun m M hm => ?_, h⟩
    rw [hm.entries]
    rfl
  | set i k v => exact h.newMap i fun m M hm => hm.set hnone h.bounded k v
  | delete i k => exact h.newMap i fun m M hm => hm.delete hnone h.bounded k
  | begin i =>
    rcases forall₂_getElem? h.maps i with ⟨hw, hr⟩ | ⟨m, M, hw, hr, hrep⟩
    · simp only [World.step, Ledger.step, hw, hr]
      exact ⟨trivial, h⟩
    · simp only [World.step, Ledger.step, hw, hr]
      exact ⟨congrArg Reply.transient h.transients.length_eq, h.begin hrep⟩
  | transientGet j k =>
    refine ⟨h.onTransient j (fun t ht => ?_) fun t M ht hm => ?_, h⟩
    · rw [TransientPMap.get, TransientPMap.alive_frozen ht]
      rfl
    · rw [TransientPMap.get, TransientPMap.alive_eq ht, hm.nodeGet k]
      rfl
  | transientHas j k =>
    refine ⟨h.onTransient j (fun t ht => ?_) fun t M ht hm => ?_, h⟩
    · rw [TransientPMap.has, TransientPMap.alive_frozen ht]
      rfl
    · rw [TransientPMap.has, TransientPMap.alive_eq ht, hm.nodeGet k]
      rfl
  | transientSize j =>
    refine ⟨h.onTransient j (fun t ht => ?_) fun t M ht hm => ?_, h⟩
    · rw [TransientPMap.getSize, TransientPMap.alive_frozen ht]
      rfl
    · rw [TransientPMap.getSize, TransientPMap.alive_eq ht, hm.size_eq]
      rfl
  | transientSet j k v =>
    refine h.change j (fun t ht => ?_) fun t M ht hm => hm.transientSet (.own _ _) h.bounded ht k v
    exact exec_bind_error (TransientPMap.exec_frozen ht _) _
  | transientDelete j k =>
    refine h.change j (fun t ht => ?_) fun t M ht hm => hm.transientDelete (.own _ _) h.bounded ht k
    exact exec_bind_error (TransientPMap.exec_frozen ht _) _
  | freeze j =>
    rcases forall₂_getElem? h.transients j with ⟨hw, hr⟩ | ⟨t, o, hw, hr, hmir⟩
    · simp only [World.step, Ledger.step, hw, hr]
      exact ⟨trivial, h⟩
    cases o with
    | none =>
      have ht : t.freeze = .error .frozen := by
        rw [TransientPMap.freeze, TransientPMap.alive_frozen hmir]
        rfl
      simp only [World.step, Ledger.step, hw, hr, ht]
      exact ⟨trivial, h⟩
    | some M =>
      have ht : t.freeze = .ok (⟨none, t.root, t.size⟩,
          if t.size = 0 then PMap.empty else ⟨t.root, t.size⟩) := by
        rw [TransientPMap.freeze, TransientPMap.alive_eq hmir.1]
        rfl
      simp only [World.step, Ledger.step, hw, hr, ht]
      exact ⟨congrArg Reply.map h.maps.length_eq, h.freeze hw hmir.2⟩

/-- **All calls** return what the finite maps return, and the relation holds again. -/
theorem run [DecidableEq α] (h : Refines w r) (cs : List (Command α)) :
    (w.run cs).2 = (r.run cs).2 ∧ Refines (w.run cs).1 (r.run cs).1 := by
  induction cs generalizing w r with
  | nil => exact ⟨rfl, h⟩
  | cons c cs ih =>
    obtain ⟨hreply, hnext⟩ := h.step c
    obtain ⟨hreplies, hlast⟩ := ih hnext
    exact ⟨congrArg₂ List.cons hreply hreplies, hlast⟩

end Refines

/-! ### Persistence -/

/-- The handle is a persistent map, or a transient that the calls only read. -/
def Spares (cs : List (Command α)) : Handle → Prop
  | .map _ => True
  | .transient j => ∀ c ∈ cs, c.reads = false → c.handle ≠ .transient j

namespace Ledger

variable {r r' : Ledger α}

/-- The finite map in place of a handle. -/
def find (r : Ledger α) : Handle → Option (Option (SortedMap Key α))
  | .map i => r.maps[i]?.map some
  | .transient j => r.transients[j]?

/-- What a call reads is what it returns. -/
theorem step_reads {q : Command α} (hq : q.reads = true) (h : r.find q.handle = r'.find q.handle) :
    (r.step q).2 = (r'.step q).2 := by
  have hmap : ∀ {i : ℕ} (f : SortedMap Key α → Reply α), r.find (.map i) = r'.find (.map i) →
      r.onMap i f = r'.onMap i f := fun f h => by
    rw [onMap, onMap, Option.map_injective (Option.some_injective _) h]
  have htransient : ∀ {j : ℕ} (f : SortedMap Key α → Reply α),
      r.find (.transient j) = r'.find (.transient j) → r.onTransient j f = r'.onTransient j f :=
    fun f h => by rw [onTransient, onTransient, show r.transients[_]? = r'.transients[_]? from h]
  cases q with
  | get i k => exact hmap _ h
  | has i k => exact hmap _ h
  | size i => exact hmap _ h
  | entries i => exact hmap _ h
  | transientGet j k => exact htransient _ h
  | transientHas j k => exact htransient _ h
  | transientSize j => exact htransient _ h
  | set | delete | begin | transientSet | transientDelete | freeze => cases hq

theorem find_concat_map {e : Handle} {x : Option (SortedMap Key α)} (M : SortedMap Key α)
    (ts : List (Option (SortedMap Key α))) (h : (⟨r.maps, ts⟩ : Ledger α).find e = some x) :
    (⟨r.maps ++ [M], ts⟩ : Ledger α).find e = some x := by
  cases e with
  | map i =>
    obtain ⟨N, hN, hx⟩ := Option.map_eq_some_iff.mp h
    show (r.maps ++ [M])[i]?.map some = _
    rw [List.getElem?_append_left (List.getElem?_eq_some_iff.mp hN).1, hN]
    exact congrArg some hx
  | transient j => exact h

/-- A change of a transient is seen at this transient only. -/
theorem find_set_transient {e : Handle} {j : ℕ} (he : e ≠ .transient j)
    (o : Option (SortedMap Key α)) :
    (⟨r.maps, r.transients.set j o⟩ : Ledger α).find e = r.find e := by
  cases e with
  | map i => rfl
  | transient i =>
    show (r.transients.set j o)[i]? = r.transients[i]?
    exact List.getElem?_set_ne fun h => he (congrArg Handle.transient h.symm)

/-- A call changes only the transient that it is on, and that only if it does not just read. -/
theorem find_step (c : Command α) {e : Handle} {x : Option (SortedMap Key α)}
    (hc : c.reads = false → c.handle = e → ∃ i, e = .map i) (h : r.find e = some x) :
    (r.step c).1.find e = some x := by
  have hnew : ∀ (i : ℕ) (f : SortedMap Key α → SortedMap Key α), (r.newMap i f).1.find e = some x :=
    fun i f => by
      rw [newMap]
      split
      · exact h
      · exact find_concat_map _ _ h
  have hother : ∀ j : ℕ, c.reads = false → c.handle = .transient j → e ≠ .transient j := by
    rintro j hreads hj rfl
    obtain ⟨i, hi⟩ := hc hreads hj
    cases hi
  have hchange : ∀ (j : ℕ) (f : SortedMap Key α → SortedMap Key α), e ≠ .transient j →
      (r.change j f).1.find e = some x := fun j f hj => by
    rw [change]
    split
    · exact h
    · exact h
    · exact (find_set_transient hj _).trans h
  cases c with
  | get | has | size | entries | transientGet | transientHas | transientSize => exact h
  | set i k v => exact hnew i _
  | delete i k => exact hnew i _
  | begin i =>
    rw [step]
    split
    · exact h
    · cases e with
      | map i => exact h
      | transient j =>
        show (r.transients ++ _)[j]? = _
        rw [List.getElem?_append_left (List.getElem?_eq_some_iff.mp h).1]
        exact h
  | transientSet j k v => exact hchange j _ (hother j rfl rfl)
  | transientDelete j k => exact hchange j _ (hother j rfl rfl)
  | freeze j =>
    rw [step]
    split
    · exact h
    · exact h
    · exact find_concat_map _ _ ((find_set_transient (hother j rfl rfl) _).trans h)

theorem find_run (cs : List (Command α)) {e : Handle} {x : Option (SortedMap Key α)}
    (hcs : Spares cs e) (h : r.find e = some x) : (r.run cs).1.find e = some x := by
  induction cs generalizing r with
  | nil => exact h
  | cons c cs ih =>
    refine ih ?_ (find_step c (fun hreads he => ?_) h)
    · cases e with
      | map i => trivial
      | transient j => exact fun d hd => hcs d (List.mem_cons_of_mem _ hd)
    · cases e with
      | map i => exact ⟨i, rfl⟩
      | transient j => exact absurd he (hcs c List.mem_cons_self hreads)

end Ledger

theorem Refines.find_of_bound {w : World α} {r : Ledger α} (h : Refines w r) {e : Handle}
    (he : w.Bound e) : ∃ x, r.find e = some x := by
  cases e with
  | map i =>
    have hi : i < r.maps.length := h.maps.length_eq ▸ he
    exact ⟨_, by rw [Ledger.find, List.getElem?_eq_getElem hi]; rfl⟩
  | transient j =>
    have hj : j < r.transients.length := h.transients.length_eq ▸ he
    exact ⟨_, List.getElem?_eq_getElem hj⟩

/-- **The maps are persistent.** In every program all calls return what the finite maps return.
Whatever is called after that, a persistent map reads as before, and so does a transient that these
calls only read. -/
theorem run_persistent [DecidableEq α] (cs : List (Command α)) :
    ((World.start : World α).run cs).2 = (Ledger.start.run cs).2 ∧
      ∀ (ds : List (Command α)) (q : Command α), q.reads = true →
        ((World.start : World α).run cs).1.Bound q.handle → Spares ds q.handle →
        (((World.start.run cs).1.run ds).1.step q).2 = ((World.start.run cs).1.step q).2 := by
  obtain ⟨hreplies, href⟩ := Refines.start.run cs
  refine ⟨hreplies, fun ds q hq hbound hspares => ?_⟩
  obtain ⟨x, hx⟩ := href.find_of_bound hbound
  have hlater := Ledger.find_run ds hspares hx
  calc (((World.start.run cs).1.run ds).1.step q).2
      = (((Ledger.start.run cs).1.run ds).1.step q).2 := ((href.run ds).2.step q).1
    _ = ((Ledger.start.run cs).1.step q).2 := Ledger.step_reads hq (hlater.trans hx.symm)
    _ = ((World.start.run cs).1.step q).2 := (href.step q).1.symm

end PMap

end SalRuntime
