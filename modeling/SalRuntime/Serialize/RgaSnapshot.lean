import Mathlib.Logic.Relation
import SalRuntime.Datatypes.RgaFold
import SalRuntime.Foundations.Effect
import SalRuntime.Foundations.Number
import SalRuntime.Serialize.BitIo
import SalRuntime.Serialize.Json

/-!
# Snapshots of the tombstone RGA

The binary snapshots of `src/datatypes/rga.js`. Ids are written as gaps, anchors as distances, and
elements as JSON texts. The writer refuses a number that is not a safe integer, and the reader checks
the state it has read. Sums and differences of ids are rounded to doubles.

## Main definitions

* `Rga.encodeSnapshot`, `Rga.decodeSnapshot` — the codec.
* `Rga.Reachable` — the states that accepted operations and merges reach.
* `Rga.written` — the numbers that a snapshot holds.
* `Rga.Sound` — the invariant of the states.

## Main results

* `Rga.sound_of_walk` — insertions that the walk reaches have their anchors.
* `Rga.snapshot_roundtrip` — snapshots of reachable states come back, if the numbers are safe.
-/

namespace SalRuntime.Rga

/-! ### Writing -/

/-- Write a natural number. -/
def putVar (n : ℕ) : Except Failure (List UInt8) :=
  if n ≤ MAX_SAFE_INTEGER then .ok (writeVarint n) else .error (.error s!"bad RGA varint {n}")

/-- Write the distance of an id to its anchor. -/
def putAnchor (id : ℕ) : Option ℕ → Except Failure (List UInt8)
  | none => putVar 0
  | some a =>
    if id < a then .error (.error s!"bad RGA varint -{a - id}") else putVar (toDouble (id - a))

/-- Write an insertion after the one with the id `prev`. -/
def putAdd (prev : ℕ) (e : ℕ × Added Text) : Except Failure (List UInt8) := do
  let bytes := utf8 (Json.stringify e.2.el)
  return (← putVar (toDouble (e.1 - prev))) ++ (← putAnchor e.1 e.2.anchorId) ++
    (← putVar bytes.length) ++ bytes

/-- Write insertions. -/
def putAdds : ℕ → List (ℕ × Added Text) → Except Failure (List UInt8)
  | _, [] => .ok []
  | prev, e :: es => do return (← putAdd prev e) ++ (← putAdds e.1 es)

/-- Write ids. -/
def putGaps : ℕ → List ℕ → Except Failure (List UInt8)
  | _, [] => .ok []
  | prev, id :: ids => do return (← putVar (toDouble (id - prev))) ++ (← putGaps id ids)

/-- The snapshot of a state with strings as elements. -/
def encodeSnapshot (s : State Text) : Except Failure (List UInt8) := do
  return 2 :: ((← putVar s.adds.size) ++ (← putAdds 0 s.adds.entries) ++
    (← putVar s.grave.size) ++ (← putGaps 0 s.grave.keys))

/-! ### Reading -/

/-- A reader of bytes. -/
abbrev ByteReader := Reader UInt8 Failure

/-- Read at most `k` groups of seven bits. -/
def getGroups : ℕ → ℕ → ℕ → ByteReader ℕ
  | 0, _, _ => throw (.error "oversized RGA varint")
  | k + 1, n, mul => do
    let b ← Reader.next (.error "truncated RGA varint")
    let n := n + b.toNat % 128 * mul
    if MAX_SAFE_INTEGER < n then throw (.error "RGA varint overflow")
    if b.toNat < 128 then return n
    getGroups k n (mul * 128)

/-- Read a natural number. -/
def getVar : ByteReader ℕ := getGroups 8 0 1

/-- The anchor of an id at a distance. -/
def anchorAt (id distance : ℕ) : Except Failure (Option ℕ) := do
  if id < 1 then throw (.error s!"invalid RGA anchor encoding at {id}")
  if distance = 0 then return none
  let anchorId := toDouble (id - distance)
  if anchorId < 1 ∨ id ≤ anchorId then throw (.error s!"invalid RGA anchor encoding at {id}")
  return some anchorId

/-- Read a number of bytes. -/
def getBytes (len : ℕ) : ByteReader (List UInt8) := fun bs =>
  if bs.length < len then .error (.error "truncated RGA element")
  else .ok (bs.take len, bs.drop len)

/-- The value of the bytes of a JSON text. -/
def parseBytes (bs : List UInt8) : Except Failure Json := do
  match Json.parse (← decodeText bs) with
  | .ok v => return v
  | .error _ => throw (.error "SyntaxError")

/-- Read an insertion after the one with the id `prev`. -/
def getAdd (prev : ℕ) : ByteReader (ℕ × Added Json) := do
  let id := toDouble (prev + (← getVar))
  let anchorId ← anchorAt id (← getVar)
  let el ← parseBytes (← getBytes (← getVar))
  return (id, { anchorId, el })

/-- Read insertions. -/
def getAdds : ℕ → ℕ → SortedMap ℕ (Added Json) → ByteReader (SortedMap ℕ (Added Json))
  | 0, _, adds => return adds
  | n + 1, prev, adds => do
    let e ← getAdd prev
    getAdds n e.1 (adds.insert e.1 e.2)

/-- Read ids. -/
def getGaps : ℕ → ℕ → SortedMap ℕ Unit → ByteReader (SortedMap ℕ Unit)
  | 0, _, grave => return grave
  | n + 1, prev, grave => do
    let id := toDouble (prev + (← getVar))
    getGaps n id (grave.insert id ())

/-- Read the insertions and the graves. -/
def getState : ByteReader (SortedMap ℕ (Added Json) × SortedMap ℕ Unit) := do
  let adds ← getAdds (← getVar) 0 SortedMap.empty
  let grave ← getGaps (← getVar) 0 SortedMap.empty
  return (adds, grave)

/-- The state of a snapshot. -/
def decodeSnapshot : List UInt8 → Except Failure (State Json)
  | [] => .error (.error "unsupported RGA binary snapshot version")
  | v :: bs => do
    if v ≠ 2 then throw (.error "unsupported RGA binary snapshot version")
    let ((adds, grave), rest) ← StateT.run getState bs
    if rest ≠ [] then throw (.error "trailing RGA snapshot bytes")
    let _ ← orderedIds adds
    match grave.keys.find? fun id => !adds.has id with
    | some id => throw (.error s!"RGA tombstone {id} has no insertion")
    | none => return { adds, grave, order := none }

/-! ### What the walk reaches -/

section Walk

variable {α : Type} {adds : SortedMap ℕ (Added α)}

/-- Anchors are smaller than the ids anchored at them. They need not be inserted. -/
def Descending (adds : SortedMap ℕ (Added α)) : Prop :=
  ∀ id a, anchorIn adds id = some a → a < id

/-- An id is anchored below another one, or is that one. -/
def Under (adds : SortedMap ℕ (Added α)) : ℕ → ℕ → Prop :=
  Relation.ReflTransGen fun i a => anchorIn adds i = some a

theorem mem_children {a : Option ℕ} {id : ℕ} :
    id ∈ children adds a ↔ id ∈ adds.keys ∧ anchorIn adds id = a :=
  mem_children_iff fun _ _ => exists_add_iff

theorem Under.le (h : Descending adds) {i a : ℕ} (hu : Under adds i a) : a ≤ i := by
  induction hu with
  | refl => exact le_refl i
  | tail _ ha ih => exact (h _ _ ha).le.trans ih

/-- **The walk** pops no id twice, if no id of the stack lies below another one. -/
theorem nodup_walk (h : Descending adds) (n : ℕ) (stack : List ℕ)
    (hstack : stack.Pairwise fun i j => ¬ Under adds i j ∧ ¬ Under adds j i) :
    (walk adds n stack).Nodup ∧ ∀ i ∈ walk adds n stack, ∃ s ∈ stack, Under adds i s := by
  induction n generalizing stack with
  | zero => exact ⟨List.nodup_nil, fun i hi => by cases hi⟩
  | succ n ih =>
    cases stack with
    | nil => exact ⟨List.nodup_nil, fun i hi => by cases hi⟩
    | cons x stack =>
      obtain ⟨hx, hstack⟩ := List.pairwise_cons.mp hstack
      have hchild {c : ℕ} (hc : c ∈ children adds (some x)) : anchorIn adds c = some x :=
        (mem_children.mp hc).2
      -- What lies above a child is the child, or lies above its anchor.
      have habove {c s : ℕ} (hc : c ∈ children adds (some x)) (hu : Under adds c s) :
          s = c ∨ Under adds x s := by
        rcases Relation.ReflTransGen.cases_head hu with rfl | ⟨b, hb, hu⟩
        · exact Or.inl rfl
        · rw [hchild hc] at hb
          cases hb
          exact Or.inr hu
      have hnew : (children adds (some x) ++ stack).Pairwise
          fun i j => ¬ Under adds i j ∧ ¬ Under adds j i := by
        refine List.pairwise_append.mpr ⟨?_, hstack, fun c hc s hs => ⟨fun hu => ?_, fun hu => ?_⟩⟩
        · refine (pairwise_children (some x)).imp_of_mem fun {c d} hc hd hlt =>
            ⟨fun hu => ?_, fun hu => ?_⟩
          · rcases habove hc hu with rfl | hu
            · exact lt_irrefl _ hlt
            · exact (hu.le h).not_gt (h _ _ (hchild hd))
          · exact (hu.le h).not_gt hlt
        · rcases habove hc hu with rfl | hu
          · exact (hx _ hs).2 (.single (hchild hc))
          · exact (hx _ hs).1 hu
        · exact (hx _ hs).2 (hu.tail (hchild hc))
      obtain ⟨hnodup, hunder⟩ := ih _ hnew
      refine ⟨List.nodup_cons.mpr ⟨fun hmem => ?_, hnodup⟩, fun i hi => ?_⟩
      · obtain ⟨s, hs, hu⟩ := hunder x hmem
        rcases List.mem_append.mp hs with hs | hs
        · exact (hu.le h).not_gt (h _ _ (hchild hs))
        · exact (hx s hs).1 hu
      · rcases List.mem_cons.mp hi with rfl | hi
        · exact ⟨i, List.mem_cons_self, .refl⟩
        · obtain ⟨s, hs, hu⟩ := hunder i hi
          rcases List.mem_append.mp hs with hs | hs
          · exact ⟨x, List.mem_cons_self, hu.tail (hchild hs)⟩
          · exact ⟨s, List.mem_cons_of_mem _ hs, hu⟩

/-- An id that the walk pops was on the stack, or it is an inserted id whose anchor was popped. -/
theorem mem_of_mem_walk (n : ℕ) (stack : List ℕ) {i : ℕ} (hi : i ∈ walk adds n stack) :
    i ∈ stack ∨ i ∈ adds.keys ∧ ∃ a ∈ walk adds n stack, anchorIn adds i = some a := by
  induction n generalizing stack with
  | zero => cases hi
  | succ n ih =>
    cases stack with
    | nil => cases hi
    | cons x stack =>
      rcases List.mem_cons.mp hi with rfl | hi
      · exact Or.inl List.mem_cons_self
      · rcases ih _ hi with hs | ⟨hkey, a, ha, hanchor⟩
        · rcases List.mem_append.mp hs with hs | hs
          · obtain ⟨hkey, hanchor⟩ := mem_children.mp hs
            exact Or.inr ⟨hkey, x, List.mem_cons_self, hanchor⟩
          · exact Or.inl (List.mem_cons_of_mem _ hs)
        · exact Or.inr ⟨hkey, a, List.mem_cons_of_mem _ ha, hanchor⟩

/-- **What the walk accepts.** If the walk reaches as many ids as there are, the anchors are inserted
ids. -/
theorem anchorClosed_of_orderedIds (h : Descending adds) {out : List ℕ}
    (hout : orderedIds adds = .ok out) : AnchorClosed adds := by
  have hwalk : out = walk adds adds.size (children adds none) ∧ out.length = adds.size := by
    simp only [orderedIds] at hout
    split_ifs at hout with hlen
    cases hout
    exact ⟨rfl, not_not.mp hlen⟩
  obtain ⟨rfl, hlen⟩ := hwalk
  set out := walk adds adds.size (children adds none)
  have hroot {c : ℕ} (hc : c ∈ children adds none) : c ∈ adds.keys ∧ anchorIn adds c = none :=
    mem_children.mp hc
  have hnodup : out.Nodup := by
    refine (nodup_walk h _ _ ((pairwise_children none).imp_of_mem fun {c d} hc hd hlt => ?_)).1
    have habove {c s : ℕ} (hc : c ∈ children adds none) (hu : Under adds c s) : s = c := by
      rcases Relation.ReflTransGen.cases_head hu with rfl | ⟨b, hb, -⟩
      · rfl
      · rw [(hroot hc).2] at hb
        cases hb
    exact ⟨fun hu => hlt.ne (habove hc hu), fun hu => hlt.ne' (habove hd hu)⟩
  have hkeys : out ⊆ adds.keys := fun i hi =>
    (mem_of_mem_walk _ _ hi).elim (fun hc => (hroot hc).1) And.left
  -- The ids that are reached are different, so they are all ids.
  have hall : ∀ id ∈ adds.keys, id ∈ out := by
    have hperm := (hnodup.subperm hkeys).perm_of_length_le
      (by rw [hlen, SortedMap.keys, List.length_map]; rfl)
    exact fun id hid => hperm.mem_iff.mpr hid
  intro id r a hr ha
  have hanchor : anchorIn adds id = some a := by rw [anchorIn, hr, Option.bind_some, ha]
  refine ⟨?_, h id a hanchor⟩
  rcases mem_of_mem_walk _ _ (hall id (SortedMap.mem_keys_iff.mpr ⟨r, hr⟩)) with hc | ⟨-, b, hb, hab⟩
  · rw [(hroot hc).2] at hanchor
    cases hanchor
  · rw [hanchor] at hab
    cases hab
    exact hkeys hb

end Walk

/-! ### What is accepted -/

/-- The invariant of states: ids are positive, anchors are smaller inserted ids, and graves are
inserted ids. -/
structure Sound {α : Type} (s : State α) : Prop where
  /-- Ids are positive. -/
  pos : ∀ id ∈ s.adds.keys, 1 ≤ id
  /-- Anchors are smaller inserted ids. -/
  anchored : AnchorClosed s.adds
  /-- Graves are inserted ids. -/
  buried : ∀ id ∈ s.grave.keys, id ∈ s.adds.keys
  /-- No order is remembered. -/
  order : s.order = none

/-- **The walk** of a sound state lists the inserted ids, each once. -/
theorem Sound.orderedIds {α : Type} {s : State α} (h : Sound s) :
    ∃ out, Rga.orderedIds s.adds = .ok out ∧ out.Nodup ∧ ∀ id, id ∈ out ↔ id ∈ s.adds.keys := by
  obtain ⟨hpair, hmem⟩ := timestampFold_spec h.anchored
  refine ⟨_, orderedIds_of_anchorClosed h.anchored, hpair.imp fun {i j} hij heq => ?_, hmem⟩
  subst heq
  exact above_irrefl _ hij

/-- An insertion that may be read: the id is positive, and an anchor is smaller. -/
def Readable (id : ℕ) (r : Added Json) : Prop := 1 ≤ id ∧ ∀ a, r.anchorId = some a → a < id

theorem anchorAt_eq_ok {id distance : ℕ} {anchorId : Option ℕ}
    (h : anchorAt id distance = .ok anchorId) : 1 ≤ id ∧ ∀ a, anchorId = some a → a < id := by
  rw [anchorAt] at h
  by_cases hid : id < 1
  · rw [if_pos hid] at h
    cases h
  rw [if_neg hid] at h
  by_cases hd : distance = 0
  · simp only [if_pos hd] at h
    cases h
    exact ⟨by omega, fun a ha => by cases ha⟩
  · simp only [if_neg hd] at h
    by_cases ha : toDouble (id - distance) < 1 ∨ id ≤ toDouble (id - distance)
    · rw [if_pos ha] at h
      cases h
    · rw [if_neg ha] at h
      cases h
      refine ⟨by omega, fun a heq => ?_⟩
      cases heq
      omega

theorem readable_getAdd {prev : ℕ} {bs bs' : List UInt8} {e : ℕ × Added Json}
    (h : StateT.run (getAdd prev) bs = .ok (e, bs')) : Readable e.1 e.2 := by
  simp only [getAdd, Reader.run_bind_eq_ok, Reader.run_lift_eq_ok, Reader.run_pure_eq_ok] at h
  obtain ⟨gap, _, -, distance, _, -, anchorId, _, ⟨hanchor, -⟩, h⟩ := h
  obtain ⟨len, _, -, bytes, _, -, el, _, -, rfl, -⟩ := h
  exact anchorAt_eq_ok hanchor

theorem readable_getAdds (n prev : ℕ) {adds adds' : SortedMap ℕ (Added Json)}
    {bs bs' : List UInt8} (hadds : ∀ id r, adds.get? id = some r → Readable id r)
    (h : StateT.run (getAdds n prev adds) bs = .ok (adds', bs')) :
    ∀ id r, adds'.get? id = some r → Readable id r := by
  induction n generalizing prev adds bs with
  | zero =>
    obtain ⟨rfl, -⟩ := Reader.run_pure_eq_ok.mp h
    exact hadds
  | succ n ih =>
    rw [getAdds, Reader.run_bind_eq_ok] at h
    obtain ⟨e, r, he, h⟩ := h
    refine ih e.1 (fun id r hr => ?_) h
    rw [SortedMap.get?_insert] at hr
    split_ifs at hr with heq
    · cases hr
      exact heq ▸ readable_getAdd he
    · exact hadds id r hr

/-- **Accepted snapshots** are of sound states. -/
theorem sound_of_decodeSnapshot {bytes : List UInt8} {s : State Json}
    (h : decodeSnapshot bytes = .ok s) : Sound s := by
  cases bytes with
  | nil => cases h
  | cons v bs =>
    rw [decodeSnapshot] at h
    by_cases hv : v ≠ 2
    · rw [if_pos hv] at h
      cases h
    rw [if_neg hv] at h
    cases hstate : StateT.run getState bs with
    | error e =>
      rw [hstate] at h
      cases h
    | ok p =>
      obtain ⟨⟨adds, grave⟩, rest⟩ := p
      rw [hstate] at h
      replace h : (do
        if rest ≠ [] then throw (.error "trailing RGA snapshot bytes")
        let _ ← Rga.orderedIds adds
        match grave.keys.find? fun id => !adds.has id with
        | some id => throw (.error s!"RGA tombstone {id} has no insertion")
        | none => return { adds, grave, order := none }) = Except.ok s := h
      by_cases hrest : rest ≠ []
      · rw [if_pos hrest] at h
        cases h
      rw [if_neg hrest] at h
      cases hout : Rga.orderedIds adds with
      | error e =>
        rw [hout] at h
        cases h
      | ok out =>
        rw [hout] at h
        cases hfind : grave.keys.find? fun id => !adds.has id with
        | some id =>
          simp only [hfind] at h
          cases h
        | none =>
          simp only [hfind] at h
          cases h
          rw [getState] at hstate
          simp only [Reader.run_bind_eq_ok, Reader.run_pure_eq_ok] at hstate
          obtain ⟨n, _, -, adds', _, hadds, _, _, -, grave', _, -, heq, -⟩ := hstate
          cases heq
          have hread := readable_getAdds n 0 (fun id r hr => by cases hr) hadds
          have hdescending : Descending adds := fun id a ha => by
            obtain ⟨r, hr, hra⟩ := Option.bind_eq_some_iff.mp ha
            exact (hread id r hr).2 a hra
          refine ⟨fun id hid => ?_, anchorClosed_of_orderedIds hdescending hout, fun id hid => ?_, rfl⟩
          · obtain ⟨r, hr⟩ := SortedMap.mem_keys_iff.mp hid
            exact (hread id r hr).1
          · have := List.find?_eq_none.mp hfind id hid
            rw [Bool.not_eq_true, Bool.not_eq_false'] at this
            exact SortedMap.mem_keys_iff_has.mpr this

/-! ### What is written comes back -/

/-- The numbers that an insertion is written with: the gap to the id before, the distance to the
anchor, and the length of the element. -/
def addNumbers (prev : ℕ) (e : ℕ × Added Text) : List ℕ :=
  [e.1 - prev, e.2.anchorId.elim 0 (e.1 - ·), (utf8 (Json.stringify e.2.el)).length]

/-- The numbers that insertions are written with. -/
def addsNumbers : ℕ → List (ℕ × Added Text) → List ℕ
  | _, [] => []
  | prev, e :: es => addNumbers prev e ++ addsNumbers e.1 es

/-- The gaps between ids. -/
def gaps : ℕ → List ℕ → List ℕ
  | _, [] => []
  | prev, id :: ids => (id - prev) :: gaps id ids

/-- The numbers that a snapshot holds. -/
def written (s : State Text) : List ℕ :=
  (s.adds.size :: addsNumbers 0 s.adds.entries) ++ (s.grave.size :: gaps 0 s.grave.keys)

theorem putVar_eq_ok_iff {n : ℕ} {out : List UInt8} :
    putVar n = .ok out ↔ n ≤ MAX_SAFE_INTEGER ∧ out = writeVarint n := by
  rw [putVar]
  split_ifs with h
  · rw [Except.ok.injEq, eq_comm]
    exact (and_iff_right h).symm
  · refine iff_of_false (fun hcon => ?_) fun hcon => h hcon.1
    cases hcon

/-- Groups of seven bits are read back at a scale. -/
theorem reads_getGroups {k n m mul : ℕ} (hn : n < 128 ^ k) (hsafe : m + n * mul ≤ MAX_SAFE_INTEGER)
    (hk : 0 < k) : Reader.Reads (getGroups k m mul) (writeVarint n) (m + n * mul) := by
  induction k generalizing n m mul with
  | zero => omega
  | succ k ih =>
    rw [writeVarint]
    by_cases hlt : n < 128
    · have hlow : (UInt8.ofNat n).toNat = n := UInt8.toNat_ofNat_of_lt' (show n < 256 by omega)
      rw [if_pos hlt, getGroups]
      refine (Reader.Reads.next _ _).bind_pure ?_
      simp only [hlow, Nat.mod_eq_of_lt hlt, if_neg hsafe.not_gt, if_pos hlt]
      exact .pure _
    · have hlow : (UInt8.ofNat (n % 128 + 128)).toNat = n % 128 + 128 :=
        UInt8.toNat_ofNat_of_lt' (show n % 128 + 128 < 256 by omega)
      have hsplit : n * mul = n % 128 * mul + n / 128 * (mul * 128) := by
        conv_lhs => rw [← Nat.mod_add_div n 128]
        ring
      have hpow : n / 128 < 128 ^ k := by
        rw [pow_succ] at hn
        exact Nat.div_lt_of_lt_mul (by rwa [Nat.mul_comm] at hn)
      have hkpos : 0 < k := by
        by_contra hzero
        rw [show k = 0 by omega, pow_zero] at hpow
        omega
      have hrest : Reader.Reads (getGroups k (m + n % 128 * mul) (mul * 128))
          (writeVarint (n / 128)) (m + n % 128 * mul + n / 128 * (mul * 128)) :=
        ih hpow (by omega) hkpos
      rw [if_neg hlt, getGroups, hsplit, ← Nat.add_assoc, ← List.singleton_append]
      refine (Reader.Reads.next _ _).bind ?_
      simp only [hlow, show (n % 128 + 128) % 128 = n % 128 by omega,
        if_neg (show ¬ MAX_SAFE_INTEGER < m + n % 128 * mul by omega),
        if_neg (show ¬ n % 128 + 128 < 128 by omega)]
      exact hrest

/-- **Safe integers** are read back. -/
theorem reads_getVar {n : ℕ} (h : n ≤ MAX_SAFE_INTEGER) :
    Reader.Reads getVar (writeVarint n) n := by
  have hlt : n < 128 ^ 8 := by
    rw [MAX_SAFE_INTEGER] at h
    omega
  have hread := @reads_getGroups 8 n 0 1 hlt (by omega) (by omega)
  rwa [Nat.mul_one, Nat.zero_add] at hread

/-- An insertion of a state that is written: the ids are numbers, the anchor is smaller, and the
element is a string. -/
structure Writable (id : ℕ) (r : Added Text) : Prop where
  /-- The id is positive. -/
  pos : 1 ≤ id
  /-- The id is a number. -/
  number : toDouble id = id
  /-- The anchor is smaller. -/
  anchored : ∀ a, r.anchorId = some a → 1 ≤ a ∧ a < id ∧ toDouble a = a
  /-- The element is a string. -/
  string : IsString r.el

/-- **Anchors** come back from their distances. -/
theorem reads_putAnchor {id : ℕ} {r : Added Text} (h : Writable id r)
    (hsafe : r.anchorId.elim 0 (id - ·) ≤ MAX_SAFE_INTEGER) :
    putAnchor id r.anchorId = .ok (writeVarint (r.anchorId.elim 0 (id - ·))) ∧
      anchorAt id (r.anchorId.elim 0 (id - ·)) = .ok r.anchorId := by
  have hpos := h.pos
  rw [anchorAt, if_neg (by omega)]
  cases ha : r.anchorId with
  | none => exact ⟨putVar_eq_ok_iff.mpr ⟨Nat.zero_le _, rfl⟩, rfl⟩
  | some a =>
    obtain ⟨hpos, hlt, hnumber⟩ := h.anchored a ha
    rw [ha, Option.elim_some] at hsafe
    rw [Option.elim_some, putAnchor, if_neg hlt.not_gt, toDouble_eq_self hsafe]
    refine ⟨putVar_eq_ok_iff.mpr ⟨hsafe, rfl⟩, ?_⟩
    simp only [if_neg (show ¬ id - a = 0 by omega), Nat.sub_sub_self hlt.le, hnumber,
      if_neg (show ¬ (a < 1 ∨ id ≤ a) by omega)]
    rfl

theorem reads_getBytes (bs : List UInt8) : Reader.Reads (getBytes bs.length) bs bs := fun rest => by
  show getBytes bs.length (bs ++ rest) = _
  rw [getBytes, if_neg (by rw [List.length_append]; omega), List.take_left, List.drop_left]

/-- **Insertions** come back. -/
theorem exists_putAdd {prev : ℕ} {e : ℕ × Added Text} (h : Writable e.1 e.2) (hlt : prev < e.1)
    (hsafe : ∀ n ∈ addNumbers prev e, n ≤ MAX_SAFE_INTEGER) :
    ∃ out, putAdd prev e = .ok out ∧
      Reader.Reads (getAdd prev) out (e.1, ⟨e.2.anchorId, .str e.2.el⟩) := by
  simp only [addNumbers, List.forall_mem_cons] at hsafe
  obtain ⟨hgap, hdist, hlen, -⟩ := hsafe
  obtain ⟨hput, hanchor⟩ := reads_putAnchor h hdist
  refine ⟨writeVarint (e.1 - prev) ++ writeVarint (e.2.anchorId.elim 0 (e.1 - ·)) ++
    writeVarint (utf8 (Json.stringify e.2.el)).length ++ utf8 (Json.stringify e.2.el), ?_, ?_⟩
  · rw [putAdd, toDouble_eq_self hgap, putVar_eq_ok_iff.mpr ⟨hgap, rfl⟩, hput,
      putVar_eq_ok_iff.mpr ⟨hlen, rfl⟩]
    rfl
  · have hid : toDouble (prev + (e.1 - prev)) = e.1 := by
      rw [Nat.add_sub_cancel' hlt.le, h.number]
    have hparse : parseBytes (utf8 (Json.stringify e.2.el)) = .ok (.str e.2.el) := by
      rw [parseBytes, Json.decodeText_stringify]
      show (match Json.parse (Json.stringify e.2.el) with
        | .ok v => Except.ok v
        | .error _ => Except.error (Failure.error "SyntaxError")) = _
      rw [Json.parse_stringify h.string]
    rw [List.append_assoc, List.append_assoc, getAdd]
    refine (reads_getVar hgap).bind ((reads_getVar hdist).bind ?_)
    rw [hid, ← List.nil_append (_ ++ _)]
    refine (Reader.Reads.lift hanchor).bind ((reads_getVar hlen).bind ((reads_getBytes _).bind_pure ?_))
    exact (Reader.Reads.lift hparse).map fun el => (e.1, ({ anchorId := e.2.anchorId, el } : Added Json))

/-- An insertion with its element as a JSON value. -/
def Added.json (r : Added Text) : Added Json := ⟨r.anchorId, .str r.el⟩

theorem exists_putAdds {prev : ℕ} {es : List (ℕ × Added Text)} (h : ∀ e ∈ es, Writable e.1 e.2)
    (hlt : ∀ e ∈ es, prev < e.1) (hsorted : es.Pairwise fun e f => e.1 < f.1)
    (hsafe : ∀ n ∈ addsNumbers prev es, n ≤ MAX_SAFE_INTEGER) :
    ∃ out, putAdds prev es = .ok out ∧ ∀ adds, Reader.Reads (getAdds es.length prev adds) out
      ((es.map fun e => (e.1, e.2.json)).foldl (fun m e => m.insert e.1 e.2) adds) := by
  induction es generalizing prev with
  | nil => exact ⟨[], rfl, fun adds => .pure adds⟩
  | cons e es ih =>
    obtain ⟨hhead, htail⟩ := List.pairwise_cons.mp hsorted
    simp only [addsNumbers, List.forall_mem_append] at hsafe
    obtain ⟨out, hout, hread⟩ :=
      exists_putAdd (h e List.mem_cons_self) (hlt e List.mem_cons_self) hsafe.1
    obtain ⟨rest, hrest, hreads⟩ := ih (fun f hf => h f (List.mem_cons_of_mem _ hf)) hhead htail
      hsafe.2
    refine ⟨out ++ rest, ?_, fun adds => hread.bind (hreads _)⟩
    rw [putAdds, hout, hrest]
    rfl

theorem exists_putGaps {prev : ℕ} {ids : List ℕ} (h : ∀ id ∈ ids, toDouble id = id)
    (hlt : ∀ id ∈ ids, prev < id) (hsorted : ids.Pairwise (· < ·))
    (hsafe : ∀ n ∈ gaps prev ids, n ≤ MAX_SAFE_INTEGER) :
    ∃ out, putGaps prev ids = .ok out ∧ ∀ grave, Reader.Reads (getGaps ids.length prev grave) out
      ((ids.map fun id => (id, ())).foldl (fun m e => m.insert e.1 e.2) grave) := by
  induction ids generalizing prev with
  | nil => exact ⟨[], rfl, fun grave => .pure grave⟩
  | cons id ids ih =>
    obtain ⟨hhead, htail⟩ := List.pairwise_cons.mp hsorted
    simp only [gaps, List.forall_mem_cons] at hsafe
    obtain ⟨rest, hrest, hreads⟩ := ih (fun i hi => h i (List.mem_cons_of_mem _ hi)) hhead htail
      hsafe.2
    refine ⟨writeVarint (id - prev) ++ rest, ?_, fun grave => (reads_getVar hsafe.1).bind ?_⟩
    · rw [putGaps, toDouble_eq_self hsafe.1, putVar_eq_ok_iff.mpr ⟨hsafe.1, rfl⟩, hrest]
      rfl
    · rw [Nat.add_sub_cancel' (hlt id List.mem_cons_self).le, h id List.mem_cons_self]
      exact hreads _

/-! ### Reachable states -/

/-- The states that accepted operations and merges reach. The ids of insertions are numbers. -/
inductive Reachable : State Text → Prop
  | init : Reachable init
  | apply {s op s'} (h : Reachable s) (hid : ∀ id, op.insId = some id → toDouble id = id)
      (hs : apply s op = .ok s') : Reachable s'
  | batch {s ops s'} (h : Reachable s)
      (hid : ∀ op ∈ ops, ∀ id, op.insId = some id → toDouble id = id)
      (hs : applyBatch s ops = .ok s') : Reachable s'
  | merge {l a b m} (hl : Reachable l) (ha : Reachable a) (hb : Reachable b)
      (hm : merge3 l a b = .ok m) : Reachable m

/-- A sound state whose ids are numbers. -/
structure Numbered {α : Type} (s : State α) : Prop extends Sound s where
  /-- Ids are numbers. -/
  number : ∀ id ∈ s.adds.keys, toDouble id = id

section Reach

variable {α : Type} {s s' : State α}

theorem checkInsert_eq_ok {id : ℕ} {anchorId anchorId' : Option ℕ}
    (h : checkInsert s id anchorId = .ok anchorId') : anchorId' = anchorId ∧ 1 ≤ id ∧
      s.adds.has id = false ∧ ∀ a, anchorId = some a → s.adds.has a = true ∧ a < id := by
  unfold checkInsert at h
  simp only [bind, Except.bind, pure, Except.pure] at h
  split_ifs at h with hid hadds hgrave
  cases anchorId with
  | none =>
    cases h
    exact ⟨rfl, by omega, by simpa using hadds, fun a ha => by cases ha⟩
  | some a =>
    simp only at h
    split_ifs at h with hknown hlive hless
    cases h
    refine ⟨rfl, by omega, by simpa using hadds, fun b hb => ?_⟩
    cases hb
    exact ⟨by simpa using hknown, by omega⟩

theorem checkDelete_eq_ok {id : ℕ} (h : checkDelete s id = .ok ()) : s.adds.has id = true := by
  rw [checkDelete] at h
  simp only [bind, Except.bind, pure, Except.pure] at h
  split_ifs at h with hknown hlive
  simpa using hknown

/-- **An insertion** with a checked anchor keeps the invariant. -/
theorem Numbered.insert (h : Numbered s) {id : ℕ} (el : α) {anchorId anchorId' : Option ℕ}
    (hcheck : checkInsert s id anchorId = .ok anchorId') (hid : toDouble id = id) :
    Numbered { s with adds := s.adds.insert id ⟨anchorId', el⟩ } := by
  obtain ⟨rfl, hpos, -, hanchor⟩ := checkInsert_eq_ok hcheck
  have hkeys {i : ℕ} (hi : i ∈ s.adds.keys) : i ∈ (s.adds.insert id ⟨anchorId', el⟩).keys := by
    rw [SortedMap.mem_keys_iff_has] at hi ⊢
    rw [SortedMap.has_insert, hi, Bool.or_true]
  refine ⟨⟨fun i hi => ?_, fun i r a hr ha => ?_, fun i hi => hkeys (h.buried i hi), h.order⟩,
    fun i hi => ?_⟩
  · rcases SortedMap.mem_keys_insert hi with rfl | hi
    · exact hpos
    · exact h.pos i hi
  · rw [SortedMap.get?_insert] at hr
    split_ifs at hr with heq
    · cases hr
      obtain ⟨hknown, hlt⟩ := hanchor a ha
      exact ⟨hkeys (SortedMap.mem_keys_iff_has.mpr hknown), heq ▸ hlt⟩
    · obtain ⟨hmem, hlt⟩ := h.anchored i r a hr ha
      exact ⟨hkeys hmem, hlt⟩
  · rcases SortedMap.mem_keys_insert hi with rfl | hi
    · exact hid
    · exact h.number i hi

/-- **A deletion** keeps the invariant. -/
theorem Numbered.bury (h : Numbered s) {id : ℕ} (hcheck : checkDelete s id = .ok ()) :
    Numbered { s with grave := s.grave.insert id () } := by
  have hid : id ∈ s.adds.keys := SortedMap.mem_keys_iff_has.mpr (checkDelete_eq_ok hcheck)
  refine ⟨⟨h.pos, h.anchored, fun i hi => ?_, h.order⟩, h.number⟩
  rcases SortedMap.mem_keys_insert hi with rfl | hi
  · exact hid
  · exact h.buried i hi

theorem Numbered.apply (h : Numbered s) {op : SeqOp α}
    (hid : ∀ id, op.insId = some id → toDouble id = id) (hs : apply s op = .ok s') :
    Numbered s' := by
  cases op with
  | ins id el anchorId =>
    rw [Rga.apply, prepare] at hs
    cases hcheck : checkInsert s id anchorId with
    | error e =>
      rw [hcheck] at hs
      cases hs
    | ok anchorId' =>
      rw [hcheck] at hs
      cases hs
      have hins := h.insert el hcheck (hid id rfl)
      exact ⟨⟨hins.pos, hins.anchored, hins.buried, rfl⟩, hins.number⟩
  | del id =>
    rw [Rga.apply, prepare] at hs
    cases hcheck : checkDelete s id with
    | error e =>
      rw [hcheck] at hs
      cases hs
    | ok u =>
      rw [hcheck] at hs
      cases hs
      exact h.bury hcheck

theorem Numbered.applyBatch (h : Numbered s) {ops : List (SeqOp α)}
    (hid : ∀ op ∈ ops, ∀ id, op.insId = some id → toDouble id = id)
    (hs : applyBatch s ops = .ok s') : Numbered s' := by
  induction ops generalizing s with
  | nil =>
    cases hs
    exact ⟨⟨h.pos, h.anchored, h.buried, rfl⟩, h.number⟩
  | cons op ops ih =>
    have hrest := fun op hop => hid op (List.mem_cons_of_mem _ hop)
    cases op with
    | ins id el anchorId =>
      rw [Rga.applyBatch] at hs
      cases hcheck : checkInsert s id anchorId with
      | error e =>
        rw [hcheck] at hs
        cases hs
      | ok anchorId' =>
        rw [hcheck] at hs
        exact ih (h.insert el hcheck (hid _ List.mem_cons_self id rfl)) hrest hs
    | del id =>
      rw [Rga.applyBatch] at hs
      cases hcheck : checkDelete s id with
      | error e =>
        rw [hcheck] at hs
        cases hs
      | ok u =>
        rw [hcheck] at hs
        exact ih (h.bury hcheck) hrest hs

/-- **Merged insertions** are insertions of either side, and all of them. -/
theorem mergeAdds_eq_ok [DecidableEq α] {a t m : SortedMap ℕ (Added α)} {es : List (ℕ × Added α)}
    (hsub : ∀ id, a.has id = true → t.has id = true) (h : mergeAdds a es t = .ok m) :
    (∀ id r, m.get? id = some r → t.get? id = some r ∨ (id, r) ∈ es) ∧
      (∀ id, t.has id = true → m.has id = true) ∧ ∀ e ∈ es, m.has e.1 = true := by
  induction es generalizing t with
  | nil =>
    cases h
    exact ⟨fun id r hr => Or.inl hr, fun id hid => hid, fun e he => by cases he⟩
  | cons e es ih =>
    obtain ⟨i, rb⟩ := e
    rw [mergeAdds] at h
    cases hai : a.get? i with
    | some ra =>
      simp only [hai] at h
      split_ifs at h with hdiff
      obtain ⟨hfrom, hold, hnew⟩ := ih hsub h
      refine ⟨fun id r hr => (hfrom id r hr).imp_right (List.mem_cons_of_mem _), hold,
        List.forall_mem_cons.mpr ⟨hold i (hsub i (SortedMap.has_iff.mpr ⟨ra, hai⟩)), hnew⟩⟩
    | none =>
      simp only [hai] at h
      have hins {id : ℕ} (hid : t.has id = true) : (t.insert i rb).has id = true := by
        rw [SortedMap.has_insert, hid, Bool.or_true]
      obtain ⟨hfrom, hold, hnew⟩ := ih (fun id hid => hins (hsub id hid)) h
      refine ⟨fun id r hr => ?_, fun id hid => hold id (hins hid),
        List.forall_mem_cons.mpr ⟨hold i (by rw [SortedMap.has_insert]; simp), hnew⟩⟩
      rcases hfrom id r hr with hr | hr
      · rw [SortedMap.get?_insert] at hr
        split_ifs at hr with heq
        · cases hr
          exact Or.inr (heq ▸ List.mem_cons_self)
        · exact Or.inl hr
      · exact Or.inr (List.mem_cons_of_mem _ hr)

/-- **Merges** keep the invariant. -/
theorem Numbered.merge3 [DecidableEq α] {l a b m : State α} (ha : Numbered a) (hb : Numbered b)
    (hm : merge3 l a b = .ok m) : Numbered m := by
  rw [Rga.merge3] at hm
  cases hadds : mergeAdds a.adds b.adds.entries a.adds with
  | error e =>
    rw [hadds] at hm
    cases hm
  | ok adds =>
    rw [hadds] at hm
    cases hm
    obtain ⟨hfrom, hold, hnew⟩ := mergeAdds_eq_ok (fun _ hid => hid) hadds
    have hside {id : ℕ} {r : Added α} (hr : adds.get? id = some r) :
        a.adds.get? id = some r ∨ b.adds.get? id = some r :=
      (hfrom id r hr).imp_right SortedMap.mem_entries_iff.mp
    have hleft {id : ℕ} (hid : id ∈ a.adds.keys) : id ∈ adds.keys :=
      SortedMap.mem_keys_iff_has.mpr (hold id (SortedMap.mem_keys_iff_has.mp hid))
    have hright {id : ℕ} (hid : id ∈ b.adds.keys) : id ∈ adds.keys := by
      obtain ⟨e, he, rfl⟩ := List.mem_map.mp hid
      exact SortedMap.mem_keys_iff_has.mpr (hnew e he)
    have hkeys {id : ℕ} (hid : id ∈ adds.keys) : id ∈ a.adds.keys ∨ id ∈ b.adds.keys := by
      obtain ⟨r, hr⟩ := SortedMap.mem_keys_iff.mp hid
      exact (hside hr).imp (fun h => SortedMap.mem_keys_iff.mpr ⟨r, h⟩)
        fun h => SortedMap.mem_keys_iff.mpr ⟨r, h⟩
    refine ⟨⟨fun id hid => ?_, fun id r c hr hc => ?_, fun id hid => ?_, rfl⟩, fun id hid => ?_⟩
    · exact (hkeys hid).elim (ha.pos id) (hb.pos id)
    · rcases hside hr with hr | hr
      · exact (ha.anchored id r c hr hc).imp_left hleft
      · exact (hb.anchored id r c hr hc).imp_left hright
    · rw [SortedMap.mem_keys_iff_has, Represents.has_mergeGrave] at hid
      rcases hid with hid | hid
      · exact hleft (ha.buried id (SortedMap.mem_keys_iff_has.mpr hid))
      · exact hright (hb.buried id (SortedMap.mem_keys_iff_has.mpr hid))
    · exact (hkeys hid).elim (ha.number id) (hb.number id)

end Reach

/-- **Reachable states** are sound, and their ids are numbers. -/
theorem Reachable.numbered {s : State Text} (h : Reachable s) : Numbered s := by
  induction h with
  | init =>
    have hnone {id : ℕ} : id ∉ (Rga.init : State Text).adds.keys := List.not_mem_nil
    exact ⟨⟨fun id hid => absurd hid hnone, fun id r a hr => by simp [Rga.init] at hr,
      fun id hid => hid, rfl⟩, fun id hid => absurd hid hnone⟩
  | apply _ hid hs ih => exact ih.apply hid hs
  | batch _ hid hs ih => exact ih.applyBatch hid hs
  | merge _ _ _ hm _ iha ihb => exact iha.merge3 ihb hm

/-! ### The round trip -/

theorem safe_of_putAnchor {id : ℕ} {anchorId : Option ℕ} {out : List UInt8}
    (h : putAnchor id anchorId = .ok out) : anchorId.elim 0 (id - ·) ≤ MAX_SAFE_INTEGER := by
  cases anchorId with
  | none => exact Nat.zero_le _
  | some a =>
    rw [putAnchor] at h
    split_ifs at h
    exact safe_toDouble_iff.mp (putVar_eq_ok_iff.mp h).1

theorem safe_of_putAdd (prev : ℕ) (e : ℕ × Added Text) :
    Yields (fun _ => ∀ n ∈ addNumbers prev e, n ≤ MAX_SAFE_INTEGER) (putAdd prev e) := by
  refine Yields.bind fun gap hgap => Yields.bind fun dist hdist => Yields.bind fun len hlen =>
    Yields.ok ?_
  rw [addNumbers, List.forall_mem_cons, List.forall_mem_cons, List.forall_mem_singleton]
  exact ⟨safe_toDouble_iff.mp (putVar_eq_ok_iff.mp hgap).1, safe_of_putAnchor hdist,
    (putVar_eq_ok_iff.mp hlen).1⟩

theorem safe_of_putAdds (prev : ℕ) (es : List (ℕ × Added Text)) :
    Yields (fun _ => ∀ n ∈ addsNumbers prev es, n ≤ MAX_SAFE_INTEGER) (putAdds prev es) := by
  induction es generalizing prev with
  | nil => exact .ok fun n hn => by cases hn
  | cons e es ih =>
    refine Yields.bind fun out hout => Yields.bind fun rest hrest => .ok ?_
    rw [addsNumbers, List.forall_mem_append]
    exact ⟨safe_of_putAdd prev e out hout, ih e.1 rest hrest⟩

theorem safe_of_putGaps (prev : ℕ) (ids : List ℕ) :
    Yields (fun _ => ∀ n ∈ gaps prev ids, n ≤ MAX_SAFE_INTEGER) (putGaps prev ids) := by
  induction ids generalizing prev with
  | nil => exact .ok fun n hn => by cases hn
  | cons id ids ih =>
    refine Yields.bind fun gap hgap => Yields.bind fun rest hrest => .ok ?_
    rw [gaps, List.forall_mem_cons]
    exact ⟨safe_toDouble_iff.mp (putVar_eq_ok_iff.mp hgap).1, ih id rest hrest⟩

/-- **Only safe integers** are written. -/
theorem safe_of_encodeSnapshot (s : State Text) :
    Yields (fun _ => ∀ n ∈ written s, n ≤ MAX_SAFE_INTEGER) (encodeSnapshot s) := by
  refine Yields.bind fun n hn => Yields.bind fun adds hadds => Yields.bind fun g hg =>
    Yields.bind fun graves hgraves => .ok ?_
  rw [written, List.forall_mem_append, List.forall_mem_cons, List.forall_mem_cons]
  exact ⟨⟨(putVar_eq_ok_iff.mp hn).1, safe_of_putAdds _ _ adds hadds⟩,
    (putVar_eq_ok_iff.mp hg).1, safe_of_putGaps _ _ graves hgraves⟩

/-- The state with its elements as JSON values. -/
def State.json (s : State Text) : State Json :=
  { adds := s.adds.mapVal fun _ r => r.json, grave := s.grave, order := none }

theorem anchorIn_json (s : State Text) : anchorIn s.json.adds = anchorIn s.adds := by
  funext id
  rw [anchorIn, anchorIn, State.json, SortedMap.get?_mapVal]
  cases s.adds.get? id <;> rfl

theorem sound_json {s : State Text} (h : Sound s) : Sound s.json := by
  have hkeys : s.json.adds.keys = s.adds.keys := SortedMap.keys_mapVal ..
  refine ⟨fun id hid => h.pos id (hkeys ▸ hid), fun id r a hr ha => ?_,
    fun id hid => hkeys ▸ h.buried id hid, rfl⟩
  have hanchor : anchorIn s.json.adds id = some a := by rw [anchorIn, hr, Option.bind_some, ha]
  rw [anchorIn_json] at hanchor
  obtain ⟨r', hr', ha'⟩ := Option.bind_eq_some_iff.mp hanchor
  exact hkeys ▸ h.anchored id r' a hr' ha'

theorem timestampFold_json (s : State Text) : timestampFold s.json.adds = timestampFold s.adds := by
  rw [timestampFold, timestampFold, State.json, SortedMap.mapVal]
  exact List.foldl_map

/-- **The read** is that of the strings. -/
theorem read_json {s : State Text} (h : Sound s) :
    ∃ els, read s = .ok els ∧ read s.json = .ok (els.map Json.str) := by
  have hentries {α : Type} {s : State α} (h : Sound s) : readEntries s =
      .ok ((timestampFold s.adds).filterMap fun id =>
        if s.grave.has id then none else (s.adds.get? id).map (id, ·)) := by
    rw [readEntries, h.order]
    simp only [orderedIds_of_anchorClosed h.anchored, bind, Except.bind, pure, Except.pure]
  refine ⟨_, by rw [read, hentries h]; rfl, ?_⟩
  rw [read, hentries (sound_json h), timestampFold_json]
  show Except.ok _ = _
  rw [List.map_map, List.map_filterMap, List.map_filterMap]
  congr 1
  refine List.filterMap_congr fun id _ => ?_
  rw [State.json, SortedMap.get?_mapVal]
  dsimp only
  cases s.grave.has id
  · cases s.adds.get? id <;> rfl
  · rfl

/-- **Snapshots come back.** The numbers of a snapshot of a reachable state are written if they are
safe integers, and then the state is read back. -/
theorem exists_encodeSnapshot {s : State Text} (h : Numbered s)
    (hel : ∀ id r, s.adds.get? id = some r → IsString r.el)
    (hsafe : ∀ n ∈ written s, n ≤ MAX_SAFE_INTEGER) :
    ∃ bytes, encodeSnapshot s = .ok bytes ∧ decodeSnapshot bytes = .ok s.json := by
  simp only [written, List.forall_mem_append, List.forall_mem_cons] at hsafe
  obtain ⟨⟨hsize, hadds⟩, hgrave, hgaps⟩ := hsafe
  have hkey {e : ℕ × Added Text} (he : e ∈ s.adds.entries) : e.1 ∈ s.adds.keys :=
    List.mem_map_of_mem he
  have hwritable : ∀ e ∈ s.adds.entries, Writable e.1 e.2 := fun e he => by
    have hget := SortedMap.mem_entries_iff.mp he
    refine ⟨h.pos e.1 (hkey he), h.number e.1 (hkey he), fun a ha => ?_, hel e.1 e.2 hget⟩
    obtain ⟨hmem, hlt⟩ := h.anchored e.1 e.2 a hget ha
    exact ⟨h.pos a hmem, hlt, h.number a hmem⟩
  obtain ⟨out, hout, hread⟩ := exists_putAdds hwritable (fun e he => h.pos e.1 (hkey he))
    s.adds.sorted hadds
  have hgsorted : s.grave.keys.Pairwise (· < ·) := List.pairwise_map.mpr s.grave.sorted
  obtain ⟨gout, hgout, hgread⟩ := exists_putGaps
    (fun id hid => h.number id (h.buried id hid)) (fun id hid => h.pos id (h.buried id hid))
    hgsorted hgaps
  have hmapped : (s.adds.entries.map fun e => (e.1, e.2.json)).foldl
      (fun m e => m.insert e.1 e.2) SortedMap.empty = s.json.adds :=
    SortedMap.ofList_entries s.json.adds
  have hgraves : (s.grave.keys.map fun id => (id, ())).foldl
      (fun m e => m.insert e.1 e.2) SortedMap.empty = s.grave := by
    have hmap : (s.grave.keys.map fun id => (id, ())) = s.grave.entries := by
      rw [SortedMap.keys, List.map_map]
      exact List.map_id _
    rw [hmap]
    exact SortedMap.ofList_entries s.grave
  have hglen : s.grave.keys.length = s.grave.size := List.length_map ..
  have hstate : Reader.Reads getState (writeVarint s.adds.size ++ (out ++
      (writeVarint s.grave.size ++ gout))) (s.json.adds, s.grave) := by
    refine (reads_getVar hsize).bind ((hmapped ▸ hread SortedMap.empty).bind
      ((reads_getVar hgrave).bind ?_))
    rw [← hglen]
    exact (hgraves ▸ hgread SortedMap.empty).map fun grave => (s.json.adds, grave)
  refine ⟨2 :: (writeVarint s.adds.size ++ (out ++ (writeVarint s.grave.size ++ gout))), ?_, ?_⟩
  · rw [encodeSnapshot, putVar_eq_ok_iff.mpr ⟨hsize, rfl⟩, hout,
      putVar_eq_ok_iff.mpr ⟨hgrave, rfl⟩, hgout]
    show Except.ok (2 :: (writeVarint s.adds.size ++ out ++ writeVarint s.grave.size ++ gout)) = _
    rw [List.append_assoc, List.append_assoc]
  · obtain ⟨ids, hids, -, -⟩ := (sound_json h.toSound).orderedIds
    have hfind : (s.grave.keys.find? fun id => !s.json.adds.has id) = none := by
      refine List.find?_eq_none.mpr fun id hid => ?_
      have hhas : s.json.adds.has id = true := by
        rw [State.json, SortedMap.has_mapVal]
        exact SortedMap.mem_keys_iff_has.mp (h.buried id hid)
      rw [hhas]
      decide
    rw [decodeSnapshot, if_neg (by decide), hstate.run_self]
    show (do
      let _ ← Rga.orderedIds s.json.adds
      match s.grave.keys.find? fun id => !s.json.adds.has id with
      | some id => Except.error (Failure.error s!"RGA tombstone {id} has no insertion")
      | none => Except.ok (State.mk s.json.adds s.grave none)) = _
    rw [hids]
    simp only [hfind]
    rfl

/-- **The snapshot codec.** A snapshot of a reachable state with strings as elements is written
exactly if its numbers are safe integers, and then it gives the state back in insertions, graves and
read. What is accepted is sound, and all of its insertions are in the display order. -/
theorem snapshot_roundtrip :
    (∀ s : State Text, Reachable s → (∀ id r, s.adds.get? id = some r → IsString r.el) →
      ((∃ bytes, encodeSnapshot s = .ok bytes) ↔ ∀ n ∈ written s, n ≤ MAX_SAFE_INTEGER) ∧
      ∀ bytes, encodeSnapshot s = .ok bytes → ∃ s', decodeSnapshot bytes = .ok s' ∧
        s'.adds = s.adds.mapVal (fun _ r => ⟨r.anchorId, .str r.el⟩) ∧ s'.grave = s.grave ∧
        ∃ els, read s = .ok els ∧ read s' = .ok (els.map Json.str)) ∧
    ∀ bytes s', decodeSnapshot bytes = .ok s' → Sound s' ∧
      ∃ out, orderedIds s'.adds = .ok out ∧ out.Nodup ∧ ∀ id, id ∈ out ↔ id ∈ s'.adds.keys := by
  refine ⟨fun s h hel => ⟨⟨?_, fun hsafe => ?_⟩, fun bytes hbytes => ?_⟩,
    fun bytes s' h => ⟨sound_of_decodeSnapshot h, (sound_of_decodeSnapshot h).orderedIds⟩⟩
  · rintro ⟨bytes, hbytes⟩
    exact safe_of_encodeSnapshot s bytes hbytes
  · obtain ⟨bytes, hbytes, -⟩ := exists_encodeSnapshot h.numbered hel hsafe
    exact ⟨bytes, hbytes⟩
  · obtain ⟨bytes', hbytes', hdecode⟩ :=
      exists_encodeSnapshot h.numbered hel (safe_of_encodeSnapshot s bytes hbytes)
    cases hbytes.symm.trans hbytes'
    exact ⟨s.json, hdecode, rfl, rfl, read_json h.numbered.toSound⟩

/-- A character with a reply, and the character deleted. -/
def replyState : State Text :=
  { adds := SortedMap.ofList [(1, ⟨none, text "a"⟩), (4, ⟨some 1, text "😀"⟩)]
    grave := SortedMap.ofList [(1, ())], order := none }

theorem reachable_replyState : Reachable replyState := by
  have hnumber (op : SeqOp Text) (hop : op.insId = some 1 ∨ op.insId = some 4 ∨ op.insId = none) :
      ∀ id, op.insId = some id → toDouble id = id := by
    intro id hid
    refine toDouble_eq_self ?_
    rw [hid, Option.some.injEq, Option.some.injEq] at hop
    rw [MAX_SAFE_INTEGER]
    rcases hop with rfl | rfl | hop
    · omega
    · omega
    · cases hop
  have h₁ := @Reachable.apply _ (.ins 1 (text "a") none) _ .init (hnumber _ (Or.inl rfl)) rfl
  have h₂ := @Reachable.apply _ (.ins 4 (text "😀") (some 1)) _ h₁
    (hnumber _ (Or.inr (Or.inl rfl))) rfl
  exact @Reachable.apply _ (.del 1) _ h₂ (hnumber _ (Or.inr (Or.inr rfl))) rfl

theorem snapshot_roundtrip_reply : ∃ bytes s', encodeSnapshot replyState = .ok bytes ∧
    decodeSnapshot bytes = .ok s' ∧ s'.grave = replyState.grave ∧ ∃ els, read replyState = .ok els ∧
      read s' = .ok (els.map Json.str) := by
  have hel : ∀ id r, replyState.adds.get? id = some r → IsString r.el := fun id r hr => by
    have hall : ∀ e ∈ replyState.adds.entries,
        (∀ c ∈ e.2.el, c < 0x110000) ∧ pairSurrogates e.2.el = e.2.el := by decide
    obtain ⟨hlt, hpaired⟩ := hall (id, r) (SortedMap.mem_entries_iff.mpr hr)
    exact ⟨hlt, hpaired⟩
  obtain ⟨hwrites, hreads⟩ := snapshot_roundtrip.1 replyState reachable_replyState hel
  obtain ⟨bytes, hbytes⟩ := hwrites.mpr (by decide)
  obtain ⟨s', hs', -, hgrave, hread⟩ := hreads bytes hbytes
  exact ⟨bytes, s', hbytes, hs', hgrave, hread⟩

/-- An insertion at the root with an id that is not a safe integer. -/
def unsafeInsert : SeqOp Text := .ins (2 ^ 53) (text "a") none

/-- The state with that insertion. -/
def unsafeState : State Text :=
  { adds := SortedMap.ofList [(2 ^ 53, ⟨none, text "a"⟩)], grave := SortedMap.empty, order := none }

theorem reachable_unsafeState : Reachable unsafeState :=
  .apply .init (fun id hid => by cases hid; rfl) (show apply init unsafeInsert = _ from rfl)

/-- **The claim fails** for an id that is a number but no safe integer. -/
theorem snapshot_unsafe : ¬ ∀ s : State Text, Reachable s →
    (∀ id r, s.adds.get? id = some r → IsString r.el) → ∃ bytes s', encodeSnapshot s = .ok bytes ∧
      decodeSnapshot bytes = .ok s' ∧
      s'.adds = s.adds.mapVal (fun _ r => ⟨r.anchorId, .str r.el⟩) ∧ s'.grave = s.grave := by
  intro h
  have hel : ∀ id r, unsafeState.adds.get? id = some r → IsString r.el := fun id r hr => by
    have hall : ∀ e ∈ unsafeState.adds.entries, e.2.el = text "a" := by decide
    have hr : r.el = text "a" := hall (id, r) (SortedMap.mem_entries_iff.mpr hr)
    rw [hr]
    exact ⟨by decide, by decide⟩
  obtain ⟨bytes, s', hbytes, -⟩ := h unsafeState reachable_unsafeState hel
  have hsafe := safe_of_encodeSnapshot unsafeState bytes hbytes (2 ^ 53) (by decide)
  exact absurd hsafe (by decide)

end SalRuntime.Rga
