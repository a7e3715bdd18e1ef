import SalRuntime.Serialize.BitIo
import SalRuntime.Serialize.TableWalk
import SalRuntime.Serialize.Texts

/-!
# The run-table codec

The serializer of `src/serialize.js`. The bytes of a state are the number of entries, the mode of the
elements, the packed headers of the entries, and the elements of the live nodes in the order of the
entries. The coordinates are recovered from the headers alone: an entry starts below the last node of
its parent, and goes on by deltas one.

A character that is missing in the bytes, which the source leaves undefined, is refused.

## Main definitions

* `encode`, `decode` — the codec.
* `RunTable.stored` — the live nodes in the order of the entries.
* `BomSafe` — decoding the elements drops no byte order mark.

## Main results

* `placeRuns_eq_ok` — the coordinates are recovered from the headers.
* `decode_encode_eq` — what is decoded: the live nodes in order, if no mark is dropped.
* `decode_encode` — a state is decoded to the same elements at the same coordinates, and reads the
  same.
-/

namespace SalRuntime

/-! ### The encoder -/

/-- The number of bits of a number. -/
def bitLength (n : ℕ) : ℕ := if n = 0 then 0 else bitLength (n / 2) + 1
termination_by n

/-- The width of the references to parents in a table of `n` entries. -/
def refWidth (n : ℕ) : ℕ := max 1 (bitLength n)

section Encoder

variable {α : Type}

/-- The reference to the parent of an entry. -/
def RunEntry.parentRef (e : RunEntry α) : ℕ := e.parent.elim 0 (· + 1)

/-- The header of an entry. -/
def RunEntry.headerBits (w : ℕ) (e : RunEntry α) : List Bool :=
  e.live :: (bitsW w e.parentRef ++ dEnc e.delta ++ dEnc e.members.length)

/-- The live nodes in the order of the entries. -/
def RunTable.stored (T : RunTable α) : List (KeptNode α) :=
  (T.entries.filter RunEntry.live).flatMap RunEntry.members

end Encoder

/-- Is every element a single code point? -/
def packed (els : List Text) : Bool := els.all fun el => el.length = 1

/-- An element with its length in front. -/
def elementBytes (el : Text) : List UInt8 := writeVarint (utf8 el).length ++ utf8 el

/-- The bytes of a state. -/
def encode (s : EmbedRGA.State Text) : Except Failure (List UInt8) := do
  let T ← buildRunTable s
  let nEnt := T.entries.length
  let els := T.stored.filterMap KeptNode.el
  return writeVarint nEnt ++ (if packed els then 0 else 1) ::
    packBits (T.entries.flatMap (RunEntry.headerBits (refWidth nEnt))) ++
    if packed els then utf8 (joinTexts els) else els.flatMap elementBytes

/-! ### The decoder -/

/-- The header of an entry, as it is read. -/
structure RunHeader where
  /-- Do the nodes of the run carry records? -/
  live : Bool
  /-- Zero for the root, or one more than the parent. -/
  pref : ℕ
  /-- The delta of the first node. -/
  delta : ℕ
  /-- The number of nodes. -/
  len : ℕ
  deriving DecidableEq, Repr

/-- Read a header. -/
def readHeader (w : ℕ) (r : List Bool) : RunHeader × List Bool :=
  let (live, r) := readBit r
  let (pref, r) := readUint w r
  let (delta, r) := readElias r
  let (len, r) := readElias r
  ({ live, pref, delta, len }, r)

/-- Read headers. -/
def readHeaders (w : ℕ) : ℕ → List Bool → List RunHeader × List Bool
  | 0, r => ([], r)
  | n + 1, r =>
    let (e, r) := readHeader w r
    let (es, r) := readHeaders w n r
    (e :: es, r)

/-- The codewords of deltas one. -/
def ones (n : ℕ) : List Bool := (List.replicate n (dEnc 1)).flatten

/-- The coordinate of the last node of the parent, of those placed so far. A later parent has none
yet. -/
def parentTail (nEnt : ℕ) (tails : List (List Bool)) : ℕ → Except Failure (List Bool)
  | 0 => .ok []
  | p + 1 =>
    match tails[p]? with
    | some tail => .ok tail
    | none =>
      if p < nEnt then .ok []
      else .error (.error "Cannot read properties of undefined (reading 'tail')")

/-- The coordinates of the first nodes of the entries, after entries with the given last nodes. -/
def placeRuns (nEnt : ℕ) : List (List Bool) → List RunHeader → Except Failure (List (List Bool))
  | _, [] => .ok []
  | tails, e :: es => do
    let head := (← parentTail nEnt tails e.pref) ++ dEnc e.delta
    return head :: (← placeRuns nEnt (tails ++ [head ++ ones (e.len - 1)]) es)

/-- The coordinates of the nodes of an entry. -/
def runCoords (head : List Bool) (e : RunHeader) : List (List Bool) :=
  (List.range e.len).map fun j => head ++ ones j

/-- The coordinates of the live nodes. -/
def liveCoords (heads : List (List Bool)) (es : List RunHeader) : List (List Bool) :=
  ((heads.zip es).filter fun p => p.2.live).flatMap fun p => runCoords p.1 p.2

/-- Read elements with their lengths in front. -/
def readElements : ℕ → List UInt8 → List Text
  | 0, _ => []
  | n + 1, bs =>
    let (blen, r) := readVarint bs
    decodeLossy (r.take blen) :: readElements n (r.drop blen)

/-- The first characters of a text. -/
def readCharacters (n : ℕ) (t : Text) : Except Failure (List Text) :=
  if n ≤ t.length then .ok ((t.take n).map fun c => [c])
  else .error (.error "run table: missing character")

/-- The state that holds records under the ids one, two and so on. -/
def numbered {α : Type} (rs : List (Record α)) : EmbedRGA.State α :=
  SortedMap.ofList ((rs.zipIdx 1).map Prod.swap)

/-- The state of bytes. -/
def decode (u8 : List UInt8) : Except Failure (EmbedRGA.State Text) := do
  let (nEnt, r) := readVarint u8
  let body := r.drop 1
  let (es, bits) := readHeaders (refWidth nEnt) nEnt (bitsOf body)
  let coords := liveCoords (← placeRuns nEnt [] es) es
  let rest := body.drop (body.length - bits.length / 8)
  let els ←
    if r.head? = some 0 then readCharacters coords.length (decodeLossy rest)
    else .ok (readElements coords.length rest)
  return numbered (List.zipWith Record.mk coords els)

/-! ### The headers -/

theorem lt_two_pow_bitLength (n : ℕ) : n < 2 ^ bitLength n := by
  induction n using Nat.strong_induction_on with
  | h n ih =>
    rw [bitLength]
    by_cases hn : n = 0
    · rw [if_pos hn, hn]
      exact Nat.one_pos
    · rw [if_neg hn, pow_succ]
      have := ih (n / 2) (by omega)
      omega

theorem lt_two_pow_refWidth {m n : ℕ} (h : m ≤ n) : m < 2 ^ refWidth n :=
  (lt_of_le_of_lt h (lt_two_pow_bitLength n)).trans_le
    (Nat.pow_le_pow_right (by omega) (le_max_right _ _))

section Headers

variable {α : Type}

/-- The header of an entry. -/
def RunEntry.header (e : RunEntry α) : RunHeader where
  live := e.live
  pref := e.parentRef
  delta := e.delta
  len := e.members.length

theorem readHeader_append {w : ℕ} {e : RunEntry α} (href : e.parentRef < 2 ^ w) (hd : 1 ≤ e.delta)
    (hlen : 1 ≤ e.members.length) (r : List Bool) :
    readHeader w (e.headerBits w ++ r) = (e.header, r) := by
  rw [RunEntry.headerBits, List.cons_append, List.append_assoc, List.append_assoc]
  simp only [readHeader, readBit, readUint_append href, readElias_append hd, readElias_append hlen]
  rfl

/-- **Headers** are read back. -/
theorem readHeaders_append {w : ℕ} {es : List (RunEntry α)}
    (h : ∀ e ∈ es, e.parentRef < 2 ^ w ∧ 1 ≤ e.delta ∧ 1 ≤ e.members.length) (r : List Bool) :
    readHeaders w es.length (es.flatMap (RunEntry.headerBits w) ++ r) =
      (es.map RunEntry.header, r) := by
  induction es with
  | nil => rfl
  | cons e es ih =>
    obtain ⟨href, hd, hlen⟩ := h e List.mem_cons_self
    rw [List.flatMap_cons, List.append_assoc, List.length_cons]
    simp only [readHeaders, readHeader_append href hd hlen,
      ih fun f hf => h f (List.mem_cons_of_mem _ hf)]
    rfl

/-- The deltas of a table are positive, and its references fit. -/
theorem RunTable.Sound.header_ok {t : KeptTree α} {T : RunTable α}
    (hpos : ∀ c ∈ t.chains, ∀ d ∈ c, 1 ≤ d) (h : T.Sound t) {e : RunEntry α} (he : e ∈ T.entries) :
    e.parentRef < 2 ^ refWidth T.entries.length ∧ 1 ≤ e.delta ∧ 1 ≤ e.members.length := by
  obtain ⟨i, hi⟩ := List.mem_iff_getElem?.mp he
  obtain ⟨base, -, hrun⟩ := h.runs i e hi
  refine ⟨lt_two_pow_refWidth ?_, ?_, hrun.pos⟩
  · have hlt := (List.getElem?_eq_some_iff.mp hi).1
    cases hp : e.parent with
    | none => rw [RunEntry.parentRef, hp]; exact Nat.zero_le _
    | some p =>
      rw [RunEntry.parentRef, hp]
      have := h.parent_lt hi hp
      show p + 1 ≤ _
      omega
  · obtain ⟨m, hm⟩ : ∃ m, e.members[0]? = some m := ⟨_, List.getElem?_eq_getElem hrun.pos⟩
    have hmem := h.mem m (RunTable.mem_members_of_mem hi (List.mem_of_getElem? hm))
    refine hpos m.chain (List.mem_map_of_mem hmem.1) e.delta ?_
    rw [(hrun.shape 0 m hm).1]
    simp

/-! ### The coordinates -/

theorem dEnc_one : dEnc 1 = [false] := by decide

theorem ones_eq (n : ℕ) : ones n = (List.replicate n 1).flatMap dEnc := by
  rw [ones, List.flatMap_replicate]

/-- The coordinate of a node. -/
def KeptNode.coord (n : KeptNode α) : List Bool := n.chain.flatMap dEnc

/-- The coordinate of the first node of an entry. -/
def RunEntry.headCoord (e : RunEntry α) : List Bool := (e.members.head?.map KeptNode.coord).getD []

/-- The coordinate of the last node of an entry. -/
def RunEntry.tailCoord (e : RunEntry α) : List Bool :=
  (e.members.getLast?.map KeptNode.coord).getD []

theorem RunEntry.IsRun.headCoord {e : RunEntry α} {base : List ℕ} (h : e.IsRun base) :
    e.headCoord = base.flatMap dEnc ++ dEnc e.delta := by
  obtain ⟨m, hm⟩ : ∃ m, e.members[0]? = some m := ⟨_, List.getElem?_eq_getElem h.pos⟩
  rw [RunEntry.headCoord, List.head?_eq_getElem?, hm]
  show m.chain.flatMap dEnc = _
  rw [(h.shape 0 m hm).1]
  simp

/-- The coordinates of the nodes of a run. -/
theorem RunEntry.IsRun.coord {e : RunEntry α} {base : List ℕ} (h : e.IsRun base) {j : ℕ}
    {m : KeptNode α} (hm : e.members[j]? = some m) : m.coord = e.headCoord ++ ones j := by
  rw [h.headCoord, ones_eq, KeptNode.coord, (h.shape j m hm).1]
  simp

theorem RunEntry.IsRun.tailCoord {e : RunEntry α} {base : List ℕ} (h : e.IsRun base) :
    e.tailCoord = e.headCoord ++ ones (e.members.length - 1) := by
  have hpos := h.pos
  obtain ⟨m, hm⟩ : ∃ m, e.members[e.members.length - 1]? = some m :=
    ⟨_, List.getElem?_eq_getElem (by omega)⟩
  rw [RunEntry.tailCoord, List.getLast?_eq_getElem?, hm]
  exact h.coord hm

theorem RunEntry.IsRun.runCoords {e : RunEntry α} {base : List ℕ} (h : e.IsRun base) :
    runCoords e.headCoord e.header = e.members.map KeptNode.coord := by
  refine List.ext_getElem? fun j => ?_
  rw [SalRuntime.runCoords, List.getElem?_map, List.getElem?_map]
  by_cases hj : j < e.members.length
  · rw [List.getElem?_eq_getElem (by simpa [RunEntry.header] using hj), List.getElem_range,
      List.getElem?_eq_getElem hj, Option.map_some, Option.map_some,
      h.coord (List.getElem?_eq_getElem hj)]
  · rw [List.getElem?_eq_none (by simpa [RunEntry.header] using hj),
      List.getElem?_eq_none (by omega)]
    rfl

/-- **The coordinates are recovered from the headers.** The induction goes through the entries that
are left, below the last nodes of those already placed. -/
theorem RunTable.Sound.placeRuns {t : KeptTree α} {T : RunTable α} (h : T.Sound t) (nEnt : ℕ)
    {done es : List (RunEntry α)} (hsplit : T.entries = done ++ es) :
    placeRuns nEnt (done.map RunEntry.tailCoord) (es.map RunEntry.header) =
      .ok (es.map RunEntry.headCoord) := by
  induction es generalizing done with
  | nil => rfl
  | cons e es ih =>
    have he : T.entries[done.length]? = some e := by
      rw [hsplit, List.getElem?_append_right le_rfl, Nat.sub_self, List.getElem?_cons_zero]
    obtain ⟨base, hh, hrun⟩ := h.runs _ e he
    rw [hsplit, List.take_append_of_le_length le_rfl, List.take_length] at hh
    have hbase : parentTail nEnt (done.map RunEntry.tailCoord) e.header.pref =
        .ok (base.flatMap dEnc) := by
      cases hp : e.parent with
      | none =>
        rw [hp] at hh
        rw [RunEntry.header, RunEntry.parentRef, hp, show base = [] from hh]
        rfl
      | some p =>
        rw [hp] at hh
        obtain ⟨q, z, hq, hz, -, rfl⟩ := hh
        have htail : (done.map RunEntry.tailCoord)[p]? = some z.coord := by
          rw [List.getElem?_map, hq, Option.map_some, RunEntry.tailCoord, hz]
          rfl
        rw [RunEntry.header, RunEntry.parentRef, hp]
        show parentTail nEnt (done.map RunEntry.tailCoord) (p + 1) = _
        rw [parentTail, htail]
        rfl
    have hnext : done.map RunEntry.tailCoord ++
        [base.flatMap dEnc ++ dEnc e.header.delta ++ ones (e.header.len - 1)] =
        (done ++ [e]).map RunEntry.tailCoord := by
      rw [List.map_append, List.map_singleton, hrun.tailCoord, hrun.headCoord]
      rfl
    have hrest := @ih (done ++ [e]) (by rw [hsplit, List.append_assoc]; rfl)
    rw [List.map_cons, SalRuntime.placeRuns, hbase]
    show (do return _ :: (← SalRuntime.placeRuns nEnt _ (es.map RunEntry.header))) = _
    rw [hnext, hrest, List.map_cons, hrun.headCoord]
    rfl

theorem RunTable.Sound.liveCoords {t : KeptTree α} {T : RunTable α} (h : T.Sound t) :
    liveCoords (T.entries.map RunEntry.headCoord) (T.entries.map RunEntry.header) =
      T.stored.map KeptNode.coord := by
  rw [SalRuntime.liveCoords, List.zip_map', List.filter_map, List.flatMap_map, RunTable.stored,
    List.map_flatMap]
  refine List.flatMap_congr fun e he => ?_
  obtain ⟨i, hi⟩ := List.mem_iff_getElem?.mp (List.mem_of_mem_filter he)
  obtain ⟨base, -, hrun⟩ := h.runs i e hi
  exact hrun.runCoords

/-- Stored nodes carry records. -/
theorem RunTable.Sound.live_of_mem_stored {t : KeptTree α} {T : RunTable α} (h : T.Sound t)
    {n : KeptNode α} (hn : n ∈ T.stored) : n ∈ T.members ∧ n.live = true := by
  obtain ⟨e, he, hne⟩ := List.mem_flatMap.mp hn
  obtain ⟨het, hlive⟩ := List.mem_filter.mp he
  obtain ⟨i, hi⟩ := List.mem_iff_getElem?.mp het
  obtain ⟨base, -, hrun⟩ := h.runs i e hi
  obtain ⟨j, hj⟩ := List.mem_iff_getElem?.mp hne
  exact ⟨mem_members_of_mem hi hne, by rw [(hrun.shape j n hj).2, hlive]⟩

end Headers

/-! ### The elements -/

/-- Decoding the elements drops no byte order mark: not that of a joined text, nor that of an element
with its length in front. -/
def BomSafe (els : List Text) : Prop :=
  if packed els then NoMark els.flatten else ∀ el ∈ els, NoMark el

theorem readElements_append {els : List Text} (h : ∀ el ∈ els, WellFormed el) :
    readElements els.length (els.flatMap elementBytes) = els.map stripBom := by
  induction els with
  | nil => rfl
  | cons el els ih =>
    rw [List.flatMap_cons, elementBytes, List.append_assoc, List.length_cons, readElements]
    simp only [readVarint_append, List.take_left, List.drop_left,
      decodeLossy_utf8 (h el List.mem_cons_self), ih fun t ht => h t (List.mem_cons_of_mem _ ht),
      List.map_cons]

theorem length_flatten_of_packed {els : List Text} (h : packed els = true) :
    els.flatten.map (fun c => [c]) = els := by
  induction els with
  | nil => rfl
  | cons el els ih =>
    rw [packed, List.all_cons, Bool.and_eq_true, decide_eq_true_iff] at h
    obtain ⟨c, rfl⟩ := List.length_eq_one_iff.mp h.1
    rw [List.flatten_cons, List.map_append, ih h.2]
    rfl

/-- The characters of a joined text, if the byte order mark was not dropped. -/
theorem readCharacters_joined {els : List Text} (hwf : ∀ el ∈ els, WellFormed el)
    (hpacked : packed els = true) :
    (NoMark els.flatten → readCharacters els.length (decodeLossy (utf8 (joinTexts els))) = .ok els) ∧
      (¬ NoMark els.flatten →
        ∃ e, readCharacters els.length (decodeLossy (utf8 (joinTexts els))) = .error e) := by
  have hchars := length_flatten_of_packed hpacked
  have hlen : els.length = els.flatten.length := by
    conv_lhs => rw [← hchars]
    rw [List.length_map]
  have hflat : WellFormed els.flatten := fun c hc => by
    obtain ⟨t, ht, hct⟩ := List.mem_flatten.mp hc
    exact hwf t ht c hct
  rw [joinTexts_eq hwf, decodeLossy_utf8 hflat, readCharacters]
  constructor
  · intro hmark
    rw [stripBom_eq_self_iff.mpr hmark, if_pos hlen.le, hlen, List.take_length, hchars]
  · intro hmark
    refine ⟨_, if_neg ?_⟩
    rw [NoMark, not_not] at hmark
    cases hels : els.flatten with
    | nil => rw [hels] at hmark; cases hmark
    | cons c t =>
      rw [hels, List.head?_cons, Option.some.injEq] at hmark
      rw [hlen, hels, stripBom, if_pos hmark, List.length_cons]
      omega

section Codec

variable {s : EmbedRGA.State Text} {t : KeptTree Text} {T : RunTable Text}

/-- The records of the live nodes, with their elements changed. -/
def RunTable.records (T : RunTable Text) (f : Text → Text) : List (Record Text) :=
  List.zipWith Record.mk (T.stored.map KeptNode.coord) ((T.stored.filterMap KeptNode.el).map f)

theorem RunTable.Sound.length_els (hT : T.Sound t) :
    (T.stored.filterMap KeptNode.el).length = T.stored.length := by
  rw [List.filterMap_length_eq_length]
  intro n hn
  have := (hT.live_of_mem_stored hn).2
  rwa [KeptNode.live, ← Option.isSome_map (f := Prod.snd)] at this

/-- **What is decoded** of the bytes of a state: the records of the live nodes in order, without a byte
order mark in front of elements that are stored one by one. If the mark is dropped in front of a joined
text, a character is missing. -/
theorem decode_encode_eq (hbuild : buildRunTable s = .ok T) (hT : T.Sound t)
    (hpos : ∀ c ∈ t.chains, ∀ d ∈ c, 1 ≤ d)
    (hwf : ∀ el ∈ T.stored.filterMap KeptNode.el, WellFormed el) :
    ∃ bytes, encode s = .ok bytes ∧
      (packed (T.stored.filterMap KeptNode.el) = false →
        decode bytes = .ok (numbered (T.records stripBom))) ∧
      (packed (T.stored.filterMap KeptNode.el) = true →
        (NoMark (T.stored.filterMap KeptNode.el).flatten →
          decode bytes = .ok (numbered (T.records fun el => el))) ∧
        (¬ NoMark (T.stored.filterMap KeptNode.el).flatten → ∃ e, decode bytes = .error e)) := by
  have hels := hT.length_els
  set els := T.stored.filterMap KeptNode.el with hdef
  set elBytes := if packed els then utf8 (joinTexts els) else els.flatMap elementBytes with helBytes
  set bits := T.entries.flatMap (RunEntry.headerBits (refWidth T.entries.length)) with hbits
  have hencode : encode s = .ok (writeVarint T.entries.length ++
      (if packed els then 0 else 1) :: packBits bits ++ elBytes) := by
    rw [encode, hbuild]
    rfl
  -- The bits after the headers are the padding and the bits of the elements.
  obtain ⟨pad, hpad, hpack⟩ := bits_pack bits
  have hread : readHeaders (refWidth T.entries.length) T.entries.length
      (bitsOf (packBits bits ++ elBytes)) =
        (T.entries.map RunEntry.header, List.replicate pad false ++ bitsOf elBytes) := by
    rw [bitsOf_append, hpack, List.append_assoc, hbits]
    exact readHeaders_append (fun e he => hT.header_ok hpos he) _
  have hrest : (packBits bits ++ elBytes).drop ((packBits bits ++ elBytes).length -
      (List.replicate pad false ++ bitsOf elBytes).length / 8) = elBytes := by
    rw [List.length_append, List.length_append, List.length_replicate, length_bitsOf,
      show (packBits bits).length + elBytes.length - (pad + 8 * elBytes.length) / 8 =
        (packBits bits).length by omega, List.drop_left]
  have hcoords := hT.liveCoords
  have hplace := hT.placeRuns T.entries.length (show T.entries = [] ++ T.entries from rfl)
  have hdecode : decode (writeVarint T.entries.length ++
      (if packed els then 0 else 1) :: packBits bits ++ elBytes) = (do
        let els' ←
          if packed els then readCharacters T.stored.length (decodeLossy elBytes)
          else .ok (readElements T.stored.length elBytes)
        return numbered (List.zipWith Record.mk (T.stored.map KeptNode.coord) els')) := by
    rw [decode, List.append_assoc, readVarint_append]
    simp only [List.cons_append, List.drop_one, List.tail_cons, List.head?_cons, hread, hrest]
    rw [List.map_nil] at hplace
    rw [hplace]
    simp only [bind, Except.bind, hcoords, List.length_map]
    cases packed els <;> rfl
  refine ⟨_, hencode, fun hp => ?_, fun hp => ?_⟩
  · have helsBytes : elBytes = els.flatMap elementBytes := by rw [helBytes, hp]; rfl
    rw [hdecode, helsBytes, hp, ← hels, readElements_append hwf]
    rfl
  · have helsBytes : elBytes = utf8 (joinTexts els) := by rw [helBytes, if_pos hp]
    obtain ⟨hsafe, hunsafe⟩ := readCharacters_joined hwf hp
    rw [hdecode, helsBytes, if_pos hp, ← hels]
    refine ⟨fun hmark => ?_, fun hmark => ?_⟩
    · rw [hsafe hmark, RunTable.records, ← hdef, List.map_id']
      rfl
    · obtain ⟨e, he⟩ := hunsafe hmark
      exact ⟨e, by rw [he]; rfl⟩

end Codec

/-! ### The round trip -/

section RoundTrip

variable {s : EmbedRGA.State Text} {t : KeptTree Text} {T : RunTable Text}

theorem entries_numbered {α : Type} (rs : List (Record α)) :
    (numbered rs).entries = (rs.zipIdx 1).map Prod.swap := by
  refine SortedMap.entries_ofList ?_
  rw [List.pairwise_map, List.pairwise_iff_getElem]
  intro i j hi hj hij
  simp only [List.getElem_zipIdx, Prod.swap_prod_mk]
  omega

theorem snd_entries_numbered {α : Type} (rs : List (Record α)) :
    (numbered rs).entries.map Prod.snd = rs := by
  rw [entries_numbered, List.map_map]
  exact List.zipIdx_map_fst 1 rs

/-- The stored nodes are the live ones. -/
theorem RunTable.Sound.stored_eq_filter (hT : T.Sound t) :
    T.stored = T.members.filter KeptNode.live := by
  have hlive : ∀ e ∈ T.entries, ∀ m ∈ e.members, m.live = e.live := fun e he m hm => by
    obtain ⟨i, hi⟩ := List.mem_iff_getElem?.mp he
    obtain ⟨base, -, hrun⟩ := hT.runs i e hi
    obtain ⟨j, hj⟩ := List.mem_iff_getElem?.mp hm
    exact (hrun.shape j m hj).2
  rw [RunTable.stored, RunTable.members]
  generalize T.entries = es at hlive
  induction es with
  | nil => rfl
  | cons e es ih =>
    have hrest := ih fun f hf => hlive f (List.mem_cons_of_mem _ hf)
    have he := hlive e List.mem_cons_self
    rw [List.flatMap_cons, List.filter_append, ← hrest]
    by_cases hl : e.live = true
    · have hall : e.members.filter KeptNode.live = e.members :=
        List.filter_eq_self.mpr fun m hm => by rw [he m hm, hl]
      rw [List.filter_cons_of_pos hl, List.flatMap_cons, hall]
    · have hnone : e.members.filter KeptNode.live = [] :=
        List.filter_eq_nil_iff.mpr fun m hm => by rwa [he m hm]
      rw [List.filter_cons_of_neg hl, hnone, List.nil_append]

/-- The record at a node. -/
def KeptNode.recordAt (f : Text → Text) (n : KeptNode Text) : Record Text where
  coord := n.coord
  el := f (n.el.getD [])

theorem RunTable.Sound.records_eq (hT : T.Sound t) (f : Text → Text) :
    T.records f = T.stored.map (KeptNode.recordAt f) := by
  have hlive : ∀ n ∈ T.stored, n.live = true := fun n hn => (hT.live_of_mem_stored hn).2
  rw [RunTable.records]
  generalize T.stored = ns at hlive
  induction ns with
  | nil => rfl
  | cons n ns ih =>
    obtain ⟨⟨id, el⟩, hrec⟩ := Option.isSome_iff_exists.mp (hlive n List.mem_cons_self)
    have hel : n.el = some el := by rw [KeptNode.el, hrec]; rfl
    rw [List.map_cons, List.filterMap_cons_some hel, List.map_cons, List.zipWith_cons_cons,
      ih fun m hm => hlive m (List.mem_cons_of_mem _ hm), List.map_cons, KeptNode.recordAt, hel]
    rfl

/-- The stored nodes of the table of a placed state are those of its records. -/
theorem perm_stored (h : EmbedRGA.Placed s) (ht : t.Keeps s.entries) (hT : T.Partitions t) :
    T.stored.Perm (s.entries.map nodeOf) := by
  rw [hT.stored_eq_filter]
  have hnodup : (s.entries.map nodeOf).Nodup := by
    rw [List.Nodup, List.pairwise_map]
    refine s.sorted.imp fun {e f} hlt heq => ?_
    have hid : (e.1, e.2.el) = (f.1, f.2.el) := Option.some.inj (congrArg KeptNode.record heq)
    exact absurd (Prod.mk.inj hid).1 hlt.ne
  refine (List.perm_ext_iff_of_nodup (hT.nodup.filter _) hnodup).mpr fun n => ?_
  rw [List.mem_filter, List.mem_map]
  constructor
  · rintro ⟨hn, hlive⟩
    exact (ht.mem_iff h).mp ⟨(hT.mem n hn).1, hlive⟩
  · rintro ⟨e, he, rfl⟩
    have hn := (ht.mem_iff h).mpr ⟨e, he, rfl⟩
    exact ⟨hT.complete _ hn.1 (decodeChain_nodeOf h he).1, hn.2⟩

theorem recordAt_nodeOf (h : EmbedRGA.Placed s) {e : ℕ × Record Text} (he : e ∈ s.entries) :
    (nodeOf e).recordAt (fun el => el) = e.2 := by
  have hcoord := (decodeChain_eq_ok_iff.mp (decodeChain_nodeOf h he).2).2
  rw [KeptNode.recordAt, KeptNode.coord, ← hcoord]
  rfl

/-- The records of the live nodes of the table of a placed state are those of the state. -/
theorem perm_records (h : EmbedRGA.Placed s) (ht : t.Keeps s.entries) (hT : T.Partitions t) :
    (T.records fun el => el).Perm (s.entries.map Prod.snd) := by
  rw [hT.records_eq]
  refine ((perm_stored h ht hT).map _).trans (List.Perm.of_eq ?_)
  rw [List.map_map]
  exact List.map_congr_left fun e he => recordAt_nodeOf h he

/-- The read lists the records by descending keys of their coordinates. -/
theorem pairwise_records {s : EmbedRGA.State Text}
    (h : (s.entries.map Prod.snd).Pairwise fun r r' => r.coord ≠ r'.coord) :
    ((EmbedRGA.readEntries s).map Prod.snd).Pairwise
      fun r r' => sortKey r'.coord < sortKey r.coord := by
  have hne : ((EmbedRGA.readEntries s).map Prod.snd).Pairwise fun r r' => r.coord ≠ r'.coord :=
    ((EmbedRGA.perm_readEntries s).map Prod.snd).symm.pairwise h fun hne => hne.symm
  rw [List.pairwise_map] at hne ⊢
  refine ((EmbedRGA.pairwise_readEntries s).and hne).imp fun {e f} hef => ?_
  rcases hef.1 with hlt | ⟨heq, -⟩
  · exact hlt
  · exact absurd (sortKey_injective heq).symm hef.2

theorem EmbedRGA.Placed.pairwise_coords (h : EmbedRGA.Placed s) :
    (s.entries.map Prod.snd).Pairwise fun r r' => r.coord ≠ r'.coord := by
  rw [List.pairwise_map]
  exact h.pairwise_entries.imp fun hne heq => hne (by rw [heq])

/-- **States with the same records read the same**: the order is that of the coordinates. -/
theorem read_eq_of_perm {s s' : EmbedRGA.State Text} (h : EmbedRGA.Placed s)
    (hperm : (s'.entries.map Prod.snd).Perm (s.entries.map Prod.snd)) :
    EmbedRGA.read s' = EmbedRGA.read s := by
  have h' : (s'.entries.map Prod.snd).Pairwise fun r r' => r.coord ≠ r'.coord :=
    hperm.symm.pairwise h.pairwise_coords fun hne => hne.symm
  have heq : (EmbedRGA.readEntries s').map Prod.snd = (EmbedRGA.readEntries s).map Prod.snd := by
    have hp := ((EmbedRGA.perm_readEntries s').map Prod.snd).trans
      (hperm.trans ((EmbedRGA.perm_readEntries s).map Prod.snd).symm)
    exact hp.eq_of_pairwise (fun r r' _ _ hlt hlt' => absurd hlt' (lt_asymm hlt))
      (pairwise_records h') (pairwise_records h.pairwise_coords)
  have hels := congrArg (List.map Record.el) heq
  rwa [List.map_map, List.map_map] at hels

theorem mem_records_iff {s : EmbedRGA.State Text} {r : Record Text} :
    r ∈ s.entries.map Prod.snd ↔ ∃ id, s.get? id = some r := by
  rw [List.mem_map]
  constructor
  · rintro ⟨e, he, rfl⟩
    exact ⟨e.1, SortedMap.mem_entries_iff.mp he⟩
  · rintro ⟨id, hid⟩
    exact ⟨(id, r), SortedMap.mem_entries_iff.mpr hid, rfl⟩

/-- The elements of the stored nodes are those of the records. -/
theorem mem_els_iff (h : EmbedRGA.Placed s) (ht : t.Keeps s.entries) (hT : T.Partitions t)
    {el : Text} : el ∈ T.stored.filterMap KeptNode.el ↔ ∃ id r, s.get? id = some r ∧ r.el = el := by
  rw [((perm_stored h ht hT).filterMap KeptNode.el).mem_iff, List.filterMap_map, List.mem_filterMap]
  constructor
  · rintro ⟨e, he, hel⟩
    exact ⟨e.1, e.2, SortedMap.mem_entries_iff.mp he, Option.some.inj hel⟩
  · rintro ⟨id, r, hr, rfl⟩
    exact ⟨(id, r), SortedMap.mem_entries_iff.mpr hr, rfl⟩

theorem noMark_flatten {els : List Text} (hpacked : packed els = true) (h : ∀ el ∈ els, NoMark el) :
    NoMark els.flatten := by
  cases els with
  | nil => exact fun hc => by cases hc
  | cons el els =>
    rw [packed, List.all_cons, Bool.and_eq_true, decide_eq_true_iff] at hpacked
    obtain ⟨c, rfl⟩ := List.length_eq_one_iff.mp hpacked.1
    exact h [c] List.mem_cons_self

end RoundTrip

/-- The fork, with elements as texts: a character, an empty one, a pair of code points and an emoji. -/
def textFork : EmbedRGA.State Text := SortedMap.ofList
  [(1, { coord := dEnc 1, el := text "a" }), (2, { coord := dEnc 1 ++ dEnc 1, el := text "" }),
    (3, { coord := dEnc 1 ++ dEnc 2, el := text "cd" }), (4, { coord := dEnc 4, el := text "😀" })]

theorem produced_textFork : EmbedRGA.Produced textFork := by
  have h₁ := @EmbedRGA.Reachable.apply Text _ (.ins 1 (text "a") none) _ .init rfl
  have h₂ := @EmbedRGA.Reachable.apply Text _ (.ins 2 (text "") (some 1)) _ h₁ rfl
  have h₃ := @EmbedRGA.Reachable.apply Text _ (.ins 3 (text "cd") (some 1)) _ h₂ rfl
  have h₄ := @EmbedRGA.Reachable.apply Text _ (.ins 4 (text "😀") none) _ h₃ rfl
  exact .reachable h₄

end SalRuntime
