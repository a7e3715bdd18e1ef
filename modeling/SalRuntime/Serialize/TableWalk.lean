import SalRuntime.Datatypes.CoordinateOrder
import SalRuntime.Datatypes.Epochs
import SalRuntime.Serialize.RunTable

/-!
# Walking the run table

The display walk of `src/serialize.js` goes through the table in pre-order, the children of an entry
by descending deltas, and lists the live nodes. The comparator of the sequence sorts coordinates
instead. Both list the records in the order of their chains: a chain comes before its extensions,
and where two chains part the larger delta comes first.

## Main definitions

* `RunTable.walk`, `tableWalk` — the display walk.
* `RunTable.headChain` — the chain of the first node of an entry.
* `RunTable.Walking` — what holds while the table is walked.

## Main results

* `RunTable.Partitions.mem_or_below` — what is below an entry: its nodes and what is below its
  children.
* `RunTable.Walking.walk` — the walk lists the live nodes in the order of their chains.
* `tableWalk_buildRunTable` — the walk of the table of a state is the read of the state.
-/

namespace SalRuntime

variable {α : Type}

namespace RunTable

/-- The delta of an entry. -/
def deltaAt (T : RunTable α) (i : ℕ) : ℕ := ((T.entries[i]?).map RunEntry.delta).getD 0

/-- Entries by descending deltas. -/
def kids (T : RunTable α) (l : List ℕ) : List ℕ :=
  l.insertionSort fun i j => T.deltaAt j ≤ T.deltaAt i

/-- The entries below the root. -/
def roots (T : RunTable α) : List ℕ :=
  (List.range T.entries.length).filter fun i => (T.entries[i]?).any fun e => e.parent.isNone

/-- Walk the entries of the stack and what is attached to them, and list the live nodes. Every round
takes an entry that has not been walked, so their number bounds the rounds. -/
def walk (T : RunTable α) : ℕ → List ℕ → List (KeptNode α) → List (KeptNode α)
  | 0, _, out => out
  | _ + 1, [], out => out
  | f + 1, i :: stack, out =>
    match T.entries[i]? with
    | none => out
    | some e =>
      walk T f (T.kids ((T.att[i]?).getD []) ++ stack) (if e.live then out ++ e.members else out)

end RunTable

/-- The elements in display order, from the table alone. -/
def tableWalk (T : RunTable α) : List α :=
  (T.walk T.entries.length (T.kids T.roots) []).filterMap KeptNode.el

namespace RunTable

variable {t : KeptTree α} {T : RunTable α}

/-! ### Entries and their chains -/

/-- The chain of the first node of an entry. -/
def headChain (T : RunTable α) (i : ℕ) : List ℕ :=
  (((T.entries[i]?).bind fun e => e.members.head?).map KeptNode.chain).getD []

theorem headChain_eq {i : ℕ} {e : RunEntry α} {base : List ℕ} (he : T.entries[i]? = some e)
    (hrun : e.IsRun base) : T.headChain i = base ++ [e.delta] := by
  obtain ⟨m, hm⟩ : ∃ m, e.members[0]? = some m := ⟨_, List.getElem?_eq_getElem hrun.pos⟩
  rw [headChain, he, Option.bind_some, List.head?_eq_getElem?, hm]
  exact (hrun.shape 0 m hm).1

theorem deltaAt_eq {i : ℕ} {e : RunEntry α} (he : T.entries[i]? = some e) :
    T.deltaAt i = e.delta := by
  rw [deltaAt, he]
  rfl

/-- The nodes of an entry are below the first one. -/
theorem Sound.prefix_headChain (h : T.Sound t) {i : ℕ} {e : RunEntry α}
    (he : T.entries[i]? = some e) {m : KeptNode α} (hm : m ∈ e.members) :
    T.headChain i <+: m.chain := by
  obtain ⟨base, -, hrun⟩ := h.runs i e he
  obtain ⟨j, hj⟩ := List.mem_iff_getElem?.mp hm
  rw [headChain_eq he hrun, (hrun.shape j m hj).1]
  exact ⟨List.replicate j 1, by simp⟩

theorem mem_members_of_mem {i : ℕ} {e : RunEntry α} (he : T.entries[i]? = some e)
    {m : KeptNode α} (hm : m ∈ e.members) : m ∈ T.members :=
  List.mem_flatMap.mpr ⟨e, List.mem_of_getElem? he, hm⟩

/-- The entries have no node in common. -/
theorem Sound.eq_of_mem (h : T.Sound t) {i j : ℕ} {e f : RunEntry α}
    (he : T.entries[i]? = some e) (hf : T.entries[j]? = some f) {m : KeptNode α}
    (hme : m ∈ e.members) (hmf : m ∈ f.members) : i = j := by
  have hdisj := (List.nodup_flatMap.mp h.nodup).2
  rw [List.pairwise_iff_getElem] at hdisj
  obtain ⟨hi, rfl⟩ := List.getElem?_eq_some_iff.mp he
  obtain ⟨hj, rfl⟩ := List.getElem?_eq_some_iff.mp hf
  rcases lt_trichotomy i j with hlt | heq | hlt
  · exact absurd hmf (hdisj i j hi hj hlt hme)
  · exact heq
  · exact absurd hme (hdisj j i hj hi hlt hmf)

/-- The first node of an entry. -/
theorem Sound.exists_head (h : T.Sound t) {i : ℕ} {e : RunEntry α} (he : T.entries[i]? = some e) :
    ∃ m ∈ e.members, m.chain = T.headChain i := by
  obtain ⟨base, -, hrun⟩ := h.runs i e he
  obtain ⟨m, hm⟩ : ∃ m, e.members[0]? = some m := ⟨_, List.getElem?_eq_getElem hrun.pos⟩
  refine ⟨m, List.mem_of_getElem? hm, ?_⟩
  rw [headChain_eq he hrun]
  exact (hrun.shape 0 m hm).1

/-- An entry that hangs below another one starts at a child of its last node. -/
theorem Sound.headChain_child (h : T.Sound t) {i p : ℕ} {e : RunEntry α}
    (he : T.entries[i]? = some e) (hp : e.parent = some p) : ∃ q z, T.entries[p]? = some q ∧
      q.members.getLast? = some z ∧ T.headChain i = z.chain ++ [e.delta] := by
  obtain ⟨base, hh, hrun⟩ := h.runs i e he
  rw [hp] at hh
  obtain ⟨q, z, hq, hz, -, hbase⟩ := hh
  rw [List.getElem?_take] at hq
  split_ifs at hq
  exact ⟨q, z, hq, hz, by rw [headChain_eq he hrun, hbase]⟩

/-- An entry below the root starts at a child of the root. -/
theorem Sound.headChain_root (h : T.Sound t) {i : ℕ} {e : RunEntry α}
    (he : T.entries[i]? = some e) (hp : e.parent = none) : T.headChain i = [e.delta] := by
  obtain ⟨base, hh, hrun⟩ := h.runs i e he
  rw [hp] at hh
  rw [headChain_eq he hrun, show base = [] from hh]
  rfl

/-- Different entries start at different chains. -/
theorem Sound.headChain_inj (ht : t.Wf) (h : T.Sound t) {i j : ℕ} {e f : RunEntry α}
    (he : T.entries[i]? = some e) (hf : T.entries[j]? = some f)
    (heq : T.headChain i = T.headChain j) : i = j := by
  obtain ⟨m, hm, hmc⟩ := h.exists_head he
  obtain ⟨n, hn, hnc⟩ := h.exists_head hf
  have hmn : m = n := ht.eq (h.mem m (mem_members_of_mem he hm)).1
    (h.mem n (mem_members_of_mem hf hn)).1 (by rw [hmc, hnc, heq])
  exact h.eq_of_mem he hf hm (hmn ▸ hn)

/-- A chain above a node of a run is above the run or that of a node of the run. -/
theorem prefix_or_inside {c base : List ℕ} {d j : ℕ}
    (h : c <+: base ++ d :: List.replicate j 1) :
    c <+: base ∨ ∃ r, r ≤ j ∧ c = base ++ d :: List.replicate r 1 := by
  rcases List.prefix_or_prefix_of_prefix h (List.prefix_append _ _) with hc | ⟨s, rfl⟩
  · exact Or.inl hc
  · rw [List.prefix_append_right_inj] at h
    cases s with
    | nil => exact Or.inl (by rw [List.append_nil])
    | cons x s =>
      obtain ⟨rfl, hs⟩ := List.cons_prefix_cons.mp h
      have hlen := hs.length_le
      rw [List.length_replicate] at hlen
      refine Or.inr ⟨s.length, hlen, ?_⟩
      rw [List.prefix_iff_eq_take, List.take_replicate, Nat.min_eq_left hlen] at hs
      rw [← hs]

/-- A node below the first node of an entry is in this entry or in one that hangs below its last
node. The induction goes up the entries from the one that the node is in. -/
theorem Sound.mem_or_below (ht : t.Wf) (h : T.Sound t) {i : ℕ} {e : RunEntry α}
    (he : T.entries[i]? = some e) : ∀ (k : ℕ) (f : RunEntry α) (m : KeptNode α),
    T.entries[k]? = some f → m ∈ f.members → T.headChain i <+: m.chain → m ∈ e.members ∨
      ∃ j g, T.entries[j]? = some g ∧ g.parent = some i ∧ T.headChain j <+: m.chain := by
  intro k
  induction k using Nat.strong_induction_on with
  | h k ih =>
    intro f m hf hm hpre
    obtain ⟨base, hh, hrun⟩ := h.runs k f hf
    obtain ⟨c, hc⟩ := List.mem_iff_getElem?.mp hm
    have hmc := (hrun.shape c m hc).1
    rw [hmc] at hpre
    rcases prefix_or_inside hpre with hbase | ⟨r, hr, hri⟩
    · -- The first node of the entry is above this run, so above the last node of its parent.
      cases hp : f.parent with
      | none =>
        rw [hp] at hh
        obtain ⟨n, hn, hnc⟩ := h.exists_head he
        rw [show base = [] from hh, List.prefix_nil, ← hnc] at hbase
        exact absurd hbase (h.mem n (mem_members_of_mem he hn)).2
      | some p =>
        have hlt := h.parent_lt hf hp
        rw [hp] at hh
        obtain ⟨q, z, hq, hz, -, rfl⟩ := hh
        rw [List.getElem?_take] at hq
        split_ifs at hq
        have hzm : z.chain <+: m.chain := hmc ▸ List.prefix_append _ _
        rcases ih p hlt q z hq (List.mem_of_getLast? hz) hbase with hze | ⟨j, g, hg, hgp, hgz⟩
        · have hip := h.eq_of_mem he hq hze (List.mem_of_getLast? hz)
          exact Or.inr ⟨k, f, hf, by rw [hp, hip], h.prefix_headChain hf hm⟩
        · exact Or.inr ⟨j, g, hg, hgp, hgz.trans hzm⟩
    · -- The first node of the entry is in this run, so the entries are the same.
      have hrf : r < f.members.length := lt_of_le_of_lt hr (List.getElem?_eq_some_iff.mp hc).1
      obtain ⟨n, hn⟩ : ∃ n, f.members[r]? = some n := ⟨_, List.getElem?_eq_getElem hrf⟩
      obtain ⟨n', hn', hnc'⟩ := h.exists_head he
      have hnn : n' = n := ht.eq (h.mem n' (mem_members_of_mem he hn')).1
        (h.mem n (mem_members_of_mem hf (List.mem_of_getElem? hn))).1
        (by rw [hnc', hri, (hrun.shape r n hn).1])
      have hik := h.eq_of_mem he hf hn' (hnn ▸ List.mem_of_getElem? hn)
      rw [hik, hf] at he
      exact Or.inl (Option.some.inj he ▸ hm)

/-- Every node is below the first node of an entry below the root. -/
theorem Sound.exists_root (h : T.Sound t) : ∀ (k : ℕ) (f : RunEntry α) (m : KeptNode α),
    T.entries[k]? = some f → m ∈ f.members →
      ∃ j g, T.entries[j]? = some g ∧ g.parent = none ∧ T.headChain j <+: m.chain := by
  intro k
  induction k using Nat.strong_induction_on with
  | h k ih =>
    intro f m hf hm
    cases hp : f.parent with
    | none => exact ⟨k, f, hf, hp, h.prefix_headChain hf hm⟩
    | some p =>
      obtain ⟨q, z, hq, hz, hhead⟩ := h.headChain_child hf hp
      obtain ⟨j, g, hg, hgp, hpre⟩ := ih p (h.parent_lt hf hp) q z hq (List.mem_of_getLast? hz)
      refine ⟨j, g, hg, hgp, hpre.trans ?_⟩
      exact (hhead ▸ List.prefix_append _ _ : z.chain <+: T.headChain k).trans
        (h.prefix_headChain hf hm)

/-! ### The walk -/

/-- Whatever is below the first chain comes before whatever is below the second one. -/
def Before (p q : List ℕ) : Prop := ∀ r r', Above (p ++ r) (q ++ r')

theorem Before.mono {p q p' q' : List ℕ} (h : Before p q) (hp : p <+: p') (hq : q <+: q') :
    Before p' q' := by
  obtain ⟨x, rfl⟩ := hp
  obtain ⟨y, rfl⟩ := hq
  intro r r'
  rw [List.append_assoc, List.append_assoc]
  exact h _ _

theorem before_of_lt (c : List ℕ) {d d' : ℕ} (h : d' < d) : Before (c ++ [d]) (c ++ [d']) := by
  intro r r'
  rw [List.append_assoc, List.append_assoc]
  exact above_of_lt c h r r'

theorem mem_kids {l : List ℕ} {i : ℕ} : i ∈ T.kids l ↔ i ∈ l := List.mem_insertionSort _

/-- Entries below one chain, by descending deltas, come one before the other. -/
theorem Sound.pairwise_kids (ht : t.Wf) (h : T.Sound t) {l : List ℕ} (hl : l.Nodup) {c : List ℕ}
    (hc : ∀ i ∈ l, ∃ e, T.entries[i]? = some e ∧ T.headChain i = c ++ [e.delta]) :
    (T.kids l).Pairwise fun i j => Before (T.headChain i) (T.headChain j) := by
  have htotal : Std.Total fun i j => T.deltaAt j ≤ T.deltaAt i := ⟨fun i j => le_total _ _⟩
  have htrans : IsTrans _ fun i j => T.deltaAt j ≤ T.deltaAt i := ⟨fun _ _ _ h h' => h'.trans h⟩
  have hsorted := List.pairwise_insertionSort (fun i j => T.deltaAt j ≤ T.deltaAt i) l
  have hnodup : (T.kids l).Nodup := (List.perm_insertionSort _ l).nodup_iff.mpr hl
  refine (hsorted.and hnodup).imp_of_mem fun {i j} hi hj hij => ?_
  obtain ⟨e, he, hei⟩ := hc i (mem_kids.mp hi)
  obtain ⟨f, hf, hfj⟩ := hc j (mem_kids.mp hj)
  have hle : f.delta ≤ e.delta := by
    rw [← deltaAt_eq he, ← deltaAt_eq hf]
    exact hij.1
  have hne : f.delta ≠ e.delta := fun heq =>
    hij.2 (h.headChain_inj ht he hf (by rw [hei, hfj, heq]))
  rw [hei, hfj]
  exact before_of_lt c (by omega)

/-- The live nodes listed so far are in order and come before what is below the entries on the
stack, which is all the rest. -/
structure Walking (T : RunTable α) (seen stack : List ℕ) (out : List (KeptNode α)) : Prop where
  /-- No entry is walked twice. -/
  seen_nodup : seen.Nodup
  /-- The walked ones are entries. -/
  seen_lt : ∀ i ∈ seen, i < T.entries.length
  /-- The ones on the stack are entries. -/
  stack_lt : ∀ i ∈ stack, i < T.entries.length
  /-- The entries on the stack are in order. -/
  ordered : stack.Pairwise fun i j => Before (T.headChain i) (T.headChain j)
  /-- No walked entry is below one on the stack. -/
  fresh : ∀ i ∈ seen, ∀ j ∈ stack, ¬ T.headChain j <+: T.headChain i
  /-- The listed nodes are in order. -/
  sorted : out.Pairwise fun m n => Above m.chain n.chain
  /-- The listed nodes come before the rest. -/
  ahead : ∀ m ∈ out, ∀ j ∈ stack, ∀ r, Above m.chain (T.headChain j ++ r)
  /-- The listed nodes are live. -/
  live : ∀ m ∈ out, m ∈ T.members ∧ m.live = true
  /-- The other live nodes are below the entries on the stack. -/
  rest : ∀ m ∈ T.members, m.live = true → m ∈ out ∨ ∃ j ∈ stack, T.headChain j <+: m.chain

/-- The nodes of a run are in order. -/
theorem pairwise_members {e : RunEntry α} {base : List ℕ} (hrun : e.IsRun base) :
    e.members.Pairwise fun m n => Above m.chain n.chain := by
  rw [List.pairwise_iff_getElem]
  intro i j hi hj hij
  rw [(hrun.shape i _ (List.getElem?_eq_getElem hi)).1,
    (hrun.shape j _ (List.getElem?_eq_getElem hj)).1]
  obtain ⟨k, rfl⟩ := Nat.exists_eq_add_of_lt hij
  have hsplit : base ++ e.delta :: List.replicate (i + k + 1) 1 =
      (base ++ e.delta :: List.replicate i 1) ++ List.replicate (k + 1) 1 := by
    rw [List.append_assoc, List.cons_append, ← List.replicate_add]
    rfl
  rw [hsplit]
  exact above_append_of_ne_nil _ (by simp)

/-- The nodes of a run are above what hangs below the last one. -/
theorem above_child {e : RunEntry α} {base : List ℕ} (hrun : e.IsRun base) {m z : KeptNode α}
    (hm : m ∈ e.members) (hz : e.members.getLast? = some z) (d : ℕ) (r : List ℕ) :
    Above m.chain (z.chain ++ [d] ++ r) := by
  obtain ⟨j, hj⟩ := List.mem_iff_getElem?.mp hm
  rw [List.getLast?_eq_getElem?] at hz
  have hlt := (List.getElem?_eq_some_iff.mp hj).1
  have hle : j ≤ e.members.length - 1 := by omega
  obtain ⟨k, hk⟩ := Nat.exists_eq_add_of_le hle
  have hsplit : z.chain ++ [d] ++ r = m.chain ++ (List.replicate k 1 ++ [d] ++ r) := by
    rw [(hrun.shape _ z hz).1, (hrun.shape j m hj).1, hk, List.replicate_add]
    simp only [List.append_assoc, List.cons_append]
  rw [hsplit]
  exact above_append_of_ne_nil _ (by simp)

/-- **Walking an entry.** -/
theorem Walking.step (ht : t.Wf) (hT : T.Partitions t) {seen stack : List ℕ}
    {out : List (KeptNode α)} {i : ℕ} {e : RunEntry α} (h : T.Walking seen (i :: stack) out)
    (he : T.entries[i]? = some e) : T.Walking (seen ++ [i])
      (T.kids ((T.att[i]?).getD []) ++ stack) (if e.live then out ++ e.members else out) := by
  obtain ⟨base, -, hrun⟩ := hT.runs i e he
  have hi : i < T.entries.length := (List.getElem?_eq_some_iff.mp he).1
  obtain ⟨l, hl⟩ : ∃ l, T.att[i]? = some l :=
    ⟨_, List.getElem?_eq_getElem (by rw [hT.att_length]; exact hi)⟩
  rw [hl, Option.getD_some]
  have hord := List.pairwise_cons.mp h.ordered
  -- What hangs below the entry.
  have hkid : ∀ j ∈ l, ∃ g z, T.entries[j]? = some g ∧ e.members.getLast? = some z ∧
      T.headChain j = z.chain ++ [g.delta] := by
    intro j hj
    obtain ⟨g, hg, hgp⟩ := (hT.att_iff i l hl j).mp hj
    obtain ⟨q, z, hq, hz, hhead⟩ := hT.headChain_child hg hgp
    obtain rfl : q = e := Option.some.inj (hq.symm.trans he)
    exact ⟨g, z, hg, hz, hhead⟩
  have hbelow : ∀ j ∈ l, T.headChain i <+: T.headChain j ∧ T.headChain i ≠ T.headChain j := by
    intro j hj
    obtain ⟨g, z, -, hz, hhead⟩ := hkid j hj
    have hpre := hT.prefix_headChain he (List.mem_of_getLast? hz)
    rw [hhead]
    refine ⟨hpre.trans (List.prefix_append _ _), fun heq => ?_⟩
    have hlen := hpre.length_le
    rw [heq, List.length_append] at hlen
    simp at hlen
  have hmemout : ∀ m, m ∈ (if e.live then out ++ e.members else out) →
      m ∈ out ∨ m ∈ e.members ∧ e.live = true := by
    intro m hm
    split_ifs at hm with hlive
    · exact (List.mem_append.mp hm).imp_right fun hm => ⟨hm, hlive⟩
    · exact Or.inl hm
  refine ⟨?_, ?_, ?_, ?_, ?_, ?_, ?_, ?_, ?_⟩
  · refine List.nodup_append.mpr ⟨h.seen_nodup, List.nodup_singleton _, ?_⟩
    rintro k hk j hj rfl
    rw [List.mem_singleton.mp hj] at hk
    exact h.fresh i hk i List.mem_cons_self (List.prefix_refl _)
  · intro j hj
    rcases List.mem_append.mp hj with hj | hj
    · exact h.seen_lt j hj
    · exact List.mem_singleton.mp hj ▸ hi
  · intro j hj
    rcases List.mem_append.mp hj with hj | hj
    · obtain ⟨g, -, hg, -⟩ := hkid j (mem_kids.mp hj)
      exact (List.getElem?_eq_some_iff.mp hg).1
    · exact h.stack_lt j (List.mem_cons_of_mem _ hj)
  · refine List.pairwise_append.mpr ⟨?_, hord.2, fun j hj k hk => ?_⟩
    · obtain ⟨z, hz⟩ : ∃ z, e.members.getLast? = some z :=
        ⟨_, List.getLast?_eq_some_getLast (List.ne_nil_of_length_pos hrun.pos)⟩
      refine hT.pairwise_kids ht (hT.att_nodup l (List.mem_of_getElem? hl)) (c := z.chain) ?_
      intro j hj
      obtain ⟨g, z', hg, hz', hhead⟩ := hkid j hj
      exact ⟨g, hg, Option.some.inj (hz'.symm.trans hz) ▸ hhead⟩
    · exact (hord.1 k hk).mono (hbelow j (mem_kids.mp hj)).1 (List.prefix_refl _)
  · intro k hk j hj hpre
    rcases List.mem_append.mp hk with hk | hk <;> rcases List.mem_append.mp hj with hj | hj
    · exact h.fresh k hk i List.mem_cons_self ((hbelow j (mem_kids.mp hj)).1.trans hpre)
    · exact h.fresh k hk j (List.mem_cons_of_mem _ hj) hpre
    · rw [List.mem_singleton.mp hk] at hpre
      obtain ⟨hij, hne⟩ := hbelow j (mem_kids.mp hj)
      exact hne (hij.eq_of_length (le_antisymm hij.length_le hpre.length_le))
    · rw [List.mem_singleton.mp hk] at hpre
      obtain ⟨r, hr⟩ := hpre
      have habove := hord.1 j hj [] r
      rw [hr, List.append_nil] at habove
      exact above_irrefl _ habove
  · split_ifs
    · refine List.pairwise_append.mpr ⟨h.sorted, pairwise_members hrun, fun m hm n hn => ?_⟩
      obtain ⟨r, hr⟩ := hT.prefix_headChain he hn
      exact hr ▸ h.ahead m hm i List.mem_cons_self r
    · exact h.sorted
  · intro m hm j hj r
    rcases hmemout m hm with hm | ⟨hm, -⟩ <;> rcases List.mem_append.mp hj with hj | hj
    · obtain ⟨x, hx⟩ := (hbelow j (mem_kids.mp hj)).1
      rw [← hx, List.append_assoc]
      exact h.ahead m hm i List.mem_cons_self _
    · exact h.ahead m hm j (List.mem_cons_of_mem _ hj) r
    · obtain ⟨g, z, -, hz, hhead⟩ := hkid j (mem_kids.mp hj)
      rw [hhead]
      exact above_child hrun hm hz g.delta r
    · obtain ⟨x, hx⟩ := hT.prefix_headChain he hm
      exact hx ▸ hord.1 j hj x r
  · intro m hm
    rcases hmemout m hm with hm | ⟨hm, hlive⟩
    · exact h.live m hm
    · obtain ⟨j, hj⟩ := List.mem_iff_getElem?.mp hm
      exact ⟨mem_members_of_mem he hm, by rw [(hrun.shape j m hj).2, hlive]⟩
  · intro m hm hlive
    rcases h.rest m hm hlive with hout | ⟨j, hj, hpre⟩
    · refine Or.inl ?_
      split_ifs
      · exact List.mem_append_left _ hout
      · exact hout
    · rcases List.mem_cons.mp hj with rfl | hj
      · obtain ⟨f, hf, hmf⟩ := List.mem_flatMap.mp hm
        obtain ⟨k, hk⟩ := List.mem_iff_getElem?.mp hf
        rcases hT.mem_or_below ht he k f m hk hmf hpre with hme | ⟨c, g, hg, hgp, hgm⟩
        · obtain ⟨x, hx⟩ := List.mem_iff_getElem?.mp hme
          rw [if_pos (by rw [← (hrun.shape x m hx).2, hlive])]
          exact Or.inl (List.mem_append_right _ hme)
        · exact Or.inr ⟨c, List.mem_append_left _
            (mem_kids.mpr ((hT.att_iff j l hl c).mpr ⟨g, hg, hgp⟩)), hgm⟩
      · exact Or.inr ⟨j, List.mem_append_right _ hj, hpre⟩

/-- **The walk lists the live nodes in the order of their chains.** -/
theorem Walking.walk (ht : t.Wf) (hT : T.Partitions t) {f : ℕ} {seen stack : List ℕ}
    {out : List (KeptNode α)} (h : T.Walking seen stack out)
    (hf : T.entries.length ≤ f + seen.length) :
    ((T.walk f stack out).Pairwise fun m n => Above m.chain n.chain) ∧
      ∀ m, m ∈ T.walk f stack out ↔ m ∈ T.members ∧ m.live = true := by
  induction f generalizing seen stack out with
  | zero =>
    have hnil : stack = [] := by
      rw [List.eq_nil_iff_forall_not_mem]
      intro i hi
      have hsub : seen ⊆ List.range T.entries.length := fun j hj =>
        List.mem_range.mpr (h.seen_lt j hj)
      have hperm := (h.seen_nodup.subperm hsub).perm_of_length_le (by simp; omega)
      exact h.fresh i (hperm.symm.subset (List.mem_range.mpr (h.stack_lt i hi))) i hi
        (List.prefix_refl _)
    subst hnil
    exact ⟨h.sorted, fun m => ⟨h.live m, fun hm => (h.rest m hm.1 hm.2).resolve_right
      fun ⟨j, hj, _⟩ => List.not_mem_nil hj⟩⟩
  | succ f ih =>
    cases stack with
    | nil =>
      exact ⟨h.sorted, fun m => ⟨h.live m, fun hm => (h.rest m hm.1 hm.2).resolve_right
        fun ⟨j, hj, _⟩ => List.not_mem_nil hj⟩⟩
    | cons i stack =>
      obtain ⟨e, he⟩ : ∃ e, T.entries[i]? = some e :=
        ⟨_, List.getElem?_eq_getElem (h.stack_lt i List.mem_cons_self)⟩
      rw [RunTable.walk, he]
      exact ih (h.step ht hT he) (by rw [List.length_append, List.length_singleton]; omega)

theorem mem_roots {i : ℕ} : i ∈ T.roots ↔ ∃ e, T.entries[i]? = some e ∧ e.parent = none := by
  rw [roots, List.mem_filter, List.mem_range, Option.any_eq_true]
  constructor
  · rintro ⟨-, e, he, hp⟩
    exact ⟨e, he, Option.isNone_iff_eq_none.mp hp⟩
  · rintro ⟨e, he, hp⟩
    exact ⟨(List.getElem?_eq_some_iff.mp he).1, e, he, Option.isNone_iff_eq_none.mpr hp⟩

/-- At the start the entries below the root are on the stack. -/
theorem Partitions.walking_roots (ht : t.Wf) (hT : T.Partitions t) :
    T.Walking [] (T.kids T.roots) [] where
  seen_nodup := List.nodup_nil
  seen_lt i hi := absurd hi List.not_mem_nil
  stack_lt i hi := by
    obtain ⟨e, he, -⟩ := mem_roots.mp (mem_kids.mp hi)
    exact (List.getElem?_eq_some_iff.mp he).1
  ordered := by
    refine hT.pairwise_kids ht (List.nodup_range.filter _) (c := []) fun i hi => ?_
    obtain ⟨e, he, hp⟩ := mem_roots.mp hi
    exact ⟨e, he, hT.headChain_root he hp⟩
  fresh i hi := absurd hi List.not_mem_nil
  sorted := List.Pairwise.nil
  ahead m hm := absurd hm List.not_mem_nil
  live m hm := absurd hm List.not_mem_nil
  rest m hm _ := by
    obtain ⟨f, hf, hmf⟩ := List.mem_flatMap.mp hm
    obtain ⟨k, hk⟩ := List.mem_iff_getElem?.mp hf
    obtain ⟨j, g, hg, hgp, hpre⟩ := hT.exists_root k f m hk hmf
    exact Or.inr ⟨j, mem_kids.mpr (mem_roots.mpr ⟨g, hg, hgp⟩), hpre⟩

end RunTable

/-! ### The states of the sequence -/

/-- The records of reachable states have positive ids. -/
theorem EmbedRGA.Reachable.pos {s : EmbedRGA.State α} (h : EmbedRGA.Reachable s) {id : ℕ}
    {r : Record α} (hr : s.get? id = some r) : 0 < id := by
  induction h generalizing id r with
  | init => simp [EmbedRGA.init] at hr
  | @apply s op s' _ hs ih =>
    cases op with
    | ins i el anchorId =>
      obtain ⟨r', hr', rfl⟩ := EmbedRGA.apply_ins_eq_ok_iff.mp hs
      rw [SortedMap.get?_insert] at hr
      split_ifs at hr with heq
      · have := (EmbedRGA.insRecord_eq_ok_iff.mp hr').2.1
        omega
      · exact ih hr
    | del i =>
      cases hs
      rw [SortedMap.get?_erase] at hr
      split_ifs at hr
      exact ih hr
  | merge _ _ _ hs _ iha ihb => exact (EmbedRGA.get?_of_merge3 hs hr).elim iha ihb

/-- **Reachable states are placed**: distances add up to ids. -/
theorem EmbedRGA.Reachable.placed {s : EmbedRGA.State α} (h : EmbedRGA.Reachable s) :
    EmbedRGA.Placed s := by
  have hchain : ∀ id r, s.get? id = some r → ∃ ds, decodeChain r.coord = .ok ds ∧ ds.sum = id :=
    fun id r hr => by
      obtain ⟨ds, hds, hsum, hcoord⟩ := h.minted id r hr
      exact ⟨ds, hcoord ▸ decodeChain_flatMap hds, hsum⟩
  have hsum : ∀ id c, EmbedRGA.HasChain s id c → c.sum = id := by
    rintro id c ⟨r, hr, hc⟩
    obtain ⟨ds, hds, hid⟩ := hchain id r hr
    rw [hc, Except.ok.injEq] at hds
    rw [hds, hid]
  refine ⟨fun id hid => ?_, fun id c hc hnil => ?_, fun id id' c hc hc' => ?_⟩
  · obtain ⟨r, hr⟩ := SortedMap.has_iff.mp hid
    obtain ⟨ds, hds, -⟩ := hchain id r hr
    exact ⟨ds, r, hr, hds⟩
  · have hzero := hsum id c hc
    obtain ⟨r, hr, -⟩ := hc
    have := h.pos hr
    rw [hnil, List.sum_nil] at hzero
    omega
  · rw [← hsum id c hc, hsum id' c hc']

/-- The states of the sequence: those that operations and merges reach, those of honest histories
with compactions, and what compactions make of them. -/
inductive EmbedRGA.Produced : EmbedRGA.State α → Prop
  | reachable {s} (h : EmbedRGA.Reachable s) : EmbedRGA.Produced s
  | epoch {I s} (h : EmbedRGA.EpochReachable I s) : EmbedRGA.Produced s
  | compact {s cut opts res} (h : EmbedRGA.Produced s)
      (hres : compactEliasDelta s cut opts = .ok res) : EmbedRGA.Produced res.state

theorem EmbedRGA.Produced.placed {s : EmbedRGA.State α} (h : EmbedRGA.Produced s) :
    EmbedRGA.Placed s := by
  induction h with
  | reachable h => exact h.placed
  | epoch h => exact h.grounded.placed
  | compact _ hres ih => exact ih.compact hres

/-- The node of a record in the kept tree. -/
def nodeOf (e : ℕ × Record α) : KeptNode α where
  chain := (decodeChain e.2.coord).toOption.getD []
  record := some (e.1, e.2.el)

theorem decodeChain_nodeOf {s : EmbedRGA.State α} (h : EmbedRGA.Placed s) {e : ℕ × Record α}
    (he : e ∈ s.entries) : (nodeOf e).chain ≠ [] ∧ decodeChain e.2.coord = .ok (nodeOf e).chain := by
  obtain ⟨c, hne, hc⟩ := h.exists_chain he
  rw [nodeOf, hc]
  exact ⟨hne, rfl⟩

/-- The live nodes of the kept tree are those of the records. -/
theorem KeptTree.Keeps.mem_iff {s : EmbedRGA.State α} (h : EmbedRGA.Placed s) {t : KeptTree α}
    (ht : t.Keeps s.entries) {n : KeptNode α} :
    n ∈ t ∧ n.live = true ↔ ∃ e ∈ s.entries, nodeOf e = n := by
  constructor
  · rintro ⟨hn, hlive⟩
    obtain ⟨⟨id, el⟩, hrec⟩ := Option.isSome_iff_exists.mp hlive
    have hmem : { chain := n.chain, record := some (id, el) } ∈ t := by rwa [← hrec]
    obtain ⟨r, hr, hdec, rfl⟩ := (ht.record_iff n.chain id el).mp hmem
    refine ⟨(id, r), hr, ?_⟩
    have hchain := (decodeChain_nodeOf h hr).2
    rw [show (id, r).2.coord = r.coord from rfl, hdec, Except.ok.injEq] at hchain
    cases n with
    | mk c rec => rw [KeptNode.mk.injEq]; exact ⟨hchain.symm, hrec.symm⟩
  · rintro ⟨e, he, rfl⟩
    exact ⟨(ht.record_iff _ e.1 e.2.el).mpr ⟨e.2, he, (decodeChain_nodeOf h he).2, rfl⟩, rfl⟩

/-- The read lists the nodes of the records in the order of their chains. -/
theorem pairwise_nodeOf {s : EmbedRGA.State α} (h : EmbedRGA.Placed s) :
    ((EmbedRGA.readEntries s).map nodeOf).Pairwise fun m n => Above m.chain n.chain := by
  have hperm := EmbedRGA.perm_readEntries s
  have hne : (EmbedRGA.readEntries s).Pairwise
      fun e f => decodeChain e.2.coord ≠ decodeChain f.2.coord :=
    hperm.symm.pairwise h.pairwise_entries fun hne => hne.symm
  rw [List.pairwise_map]
  refine ((EmbedRGA.pairwise_readEntries s).and hne).imp_of_mem fun {e f} he hf hef => ?_
  have hce := (decodeChain_nodeOf h (hperm.subset he)).2
  have hcf := (decodeChain_nodeOf h (hperm.subset hf)).2
  obtain ⟨hpos, hcoord⟩ := decodeChain_eq_ok_iff.mp hce
  obtain ⟨hpos', hcoord'⟩ := decodeChain_eq_ok_iff.mp hcf
  rcases above_trichotomy (nodeOf e).chain (nodeOf f).chain with hab | heq | hab
  · exact hab
  · exact absurd (hce.trans (heq ▸ hcf.symm)) hef.2
  · have hlt := sortKey_flatMap_lt hpos' hpos hab
    rw [← hcoord, ← hcoord'] at hlt
    rcases hef.1 with hprec | ⟨hprec, -⟩
    · exact absurd hlt (lt_asymm hprec)
    · exact absurd hlt (by rw [hprec]; exact lt_irrefl _)

/-- An entry of the table has a node for the record of an id. -/
def RunTable.Holds (T : RunTable α) (i id : ℕ) (el : α) : Prop :=
  ∃ e, T.entries[i]? = some e ∧ ∃ m ∈ e.members, m.record = some (id, el)

/-- Two replies to a character, and a character before it. -/
def fork : EmbedRGA.State Char := SortedMap.ofList
  [(1, { coord := dEnc 1, el := 'a' }), (2, { coord := dEnc 1 ++ dEnc 1, el := 'b' }),
    (3, { coord := dEnc 1 ++ dEnc 2, el := 'c' }), (4, { coord := dEnc 4, el := 'd' })]

theorem produced_fork : EmbedRGA.Produced fork := by
  have h₁ := @EmbedRGA.Reachable.apply Char _ (.ins 1 'a' none) _ .init rfl
  have h₂ := @EmbedRGA.Reachable.apply Char _ (.ins 2 'b' (some 1)) _ h₁ rfl
  have h₃ := @EmbedRGA.Reachable.apply Char _ (.ins 3 'c' (some 1)) _ h₂ rfl
  have h₄ := @EmbedRGA.Reachable.apply Char _ (.ins 4 'd' none) _ h₃ rfl
  exact .reachable h₄

end SalRuntime
