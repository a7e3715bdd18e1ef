import SalRuntime.Pmap.Stored

/-!
# Insertion into a stored trie

A call of `assoc` stores the trie with the new entry. The proof follows the kinds of nodes: a leaf, a
collision bucket, and a branch, where the call for a kid has stored a trie and the branch is written
or copied around it.

## Main definitions

* `Wrote` — the outcome of a call that stores a trie.

## Main results

* `exec_mergeLeaves` — two leaves or buckets are separated.
* `exec_writeKid` — a branch is given another kid.
* `exec_assoc` — the call stores the trie with the new entry and keeps all other nodes.
-/

namespace SalRuntime

namespace PMap

variable {κ α : Type}

/-! ### Insertion -/

/-- A call with the token `edit` has stored the trie `t` at `a`. It has written into own nodes of
`F` only, and the nodes of the trie are nodes of `F` or new. -/
def Wrote (hash : κ → UInt32) (P : Option ℕ → Prop) (edit : Option ℕ) (F : Set ℕ) (H : Heap κ α)
    (t : Trie κ α) (a : ℕ) (H' : Heap κ α) : Prop :=
  Keeps edit F H H' ∧ ∃ fp, Stored hash H' P t a fp ∧ ∀ x ∈ fp, x ∈ F ∨ H.next ≤ x

/-- A trie whose root is written in place of the node `a`. -/
theorem Rewritten.wrote {hash : κ → UInt32} {H H' : Heap κ α} {P : Option ℕ → Prop}
    {edit e : Option ℕ} {a b : ℕ} {n n₀ : Node κ α} {t : Trie κ α} {fp F : Set ℕ}
    (hr : Rewritten edit H a e n b H') (hb : H.Bounded) (hn : H.node a = some n₀) (he : n₀.edit = e)
    (hkind : n.isB = n₀.isB) (ha : a ∈ F) (hst : Stored hash H' P t b fp)
    (hfp : ∀ x ∈ fp, x = b ∨ x ∈ F ∨ H.next ≤ x) : Wrote hash P edit F H t b H' := by
  refine ⟨hr.keeps hb hn he hkind ha, fp, hst, fun x hx => ?_⟩
  rcases hfp x hx with rfl | hx
  · rcases hr.eq_or_fresh with rfl | rfl
    · exact Or.inl ha
    · exact Or.inr (Nat.le_refl _)
  · exact hx

open Effect HashTrie

section Insertion

variable {hash : κ → UInt32} {H : Heap κ α} {P : Option ℕ → Prop} {edit : Option ℕ}

theorem leafHash_eq {t : Trie κ α} {a : ℕ} {fp : Set ℕ} {h : UInt32}
    (hst : Stored hash H P t a fp) (hf : Flat (chunks hash) h t) : leafHash H a = .ok h := by
  cases hst with
  | leaf hnode he =>
    rw [leafHash, load_eq hnode]
    exact congrArg Except.ok hf
  | bucket hnode he hlen =>
    rw [leafHash, load_eq hnode]
    exact congrArg Except.ok hf
  | branch => exact hf.elim

theorem exec_leafHash {β : Type} {t : Trie κ α} {a : ℕ} {fp : Set ℕ} {h : UInt32}
    (hst : Stored hash H P t a fp) (hf : Flat (chunks hash) h t) (f : UInt32 → Calls κ α β) :
    exec (get >>= fun H => liftM (leafHash H a) >>= f) H = exec (f h) H := by
  rw [exec_bind_ok (exec_get H), exec_bind_ok ((exec_lift _ H).trans (by rw [leafHash_eq hst hf]))]

/-- Two leaves or buckets with different hashes are separated. -/
theorem exec_mergeLeaves {ta tb : Trie κ α} {a b : ℕ} {fpa fpb : Set ℕ} {ha hb : UInt32}
    (hsa : Stored hash H P ta a fpa) (hsb : Stored hash H P tb b fpb)
    (hfa : Flat (chunks hash) ha ta) (hfb : Flat (chunks hash) hb tb) (hdisj : Disjoint fpa fpb)
    (hne : ha ≠ hb) (hP : P edit) (hbd : H.Bounded) (n l : ℕ) (hn : n + l = 7)
    (hagree : ∀ j < l, (chunks hash).digit j ha = (chunks hash).digit j hb) :
    ∃ c H', exec (mergeLeaves n edit (BITS * l) a b) H = (.ok c, H') ∧
      Wrote hash P edit (fpa ∪ fpb) H (fork (chunks hash) n l ha ta hb tb) c H' := by
  have hca := chunk_lt ha (BITS * l)
  have hcb := chunk_lt hb (BITS * l)
  induction n generalizing l with
  | zero => exact absurd (lt_depth_of_agree hne hagree) (by rw [show (chunks hash).depth = 7 by rfl]; omega)
  | succ n ih =>
    rw [mergeLeaves, exec_leafHash hsa hfa, exec_leafHash hsb hfb, fork]
    by_cases heq : chunk ha (BITS * l) = chunk hb (BITS * l)
    · have hdigit : (chunks hash).digit l ha = (chunks hash).digit l hb := congrArg UInt32.toNat heq
      obtain ⟨c, H', hexec, hk, fp, hst, hfp⟩ := ih (l + 1) (by omega)
        (fork_agree_succ hagree hdigit) (chunk_lt _ _) (chunk_lt _ _)
      have hkids := Kids.single hca hst
      have hpush := hkids.push edit hk.bounded hP
      rw [packed_bitOf hca] at hpush
      rw [if_pos hdigit]
      refine ⟨H'.next, H'.push (.bnode edit (bitOf (chunk ha (BITS * l))) [c]), ?_, ?_, _, hpush, ?_⟩
      · exact (if_pos heq ▸ exec_bind_ok hexec _)
      · exact hk.trans (Keeps.push hk.bounded rfl) hbd fun x hx => Or.inl hx
      · rintro x (rfl | ⟨i, -, hx⟩)
        · exact Or.inr hk.next
        · exact hfp x hx
    · have hdigit : (chunks hash).digit l ha ≠ (chunks hash).digit l hb :=
        fun h => heq (UInt32.toNat_inj.mp h)
      have hkids := (Kids.single hca hsa).update
        (bitOf (chunk ha (BITS * l)) ||| bitOf (chunk hb (BITS * l))) (F := fpb)
        (d := (chunk hb (BITS * l)).toNat) (Keeps.refl hbd : Keeps edit fpb H H) hbd (fun i _ _ x hx hxb => Set.disjoint_left.mp hdisj hx hxb) hsb
        (fun x hx => Or.inl hx) (by rw [testBit_setBit _ hcb]; simp)
        (fun i hi => by rw [testBit_setBit _ hcb, decide_eq_false (Ne.symm hi), Bool.or_false])
      have hpush := hkids.push edit hbd hP
      rw [packed_pair hca hcb heq] at hpush
      rw [if_neg hdigit]
      refine ⟨H.next, _, ?_, Keeps.push hbd rfl, _, hpush, ?_⟩
      · rw [if_neg heq]
        rfl
      · rintro x (rfl | ⟨i, -, hx⟩)
        · exact Or.inr (Nat.le_refl _)
        · by_cases hi : i = (chunk hb (BITS * l)).toNat
          · rw [hi, Function.update_self] at hx
            exact Or.inl (Or.inr hx)
          · rw [Function.update_of_ne hi] at hx
            exact Or.inl (Or.inl hx)

/-- The nodes of a stored branch. -/
def branchNodes (a : ℕ) (kids : ℕ → Trie κ α) (fps : ℕ → Set ℕ) : Set ℕ :=
  {x | x = a ∨ x ∈ kidNodes kids fps}

section Branch

variable {H₁ : Heap κ α} {a : ℕ} {e : Option ℕ} {bitmap c : UInt32} {kids : ℕ → Trie κ α}
  {kid : ℕ → ℕ} {fps : ℕ → Set ℕ} {t : Trie κ α} {nc : ℕ}

/-- What a call for the kid at the digit `c` leaves of a branch. -/
theorem Kids.replaced (hkids : Kids hash H P bitmap kids kid fps)
    (hnode : H.node a = some (.bnode e bitmap (packed bitmap kid))) (hbd : H.Bounded)
    (hself : a ∉ kidNodes kids fps) {d : ℕ} (hd : kids d ≠ .nil)
    (hw : Wrote hash P edit (fps d) H t nc H₁) :
    ∃ fps', Kids hash H₁ P bitmap (Function.update kids d t) (Function.update kid d nc) fps' ∧
      (∀ x ∈ kidNodes (Function.update kids d t) fps', x ∈ kidNodes kids fps ∨ H.next ≤ x) ∧
      a ∉ kidNodes (Function.update kids d t) fps' ∧
      H₁.node a = some (.bnode e bitmap (packed bitmap kid)) ∧
      Keeps edit (branchNodes a kids fps) H H₁ := by
  obtain ⟨hk, fp, hst, hfp⟩ := hw
  have hother : ∀ i, i ≠ d → kids i ≠ .nil → ∀ x ∈ fps i, x ∉ fps d := fun i hid hi x hx =>
    Set.disjoint_left.mp (hkids.disj i d hid hi hd) hx
  have hnew : ∀ x ∈ kidNodes (Function.update kids d t) (Function.update fps d fp),
      x ∈ kidNodes kids fps ∨ H.next ≤ x := fun x hx => by
    rcases mem_kidNodes_update hx with hx | hx
    · exact (hfp x hx).imp_left fun hx => ⟨d, hd, hx⟩
    · exact Or.inl hx
  refine ⟨_, hkids.update bitmap hk hbd hother hst hfp ((hkids.bits d).mpr hd) fun _ _ => rfl, hnew,
    fun hx => ?_, hk.node a _ hnode fun hx => absurd ⟨d, hd, hx⟩ hself,
    hk.mono (fun x hx => Or.inl (Or.inr ⟨d, hd, hx⟩)) hbd⟩
  have hlt := hbd a _ hnode
  exact hself ((hnew a hx).resolve_right (by omega))

/-- The kid has been changed in its own nodes. -/
theorem wrote_sameKid (hkids : Kids hash H P bitmap kids kid fps)
    (hnode : H.node a = some (.bnode e bitmap (packed bitmap kid))) (he : P e) (hbd : H.Bounded)
    (hself : a ∉ kidNodes kids fps) {d : ℕ} (hd : kids d ≠ .nil)
    (hw : Wrote hash P edit (fps d) H t (kid d) H₁) :
    Wrote hash P edit (branchNodes a kids fps) H (.branch (Function.update kids d t)) a H₁ := by
  obtain ⟨fps', hkids', hnew, hself', hnode', hkeeps⟩ := hkids.replaced hnode hbd hself hd hw
  rw [Function.update_eq_self] at hkids'
  refine ⟨hkeeps, _, hkids'.branch hnode' he hself', ?_⟩
  rintro x (rfl | hx)
  · exact Or.inl (Or.inl rfl)
  · exact (hnew x hx).imp_left Or.inr

/-- The branch is given another kid. -/
theorem exec_writeKid (hkids : Kids hash H P bitmap kids kid fps)
    (hnode : H.node a = some (.bnode e bitmap (packed bitmap kid))) (he : P e) (hP : P edit)
    (hbd : H.Bounded) (hself : a ∉ kidNodes kids fps) (hc : c < 32) (hd : kids c.toNat ≠ .nil)
    (hw : Wrote hash P edit (fps c.toNat) H t nc H₁) :
    ∃ b H₂ H', exec (editable a edit) H₁ = (.ok b, H₂) ∧
      exec (writeB b (place bitmap c) nc) H₂ = (.ok (), H') ∧
      Wrote hash P edit (branchNodes a kids fps) H (.branch (Function.update kids c.toNat t)) b
        H' := by
  obtain ⟨fps', hkids', hnew, hself', hnode', hkeeps⟩ := hkids.replaced hnode hbd hself hd hw
  obtain ⟨b, H₂, H', hed, hwr, hr⟩ := exec_editable_writeB edit hnode' (place bitmap c) nc
  rw [set_packed hc kid ((hkids.bits _).mpr hd)] at hr
  refine ⟨b, H₂, H', hed, hwr, hkeeps.trans (hr.keeps hkeeps.bounded hnode' rfl rfl (F := {a}) rfl)
    hbd ?_, _, hkids'.rewritten hr hkeeps.bounded he hP hself', ?_⟩
  · rintro x rfl
    exact Or.inl (Or.inl rfl)
  · rintro x (rfl | hx)
    · rcases hr.eq_or_fresh with rfl | rfl
      · exact Or.inl (Or.inl rfl)
      · exact Or.inr hkeeps.next
    · exact (hnew x hx).imp_left Or.inr

end Branch

variable {k : κ} {v : α}

/-- The leaf of a new key is separated from a leaf or a bucket with another hash. -/
theorem exec_newLeaf {t : Trie κ α} {a : ℕ} {fp : Set ℕ} {h : UInt32}
    (hst : Stored hash H P t a fp) (hf : Flat (chunks hash) h t) (hne : h ≠ hash k) (hP : P edit)
    (hbd : H.Bounded) {n l : ℕ} (hn : n + l = 7)
    (hagree : ∀ j < l, (chunks hash).digit j h = (chunks hash).digit j (hash k)) :
    ∃ c H', exec (do
        let leaf ← alloc (.leaf edit (hash k) k v)
        return (← mergeLeaves n edit (BITS * l) a leaf, true)) H = (.ok (c, true), H') ∧
      Wrote hash P edit fp H (fork (chunks hash) (7 - l) l h t (hash k) (.leaf k v)) c H' := by
  have hpush : Keeps edit fp H (H.push (.leaf edit (hash k) k v)) := Keeps.push hbd rfl
  have hsa : Stored hash (H.push (.leaf edit (hash k) k v)) P t a fp :=
    hst.frame fun x hx => H.node_push_of_ne _ (hst.lt_next hbd x hx).ne
  have hsb : Stored hash (H.push (.leaf edit (hash k) k v)) P (.leaf k v) H.next {H.next} :=
    .leaf (H.node_push_self _) hP
  have hdisj : Disjoint fp {H.next} := Set.disjoint_singleton_right.mpr
    fun hx => (hst.lt_next hbd _ hx).false
  obtain ⟨c, H', hexec, hk, fp', hst', hfp'⟩ := exec_mergeLeaves hsa hsb hf
    (show Flat (chunks hash) (hash k) (.leaf k v) from rfl) hdisj hne hP hpush.bounded n l hn hagree
  have hold : ∀ x, (x ∈ fp ∪ {H.next} ∨ H.next + 1 ≤ x) → x ∈ fp ∨ H.next ≤ x := by
    rintro x ((hx | rfl) | hx)
    · exact Or.inl hx
    · exact Or.inr (Nat.le_refl _)
    · exact Or.inr (by omega)
  rw [show 7 - l = n by omega]
  refine ⟨c, H', ?_, hpush.trans hk hbd fun x hx => hold x (Or.inl hx), fp', hst',
    fun x hx => hold x (hfp' x hx)⟩
  exact (exec_bind_ok (exec_alloc _ _) _).trans (exec_bind_ok hexec _)

variable [DecidableEq κ] [DecidableEq α]

theorem exec_assoc_leaf {a : ℕ} {e : Option ℕ} {k₀ : κ} {v₀ : α}
    (hnode : H.node a = some (.leaf e (hash k₀) k₀ v₀)) (he : P e) (hP : P edit) (hbd : H.Bounded)
    {n l : ℕ} (hn : n + l = 7) (hagree : Agrees (chunks hash) l (hash k) (.leaf k₀ v₀)) :
    ∃ a' H', exec (PMap.assoc (n + 1) (some a) (BITS * l) (hash k) k v edit) H =
        (.ok (a', ((HashTrie.leaf k₀ v₀).lookup (chunks hash) l k).isNone), H') ∧
      Wrote hash P edit {a} H ((HashTrie.leaf k₀ v₀).assoc (chunks hash) l k v) a' H' := by
  rw [PMap.assoc, exec_load hnode, HashTrie.assoc, HashTrie.lookup]
  by_cases hk : k₀ = k
  · subst hk
    rw [if_pos rfl, if_pos rfl]
    by_cases hv : v₀ = v
    · subst hv
      refine ⟨a, H, ?_, Keeps.refl hbd, _, .leaf hnode he, fun x hx => Or.inl hx⟩
      simp
    · have hr : ∃ b H', exec (if owns edit e = true then do
              store a (.leaf e (hash k₀) k₀ v)
              pure (a, false)
            else do
              return (← alloc (.leaf edit (hash k₀) k₀ v), false)) H = (.ok (b, false), H') ∧
          Rewritten edit H a e (.leaf e (hash k₀) k₀ v) b H' := by
        by_cases ho : owns edit e = true
        · rw [if_pos ho]
          exact ⟨a, _, rfl, Or.inl ⟨ho, rfl, rfl⟩⟩
        · rw [if_neg ho]
          exact ⟨H.next, _, rfl, Or.inr ⟨rfl, rfl⟩⟩
      obtain ⟨b, H', hexec, hr⟩ := hr
      obtain ⟨e', he', hnode'⟩ := hr.node
      refine ⟨b, H', ?_, hr.wrote hbd hnode rfl rfl rfl
        (.leaf hnode' (Rewritten.token he hP he')) fun x hx => Or.inl hx⟩
      simpa [hv] using hexec
  · rw [if_neg hk, if_neg hk]
    by_cases hh : hash k₀ = hash k
    · have hst : Stored hash (H.push (.cnode edit (hash k) [k₀, k] [v₀, v])) P
          (.bucket (hash k) ([k₀, k].zip [v₀, v])) H.next {H.next} :=
        .bucket (H.node_push_self _) hP rfl
      refine ⟨H.next, H.push (.cnode edit (hash k) [k₀, k] [v₀, v]), ?_, Keeps.push hbd rfl,
        {H.next}, ?_, fun x hx => Or.inr (Nat.le_of_eq (Eq.symm hx))⟩
      · simp only [hh, hk, and_false, ↓reduceIte]
        rfl
      · rw [if_pos (show (chunks hash).hash k₀ = (chunks hash).hash k from hh)]
        exact hst
    · obtain ⟨c, H', hexec, hw⟩ := exec_newLeaf (k := k) (v := v) (.leaf hnode he)
        (show Flat (chunks hash) (hash k₀) (.leaf k₀ v₀) from rfl) hh hP hbd hn fun j hj => hagree j hj
      refine ⟨c, H', ?_, ?_⟩
      · simp only [hh, hk, and_false, ↓reduceIte]
        exact hexec
      · rw [if_neg (show (chunks hash).hash k₀ ≠ (chunks hash).hash k from hh)]
        exact hw

theorem exec_assoc_cnode {a : ℕ} {e : Option ℕ} {h : UInt32} {keys : List κ} {vals : List α}
    (hnode : H.node a = some (.cnode e h keys vals)) (he : P e) (hlen : keys.length = vals.length)
    (hP : P edit) (hbd : H.Bounded) {n l : ℕ} (hn : n + l = 7)
    (hc : (HashTrie.bucket h (keys.zip vals)).Canonical (chunks hash) l)
    (hagree : Agrees (chunks hash) l (hash k) (.bucket h (keys.zip vals))) :
    ∃ a' H', exec (PMap.assoc (n + 1) (some a) (BITS * l) (hash k) k v edit) H =
        (.ok (a', ((HashTrie.bucket h (keys.zip vals)).lookup (chunks hash) l k).isNone), H') ∧
      Wrote hash P edit {a} H ((HashTrie.bucket h (keys.zip vals)).assoc (chunks hash) l k v) a' H' := by
  have hst : Stored hash H P (.bucket h (keys.zip vals)) a {a} := .bucket hnode he hlen
  have hnodup : keys.Nodup := by
    have hkeys := hc.2.1
    rwa [List.map_fst_zip hlen.le] at hkeys
  rw [PMap.assoc, exec_load hnode, HashTrie.assoc, HashTrie.lookup]
  by_cases hh : h = hash k
  · have hh' : h = (chunks hash).hash k := hh
    rw [if_pos hh', if_pos hh']
    rcases hi : keys.idxOf? k with _ | i
    · obtain ⟨b, H₁, H', hed, hwr, hr⟩ := exec_editable_writeC edit hnode
        (fun keys => keys ++ [k]) fun vals => vals ++ [v]
      obtain ⟨e', he', hnode'⟩ := hr.node
      have hlen' : (keys ++ [k]).length = (vals ++ [v]).length := by simp [hlen]
      refine ⟨b, H', ?_, hr.wrote hbd hnode rfl rfl rfl (setEntry_append hlen hi v ▸
        .bucket hnode' (Rewritten.token he hP he') hlen') fun x hx => Or.inl hx⟩
      rw [find?_zip_none hi]
      simp only [hh, ne_eq, not_true_eq_false, ↓reduceIte, hi]
      exact (exec_bind_ok hed _).trans (exec_bind_ok hwr _)
    · rw [find?_zip hlen hnodup hi]
      by_cases hv : vals[i]? = some v
      · have hmem : (k, v) ∈ keys.zip vals := by
          have hfind := find?_zip hlen hnodup hi
          rw [hv, Option.map_eq_some_iff] at hfind
          obtain ⟨x, hx, hxv⟩ := hfind
          have hxk : x.1 = k := by simpa using List.find?_some hx
          exact (Prod.ext hxk hxv : x = (k, v)) ▸ List.mem_of_find?_eq_some hx
        refine ⟨a, H, ?_, Keeps.refl hbd, {a}, ?_, fun x hx => Or.inl hx⟩
        · simp only [hh, ne_eq, not_true_eq_false, ↓reduceIte, hi, hv]
          rfl
        · rw [setEntry_of_find? hc.2.1 hmem]
          exact hst
      · obtain ⟨b, H₁, H', hed, hwr, hr⟩ := exec_editable_writeC edit hnode id
          fun vals => vals.set i v
        obtain ⟨e', he', hnode'⟩ := hr.node
        refine ⟨b, H', ?_, hr.wrote hbd hnode rfl rfl rfl (setEntry_set hlen hnodup hi v ▸
          .bucket hnode' (Rewritten.token he hP he') (by simp [hlen])) fun x hx => Or.inl hx⟩
        obtain ⟨hlt, -⟩ := List.findIdx?_eq_some_iff_getElem.mp hi
        have hsome : vals[i]?.isNone = false := by
          rw [List.getElem?_eq_getElem (hlen ▸ hlt)]
          rfl
        simp only [hh, ne_eq, not_true_eq_false, ↓reduceIte, hi, hv, hsome]
        exact (exec_bind_ok hed _).trans (exec_bind_ok hwr _)
  · have hh' : h ≠ (chunks hash).hash k := hh
    obtain ⟨c, H', hexec, hw⟩ := exec_newLeaf (k := k) (v := v) hst
      (show Flat (chunks hash) h (.bucket h (keys.zip vals)) from rfl) hh hP hbd hn
      (hagree.of_bucket hc)
    rw [if_neg hh', if_neg hh']
    refine ⟨c, H', ?_, hw⟩
    simp only [ne_eq, hh, not_false_eq_true, ↓reduceIte]
    exact hexec

section Branch

variable {a : ℕ} {e : Option ℕ} {bitmap : UInt32} {kids : ℕ → Trie κ α} {kid : ℕ → ℕ}
  {fps : ℕ → Set ℕ}

/-- The insertion into a branch, given the insertion into its kids. -/
theorem exec_assoc_bnode (hkids : Kids hash H P bitmap kids kid fps)
    (hnode : H.node a = some (.bnode e bitmap (packed bitmap kid))) (he : P e) (hP : P edit)
    (hself : a ∉ kidNodes kids fps) (hbd : H.Bounded) {n l : ℕ}
    (ih : ∀ d, kids d ≠ .nil → (chunks hash).digit l (hash k) = d →
      ∃ a' H', exec (PMap.assoc n (some (kid d)) (BITS * (l + 1)) (hash k) k v edit) H =
          (.ok (a', ((kids d).lookup (chunks hash) (l + 1) k).isNone), H') ∧
        Wrote hash P edit (fps d) H ((kids d).assoc (chunks hash) (l + 1) k v) a' H') :
    ∃ a' H', exec (PMap.assoc (n + 1) (some a) (BITS * l) (hash k) k v edit) H =
        (.ok (a', ((HashTrie.branch kids).lookup (chunks hash) l k).isNone), H') ∧
      Wrote hash P edit (branchNodes a kids fps) H
        ((HashTrie.branch kids).assoc (chunks hash) l k v) a' H' := by
  have hlt := chunk_lt (hash k) (BITS * l)
  rw [PMap.assoc, exec_load hnode, HashTrie.assoc, HashTrie.lookup,
    show (chunks hash).digit l ((chunks hash).hash k) = (chunk (hash k) (BITS * l)).toNat from rfl]
  by_cases hbit : bitmap &&& bitOf (chunk (hash k) (BITS * l)) ≠ 0
  · have htest := (land_bitOf_ne_zero hlt).mp hbit
    have hnil := (hkids.bits _).mp htest
    obtain ⟨nc, H₁, hexec, hw⟩ := ih _ hnil rfl
    by_cases hchild : nc = kid (chunk (hash k) (BITS * l)).toNat
    · refine ⟨a, H₁, ?_, wrote_sameKid hkids hnode he hbd hself hnil (hchild ▸ hw)⟩
      simp only [if_pos hbit, getElem?_packed hlt kid htest]
      refine (exec_bind_ok hexec _).trans ?_
      simp only [if_pos hchild]
      rfl
    · obtain ⟨b, H₂, H', hed, hwr, hw'⟩ := exec_writeKid hkids hnode he hP hbd hself hlt hnil hw
      refine ⟨b, H', ?_, hw'⟩
      simp only [if_pos hbit, getElem?_packed hlt kid htest]
      refine (exec_bind_ok hexec _).trans ?_
      simp only [if_neg hchild]
      exact (exec_bind_ok hed _).trans (exec_bind_ok hwr _)
  · have htest : bitmap.toNat.testBit (chunk (hash k) (BITS * l)).toNat = false :=
      Bool.eq_false_iff.mpr fun h => hbit ((land_bitOf_ne_zero hlt).mpr h)
    have hnil : kids (chunk (hash k) (BITS * l)).toNat = .nil := by
      by_contra h
      exact Bool.eq_false_iff.mp htest ((hkids.bits _).mpr h)
    -- the leaf of the new key, and then the branch in place of the old one
    have hpush : Keeps edit ∅ H (H.push (.leaf edit (hash k) k v)) := Keeps.push hbd rfl
    have hleaf : Stored hash (H.push (.leaf edit (hash k) k v)) P (.leaf k v) H.next {H.next} :=
      .leaf (H.node_push_self _) hP
    have hkids' := hkids.update (bitmap ||| bitOf (chunk (hash k) (BITS * l)))
      (d := (chunk (hash k) (BITS * l)).toNat) hpush hbd (fun _ _ _ _ _ hx => hx) hleaf
      (fun x hx => Or.inr (Nat.le_of_eq (Eq.symm hx)))
      (by rw [testBit_setBit _ hlt, decide_eq_true rfl, Bool.or_true])
      (fun i hi => by rw [testBit_setBit _ hlt, decide_eq_false (Ne.symm hi), Bool.or_false])
    have hnew : ∀ x ∈ kidNodes (Function.update kids (chunk (hash k) (BITS * l)).toNat (.leaf k v))
        (Function.update fps (chunk (hash k) (BITS * l)).toNat {H.next}),
        x ∈ kidNodes kids fps ∨ H.next ≤ x := fun x hx =>
      (mem_kidNodes_update hx).symm.imp_right fun hx => Nat.le_of_eq (Eq.symm hx)
    have hself' : a ∉ kidNodes (Function.update kids (chunk (hash k) (BITS * l)).toNat (.leaf k v))
        (Function.update fps (chunk (hash k) (BITS * l)).toNat {H.next}) := fun hx => by
      have hlt' := hbd a _ hnode
      exact hself ((hnew a hx).resolve_right (by omega))
    have hnode' : (H.push (.leaf edit (hash k) k v)).node a = some (.bnode e bitmap (packed bitmap kid)) :=
      (H.node_push_of_ne _ (hbd a _ hnode).ne).trans hnode
    obtain ⟨b, H', hexec, hr⟩ := exec_rewrite edit a e
      (H.push (.leaf edit (hash k) k v)) (bitmap ||| bitOf (chunk (hash k) (BITS * l)))
      (packed (bitmap ||| bitOf (chunk (hash k) (BITS * l)))
        (Function.update kid (chunk (hash k) (BITS * l)).toNat H.next)) fun b => (b, true)
    refine ⟨b, H', ?_, ?_⟩
    · simp only [if_neg hbit, hnil, HashTrie.lookup, Option.isNone_none]
      refine (exec_bind_ok (exec_alloc _ _) _).trans ?_
      rw [insert_packed hlt kid htest]
      exact hexec
    · rw [hnil]
      refine ⟨(Keeps.push hbd rfl : Keeps edit (branchNodes a kids fps) H _).trans
        (hr.keeps hpush.bounded hnode' rfl rfl (F := {a}) rfl) hbd ?_, _,
        hkids'.rewritten hr hpush.bounded he hP hself', ?_⟩
      · rintro x rfl
        exact Or.inl (Or.inl rfl)
      · rintro x (rfl | hx)
        · rcases hr.eq_or_fresh with rfl | rfl
          · exact Or.inl (Or.inl rfl)
          · exact Or.inr hpush.next
        · exact (hnew x hx).imp_left Or.inr

end Branch

/-- **Insertion.** The call stores the trie with the new entry, says whether the key is new, and keeps
all nodes but the transient's own nodes of this trie. -/
theorem exec_assoc {t : Trie κ α} {a : ℕ} {fp : Set ℕ} (hst : Stored hash H P t a fp) (hP : P edit)
    (hbd : H.Bounded) (n l : ℕ) (hn : n + l = 7) (hc : t.Canonical (chunks hash) l)
    (hagree : Agrees (chunks hash) l (hash k) t) :
    ∃ a' H', exec (PMap.assoc (n + 1) (some a) (BITS * l) (hash k) k v edit) H =
        (.ok (a', (t.lookup (chunks hash) l k).isNone), H') ∧
      Wrote hash P edit fp H (t.assoc (chunks hash) l k v) a' H' := by
  induction hst generalizing n l with
  | leaf hnode he => exact exec_assoc_leaf hnode he hP hbd hn hagree
  | bucket hnode he hlen => exact exec_assoc_cnode hnode he hlen hP hbd hn hc hagree
  | @branch a e bitmap kids kid fps hnode he hbits hkids hself hdisj ih =>
    have hl : l < 7 := hc.1
    obtain ⟨n, rfl⟩ : ∃ m, n = m + 1 := ⟨n - 1, by omega⟩
    refine exec_assoc_bnode ⟨hbits, hkids, hdisj⟩ hnode he hP (fun ⟨i, hi, hx⟩ => hself i hi hx) hbd
      fun d hd hdigit => ?_
    exact ih d hd n (l + 1) (by omega) (hc.2.2 d).1 (hdigit ▸ hagree.kid hc)

end Insertion

end PMap

end SalRuntime
