import SalRuntime.Pmap.Insertion

/-!
# Removal from a stored trie

A call of `dissoc` leaves the trie without the key, or nothing if the key was the last one. A branch
that keeps one leaf or bucket only is replaced by it, which is what pruning does to a trie.

## Main definitions

* `Left` — the outcome of a call that may leave nothing.

## Main results

* `exec_dissocKid_none`, `exec_dissocKid_some` — a kid of a branch is gone, or has become another
  trie.
* `exec_dissoc` — the call leaves the trie without the key and keeps all other nodes.
-/

namespace SalRuntime

namespace PMap

variable {κ α : Type}

open Effect HashTrie

/-! ### Removal -/

/-- A call with the token `edit` has left the trie `t`, at an address unless it is empty. -/
def Left (hash : κ → UInt32) (P : Option ℕ → Prop) (edit : Option ℕ) (F : Set ℕ) (H : Heap κ α)
    (t : Trie κ α) (H' : Heap κ α) : Option ℕ → Prop
  | none => Keeps edit F H H' ∧ t = .nil
  | some a => Wrote hash P edit F H t a H'

section Removal

variable {hash : κ → UInt32} {H H₁ : Heap κ α} {P : Option ℕ → Prop} {edit e : Option ℕ} {a : ℕ}
  {bitmap c : UInt32} {kids : ℕ → Trie κ α} {kid : ℕ → ℕ} {fps : ℕ → Set ℕ} {t : Trie κ α}

theorem slots_eq (h : ∀ i, bitmap.toNat.testBit i = true ↔ kids i ≠ .nil) :
    slots (chunks hash) kids = bits bitmap :=
  List.filter_congr fun i _ => by
    rw [Bool.eq_iff_iff, Bool.not_eq_true', isNil_eq_false_iff]
    exact (h i).symm

theorem Stored.wrote {fp F : Set ℕ} (hst : Stored hash H₁ P t a fp) (hk : Keeps edit F H H₁)
    (hfp : ∀ x ∈ fp, x ∈ F) : Wrote hash P edit F H t a H₁ :=
  ⟨hk, fp, hst, fun x hx => Or.inl (hfp x hx)⟩

theorem survivor_of_ne {arr : List ℕ} {pos : ℕ} (h : arr.length ≠ 2) :
    survivor H arr pos = .ok none := by
  rw [survivor, if_neg h]
  rfl

theorem survivor_eq (hc : c < 32) (hbit : bitmap.toNat.testBit c.toNat = true) {i : ℕ}
    (hi : bitsBut bitmap c.toNat = [i]) {n : Node κ α} (hn : H.node (kid i) = some n) :
    survivor H (packed bitmap kid) (place bitmap c) =
      .ok (if n.isB then none else some (kid i)) := by
  have hlen : (packed bitmap kid).length = 2 := by
    rw [length_packed hc kid hbit, hi]
    rfl
  rw [survivor, if_pos hlen]
  simp only [getElem?_packed_other hc kid hbit hi, load_eq hn]
  rfl

theorem exec_survivor {β : Type} {arr : List ℕ} {pos : ℕ} {o : Option ℕ}
    (h : survivor H arr pos = .ok o) (f : Option ℕ → Calls κ α β) :
    exec (get >>= fun H => liftM (survivor H arr pos) >>= f) H = exec (f o) H := by
  rw [exec_bind_ok (exec_get H), exec_bind_ok ((exec_lift _ H).trans (by rw [h]))]

theorem kidNodes_erase (kids : ℕ → Trie κ α) (fps : ℕ → Set ℕ) (d : ℕ) :
    ∀ x ∈ kidNodes (Function.update kids d .nil) fps, x ∈ kidNodes kids fps := by
  rintro x ⟨i, hi, hx⟩
  by_cases hid : i = d
  · rw [hid, Function.update_self] at hi
    exact absurd rfl hi
  · rw [Function.update_of_ne hid] at hi
    exact ⟨i, hi, hx⟩

/-- The kid at the digit `c` is taken out of a branch. -/
theorem Kids.erased (hkids : Kids hash H P bitmap kids kid fps) (hc : c < 32)
    (hd : kids c.toNat ≠ .nil) (hk : Keeps edit (fps c.toNat) H H₁) :
    Kids hash H₁ P (bitmap &&& ~~~bitOf c) (Function.update kids c.toNat .nil) kid fps :=
  hkids.erase hk (fun i hid hi _ hx => Set.disjoint_left.mp (hkids.disj i _ hid hi hd) hx)
    (by rw [testBit_clearBit _ hc, decide_eq_true rfl, Bool.not_true, Bool.and_false])
    fun i hid => by rw [testBit_clearBit _ hc, decide_eq_false hid.symm, Bool.not_false, Bool.and_true]

theorem exec_clearBit (hkids : Kids hash H P bitmap kids kid fps)
    (hnode : H.node a = some (.bnode e bitmap (packed bitmap kid))) (he : P e) (hP : P edit)
    (hself : a ∉ kidNodes kids fps) (hc : c < 32) (hd : kids c.toNat ≠ .nil)
    (hk : Keeps edit (fps c.toNat) H H₁) (hbd : H.Bounded) :
    ∃ b H', exec (if owns edit e = true then do
          store a (.bnode e (bitmap &&& ~~~bitOf c) ((packed bitmap kid).eraseIdx (place bitmap c)))
          pure (some a)
        else do
          return some (← alloc (.bnode edit (bitmap &&& ~~~bitOf c)
            ((packed bitmap kid).eraseIdx (place bitmap c))))) H₁ = (.ok (some b), H') ∧
      Wrote hash P edit (branchNodes a kids fps) H (.branch (Function.update kids c.toNat .nil)) b
        H' := by
  have hnode₁ : H₁.node a = some (.bnode e bitmap (packed bitmap kid)) :=
    hk.node a _ hnode fun hx => absurd ⟨_, hd, hx⟩ hself
  have hsub := kidNodes_erase kids fps c.toNat
  obtain ⟨b, H', hexec, hr⟩ := exec_rewrite edit a e H₁
    (bitmap &&& ~~~bitOf c) ((packed bitmap kid).eraseIdx (place bitmap c)) some
  refine ⟨b, H', hexec, ?_⟩
  rw [eraseIdx_packed hc kid ((hkids.bits _).mpr hd)] at hr
  refine ⟨(hk.mono (fun x hx => Or.inl (Or.inr ⟨_, hd, hx⟩)) hbd).trans
    (hr.keeps hk.bounded hnode₁ rfl rfl (F := {a}) rfl) hbd ?_, _,
    (hkids.erased hc hd hk).rewritten hr hk.bounded he hP fun hx => hself (hsub a hx), ?_⟩
  · rintro x rfl
    exact Or.inl (Or.inl rfl)
  · rintro x (rfl | hx)
    · rcases hr.eq_or_fresh with rfl | rfl
      · exact Or.inl (Or.inl rfl)
      · exact Or.inr hk.next
    · exact Or.inl (Or.inr (hsub x hx))

/-- The only kid of a branch is removed, or one of two, or one of several. -/
theorem exec_dissocKid_none (hkids : Kids hash H P bitmap kids kid fps)
    (hnode : H.node a = some (.bnode e bitmap (packed bitmap kid))) (he : P e) (hP : P edit)
    (hbd : H.Bounded) (hself : a ∉ kidNodes kids fps) (hc : c < 32) (hd : kids c.toNat ≠ .nil)
    (hk : Keeps edit (fps c.toNat) H H₁) (child : ℕ) :
    ∃ o H', exec (dissocKid a child (bitOf c) (place bitmap c) edit none) H₁ = (.ok o, H') ∧
      Left hash P edit (branchNodes a kids fps) H
        (prune (chunks hash) (Function.update kids c.toNat .nil)) H' o := by
  have hbit := (hkids.bits _).mpr hd
  have hnode₁ : H₁.node a = some (.bnode e bitmap (packed bitmap kid)) :=
    hk.node a _ hnode fun hx => absurd ⟨_, hd, hx⟩ hself
  have hkids' := hkids.erased hc hd hk
  have hslots : slots (chunks hash) (Function.update kids c.toNat .nil) = bitsBut bitmap c.toNat := by
    rw [slots_eq hkids'.bits, bits_clearBit hc]
  have hlen := length_packed hc kid hbit
  obtain ⟨b, H', hclear, hw⟩ := exec_clearBit hkids hnode he hP hself hc hd hk hbd
  rw [dissocKid, if_neg (by simp), exec_load hnode₁, prune, hslots]
  rcases hrest : bitsBut bitmap c.toNat with _ | ⟨i, _ | ⟨j, is⟩⟩
  · rw [hrest] at hlen
    refine ⟨none, H₁, ?_, hk.mono (fun x hx => Or.inl (Or.inr ⟨_, hd, hx⟩)) hbd, rfl⟩
    simp only [hlen, List.length_nil, Nat.zero_add, ↓reduceIte]
    rfl
  · rw [hrest] at hlen
    have hi : i ∈ slots (chunks hash) (Function.update kids c.toNat .nil) := by
      rw [hslots, hrest]
      exact List.mem_cons_self
    have hnil := (mem_slots.mp hi).2
    have hst := hkids'.stored i hnil
    obtain ⟨n, hn, -, hkind⟩ := hst.root
    have hsurv := survivor_eq (H := H₁) hc hbit hrest hn
    have hne : (packed bitmap kid).length ≠ 1 := by
      rw [hlen]
      exact Nat.succ_ne_self 1
    cases hb : (Function.update kids c.toNat .nil i).isBranch with
    | true =>
      rw [hkind, hb] at hsurv
      refine ⟨some b, H', ?_, ?_⟩
      · simp only [if_neg hne]
        rw [exec_survivor hsurv]
        exact hclear
      · simp only [hb, ↓reduceIte]
        exact hw
    | false =>
      rw [hkind, hb] at hsurv
      refine ⟨some (kid i), H₁, ?_, ?_⟩
      · simp only [if_neg hne]
        rw [exec_survivor hsurv]
        rfl
      · simp only [hb, Bool.false_eq_true, ↓reduceIte]
        exact hst.wrote (hk.mono (fun x hx => Or.inl (Or.inr ⟨_, hd, hx⟩)) hbd)
          fun x hx => Or.inr (kidNodes_erase kids fps c.toNat x ⟨i, hnil, hx⟩)
  · rw [hrest] at hlen
    have hne : (packed bitmap kid).length ≠ 1 := by
      rw [hlen, List.length_cons]
      omega
    have hne' : (packed bitmap kid).length ≠ 2 := by
      rw [hlen, List.length_cons, List.length_cons]
      omega
    refine ⟨some b, H', ?_, hw⟩
    simp only [if_neg hne]
    rw [exec_survivor (survivor_of_ne hne')]
    exact hclear

/-- A kid of a branch has become another trie. -/
theorem exec_dissocKid_some (hkids : Kids hash H P bitmap kids kid fps)
    (hnode : H.node a = some (.bnode e bitmap (packed bitmap kid))) (he : P e) (hP : P edit)
    (hbd : H.Bounded) (hself : a ∉ kidNodes kids fps) (hc : c < 32) (hd : kids c.toNat ≠ .nil)
    (hsolid : Solid (chunks hash) kids) {nc : ℕ} (hw : Wrote hash P edit (fps c.toNat) H t nc H₁) :
    ∃ o H', exec (dissocKid a (kid c.toNat) (bitOf c) (place bitmap c) edit (some nc)) H₁ =
        (.ok o, H') ∧
      Left hash P edit (branchNodes a kids fps) H
        (prune (chunks hash) (Function.update kids c.toNat t)) H' o := by
  obtain ⟨hk, fp, hst, hfp⟩ := id hw
  rw [dissocKid]
  by_cases hchild : nc = kid c.toNat
  · subst hchild
    have hkind : (kids c.toNat).isBranch → t.isBranch := by
      obtain ⟨n, hn, -, hb⟩ := (hkids.stored _ hd).root
      obtain ⟨n', hn', -, hb'⟩ := hk.kind _ n hn
      obtain ⟨n'', hn'', -, hb''⟩ := hst.root
      rw [hn'] at hn''
      cases hn''
      rw [← hb, ← hb', hb'']
      exact id
    refine ⟨some a, H₁, by rw [if_pos rfl]; rfl, ?_⟩
    rw [prune_of_solid (hsolid.update hst.ne_nil hkind)]
    exact wrote_sameKid hkids hnode he hbd hself hd hw
  · have hbit := (hkids.bits _).mpr hd
    have hnode₁ : H₁.node a = some (.bnode e bitmap (packed bitmap kid)) :=
      hk.node a _ hnode fun hx => absurd ⟨_, hd, hx⟩ hself
    have hslots : slots (chunks hash) (Function.update kids c.toNat t) = bits bitmap :=
      slots_eq fun i => by
        rw [hkids.bits i]
        by_cases hi : i = c.toNat
        · subst hi
          rw [Function.update_self]
          exact iff_of_true hd hst.ne_nil
        · rw [Function.update_of_ne hi]
    have hbits := bits_of_bit (UInt32.lt_iff_toNat_lt.mp hc) hbit
    have hlen := length_packed hc kid hbit
    obtain ⟨n, hn, -, hb⟩ := hst.root
    rw [if_neg fun h => hchild (Option.some.inj h), exec_load hnode₁]
    by_cases hone : (packed bitmap kid).length = 1 ∧ t.isBranch = false
    · have hrest : bitsBut bitmap c.toNat = [] := List.eq_nil_of_length_eq_zero (by omega)
      obtain ⟨hbelow, habove⟩ := List.append_eq_nil_iff.mp hrest
      refine ⟨some nc, H₁, ?_, ?_⟩
      · dsimp only
        rw [exec_load hn, hb, hone.2, if_pos ⟨hone.1, rfl⟩]
        rfl
      · rw [prune, hslots, hbits, hbelow, habove]
        simp only [List.nil_append, Function.update_self, hone.2, Bool.false_eq_true, ↓reduceIte]
        refine ⟨hk.mono (fun x hx => Or.inl (Or.inr ⟨_, hd, hx⟩)) hbd, fp, hst, fun x hx => ?_⟩
        exact (hfp x hx).imp_left fun hx => Or.inr ⟨_, hd, hx⟩
    · obtain ⟨b, H₂, H', hed, hwr, hw'⟩ := exec_writeKid hkids hnode he hP hbd hself hc hd hw
      refine ⟨some b, H', ?_, ?_⟩
      · dsimp only
        rw [exec_load hn, hb, if_neg fun h => hone ⟨h.1, by simpa using h.2⟩]
        exact (exec_bind_ok hed _).trans (exec_bind_ok hwr _)
      · have hsolid' : Solid (chunks hash) (Function.update kids c.toNat t) := by
          have hlt : c.toNat < (chunks hash).width := UInt32.lt_iff_toNat_lt.mp hc
          rcases hrest : bitsBut bitmap c.toNat with _ | ⟨i, is⟩
          · rw [hrest] at hlen
            refine Or.inl ⟨c.toNat, hlt, ?_⟩
            rw [Function.update_self]
            by_contra hnot
            exact hone ⟨hlen, by simpa using hnot⟩
          · obtain ⟨hne, hi⟩ := mem_bitsBut hc (hrest ▸ List.mem_cons_self : i ∈ bitsBut bitmap c.toNat)
            refine Or.inr ⟨i, c.toNat, hne, lt_of_testBit hi, hlt, ?_, ?_⟩
            · rw [Function.update_of_ne hne]
              exact (hkids.bits i).mp hi
            · rw [Function.update_self]
              exact hst.ne_nil
        rw [prune_of_solid hsolid']
        exact hw'

variable [DecidableEq κ] {k : κ}

theorem exec_dissoc_cnode {h : UInt32} {keys : List κ} {vals : List α}
    (hnode : H.node a = some (.cnode e h keys vals)) (he : P e) (hlen : keys.length = vals.length)
    (hP : P edit) (hbd : H.Bounded) (n l : ℕ)
    (hc : (HashTrie.bucket h (keys.zip vals)).Canonical (chunks hash) l) :
    ∃ o H', exec (PMap.dissoc (n + 1) (some a) (BITS * l) (hash k) k edit) H =
        (.ok (o, ((HashTrie.bucket h (keys.zip vals)).lookup (chunks hash) l k).isSome), H') ∧
      Left hash P edit {a} H ((HashTrie.bucket h (keys.zip vals)).dissoc (chunks hash) l k) H' o := by
  have hst : Stored hash H P (.bucket h (keys.zip vals)) a {a} := .bucket hnode he hlen
  obtain ⟨htwo, hnodup, hhash⟩ := id hc
  rw [List.map_fst_zip hlen.le] at hnodup
  rw [List.length_zip, ← hlen, Nat.min_self] at htwo
  have hsame : (HashTrie.bucket h (keys.zip vals)).lookup (chunks hash) l k = none →
      ∃ o H', exec (pure (some a, false)) H = ((.ok (o, ((HashTrie.bucket h (keys.zip vals)).lookup
          (chunks hash) l k).isSome), H') : Except Fault _ × _) ∧
        Left hash P edit {a} H ((HashTrie.bucket h (keys.zip vals)).dissoc (chunks hash) l k) H' o := by
    intro hnone
    rw [dissoc_of_lookup hc hnone, hnone]
    exact ⟨some a, H, rfl, hst.wrote (Keeps.refl hbd) fun x hx => hx⟩
  rw [PMap.dissoc, exec_load hnode]
  by_cases hh : h = hash k
  · have hh' : h = (chunks hash).hash k := hh
    simp only [hh, ne_eq, not_true_eq_false, ↓reduceIte]
    rw [← hh]
    rcases hi : keys.idxOf? k with _ | i
    · exact hsame (by rw [HashTrie.lookup, find?_zip_none hi, Option.map_none, ite_self])
    · obtain ⟨hlt, -⟩ := List.findIdx?_eq_some_iff_getElem.mp hi
      have hsome : ((HashTrie.bucket h (keys.zip vals)).lookup (chunks hash) l k).isSome = true := by
        rw [HashTrie.lookup, if_pos hh', find?_zip hlen hnodup hi,
          List.getElem?_eq_getElem (hlen ▸ hlt)]
        rfl
      rw [hsome, HashTrie.dissoc, if_pos hh', filter_zip hlen hnodup hi]
      by_cases htwo' : keys.length = 2
      · obtain ⟨x, y, rfl⟩ := List.length_eq_two.mp htwo'
        obtain ⟨p, q, rfl⟩ := List.length_eq_two.mp (hlen.symm.trans htwo')
        have hx : hash x = h := hhash (x, p) List.mem_cons_self
        have hy : hash y = h := hhash (y, q) (List.mem_cons_of_mem _ List.mem_cons_self)
        have hi' : i = 0 ∨ i = 1 := by
          rw [htwo'] at hlt
          omega
        rcases hi' with rfl | rfl
        · refine ⟨some H.next, H.push (.leaf edit h y q), rfl, Keeps.push hbd rfl, {H.next}, ?_,
            fun z hz => Or.inr (Nat.le_of_eq (Eq.symm hz))⟩
          exact .leaf (hy ▸ H.node_push_self _) hP
        · refine ⟨some H.next, H.push (.leaf edit h x p), rfl, Keeps.push hbd rfl, {H.next}, ?_,
            fun z hz => Or.inr (Nat.le_of_eq (Eq.symm hz))⟩
          exact .leaf (hx ▸ H.node_push_self _) hP
      · obtain ⟨b, H₁, H', hed, hwr, hr⟩ := exec_editable_writeC edit hnode
          (fun keys => keys.eraseIdx i) fun vals => vals.eraseIdx i
        obtain ⟨e', he', hnode'⟩ := hr.node
        have hlen' : (keys.eraseIdx i).length = (vals.eraseIdx i).length := by
          rw [List.length_eraseIdx_of_lt hlt, List.length_eraseIdx_of_lt (hlen ▸ hlt), hlen]
        have hlong : 2 ≤ ((keys.eraseIdx i).zip (vals.eraseIdx i)).length := by
          rw [List.length_zip, ← hlen', Nat.min_self, List.length_eraseIdx_of_lt hlt]
          omega
        refine ⟨some b, H', ?_, ?_⟩
        · simp only [if_neg htwo']
          exact (exec_bind_ok hed _).trans (exec_bind_ok hwr _)
        · rw [shrink_of_le h hlong]
          exact hr.wrote hbd hnode rfl rfl rfl (.bucket hnode' (Rewritten.token he hP he') hlen')
            fun x hx => Or.inl hx
  · simp only [ne_eq, hh, not_false_eq_true, ↓reduceIte]
    exact hsame (if_neg hh)

theorem exec_dissoc_leaf {k₀ : κ} {v₀ : α} (hnode : H.node a = some (.leaf e (hash k₀) k₀ v₀))
    (he : P e) (hbd : H.Bounded) (n l : ℕ) :
    ∃ o H', exec (PMap.dissoc (n + 1) (some a) (BITS * l) (hash k) k edit) H =
        (.ok (o, ((HashTrie.leaf k₀ v₀).lookup (chunks hash) l k).isSome), H') ∧
      Left hash P edit {a} H ((HashTrie.leaf k₀ v₀).dissoc (chunks hash) l k) H' o := by
  rw [PMap.dissoc, exec_load hnode, HashTrie.dissoc, HashTrie.lookup]
  by_cases hk : k₀ = k
  · subst hk
    refine ⟨none, H, ?_, ?_⟩
    · simp only [and_self, ↓reduceIte, Option.isSome_some]
      rfl
    · rw [if_pos rfl]
      exact ⟨Keeps.refl hbd, rfl⟩
  · refine ⟨some a, H, ?_, ?_⟩
    · simp only [hk, and_false, ↓reduceIte, Option.isSome_none]
      rfl
    · rw [if_neg hk]
      exact (Stored.leaf hnode he).wrote (Keeps.refl hbd) fun x hx => hx

/-- The removal from a branch, given the removal from its kids. -/
theorem exec_dissoc_bnode (hkids : Kids hash H P bitmap kids kid fps)
    (hnode : H.node a = some (.bnode e bitmap (packed bitmap kid))) (he : P e) (hP : P edit)
    (hself : a ∉ kidNodes kids fps) (hbd : H.Bounded) {n l : ℕ}
    (hc : (HashTrie.branch kids).Canonical (chunks hash) l)
    (ih : ∀ d, kids d ≠ .nil →
      ∃ o H', exec (PMap.dissoc n (some (kid d)) (BITS * (l + 1)) (hash k) k edit) H =
          (.ok (o, ((kids d).lookup (chunks hash) (l + 1) k).isSome), H') ∧
        Left hash P edit (fps d) H ((kids d).dissoc (chunks hash) (l + 1) k) H' o) :
    ∃ o H', exec (PMap.dissoc (n + 1) (some a) (BITS * l) (hash k) k edit) H =
        (.ok (o, ((HashTrie.branch kids).lookup (chunks hash) l k).isSome), H') ∧
      Left hash P edit (branchNodes a kids fps) H
        ((HashTrie.branch kids).dissoc (chunks hash) l k) H' o := by
  have hlt := chunk_lt (hash k) (BITS * l)
  rw [PMap.dissoc, exec_load hnode]
  by_cases hbit : bitmap &&& bitOf (chunk (hash k) (BITS * l)) = 0
  · have hnil : kids (chunk (hash k) (BITS * l)).toNat = .nil := by
      by_contra h
      exact (land_bitOf_ne_zero hlt).mpr ((hkids.bits _).mpr h) hbit
    have hnone : (HashTrie.branch kids).lookup (chunks hash) l k = none := by
      rw [HashTrie.lookup, show kids ((chunks hash).digit l ((chunks hash).hash k)) = .nil from hnil]
      rfl
    rw [dissoc_of_lookup hc hnone, hnone]
    refine ⟨some a, H, ?_, (hkids.branch hnode he hself).wrote (Keeps.refl hbd) fun x hx => hx⟩
    simp only [if_pos hbit]
    rfl
  · have hd : kids (chunk (hash k) (BITS * l)).toNat ≠ .nil :=
      (hkids.bits _).mp ((land_bitOf_ne_zero hlt).mp hbit)
    obtain ⟨nc, H₁, hexec, hleft⟩ := ih _ hd
    have hkid : ∃ o H', exec (dissocKid a (kid (chunk (hash k) (BITS * l)).toNat)
          (bitOf (chunk (hash k) (BITS * l))) (place bitmap (chunk (hash k) (BITS * l))) edit nc) H₁ =
          (.ok o, H') ∧
        Left hash P edit (branchNodes a kids fps) H
          ((HashTrie.branch kids).dissoc (chunks hash) l k) H' o := by
      cases nc with
      | none =>
        have h := exec_dissocKid_none hkids hnode he hP hbd hself hlt hd hleft.1
          (kid (chunk (hash k) (BITS * l)).toNat)
        rw [← hleft.2] at h
        exact h
      | some nc => exact exec_dissocKid_some hkids hnode he hP hbd hself hlt hd hc.2.1 hleft
    obtain ⟨o, H', hexec', hleft'⟩ := hkid
    refine ⟨o, H', ?_, hleft'⟩
    simp only [if_neg hbit, getElem?_packed hlt kid ((hkids.bits _).mpr hd)]
    exact (exec_bind_ok hexec _).trans (exec_bind_ok hexec' _)

/-- **Removal.** The call leaves the trie without the key, says whether the key was there, and keeps
all nodes but the transient's own nodes of this trie. -/
theorem exec_dissoc {fp : Set ℕ} (hst : Stored hash H P t a fp) (hP : P edit) (hbd : H.Bounded)
    (n l : ℕ) (hn : n + l = 7) (hc : t.Canonical (chunks hash) l) :
    ∃ o H', exec (PMap.dissoc (n + 1) (some a) (BITS * l) (hash k) k edit) H =
        (.ok (o, (t.lookup (chunks hash) l k).isSome), H') ∧
      Left hash P edit fp H (t.dissoc (chunks hash) l k) H' o := by
  induction hst generalizing n l with
  | leaf hnode he => exact exec_dissoc_leaf hnode he hbd n l
  | bucket hnode he hlen => exact exec_dissoc_cnode hnode he hlen hP hbd n l hc
  | branch hnode he hbits hkids hself hdisj ih =>
    have hl : l < 7 := hc.1
    obtain ⟨n, rfl⟩ : ∃ m, n = m + 1 := ⟨n - 1, by omega⟩
    exact exec_dissoc_bnode ⟨hbits, hkids, hdisj⟩ hnode he hP (fun ⟨i, hi, hx⟩ => hself i hi hx) hbd hc
      fun d hd => ih d hd n (l + 1) (by omega) (hc.2.2 d).1

end Removal

end PMap

end SalRuntime
