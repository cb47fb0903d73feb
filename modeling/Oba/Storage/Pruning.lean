import Oba.Storage.VersionStore

/-! # Pruning version chains

Garbage collection cuts a chain behind the newest version that the oldest snapshot sees. Every
later snapshot sees that version or one above it, so that nothing is missed.
-/

namespace Oba.Storage

open List

/-- The chain up to the first version that was committed by the given time. -/
def pruned (oldest : Nat) : List Version → List Version
  | [] => []
  | v :: rest => if v.commitTS ≠ 0 ∧ v.commitTS ≤ oldest then [v] else v :: pruned oldest rest

namespace VersionStore

/-- `GarbageCollect`, without the number of versions that it removes. An entry whose deletion is
older than the oldest snapshot goes altogether. -/
def garbageCollect (vs : VersionStore) (oldest : Nat) : VersionStore :=
  { vs with versions := fun dn =>
      match vs.versions dn with
      | [] => []
      | latest :: rest =>
        if latest.deleted ∧ latest.commitTS ≠ 0 ∧ latest.commitTS < oldest then []
        else pruned oldest (latest :: rest) }

variable {vs : VersionStore} {oldest snapshot : Nat} (h : oldest ≤ snapshot) (tx : Nat)

lemma find?_of_committed {v : Version} (hold : v.commitTS ≠ 0 ∧ v.commitTS ≤ snapshot)
    (rest : List Version) : (v :: rest).find? (·.isVisibleTo snapshot tx) = some v := by
  refine find?_cons_of_pos ?_
  rw [Version.isVisibleTo, if_neg hold.1]
  exact decide_eq_true hold.2

include h in
lemma find?_pruned (chain : List Version) :
    (pruned oldest chain).find? (·.isVisibleTo snapshot tx) =
      chain.find? (·.isVisibleTo snapshot tx) := by
  induction chain with
  | nil => rfl
  | cons v rest ih =>
    unfold pruned
    split
    next hold =>
      have hold := hold.imp_right h.trans'
      rw [find?_of_committed tx hold, find?_of_committed tx hold]
    · rw [find?_cons, find?_cons, ih]

/-- Without a cache and a disk loader, a read finds what is on the chain. -/
lemma getVisibleForTx_uncached (hcache : vs.cache = []) (dn : Bytes) :
    (vs.getVisibleForTx (fun _ => none) dn snapshot tx).1.toOption =
      ((vs.versions dn).find? (·.isVisibleTo snapshot tx)).bind fun v => (found v).toOption := by
  unfold getVisibleForTx
  cases (vs.versions dn).find? (·.isVisibleTo snapshot tx) with
  | none => rw [hcache]; rfl
  | some v => rfl

end VersionStore

/-- Whatever the chains are, garbage collection does not change what a snapshot that is not older
reads. -/
theorem garbageCollect_visible (vs : VersionStore) (hcache : vs.cache = []) (oldest snapshot : Nat)
    (h : oldest ≤ snapshot) (dn : Bytes) (tx : Nat) :
    ((vs.garbageCollect oldest).getVisibleForTx (fun _ => none) dn snapshot tx).1.toOption =
      (vs.getVisibleForTx (fun _ => none) dn snapshot tx).1.toOption := by
  have hcache' : (vs.garbageCollect oldest).cache = [] := hcache
  rw [VersionStore.getVisibleForTx_uncached tx hcache,
    VersionStore.getVisibleForTx_uncached tx hcache']
  unfold VersionStore.garbageCollect
  dsimp only
  split
  next hnil => rw [hnil]
  next latest rest hchain =>
    rw [hchain]
    split
    next hold =>
      rw [VersionStore.find?_of_committed tx (hold.2.imp_right fun hlt => hlt.le.trans h)]
      simp [VersionStore.found, hold.1, Except.toOption]
    · rw [VersionStore.find?_pruned h]

/-- Two versions, of which the older one goes. -/
def replaced : VersionStore :=
  { VersionStore.new with versions := fun _ => [⟨2, 2, ∅, 2, false⟩, ⟨1, 1, ∅, 1, false⟩] }

theorem garbageCollect_visible_replaced :
    (replaced.garbageCollect 2).versions [] ≠ replaced.versions [] ∧
      ((replaced.garbageCollect 2).getVisibleForTx (fun _ => none) [] 3 7).1.toOption =
        (replaced.getVisibleForTx (fun _ => none) [] 3 7).1.toOption :=
  ⟨nofun, garbageCollect_visible replaced rfl 2 3 (by decide) [] 7⟩

end Oba.Storage
