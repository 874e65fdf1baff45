import CssLab.Hash.Table

namespace CssLab.Hash

open Transition

/-- The table has this many buckets, as `num_buckets` says. -/
def Sized (count : Nat) (table : Table) : Prop :=
  table.numBuckets = count ∧ table.buckets.length = count

theorem lock_eq_some (taken : lock table = some locked) :
    locked.numBuckets = table.numBuckets ∧ locked.buckets = table.buckets := by
  unfold lock at taken
  split at taken
  · cases taken
  · cases taken
    exact ⟨rfl, rfl⟩

theorem Sized.lock (sized : Sized count table) (taken : lock table = some locked) :
    Sized count locked := by
  obtain ⟨num, buckets⟩ := lock_eq_some taken
  rw [Sized, num, buckets]
  exact sized

theorem Sized.insert (sized : Sized count table)
    (inserted : hashInsert table key value newNode = some after) : Sized count after := by
  simp only [hashInsert, Option.bind_eq_bind, Option.bind_eq_some_iff, Option.some.injEq]
    at inserted
  obtain ⟨heap, -, locked, taken, _, -, _, -, rfl⟩ := inserted
  have same : Sized count { table with heap } := sized
  obtain ⟨num, length⟩ := same.lock taken
  exact ⟨num, List.length_set.trans length⟩

theorem Sized.relink (sized : Sized count table)
    (linked : relink table index prev next = some after) : Sized count after := by
  unfold Hash.relink at linked
  split at linked
  · cases linked
    exact ⟨sized.1, List.length_set.trans sized.2⟩
  · obtain ⟨_, -, rfl⟩ := Option.map_eq_some_iff.mp linked
    exact sized

theorem Sized.delete (sized : Sized count table)
    (deleted : hashDelete steps table key = some (result, after)) : Sized count after := by
  simp only [hashDelete, Option.bind_eq_bind, Option.bind_eq_some_iff] at deleted
  obtain ⟨locked, taken, _, -, ⟨prev, p⟩, -, done⟩ := deleted
  have same := sized.lock taken
  dsimp only at done
  split at done
  · cases done
    exact same
  · simp only [Option.bind_eq_some_iff, Option.some.injEq, Prod.mk.injEq] at done
    obtain ⟨_, -, _, linked, _, -, -, rfl⟩ := done
    have relinked := same.relink linked
    exact relinked

theorem sized_of_reachable
    (reachable : Reachable step (hashInit (zeroed heap) count) table) : Sized count table := by
  refine reachable.invariant ⟨rfl, List.length_replicate⟩ ?_
  intro before call after sized stepped
  cases call with
  | insert key value newNode => exact sized.insert stepped
  | delete key steps =>
    obtain ⟨⟨result, table⟩, deleted, rfl⟩ := Option.map_eq_some_iff.mp stepped
    exact sized.delete deleted

/-- With the mutex taken there is still no bucket behind the last one. -/
theorem lock_outside (outside : table.buckets.length ≤ bucket key)
    (taken : lock table = some locked) : locked.buckets[(djbHash key).toNat]? = none := by
  rw [(lock_eq_some taken).2]
  exact List.getElem?_eq_none outside

/-- A call whose bucket is not one of the table's is undefined. -/
theorem calls_outside (outside : table.buckets.length ≤ bucket key) (value : CString)
    (newNode : Address) (steps : Nat) :
    hashInsert table key value newNode = none ∧ hashLookup steps table key = none ∧
      hashDelete steps table key = none := by
  refine ⟨?_, ?_, ?_⟩
  · rw [Option.eq_none_iff_forall_ne_some]
    intro after inserted
    simp only [hashInsert, Option.bind_eq_bind, Option.bind_eq_some_iff] at inserted
    obtain ⟨heap, -, locked, taken, head, found, -⟩ := inserted
    have none := lock_outside (show { table with heap }.buckets.length ≤ bucket key from outside)
      taken
    exact absurd found (by simp [none])
  · rw [Option.eq_none_iff_forall_ne_some]
    intro after looked
    simp only [hashLookup, Option.bind_eq_bind, Option.bind_eq_some_iff] at looked
    obtain ⟨locked, taken, head, found, -⟩ := looked
    exact absurd found (by simp [lock_outside outside taken])
  · rw [Option.eq_none_iff_forall_ne_some]
    intro after deleted
    simp only [hashDelete, Option.bind_eq_bind, Option.bind_eq_some_iff] at deleted
    obtain ⟨locked, taken, head, found, -⟩ := deleted
    exact absurd found (by simp [lock_outside outside taken])

/-- The string "Z", whose bucket is the last that there can be. -/
def keyZ : CString := ⟨[90], by decide⟩

theorem bucket_keyZ : bucket keyZ = 127 := by decide

/-- The calls stay inside the buckets for every key, after whatever calls before them,
exactly if there are at least 128 buckets. -/
theorem bucket_inside_iff (count : Nat) :
    (∀ heap table, Reachable step (hashInit (zeroed heap) count) table →
      ∀ key, bucket key < table.numBuckets) ↔ 128 ≤ count := by
  constructor
  · intro always
    have last := always Heap.empty _ ⟨[], rfl⟩ keyZ
    rw [bucket_keyZ] at last
    exact last
  · intro enough heap table reachable key
    rw [(sized_of_reachable reachable).1]
    exact (bucket_lt key).trans_le enough

/-- In a table of one bucket, the key "a" has the bucket 68. -/
theorem one_bucket_outside :
    ¬ ∀ heap table, Reachable step (hashInit (zeroed heap) 1) table →
      ∀ key, bucket key < table.numBuckets := by
  intro always
  have inside := always Heap.empty _ ⟨[], rfl⟩ keyA
  exact absurd inside (by decide)

end CssLab.Hash
