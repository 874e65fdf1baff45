import CssLab.Lib.Chain
import CssLab.Lib.Heap
import CssLab.Lib.Transition
import Mathlib.Data.BitVec

/-! The chained hash table of `partD/concur-hash.c`, one call after the other. -/

namespace CssLab.Hash

open Chain Transition

/-- The bytes of a string before the one that ends it. -/
structure CString where
  bytes : List (BitVec 8)
  ended : 0 ∉ bytes
  deriving DecidableEq

/-- `node_t`, with the private copies that `strdup` makes of the two strings. -/
structure Node where
  key : CString
  value : CString
  next : Address

/-- `hash_t` and its heap, and what the program does not keep: the number of
inserts so far, and for each node how many there were before its own. -/
structure Table where
  mu : Bool
  buckets : List Address
  numBuckets : Nat
  size : BitVec 32
  heap : Heap Node
  inserts : Nat
  born : Address → Nat

/-- A `hash_t` whose bytes are all zero. -/
def zeroed (heap : Heap Node) : Table where
  mu := false
  buckets := []
  numBuckets := 0
  size := 0
  heap := heap
  inserts := 0
  born := fun _ => 0

/-- The hash function works on 32 bits and picks one of 128 buckets. -/
def djbHash (cp : CString) : BitVec 32 :=
  cp.bytes.foldl (fun hash c => (33 * hash) ^^^ c.setWidth 32) 5381 % 128

/-- The bucket of a key. -/
def bucket (key : CString) : Nat := (djbHash key).toNat

theorem bucket_lt (key : CString) : bucket key < 128 := by
  rw [bucket, djbHash, BitVec.toNat_umod]
  exact Nat.mod_lt _ (by decide)

def hashInit (table : Table) (numBuckets : Nat) : Table :=
  { table with mu := false, buckets := List.replicate numBuckets 0, numBuckets }

/-- `pthread_mutex_lock` does not return while the mutex is held. -/
def lock (table : Table) : Option Table :=
  if table.mu then none else some { table with mu := true }

def unlock (table : Table) : Table := { table with mu := false }

def hashInsert (table : Table) (key value : CString) (newNode : Address) : Option Table := do
  let index := (djbHash key).toNat
  let heap ← table.heap.malloc newNode { key, value, next := 0 }
  let table ← lock { table with heap }
  let head ← table.buckets[index]?
  let heap ← table.heap.modify newNode fun node => { node with next := head }
  some (unlock { table with
    heap
    buckets := table.buckets.set index newNode
    size := table.size + 1
    inserts := table.inserts + 1
    born := Function.update table.born newNode table.inserts })

/-- The loop of `hash_lookup`, with a bound on its iterations. -/
def find (heap : Heap Node) (key : CString) : Nat → Address → Option (Option CString)
  | 0, _ => none
  | steps + 1, p =>
    if p = 0 then some none
    else (heap.cells p).bind fun node =>
      if node.key = key then some (some node.value) else find heap key steps node.next

def hashLookup (steps : Nat) (table : Table) (key : CString) :
    Option (Option CString × Table) := do
  let index := (djbHash key).toNat
  let table ← lock table
  let p ← table.buckets[index]?
  let found ← find table.heap key steps p
  some (found, unlock table)

/-- The loop of `hash_delete`: `prev` and `p` move on while the key of `p` is
the given one. -/
def skip (heap : Heap Node) (key : CString) : Nat → Address → Address → Option (Address × Address)
  | 0, _, _ => none
  | steps + 1, prev, p =>
    if p = 0 then some (prev, p)
    else (heap.cells p).bind fun node =>
      if node.key = key then skip heap key steps p node.next else some (prev, p)

/-- The next pointer of a node, or the bucket when there is none before it. -/
def relink (table : Table) (index : Nat) (prev next : Address) : Option Table :=
  if prev = 0 then some { table with buckets := table.buckets.set index next }
  else (table.heap.modify prev fun node => { node with next }).map fun heap => { table with heap }

def hashDelete (steps : Nat) (table : Table) (key : CString) : Option (BitVec 32 × Table) := do
  let index := (djbHash key).toNat
  let table ← lock table
  let head ← table.buckets[index]?
  let (prev, p) ← skip table.heap key steps 0 head
  if p = 0 then some (1, unlock table)
  else
    let node ← table.heap.cells p
    let table ← relink table index prev node.next
    let heap ← table.heap.free p
    some (0, unlock { table with heap, size := table.size - 1 })

def hashSize (table : Table) : BitVec 32 := table.size

/-- A call that changes the table, with the node that `malloc` gives or a bound
on the iterations. -/
inductive Call
  | insert (key value : CString) (newNode : Address)
  | delete (key : CString) (steps : Nat)

def step (table : Table) : Call → Option Table
  | .insert key value newNode => hashInsert table key value newNode
  | .delete key steps => (hashDelete steps table key).map Prod.snd

/-- The string "a". -/
def keyA : CString := ⟨[97], by decide⟩

/-- The string "b". -/
def keyB : CString := ⟨[98], by decide⟩

end CssLab.Hash
