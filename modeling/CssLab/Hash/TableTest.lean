import CssLab.Hash.Phases
import CssLab.Lib.Printf

/-! `partD/test-hash.c`: its assertions hold in every interleaving, although `hash_delete` takes
other nodes out than it should. -/

namespace CssLab.Hash.Threads

open Transition Interleaving Callers Http

/-- `TEST_SIZE` -/
def testSize : Nat := 10000

/-- A string of these bytes. -/
def stringOf (bytes : List UInt8) (ended : 0 ∉ bytes) : CString where
  bytes := bytes.map UInt8.toBitVec
  ended member := by
    obtain ⟨byte, inside, isZero⟩ := List.mem_map.mp member
    obtain rfl : byte = 0 := UInt8.toBitVec_inj.mp isZero
    exact ended inside

/-- A format that ends in its one conversion, `%d`. -/
structure Format where
  head : List UInt8
  ended : 0 ∉ head

theorem Format.not_ended (format : Format) {bytes : List UInt8} (ended : 0 ∉ bytes) :
    0 ∉ format.head ++ bytes := by
  intro member
  rcases List.mem_append.mp member with early | late
  · exact format.ended early
  · exact ended late

theorem not_ended_decimal (i : Nat) : 0 ∉ decimal i :=
  fun member => absurd (decimal_digits i 0 member) (by decide)

def Format.fmt (format : Format) : CString :=
  stringOf (format.head ++ text "%d") (format.not_ended (by decide))

/-- `buf` after `sprintf(buf, fmt, i)`. -/
def Format.buf (format : Format) (i : Nat) : CString :=
  stringOf (format.head ++ decimal i) (format.not_ended (not_ended_decimal i))

def workHashInsert (format : Format) :
    Shared → Caller Local → Action → Option (Shared × Caller Local) :=
  calls (fun i => .insert (format.buf i) format.fmt) testSize

def workHashLookup (format : Format) :
    Shared → Caller Local → Action → Option (Shared × Caller Local) :=
  calls (fun i => .lookup (format.buf i)) testSize

def workHashDelete (format : Format) :
    Shared → Caller Local → Action → Option (Shared × Caller Local) :=
  calls (fun i => .delete (format.buf i)) testSize

/-- What `main` gives the threads that it creates. -/
def arg (self : Fin 2) : Format :=
  if self.val = 0 then ⟨text "1_", by decide⟩ else ⟨text "2_", by decide⟩

def hashSize (table : Shared) : BitVec 32 := table.size

/-- One step of one of the two threads. -/
abbrev workers (work : Format → Shared → Caller Local → Action → Option (Shared × Caller Local)) :
    State (Fin 2) Shared (Caller Local) → Fin 2 × Action →
      Option (State (Fin 2) Shared (Caller Local)) :=
  Interleaving.step fun self => work (arg self)

/-- `main` creates two threads and has joined them. -/
def Joined (work : Format → Shared → Caller Local → Action → Option (Shared × Caller Local))
    (table table' : Shared) : Prop :=
  Callers.Joined (fun self => work (arg self)) table table'

/-- The threads cannot go on forever nor wait for each other: all runs are short, and where one
ends both have returned. -/
def WorkEnds (work : Format → Shared → Caller Local → Action → Option (Shared × Caller Local))
    (table : Shared) : Prop :=
  (∃ table', Joined work table table') ∧ ∀ actions state,
    follow (workers work) ⟨table, fun _ => begun⟩ actions = some state →
      actions.length ≤ 1200260002 ∧ ((∀ event, workers work state event = none) →
        ∀ self, (state.locals self).place = .exited)

/-- Two rounds of the first thread for each bucket, in which its keys belong there. -/
def pairsFirst : List (Nat × Nat) := [
    (29, 1039), (28, 1038), (1118, 1190), (1119, 1191), (69, 1079), (68, 1078), (1158, 1194),
    (1159, 1195), (21, 65), (20, 64), (23, 67), (22, 66), (25, 61), (24, 60), (27, 63), (26, 62),
    (182, 209), (183, 208), (9, 108), (8, 109), (186, 249), (187, 248), (148, 184), (149, 185),
    (3, 102), (2, 103), (1, 100), (0, 101), (7, 106), (6, 107), (5, 104), (4, 105), (38, 1028),
    (39, 1029), (1228, 1329), (1229, 1328), (78, 1068), (79, 1069), (1268, 1369), (1269, 1368),
    (30, 74), (31, 75), (32, 76), (33, 77), (34, 70), (35, 71), (36, 72), (37, 73), (139, 218),
    (138, 219), (292, 339), (293, 338), (179, 258), (178, 259), (296, 379), (297, 378),
    (131, 175), (130, 174), (133, 177), (132, 176), (135, 171), (134, 170), (137, 173),
    (136, 172), (83, 1093), (82, 1092), (81, 1019), (80, 1018), (87, 1097), (86, 1096), (49, 85),
    (48, 84), (47, 1013), (46, 1012), (45, 89), (44, 88), (43, 1017), (42, 1016), (41, 1015),
    (40, 1014), (128, 469), (129, 468), (229, 328), (228, 329), (168, 429), (169, 428),
    (269, 368), (268, 369), (120, 164), (121, 165), (122, 166), (123, 167), (124, 160),
    (125, 161), (126, 162), (127, 163), (92, 1082), (93, 1083), (18, 90), (19, 91), (96, 1086),
    (97, 1087), (58, 94), (59, 95), (12, 56), (13, 57), (10, 54), (11, 55), (16, 52), (17, 53),
    (14, 50), (15, 51), (193, 319), (192, 318), (119, 191), (118, 190), (197, 359), (196, 358),
    (159, 195), (158, 194), (113, 157), (112, 156), (111, 155), (110, 154), (117, 153),
    (116, 152), (115, 151), (114, 150)]

/-- The same of the second thread. -/
def pairsSecond : List (Nat × Nat) := [
    (19, 91), (18, 90), (93, 1083), (92, 1082), (59, 95), (58, 94), (97, 1087), (96, 1086),
    (11, 55), (10, 54), (13, 57), (12, 56), (15, 51), (14, 50), (17, 53), (16, 52), (8, 109),
    (9, 108), (183, 208), (182, 209), (149, 185), (148, 184), (187, 248), (186, 249), (0, 101),
    (1, 100), (2, 103), (3, 102), (4, 105), (5, 104), (6, 107), (7, 106), (80, 1018), (81, 1019),
    (82, 1092), (83, 1093), (48, 84), (49, 85), (86, 1096), (87, 1097), (44, 88), (45, 89),
    (46, 1012), (47, 1013), (40, 1014), (41, 1015), (42, 1016), (43, 1017), (118, 190),
    (119, 191), (192, 318), (193, 319), (158, 194), (159, 195), (196, 358), (197, 359),
    (110, 154), (111, 155), (112, 156), (113, 157), (114, 150), (115, 151), (116, 152),
    (117, 153), (1229, 1328), (1228, 1329), (39, 1029), (38, 1028), (1269, 1368), (1268, 1369),
    (79, 1069), (78, 1068), (33, 77), (32, 76), (31, 75), (30, 74), (37, 73), (36, 72), (35, 71),
    (34, 70), (228, 329), (229, 328), (129, 468), (128, 469), (268, 369), (269, 368), (169, 428),
    (168, 429), (123, 167), (122, 166), (121, 165), (120, 164), (127, 163), (126, 162),
    (125, 161), (124, 160), (1119, 1191), (1118, 1190), (28, 1038), (29, 1039), (1159, 1195),
    (1158, 1194), (68, 1078), (69, 1079), (22, 66), (23, 67), (20, 64), (21, 65), (26, 62),
    (27, 63), (24, 60), (25, 61), (293, 338), (292, 339), (138, 219), (139, 218), (297, 378),
    (296, 379), (178, 259), (179, 258), (132, 176), (133, 177), (130, 174), (131, 175),
    (136, 172), (137, 173), (134, 170), (135, 171)]

/-- The bucket of a key from its digits. -/
def bucketOf (head : List UInt8) (i : Nat) : Nat :=
  (((head ++ (Nat.toDigits 10 i).map fun digit => UInt8.ofNat digit.toNat).map
    UInt8.toBitVec).foldl (fun hash c => (33 * hash) ^^^ c.setWidth 32) 5381 % 128 :
      BitVec 32).toNat

theorem bucket_buf (format : Format) (i : Nat) :
    bucket (format.buf i) = bucketOf format.head i := by
  rw [bucketOf, ← decimal_eq]
  rfl

/-- In each of these pairs are two rounds whose keys belong to the bucket of its index. -/
def Covers (head : List UInt8) (pairs : List (Nat × Nat)) : Prop :=
  pairs.length = 128 ∧ ∀ entry ∈ pairs.zipIdx, entry.1.1 < testSize ∧ entry.1.2 < testSize ∧
    entry.1.1 ≠ entry.1.2 ∧ bucketOf head entry.1.1 = entry.2 ∧ bucketOf head entry.1.2 = entry.2

theorem pairsFirst_covers : Covers [49, 95] pairsFirst := by
  unfold Covers
  decide +kernel

theorem pairsSecond_covers : Covers [50, 95] pairsSecond := by
  unfold Covers
  decide +kernel

/-- Whatever the bucket of a key, its thread has another key there. -/
theorem Covers.paired {format : Format} (covers : Covers format.head pairs) (i : Nat) :
    ∃ j < testSize, j ≠ i ∧ bucket (format.buf j) = bucket (format.buf i) := by
  obtain ⟨length, all⟩ := covers
  have small : bucket (format.buf i) < pairs.length := length ▸ bucket_lt (format.buf i)
  have member : (pairs[bucket (format.buf i)], bucket (format.buf i)) ∈ pairs.zipIdx := by
    rw [List.mem_zipIdx_iff_getElem?]
    exact List.getElem?_eq_getElem small
  obtain ⟨one, two, apart, here, here'⟩ := all _ member
  by_cases same : pairs[bucket (format.buf i)].1 = i
  · refine ⟨_, two, fun same' => apart (same.trans same'.symm), ?_⟩
    rw [bucket_buf, here']
  · refine ⟨_, one, same, ?_⟩
    rw [bucket_buf, here]

theorem arg_head (self : Fin 2) :
    (arg self).head = if self.val = 0 then [49, 95] else [50, 95] := by
  unfold arg
  split <;> rfl

theorem arg_paired (self : Fin 2) (i : Nat) :
    ∃ j < testSize, j ≠ i ∧ bucket ((arg self).buf j) = bucket ((arg self).buf i) := by
  have head := arg_head self
  by_cases first : self.val = 0
  · rw [if_pos first] at head
    exact (head ▸ pairsFirst_covers : Covers (arg self).head pairsFirst).paired i
  · rw [if_neg first] at head
    exact (head ▸ pairsSecond_covers : Covers (arg self).head pairsSecond).paired i

theorem buf_distinct : Distinct fun self i => (arg self).buf i := by
  intro self i other j same
  have bytes : (arg self).head ++ decimal i = (arg other).head ++ decimal j :=
    List.map_injective_iff.mpr (fun _ _ => UInt8.toBitVec_inj.mp) (congrArg CString.bytes same)
  have lengths (self : Fin 2) : (arg self).head.length = 2 := by
    rw [arg_head]
    split <;> rfl
  obtain ⟨heads, digits⟩ := List.append_inj bytes ((lengths self).trans (lengths other).symm)
  refine ⟨?_, Printf.decimal_injective digits⟩
  rw [arg_head, arg_head] at heads
  by_contra apart
  have different : self.val ≠ other.val := fun same => apart (Fin.ext same)
  have few := self.isLt
  have few' := other.isLt
  by_cases first : self.val = 0
  · rw [if_pos first, if_neg (by omega)] at heads
    cases heads
  · rw [if_neg first, if_pos (by omega)] at heads
    cases heads

/-- What holds while two threads work, and lets them, holds in the end, to which they come. -/
theorem workEnds (work : Format → Shared → Caller Local → Action → Option (Shared × Caller Local))
    (call : Fin 2 → Nat → Call) {holds : State (Fin 2) Shared (Caller Local) → Prop}
    (same : (fun self => work (arg self)) = fun self => calls (call self) testSize)
    (start : holds ⟨table, fun _ => begun⟩)
    (keeps : ∀ state event after, holds state → loops call testSize state event = some after →
      holds after)
    (working : ∀ state, holds state → Working testSize 20000 state) :
    WorkEnds work table ∧
      (∀ state, Reachable (workers work) ⟨table, fun _ => begun⟩ state → holds state) ∧
      ∀ table', Joined work table table' → ∃ state, holds state ∧
        (∀ self, (state.locals self).place = .exited) ∧ state.shared = table' := by
  have steps : workers work = loops call testSize := by rw [workers, same]
  have held (state : State (Fin 2) Shared (Caller Local))
      (reachable : Reachable (workers work) ⟨table, fun _ => begun⟩ state) : holds state :=
    (steps ▸ reachable : Reachable (loops call testSize) _ _).invariant start keeps
  refine ⟨⟨?_, fun actions state run => ?_⟩, held, ?_⟩
  · obtain ⟨state, reachable, exited⟩ := loops_finish start keeps working
    rw [← steps] at reachable
    exact ⟨state.shared, state, reachable, exited, rfl⟩
  · rw [steps] at run ⊢
    have ends := loops_end start keeps working actions state run
    rw [Fintype.card_fin] at ends
    exact ends
  · rintro table' ⟨state, reachable, exited, rfl⟩
    exact ⟨state, held state reachable, exited, rfl⟩

/-- The table that `main` begins with. -/
def made : Shared := hashInit (zeroed Heap.empty) 128

theorem rested_made : Rested (Fin 2) made := by
  have outline : Outline guard.invariant guard.asserts
      (start Heap.empty : State (Fin 2) Shared Local) := start_outline Heap.empty
  obtain ⟨owner, wired, counts⟩ := Guard.resource_of_outline outline rfl
  exact ⟨rfl, ⟨owner, wired⟩, counts, Ledger.roomy_empty⟩

/-- The keys and the values of the threads. -/
abbrev Full : Shared → Prop :=
  Holds (fun (self : Fin 2) i => (arg self).buf i) (fun self => (arg self).fmt) testSize

theorem Holds.size_eq (full : Full table) (rested : Rested (Fin 2) table) :
    (hashSize table).toInt = 20000 := by
  have length := full.length
  rw [Fintype.card_fin, testSize] at length
  rw [hashSize, rested.counts, full.undeleted, List.length_map, length]
  rfl

theorem Holds.few (full : Full table) : table.linked.length ≤ 20000 := by
  have length := full.length
  rw [Fintype.card_fin, testSize] at length
  rw [full.undeleted, List.length_map, length]

theorem inserts_end : WorkEnds workHashInsert made ∧ ∀ filled, Joined workHashInsert made filled →
    Rested (Fin 2) filled ∧ Full filled := by
  have start := rested_made.filling rfl rfl (fun self i => (arg self).buf i)
    (fun self => (arg self).fmt) testSize
  obtain ⟨ends, -, joined⟩ := workEnds workHashInsert _ rfl start
    (fun _ _ _ filling stepped => filling.step stepped) fun _ filling => filling.working
  refine ⟨ends, fun filled isFilled => ?_⟩
  obtain ⟨state, filling, exited, rfl⟩ := joined filled isFilled
  exact ⟨filling.looping.rested exited, filling.holds buf_distinct exited⟩

theorem lookups_end (rested : Rested (Fin 2) table) (full : Full table) :
    WorkEnds workHashLookup table ∧
      (∀ state, Reachable (workers workHashLookup) ⟨table, fun _ => begun⟩ state →
        ∀ self key found seen,
          (state.locals self).place = .calls (.returned (.looked key found seen)) →
            found = some (arg self).fmt) ∧
      ∀ looked, Joined workHashLookup table looked → Rested (Fin 2) looked ∧ Full looked := by
  have start := rested.looking (fun self i => (arg self).buf i) testSize
  obtain ⟨ends, held, joined⟩ := workEnds workHashLookup _ rfl start
    (fun _ _ _ looking stepped => looking.step stepped)
    fun _ looking => looking.working full.undeleted full.few
  refine ⟨ends, fun state reachable self key found seen returned =>
    (held state reachable).found full returned, fun looked isLooked => ?_⟩
  obtain ⟨state, looking, exited, rfl⟩ := joined looked isLooked
  exact ⟨looking.looping.rested exited, full.congr looking.still⟩

theorem deletes_end (rested : Rested (Fin 2) table) (full : Full table) :
    WorkEnds workHashDelete table ∧ ∀ cleared, Joined workHashDelete table cleared →
      (hashSize cleared).toInt = 0 := by
  have start := full.clearing rested
  obtain ⟨ends, -, joined⟩ := workEnds workHashDelete _ rfl start
    (fun _ _ _ clearing stepped => clearing.step full buf_distinct
      (fun self i _ => arg_paired self i) stepped)
    fun _ clearing => clearing.working full.few
  refine ⟨ends, fun cleared isCleared => ?_⟩
  obtain ⟨state, clearing, exited, rfl⟩ := joined cleared isCleared
  rw [hashSize, clearing.empty exited]
  rfl

/-- All calls of the test find what they should, and `main` every size that it asserts. -/
theorem hash_test_passes :
    WorkEnds workHashInsert made ∧ ∀ filled, Joined workHashInsert made filled →
      (hashSize filled).toInt = 20000 ∧ WorkEnds workHashLookup filled ∧
      (∀ state, Reachable (workers workHashLookup) ⟨filled, fun _ => begun⟩ state →
        ∀ self key found seen,
          (state.locals self).place = .calls (.returned (.looked key found seen)) →
            found = some (arg self).fmt) ∧
      ∀ looked, Joined workHashLookup filled looked →
        (hashSize looked).toInt = 20000 ∧ WorkEnds workHashDelete looked ∧
        ∀ cleared, Joined workHashDelete looked cleared → (hashSize cleared).toInt = 0 := by
  obtain ⟨ends, filled⟩ := inserts_end
  refine ⟨ends, fun table joined => ?_⟩
  obtain ⟨rested, full⟩ := filled table joined
  obtain ⟨ends', found, looked⟩ := lookups_end rested full
  refine ⟨full.size_eq rested, ends', found, fun table' joined' => ?_⟩
  obtain ⟨rested', full'⟩ := looked table' joined'
  exact ⟨full'.size_eq rested', deletes_end rested' full'⟩

end CssLab.Hash.Threads
