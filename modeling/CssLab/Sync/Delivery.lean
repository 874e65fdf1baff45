import CssLab.Lib.Ring
import CssLab.Sync.ProducerConsumer

namespace CssLab.Sync.ProducerConsumer

open Transition Interleaving

/-- The items stored and not yet loaded, with their slots, if loads take the oldest. -/
def Ring.unread (ring : Ring) : List (Int × BitVec 32) := ring.produced.drop ring.consumed.length

/-- The counters fit together. -/
structure Ring.Consistent (N : Int) (ring : Ring) : Prop where
  size_nonneg : 0 ≤ ring.size
  size_le : ring.size ≤ N
  read_nonneg : 0 ≤ ring.readIndex
  read_lt : ring.readIndex < N
  write_nonneg : 0 ≤ ring.writeIndex
  write_lt : ring.writeIndex < N
  write_eq : ring.writeIndex = (ring.readIndex + ring.size) % N

/-- What the ring promises: its counters fit while the mutex is free, a producer
that is about to store an item does not find an unread one in its slot, and the
items loaded are the first ones that were stored. -/
structure Delivers (N : Int) (role : Thread → Role) (state : State Thread (Buffer Thread) Local) :
    Prop where
  consistent : state.shared.mutex = none → state.shared.ring.Consistent N
  spares : ∀ self, role self = .producer → (state.locals self).point = .storeItem →
    ∀ entry ∈ state.shared.ring.unread, entry.1 ≠ state.shared.ring.writeIndex
  ordered : state.shared.ring.consumed <+: state.shared.ring.produced.map Prod.snd

/-- The unread items are in the slots from the read index on. -/
structure Ring.Filled (N : Int) (ring : Ring) : Prop where
  size_nonneg : 0 ≤ ring.size
  size_le : ring.size ≤ N
  read_nonneg : 0 ≤ ring.readIndex
  read_lt : ring.readIndex < N
  write_eq : ring.writeIndex = (ring.readIndex + ring.size) % N
  slots : ring.unread.map Prod.fst = CssLab.Ring.slots N ring.readIndex ring.size.toNat
  stored : ∀ entry ∈ ring.unread, ring.data entry.1 = entry.2.signExtend 64
  ordered : ring.consumed ++ ring.unread.map Prod.snd = ring.produced.map Prod.snd

theorem Ring.Filled.capacity_pos (filled : Ring.Filled N ring) : 0 < N :=
  lt_of_le_of_lt filled.read_nonneg filled.read_lt

theorem Ring.Filled.consistent (filled : Ring.Filled N ring) : ring.Consistent N where
  size_nonneg := filled.size_nonneg
  size_le := filled.size_le
  read_nonneg := filled.read_nonneg
  read_lt := filled.read_lt
  write_nonneg := filled.write_eq ▸ Int.emod_nonneg _ filled.capacity_pos.ne'
  write_lt := filled.write_eq ▸ Int.emod_lt_of_pos _ filled.capacity_pos
  write_eq := filled.write_eq

theorem Ring.Filled.length_le (filled : Ring.Filled N ring) :
    ring.consumed.length ≤ ring.produced.length := by
  have lengths := congrArg List.length filled.ordered
  simp only [List.length_append, List.length_map] at lengths
  omega

/-- A ring that is not full has no unread item in its write slot. -/
theorem Ring.Filled.write_free (filled : Ring.Filled N ring) (room : ring.size ≠ N) :
    ∀ entry ∈ ring.unread, entry.1 ≠ ring.writeIndex := by
  intro entry member same
  obtain ⟨count, size⟩ := Int.eq_ofNat_of_zero_le filled.size_nonneg
  have le := filled.size_le
  have inside : entry.1 ∈ ring.unread.map Prod.fst := List.mem_map_of_mem member
  rw [filled.slots, same, filled.write_eq, size, Int.toNat_natCast] at inside
  exact CssLab.Ring.next_notMem_slots (by omega) inside

/-- The remainder of C and the one of the invariant agree on an index. -/
theorem succ_tmod {index : Int} (nonneg : 0 ≤ index) (N : Int) :
    (index + 1).tmod N = (index + 1) % N :=
  Int.tmod_eq_emod_of_nonneg (by omega)

theorem Ring.Filled.store (filled : Ring.Filled N ring) (room : ring.size ≠ N)
    (item : BitVec 32) :
    Ring.Filled N { ring with
      data := Function.update ring.data ring.writeIndex (item.signExtend 64)
      produced := ring.produced ++ [(ring.writeIndex, item)]
      writeIndex := (ring.writeIndex + 1).tmod N
      size := ring.size + 1 } := by
  have apart := filled.write_free room
  have nonneg := filled.size_nonneg
  have le := filled.size_le
  have unread : (ring.produced ++ [(ring.writeIndex, item)]).drop ring.consumed.length =
      ring.unread ++ [(ring.writeIndex, item)] :=
    List.drop_append_of_le_length filled.length_le
  refine ⟨by change 0 ≤ ring.size + 1; omega, by change ring.size + 1 ≤ N; omega,
    filled.read_nonneg, filled.read_lt, ?_, ?_, ?_, ?_⟩
  · change (ring.writeIndex + 1).tmod N = (ring.readIndex + (ring.size + 1)) % N
    rw [succ_tmod filled.consistent.write_nonneg, filled.write_eq, Int.emod_add_emod,
      Int.add_assoc]
  · change (List.drop _ _).map _ = CssLab.Ring.slots N ring.readIndex (ring.size + 1).toNat
    obtain ⟨count, size⟩ := Int.eq_ofNat_of_zero_le nonneg
    have next : (ring.size + 1).toNat = count + 1 := by omega
    have slots := filled.slots
    rw [size, Int.toNat_natCast] at slots
    rw [unread, List.map_append, slots, next, CssLab.Ring.slots, ← size, ← filled.write_eq]
    rfl
  · intro entry member
    change Function.update ring.data ring.writeIndex (item.signExtend 64) entry.1 = _
    have member' : entry ∈ ring.unread ++ [(ring.writeIndex, item)] := unread ▸ member
    rcases List.mem_append.mp member' with old | new
    · rw [Function.update_of_ne (apart entry old)]
      exact filled.stored entry old
    · rw [List.mem_singleton.mp new, Function.update_self]
  · change ring.consumed ++ (List.drop _ _).map _ = (ring.produced ++ [_]).map _
    rw [unread, List.map_append, List.map_append, ← List.append_assoc, filled.ordered]

theorem setWidth_signExtend (item : BitVec 32) : (item.signExtend 64).setWidth 32 = item := by
  ext bit inside
  have wide : bit < 64 := by omega
  simp [BitVec.getElem_signExtend, inside, wide]

theorem Ring.Filled.load (filled : Ring.Filled N ring) (nonempty : ring.size ≠ 0) :
    Ring.Filled N { ring with
      consumed := ring.consumed ++ [(ring.data ring.readIndex).setWidth 32]
      readIndex := (ring.readIndex + 1).tmod N
      size := ring.size - 1 } := by
  have nonneg := filled.size_nonneg
  have le := filled.size_le
  obtain ⟨count, size⟩ : ∃ count : Nat, ring.size = count + 1 :=
    ⟨ring.size.toNat - 1, by omega⟩
  have slots := filled.slots
  have total : ring.size.toNat = count + 1 := by omega
  rw [total, CssLab.Ring.slots_succ filled.read_nonneg filled.read_lt] at slots
  cases unread : ring.unread with
  | nil => simp [unread] at slots
  | cons entry rest =>
    rw [unread, List.map_cons] at slots
    obtain ⟨first, others⟩ := List.cons.inj slots
    have item : (ring.data ring.readIndex).setWidth 32 = entry.2 := by
      rw [← first, filled.stored entry (unread ▸ List.mem_cons_self), setWidth_signExtend]
    have left : ring.produced.drop (ring.consumed ++ [entry.2]).length = rest := by
      rw [List.length_append, List.length_singleton, ← List.drop_drop]
      change ring.unread.drop 1 = rest
      rw [unread, List.drop_one, List.tail_cons]
    have index := succ_tmod filled.read_nonneg N
    rw [item]
    refine ⟨by change 0 ≤ ring.size - 1; omega, by change ring.size - 1 ≤ N; omega, ?_, ?_, ?_,
      ?_, ?_, ?_⟩
    · change 0 ≤ (ring.readIndex + 1).tmod N
      rw [index]
      exact Int.emod_nonneg _ filled.capacity_pos.ne'
    · change (ring.readIndex + 1).tmod N < N
      rw [index]
      exact Int.emod_lt_of_pos _ filled.capacity_pos
    · change ring.writeIndex = ((ring.readIndex + 1).tmod N + (ring.size - 1)) % N
      rw [index, Int.emod_add_emod, filled.write_eq]
      congr 1
      omega
    · change (List.drop _ _).map _ = CssLab.Ring.slots N ((ring.readIndex + 1).tmod N) _
      have oneLess : (ring.size - 1).toNat = count := by omega
      rw [left, others, index, oneLess]
    · intro later member
      have member' : later ∈ rest := left ▸ member
      exact filled.stored later (unread ▸ List.mem_cons_of_mem _ member')
    · change (ring.consumed ++ [entry.2]) ++ (List.drop _ _).map _ = _
      rw [left, List.append_assoc, ← filled.ordered, unread]
      rfl

/-- What the ring is like at a statement with the mutex held: filled, once the
updates that are still to come have been made. -/
def Within (N : Int) (role : Role) (ring : Ring) (own : Local) : Prop :=
  match role, own.point with
  | .producer, .loadItem | .producer, .storeItem => ring.Filled N ∧ ring.size ≠ N
  | .producer, .advance =>
    Ring.Filled N { ring with
      writeIndex := (ring.writeIndex + 1).tmod N
      size := ring.size + 1 }
  | .producer, .count => Ring.Filled N { ring with size := ring.size + 1 }
  | .consumer, .loadItem => ring.Filled N ∧ ring.size ≠ 0
  | .consumer, .storeItem => False
  | .consumer, .advance =>
    Ring.Filled N { ring with
      readIndex := (ring.readIndex + 1).tmod N
      size := ring.size - 1 }
  | .consumer, .count => Ring.Filled N { ring with size := ring.size - 1 }
  | _, _ => ring.Filled N

/-- Between its locking and its unlocking of the mutex a thread holds it. -/
def Point.inside : Point → Bool
  | .lock | .asleep => false
  | _ => true

def Knows (N : Int) (role : Thread → Role) (self : Thread) (buffer : Buffer Thread)
    (own : Local) : Prop :=
  if own.point.inside then buffer.mutex = some self ∧ Within N (role self) buffer.ring own
  else buffer.mutex ≠ some self

/-- A free mutex leaves a filled ring. -/
def Free (N : Int) (buffer : Buffer Thread) : Prop := buffer.mutex = none → buffer.ring.Filled N

theorem producer_moves (within : Within N .producer ring own)
    (moved : producer N ring own = some (ring', own')) :
    own'.point.inside ∧ Within N .producer ring' own' := by
  obtain ⟨point, item⟩ := own
  cases point with
  | test =>
    cases moved
    by_cases full : ring.size = N
    · simp only [if_pos full]
      exact ⟨rfl, within⟩
    · simp only [if_neg full]
      exact ⟨rfl, within, full⟩
  | loadItem =>
    cases moved
    exact ⟨rfl, within⟩
  | storeItem =>
    cases moved
    exact ⟨rfl, within.1.store within.2 item⟩
  | advance =>
    cases moved
    exact ⟨rfl, within⟩
  | count =>
    cases moved
    exact ⟨rfl, within⟩
  | lock => cases moved
  | wait => cases moved
  | asleep => cases moved
  | print => cases moved
  | signal => cases moved
  | unlock => cases moved

theorem consumer_moves (within : Within N .consumer ring own)
    (moved : consumer N ring own = some (ring', own')) :
    own'.point.inside ∧ Within N .consumer ring' own' := by
  obtain ⟨point, item⟩ := own
  cases point with
  | test =>
    cases moved
    by_cases empty : ring.size = 0
    · simp only [if_pos empty]
      exact ⟨rfl, within⟩
    · simp only [if_neg empty]
      exact ⟨rfl, within, empty⟩
  | loadItem =>
    cases moved
    exact ⟨rfl, within.1.load within.2⟩
  | advance =>
    cases moved
    exact ⟨rfl, within⟩
  | count =>
    cases moved
    exact ⟨rfl, within⟩
  | storeItem => cases moved
  | lock => cases moved
  | wait => cases moved
  | asleep => cases moved
  | print => cases moved
  | signal => cases moved
  | unlock => cases moved

theorem work_moves (within : Within N role ring own)
    (moved : work N role ring own = some (ring', own')) :
    own'.point.inside ∧ Within N role ring' own' := by
  cases role with
  | producer => exact producer_moves within moved
  | consumer => exact consumer_moves within moved

theorem within_iff_filled (inside : own.point.inside) (idle : own.point.works = false ∨
    own.point = .test) : Within N role ring own ↔ ring.Filled N := by
  obtain ⟨point, item⟩ := own
  cases point <;> cases role <;> first | exact Iff.rfl | simp [Point.inside, Point.works] at *

theorem Ring.Filled.in_order (filled : Ring.Filled N ring) :
    ring.consumed <+: ring.produced.map Prod.snd := ⟨_, filled.ordered⟩

/-- The updates still to come touch neither the items stored nor those loaded. -/
theorem Within.in_order (within : Within N role ring own) :
    ring.consumed <+: ring.produced.map Prod.snd := by
  obtain ⟨point, item⟩ := own
  cases role with
  | producer =>
    cases point with
    | loadItem => exact within.1.in_order
    | storeItem => exact within.1.in_order
    | _ => exact (Ring.Filled.in_order within :)
  | consumer =>
    cases point with
    | loadItem => exact within.1.in_order
    | storeItem => exact within.elim
    | _ => exact (Ring.Filled.in_order within :)

variable {Thread : Type*} {role : Thread → Role} {self : Thread} {buffer buffer' : Buffer Thread}

theorem knows_of_inside (inside : own.point.inside) (held : buffer.mutex = some self)
    (within : Within N (role self) buffer.ring own) : Knows N role self buffer own := by
  rw [Knows, if_pos inside]
  exact ⟨held, within⟩

theorem knows_of_outside (outside : own.point.inside = false) (unheld : buffer.mutex ≠ some self) :
    Knows N role self buffer own := by
  simpa [Knows, outside] using unheld

theorem Knows.held (knows : Knows N role self buffer own) (inside : own.point.inside) :
    buffer.mutex = some self ∧ Within N (role self) buffer.ring own := by
  rwa [Knows, if_pos inside] at knows

/-- Other threads know what they knew as long as the mutex is not taken from
them and the ring changes only under the mutex. -/
theorem Knows.elsewhere (knows : Knows N role other buffer theirs)
    (mutex : buffer'.mutex = some other ↔ buffer.mutex = some other)
    (ring : buffer.mutex = some other → buffer'.ring = buffer.ring) :
    Knows N role other buffer' theirs := by
  cases inside : theirs.point.inside with
  | false =>
    refine knows_of_outside inside ?_
    rw [ne_eq, mutex]
    simpa [Knows, inside] using knows
  | true =>
    obtain ⟨held, within⟩ := knows.held inside
    refine knows_of_inside inside (mutex.mpr held) ?_
    rw [ring held]
    exact within

theorem Knows.filled (knows : Knows N role self buffer own) (inside : own.point.inside)
    (idle : own.point.works = false) : buffer.mutex = some self ∧ buffer.ring.Filled N := by
  obtain ⟨held, within⟩ := knows.held inside
  exact ⟨held, (within_iff_filled inside (Or.inl idle)).mp within⟩

theorem initial_outline (positive : 1 ≤ N) :
    Outline (fun _ : Unit => Free N) (fun _ => Knows N role)
      (initial : State Thread (Buffer Thread) Local) := by
  refine ⟨(), fun _ => ?_, fun _ => nofun⟩
  refine ⟨Int.le_refl _, ?_, Int.le_refl _, ?_, by simp [initial, initializeBuffer, zeroed], rfl,
    nofun, rfl⟩
  · change (0 : Int) ≤ N
    omega
  · change (0 : Int) < N
    omega

variable [DecidableEq Thread]

theorem monitor_moves (free : Free N buffer) (knows : Knows N role self buffer own)
    (moves : Moves (role self) spurious self buffer own buffer' own') :
    Free N buffer' ∧ Knows N role self buffer' own' ∧
      ∀ other theirs, other ≠ self → Knows N role other buffer theirs →
        Knows N role other buffer' theirs := by
  cases moves with
  | acquire outside unheld =>
    refine ⟨nofun, knows_of_inside rfl rfl ?_, ?_⟩
    · exact (within_iff_filled rfl (Or.inr rfl)).mpr (free unheld)
    · intro other theirs apart known
      exact known.elsewhere (by simp [unheld, apart.symm]) (fun _ => rfl)
  | sleep here =>
    obtain ⟨held, filled⟩ := knows.filled (by rw [here]; rfl) (by rw [here]; rfl)
    refine ⟨fun _ => filled, knows_of_outside rfl nofun, ?_⟩
    intro other theirs apart known
    exact known.elsewhere (by simp [sleep, held, apart.symm]) (fun _ => rfl)
  | spurious allowed here =>
    exact ⟨free, knows.elsewhere Iff.rfl (fun _ => rfl),
      fun other theirs apart known => known.elsewhere Iff.rfl (fun _ => rfl)⟩
  | print here =>
    obtain ⟨held, filled⟩ := knows.filled (by rw [here]; rfl) (by rw [here]; rfl)
    refine ⟨free, knows_of_inside rfl held ?_, fun _ _ _ known => known⟩
    exact (within_iff_filled rfl (Or.inl rfl)).mpr filled
  | signal here woken waiters atLeastOne =>
    obtain ⟨held, filled⟩ := knows.filled (by rw [here]; rfl) (by rw [here]; rfl)
    refine ⟨free, knows_of_inside rfl held ?_, ?_⟩
    · exact (within_iff_filled rfl (Or.inl rfl)).mpr filled
    · intro other theirs apart known
      exact known.elsewhere Iff.rfl (fun _ => rfl)
  | unlock here =>
    obtain ⟨held, filled⟩ := knows.filled (by rw [here]; rfl) (by rw [here]; rfl)
    refine ⟨fun _ => filled, knows_of_outside rfl nofun, ?_⟩
    intro other theirs apart known
    exact known.elsewhere (by simp [held, apart.symm]) (fun _ => rfl)

theorem thread_moves (free : Free N buffer) (knows : Knows N role self buffer own)
    (moved : thread N role spurious self buffer own action = some (buffer', own')) :
    Free N buffer' ∧ Knows N role self buffer' own' ∧
      ∀ other theirs, other ≠ self → Knows N role other buffer theirs →
        Knows N role other buffer' theirs := by
  rcases thread_cases moved with ⟨works, ring, done, rfl⟩ | moves
  · have inside : own.point.inside := by
      cases point : own.point <;> simp [Point.works, Point.inside, point] at *
    obtain ⟨held, within⟩ := knows.held inside
    obtain ⟨inside', within'⟩ := work_moves within done
    refine ⟨?_, knows_of_inside inside' held within', ?_⟩
    · intro unheld
      rw [held] at unheld
      cases unheld
    · intro other theirs apart known
      refine known.elsewhere Iff.rfl ?_
      intro theirs
      exact absurd (Option.some.inj (theirs.symm.trans held)) apart
  · exact monitor_moves free knows moves

/-- In every reachable state the ring keeps its promises. -/
theorem delivers (N : Int) (positive : 1 ≤ N) (role : Thread → Role)
    {state : State Thread (Buffer Thread) Local}
    (reachable : Reachable (threads N role true) initial state) : Delivers N role state := by
  have outline : Outline (fun _ : Unit => Free N) (fun _ => Knows N role) state := by
    refine reachable.invariant (initial_outline positive) ?_
    intro state event after outline stepped
    exact outline.step (fun _ _ free knows moved => ⟨(), thread_moves free knows moved⟩) stepped
  obtain ⟨_, free, knows⟩ := outline
  refine ⟨fun unheld => (free unheld).consistent, ?_, ?_⟩
  · intro self producing here
    obtain ⟨-, within⟩ := (knows self).held (by rw [here]; rfl)
    have about : state.shared.ring.Filled N ∧ state.shared.ring.size ≠ N := by
      simpa only [Within, producing, here] using within
    exact about.1.write_free about.2
  · cases held : state.shared.mutex with
    | none => exact (free held).in_order
    | some self =>
      have inside : (state.locals self).point.inside := by
        by_contra outside
        have unheld : Knows N role self state.shared (state.locals self) := knows self
        rw [Knows, if_neg outside] at unheld
        exact unheld held
      exact ((knows self).held inside).2.in_order

/-- A ring of one slot: the producer waits for the consumer and fills it again. -/
theorem delivers_single_slot :
    ∃ state : State (Fin 2) (Buffer (Fin 2)) Local, (state.locals 0).point = .advance ∧
      state.shared.ring.consumed = [0] ∧
      Delivers 1 (fun self => if self = 0 then .producer else .consumer) state := by
  refine ⟨_, ?_, ?_, delivers 1 (Int.le_refl 1) _ (reachable_get
    [(0, .go), (0, .go), (0, .go), (0, .go), (0, .go), (0, .go), (0, .go), (0, .wake []),
      (0, .go), (0, .go), (0, .go), (0, .go),
      (1, .go), (1, .go), (1, .go), (1, .go), (1, .go), (1, .go), (1, .wake [0]), (1, .go),
      (0, .go), (0, .go), (0, .go), (0, .go)] rfl)⟩
  · rfl
  · rfl

end CssLab.Sync.ProducerConsumer
