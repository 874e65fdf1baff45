import CssLab.Sync.Sbuf

namespace CssLab.Sync.Sbuf

open Transition Interleaving

/-- From the permit to the counter a thread has a permit the counter does not show. -/
@[simp] def Point.claims : Point → Bool
  | .waitMutex | .loadCounter | .storeCounter => true
  | _ => false

/-- From the counter to the end a thread has a permit to pass on. -/
@[simp] def Point.owes : Point → Bool
  | .access | .postMutex | .postPermit => true
  | _ => false

@[simp] def Point.accesses : Point → Bool
  | .access => true
  | _ => false

/-- Whether a thread is in a call of this kind at one of the points. -/
@[simp] def Local.within (own : Local) (call : Call) (points : Point → Bool) : Bool :=
  decide (own.call = call) && points own.point

/-- The slots a thread has taken from `slots` and neither counted as filled nor given back. -/
@[simp] def slotsHeld (own : Local) : Nat :=
  (own.within .insert Point.claims).toNat + (own.within .remove Point.owes).toNat

/-- The items it has taken from `items` or not yet announced there. -/
@[simp] def itemsHeld (own : Local) : Nat :=
  (own.within .remove Point.claims).toNat + (own.within .insert Point.owes).toNat

/-- Each semaphore, with what the threads hold of it, goes with the counters. -/
structure Balanced [Fintype Thread] (n : BitVec 32) (state : State Thread Sbuf Local) : Prop where
  slots : state.shared.slots + total slotsHeld state.locals + state.shared.rear.toNat =
    n.toNat + state.shared.front.toNat
  items : state.shared.items + total itemsHeld state.locals + state.shared.front.toNat =
    state.shared.rear.toNat
  mutex : state.shared.mutex + census (fun own => own.point.inside) state.locals = 1
  stored : state.shared.inserted.length +
    census (fun own => own.within .insert Point.accesses) state.locals = state.shared.rear.toNat
  loaded : state.shared.removed.length +
    census (fun own => own.within .remove Point.accesses) state.locals = state.shared.front.toNat

/-- The register of an increment has the counter's value. -/
def Registered (sp : Sbuf) (own : Local) : Prop :=
  own.point = .storeCounter ∨ own.point = .access → own.counter = sp.counter own.call

/-- What a step of one thread leaves the same in each of the sums. -/
structure Exchange (sp : Sbuf) (own : Local) (sp' : Sbuf) (own' : Local) : Prop where
  slots : sp'.slots + slotsHeld own' + sp'.rear.toNat + sp.front.toNat =
    sp.slots + slotsHeld own + sp.rear.toNat + sp'.front.toNat
  items : sp'.items + itemsHeld own' + sp'.front.toNat + sp.rear.toNat =
    sp.items + itemsHeld own + sp.front.toNat + sp'.rear.toNat
  mutex : sp'.mutex + own'.point.inside.toNat = sp.mutex + own.point.inside.toNat
  stored : sp'.inserted.length + (own'.within .insert Point.accesses).toNat + sp.rear.toNat =
    sp.inserted.length + (own.within .insert Point.accesses).toNat + sp'.rear.toNat
  loaded : sp'.removed.length + (own'.within .remove Point.accesses).toNat + sp.front.toNat =
    sp.removed.length + (own.within .remove Point.accesses).toNat + sp'.front.toNat

theorem Moves.exchange (moves : Moves sp own sp' own') (registered : Registered sp own)
    (counts : own.point = .storeCounter → (own.counter + 1).toNat = own.counter.toNat + 1) :
    Exchange sp own sp' own' := by
  obtain ⟨call, point, item, counter⟩ := own
  cases moves with
  | begin here call' item' =>
    cases here
    cases call <;> cases call' <;>
      exact ⟨rfl, rfl, rfl, rfl, rfl⟩
  | takeSlot calls here free =>
    cases here
    cases calls
    constructor <;> simp [free, Point.inside]
  | takeItem calls here free =>
    cases here
    cases calls
    constructor <;> simp [free, Point.inside]
  | lock here free =>
    cases here
    cases call <;> constructor <;> simp [free, Point.inside]
  | load here =>
    cases here
    cases call <;> constructor <;> simp [Point.inside]
  | countRear calls here =>
    cases here
    cases calls
    have value : counter = sp.rear := registered (Or.inl rfl)
    subst value
    have next : (sp.rear + 1).toNat = sp.rear.toNat + 1 := counts rfl
    generalize sp.rear + 1 = after at next ⊢
    constructor <;> simp [next, Point.inside] <;> omega
  | countFront calls here =>
    cases here
    cases calls
    have value : counter = sp.front := registered (Or.inl rfl)
    subst value
    have next : (sp.front + 1).toNat = sp.front.toNat + 1 := counts rfl
    generalize sp.front + 1 = after at next ⊢
    constructor <;> simp [next, Point.inside] <;> omega
  | store calls here =>
    cases here
    cases calls
    constructor <;> simp [Point.inside]
  | fetch calls here =>
    cases here
    cases calls
    constructor <;> simp [Point.inside]
  | unlock here =>
    cases here
    cases call <;> constructor <;> simp [Point.inside]
  | postItem calls here =>
    cases here
    cases calls
    constructor <;> simp [Point.inside]
  | postSlot calls here =>
    cases here
    cases calls
    constructor <;> simp [Point.inside]

/-- The slots that are counted lie in the ring, oldest first. -/
structure Filled (capacity : BitVec 32) (sp : Sbuf) : Prop where
  size : sp.n = capacity
  holds : Ring.Holds capacity.toInt (sp.removed.length + 1) sp.buf sp.pending
  ordered : sp.removed ++ sp.pending.map Prod.snd = sp.inserted.map Prod.snd

variable {sp : Sbuf} {capacity count : BitVec 32}

theorem Filled.length_le (filled : Filled capacity sp) :
    sp.removed.length ≤ sp.inserted.length := by
  have lengths := congrArg List.length filled.ordered
  simp only [List.length_append, List.length_map] at lengths
  omega

theorem pending_length (sp : Sbuf) :
    sp.pending.length = sp.inserted.length - sp.removed.length := List.length_drop

theorem slot_eq (size : sp.n = capacity) (short : count.toNat < 2 ^ 31) :
    sp.slot count = (count.toNat : Int) % capacity.toInt := by
  rw [slot, size, BitVec.toInt_eq_toNat_of_lt (by omega), Int.tmod_eq_emod_of_nonneg (by omega)]

theorem Filled.next_slot (filled : Filled capacity sp)
    (value : count.toNat = sp.inserted.length + 1)
    (short : count.toNat < 2 ^ 31) :
    sp.slot count = ((sp.removed.length : Int) + 1 + sp.pending.length) % capacity.toInt := by
  have le := filled.length_le
  rw [slot_eq filled.size short, pending_length, value]
  congr 1
  omega

theorem Filled.store (filled : Filled capacity sp)
    (room : (sp.pending.length : Int) < capacity.toInt)
    (value : count.toNat = sp.inserted.length + 1) (short : count.toNat < 2 ^ 31)
    (item : BitVec 32) :
    Filled capacity { sp with
      buf := Function.update sp.buf (sp.slot count) item
      inserted := sp.inserted ++ [(sp.slot count, item)] } := by
  have pending : (sp.inserted ++ [(sp.slot count, item)]).drop sp.removed.length =
      sp.pending ++ [(sp.slot count, item)] :=
    List.drop_append_of_le_length filled.length_le
  refine ⟨filled.size, ?_, ?_⟩
  · change Ring.Holds _ _ _ (List.drop _ _)
    rw [pending, filled.next_slot value short]
    exact filled.holds.push room item
  · change sp.removed ++ (List.drop _ _).map _ = (sp.inserted ++ [_]).map _
    rw [pending, List.map_append, List.map_append, ← List.append_assoc, filled.ordered]

/-- The oldest item is in the slot that is loaded next. -/
theorem Filled.oldest (filled : Filled capacity sp) (some : sp.removed.length < sp.inserted.length)
    (value : count.toNat = sp.removed.length + 1) (short : count.toNat < 2 ^ 31) :
    ∃ item rest, sp.pending = (sp.slot count, item) :: rest ∧ sp.buf (sp.slot count) = item ∧
      Ring.Holds capacity.toInt (sp.removed.length + 1 + 1) sp.buf rest := by
  cases pending : sp.pending with
  | nil =>
    have length := pending_length sp
    rw [pending, List.length_nil] at length
    omega
  | cons entry rest =>
    obtain ⟨place, loaded, left⟩ := (pending ▸ filled.holds).pop
    have here : sp.slot count = entry.1 := by
      rw [place, slot_eq filled.size short, value]
      rfl
    refine ⟨entry.2, rest, by rw [here], ?_, left⟩
    rw [here, place]
    exact loaded

theorem Filled.fetch (filled : Filled capacity sp) (some : sp.removed.length < sp.inserted.length)
    (value : count.toNat = sp.removed.length + 1) (short : count.toNat < 2 ^ 31) :
    Filled capacity { sp with removed := sp.removed ++ [sp.buf (sp.slot count)] } := by
  obtain ⟨item, rest, pending, loaded, left⟩ := filled.oldest some value short
  have later : sp.inserted.drop (sp.removed ++ [sp.buf (sp.slot count)]).length = rest := by
    rw [List.length_append, List.length_singleton, ← List.drop_drop]
    change sp.pending.drop 1 = rest
    rw [pending, List.drop_one, List.tail_cons]
  refine ⟨filled.size, ?_, ?_⟩
  · change Ring.Holds _ _ _ (List.drop _ _)
    rw [later]
    simpa using left
  · change (sp.removed ++ [_]) ++ (List.drop _ _).map _ = _
    rw [later, List.append_assoc, ← filled.ordered, pending, loaded]
    rfl

variable {Thread : Type*} [Fintype Thread] {state after : State Thread Sbuf Local}

/-- What all of the threads keep. -/
structure Invariant (capacity : BitVec 32) (state : State Thread Sbuf Local) : Prop where
  balanced : Balanced capacity state
  registered : ∀ self, Registered state.shared (state.locals self)
  filled : Filled capacity state.shared

/-- Of the mutex there is one, and who is inside has it. -/
theorem alone_of_mutex
    (mutex : state.shared.mutex + census (fun own => own.point.inside) state.locals = 1)
    (here : (state.locals self).point.inside) (there : (state.locals other).point.inside) :
    self = other := by
  have single : census (fun own : Local => own.point.inside) state.locals ≤ 1 := by omega
  exact eq_of_census_le_one single here there

theorem inside_of_accesses (own : Local) (call : Call) (here : own.within call Point.accesses) :
    own.point.inside := by
  obtain ⟨_, point, _, _⟩ := own
  cases point <;> simp [Point.inside] at here ⊢

theorem accessing_le (state : State Thread Sbuf Local) (call : Call) :
    census (fun own => own.within call Point.accesses) state.locals ≤
      census (fun own => own.point.inside) state.locals :=
  census_mono fun own => inside_of_accesses own call

/-- While a thread is at its access no other one is. -/
theorem accessing_of_mutex
    (mutex : state.shared.mutex + census (fun own => own.point.inside) state.locals = 1)
    (here : (state.locals self).point = .access) (call : Call) :
    census (fun own => own.within call Point.accesses) state.locals =
      if (state.locals self).call = call then 1 else 0 := by
  by_cases same : (state.locals self).call = call
  · have one : 0 < census (fun own => own.within call Point.accesses) state.locals :=
      Finset.card_pos.mpr ⟨self, by simp [same, here]⟩
    have most := accessing_le state call
    rw [if_pos same]
    omega
  · rw [if_neg same, census_eq_zero]
    intro other
    by_contra there
    rw [Bool.not_eq_false] at there
    have inside : (state.locals self).point.inside := by simp [here, Point.inside]
    cases alone_of_mutex mutex inside (inside_of_accesses _ call there)
    simp [same] at there

theorem Balanced.rear_lt (balanced : Balanced capacity state)
    (short : state.shared.inserted.length < 2 ^ 31 - 1) : state.shared.rear.toNat < 2 ^ 31 := by
  have most := accessing_le state .insert
  have mutex := balanced.mutex
  have stored := balanced.stored
  omega

theorem Balanced.counter_lt (balanced : Balanced capacity state)
    (short : state.shared.inserted.length < 2 ^ 31 - 1) (call : Call) :
    (state.shared.counter call).toNat < 2 ^ 31 := by
  have rear := balanced.rear_lt short
  have items := balanced.items
  cases call with
  | insert => exact rear
  | remove =>
    change state.shared.front.toNat < 2 ^ 31
    omega

theorem toNat_of_toInt_pos (positive : 1 ≤ capacity.toInt) :
    (capacity.toNat : Int) = capacity.toInt := by
  rw [BitVec.toInt_eq_toNat_cond] at *
  split at positive <;> simp_all
  omega

/-- The next item has a slot of its own, and it is the one the register names. -/
theorem Invariant.store (invariant : Invariant capacity state) (positive : 1 ≤ capacity.toInt)
    (short : state.shared.inserted.length < 2 ^ 31 - 1)
    (call : (state.locals self).call = .insert) (here : (state.locals self).point = .access) :
    (state.locals self).counter.toNat = state.shared.inserted.length + 1 ∧
      (state.locals self).counter.toNat < 2 ^ 31 ∧
      (state.shared.pending.length : Int) < capacity.toInt := by
  have counter : (state.locals self).counter = state.shared.rear := by
    rw [invariant.registered self (Or.inr here), call]
    rfl
  have stored := invariant.balanced.stored
  have loaded := invariant.balanced.loaded
  have slots := invariant.balanced.slots
  rw [accessing_of_mutex invariant.balanced.mutex here, call] at stored loaded
  simp only [if_pos, reduceCtorEq, if_false] at stored loaded
  have length := pending_length state.shared
  have nat := toNat_of_toInt_pos positive
  have rear := invariant.balanced.rear_lt short
  rw [counter]
  omega

/-- There is an item to load, in the slot the register names. -/
theorem Invariant.fetch (invariant : Invariant capacity state)
    (short : state.shared.inserted.length < 2 ^ 31 - 1)
    (call : (state.locals self).call = .remove) (here : (state.locals self).point = .access) :
    (state.locals self).counter.toNat = state.shared.removed.length + 1 ∧
      (state.locals self).counter.toNat < 2 ^ 31 ∧
      state.shared.removed.length < state.shared.inserted.length := by
  have counter : (state.locals self).counter = state.shared.front := by
    rw [invariant.registered self (Or.inr here), call]
    rfl
  have stored := invariant.balanced.stored
  have loaded := invariant.balanced.loaded
  have items := invariant.balanced.items
  rw [accessing_of_mutex invariant.balanced.mutex here, call] at stored loaded
  simp only [if_pos, reduceCtorEq, if_false] at stored loaded
  have rear := invariant.balanced.rear_lt short
  rw [counter]
  omega

theorem Invariant.boundedFifo (invariant : Invariant capacity state)
    (positive : 1 ≤ capacity.toInt) (short : state.shared.inserted.length < 2 ^ 31 - 1) :
    BoundedFifo capacity state := by
  have slots := invariant.balanced.slots
  have items := invariant.balanced.items
  have rear := invariant.balanced.rear_lt short
  have nat := toNat_of_toInt_pos positive
  have rearInt := BitVec.toInt_eq_toNat_of_lt (x := state.shared.rear) (by omega)
  have frontInt := BitVec.toInt_eq_toNat_of_lt (x := state.shared.front) (by omega)
  refine ⟨by omega, by omega, ?_, ?_, ?_, ⟨_, invariant.filled.ordered⟩⟩
  · intro self other here there
    exact alone_of_mutex invariant.balanced.mutex here there
  · intro self call here
    obtain ⟨value, low, room⟩ := invariant.store positive short call here
    rw [invariant.filled.next_slot value low]
    exact invariant.filled.holds.next_free room
  · intro self call here
    obtain ⟨value, low, some⟩ := invariant.fetch short call here
    obtain ⟨item, rest, pending, -, -⟩ := invariant.filled.oldest some value low
    simp [pending]

theorem Moves.inserted_le (moves : Moves sp own sp' own') :
    sp.inserted.length ≤ sp'.inserted.length := by
  cases moves <;> simp

theorem Moves.registered (moves : Moves sp own sp' own') : Registered sp' own' := by
  intro there
  cases moves with
  | load here => rfl
  | countRear call here =>
    change own.counter + 1 = Sbuf.counter _ own.call
    rw [call]
    rfl
  | countFront call here =>
    change own.counter + 1 = Sbuf.counter _ own.call
    rw [call]
    rfl
  | _ => simp at there

theorem Moves.counter (moves : Moves sp own sp' own') (elsewhere : own.point ≠ .storeCounter)
    (call : Call) : sp'.counter call = sp.counter call := by
  cases moves with
  | countRear _ here => exact absurd here elsewhere
  | countFront _ here => exact absurd here elsewhere
  | _ => cases call <;> rfl

theorem Moves.filled (moves : Moves sp own sp' own') (filled : Filled capacity sp)
    (store : own.call = .insert → own.point = .access →
      own.counter.toNat = sp.inserted.length + 1 ∧ own.counter.toNat < 2 ^ 31 ∧
        (sp.pending.length : Int) < capacity.toInt)
    (fetch : own.call = .remove → own.point = .access →
      own.counter.toNat = sp.removed.length + 1 ∧ own.counter.toNat < 2 ^ 31 ∧
        sp.removed.length < sp.inserted.length) :
    Filled capacity sp' := by
  cases moves with
  | store call here =>
    obtain ⟨value, low, room⟩ := store call here
    exact filled.store room value low own.item
  | fetch call here =>
    obtain ⟨value, low, some⟩ := fetch call here
    exact filled.fetch some value low
  | _ => exact ⟨filled.size, filled.holds, filled.ordered⟩

theorem initial_invariant (capacity : BitVec 32) :
    Invariant capacity (initial capacity : State Thread Sbuf Local) := by
  refine ⟨⟨?_, ?_, ?_, ?_, ?_⟩, ?_, rfl, ⟨rfl, nofun⟩, rfl⟩
  · simp [initial, sbufInit, total]
  · simp [initial, sbufInit, total]
  · simp [initial, sbufInit, census, Point.inside]
  · simp [initial, sbufInit, census]
  · simp [initial, sbufInit, census]
  · intro self there
    simp [initial] at there

variable [DecidableEq Thread]

/-- The registers have their counters' values after a step too: no other thread is at an
increment while one changes a counter. -/
theorem Moves.registered_all
    (moves : Moves state.shared (state.locals self) after.shared own)
    (locals : after.locals = Function.update state.locals self own)
    (mutex : state.shared.mutex + census (fun own => own.point.inside) state.locals = 1)
    (registered : ∀ self, Registered state.shared (state.locals self)) :
    ∀ self, Registered after.shared (after.locals self) := by
  intro other there
  rw [locals] at there ⊢
  by_cases same : other = self
  · subst same
    rw [Function.update_self] at there ⊢
    exact moves.registered there
  · rw [Function.update_of_ne same] at there ⊢
    rw [registered other there, moves.counter]
    intro here
    refine same (alone_of_mutex mutex ?_ ?_)
    · rcases there with there | there <;> rw [there] <;> rfl
    · rw [here]
      rfl

theorem Balanced.step (balanced : Balanced capacity state)
    (exchange : Exchange state.shared (state.locals self) after.shared own)
    (locals : after.locals = Function.update state.locals self own) :
    Balanced capacity after := by
  obtain ⟨slots, items, mutex, stored, loaded⟩ := balanced
  obtain ⟨slots', items', mutex', stored', loaded'⟩ := exchange
  have held := total_update slotsHeld state.locals self own
  have announced := total_update itemsHeld state.locals self own
  have each (inside : Local → Bool) := census_update inside state.locals self own
  constructor <;> rw [locals]
  · omega
  · omega
  · have inside := each fun own => own.point.inside
    omega
  · have accesses := each fun own => own.within .insert Point.accesses
    omega
  · have accesses := each fun own => own.within .remove Point.accesses
    omega

theorem Invariant.step (invariant : Invariant capacity state) (positive : 1 ≤ capacity.toInt)
    (short : state.shared.inserted.length < 2 ^ 31 - 1)
    (stepped : threads state (self, action) = some after) : Invariant capacity after := by
  obtain ⟨own, moved, locals⟩ := step_eq_some stepped
  have moves := moves_of_thread moved
  refine ⟨?_, ?_, ?_⟩
  · refine invariant.balanced.step (moves.exchange (invariant.registered self) ?_) locals
    intro here
    have low := invariant.balanced.counter_lt short (state.locals self).call
    rw [invariant.registered self (Or.inl here), BitVec.toNat_add, Nat.mod_eq_of_lt]
    · rfl
    · simp
      omega
  · exact moves.registered_all locals invariant.balanced.mutex invariant.registered
  · exact moves.filled invariant.filled (invariant.store positive short) (invariant.fetch short)

/-- The invariant, as far as the counters can count. -/
def Sound (capacity : BitVec 32) (state : State Thread Sbuf Local) : Prop :=
  state.shared.inserted.length < 2 ^ 31 - 1 → Invariant capacity state

/-- In every reachable state the buffer is a bounded queue, as long as fewer
items have been stored than the counters can count. -/
theorem bounded_fifo (capacity : BitVec 32) (positive : 1 ≤ capacity.toInt)
    {state : State Thread Sbuf Local} (reachable : Reachable threads (initial capacity) state)
    (short : state.shared.inserted.length < 2 ^ 31 - 1) : BoundedFifo capacity state := by
  have sound : Sound capacity state := by
    refine reachable.invariant ?_ ?_
    · intro _
      exact initial_invariant capacity
    · intro state event after held stepped short
      obtain ⟨own, moved, -⟩ := step_eq_some stepped
      have grows := (moves_of_thread moved).inserted_le
      have before : state.shared.inserted.length < 2 ^ 31 - 1 := by omega
      exact (held before).step positive before stepped
  exact (sound short).boundedFifo positive short

/-- A buffer of one slot: a removal has the first item and the next insertion its slot. -/
theorem bounded_fifo_single_slot :
    ∃ state : State (Fin 2) Sbuf Local, (state.locals 0).point = .access ∧
      state.shared.removed = [7] ∧ BoundedFifo 1 state := by
  refine ⟨_, ?_, ?_, bounded_fifo 1 (by decide) (reachable_get
    [(0, .insert 7), (0, .go), (0, .go), (0, .go), (0, .go), (0, .go), (0, .go), (0, .go),
      (1, .remove), (1, .go), (1, .go), (1, .go), (1, .go), (1, .go), (1, .go), (1, .go),
      (0, .insert 8), (0, .go), (0, .go), (0, .go), (0, .go)] rfl) ?_⟩
  · rfl
  · rfl
  · decide

end CssLab.Sync.Sbuf
