import CssLab.Lib.Counter
import CssLab.Sync.SbufFifo

namespace CssLab.Sync.Sbuf

open Transition Interleaving

/-- The index that the counter gives after so many increments. -/
def slotAt (capacity : BitVec 32) (count : Nat) : Int :=
  (BitVec.ofNat 32 count).toInt.tmod capacity.toInt

/-- This is an index of the array. -/
def Fits (capacity : BitVec 32) (slot : Int) : Prop := 0 ≤ slot ∧ slot < capacity.toInt

/-- Each slot is the one after the one before, modulo the size. -/
def Consecutive (capacity : BitVec 32) (slots : List Int) : Prop :=
  ∀ place first second, slots[place]? = some first → slots[place + 1]? = some second →
    second % capacity.toInt = (first + 1) % capacity.toInt

/-- How many accesses calls of a kind have made. -/
def done (sp : Sbuf) : Call → Nat
  | .insert => sp.inserted.length
  | .remove => sp.removed.length

/-- How often a counter was incremented, as far as one thread knows. -/
def handled (sp : Sbuf) (own : Local) (call : Call) : Nat :=
  done sp call + (own.within call Point.accesses).toNat

/-- What a step of one thread leaves the same, however large the counters are. -/
structure Tally (sp : Sbuf) (own : Local) (sp' : Sbuf) (own' : Local) : Prop where
  size : sp'.n = sp.n
  mutex : sp'.mutex + own'.point.inside.toNat = sp.mutex + own.point.inside.toNat
  items : sp'.items + itemsHeld own' + handled sp' own' .remove + handled sp own .insert =
    sp.items + itemsHeld own + handled sp own .remove + handled sp' own' .insert
  counter : ∀ call, ∃ more, handled sp' own' call = handled sp own call + more ∧
    sp'.counter call = sp.counter call + BitVec.ofNat 32 more

theorem Tally.still (size : sp'.n = sp.n)
    (mutex : sp'.mutex + own'.point.inside.toNat = sp.mutex + own.point.inside.toNat)
    (items : sp'.items + itemsHeld own' = sp.items + itemsHeld own)
    (same : ∀ call, handled sp' own' call = handled sp own call)
    (counter : ∀ call, sp'.counter call = sp.counter call) : Tally sp own sp' own' := by
  refine ⟨size, mutex, ?_, fun call => ⟨0, same call, ?_⟩⟩
  · rw [same, same]
    omega
  · rw [counter call]
    exact (BitVec.add_zero _).symm

theorem Moves.tally (moves : Moves sp own sp' own') (registered : Registered sp own) :
    Tally sp own sp' own' := by
  obtain ⟨call, point, item, counter⟩ := own
  cases moves with
  | begin here call' item' =>
    cases here
    refine .still rfl rfl ?_ ?_ fun _ => rfl
    · cases call <;> cases call' <;> rfl
    · intro other
      simp [handled]
  | takeSlot calls here free =>
    cases here
    cases calls
    exact .still rfl rfl rfl (fun other => by cases other <;> rfl) fun other => by
      cases other <;> rfl
  | takeItem calls here free =>
    cases here
    cases calls
    refine .still rfl rfl ?_ (fun other => by cases other <;> rfl) fun other => by
      cases other <;> rfl
    simp [free]
  | lock here free =>
    cases here
    refine .still rfl ?_ ?_ ?_ fun other => by cases other <;> rfl
    · simp [free, Point.inside]
    · cases call <;> rfl
    · intro other
      cases other <;> simp [handled, done]
  | load here =>
    cases here
    refine .still rfl rfl ?_ ?_ fun _ => rfl
    · cases call <;> rfl
    · intro other
      simp [handled]
  | countRear calls here =>
    cases here
    cases calls
    have value : counter = sp.rear := registered (Or.inl rfl)
    subst value
    refine ⟨rfl, rfl, ?_, fun other => ?_⟩
    · simp [handled, done]
      omega
    · cases other with
      | insert => exact ⟨1, rfl, rfl⟩
      | remove => exact ⟨0, rfl, (BitVec.add_zero _).symm⟩
  | countFront calls here =>
    cases here
    cases calls
    have value : counter = sp.front := registered (Or.inl rfl)
    subst value
    refine ⟨rfl, rfl, ?_, fun other => ?_⟩
    · simp [handled, done]
      omega
    · cases other with
      | insert => exact ⟨0, rfl, (BitVec.add_zero _).symm⟩
      | remove => exact ⟨1, rfl, rfl⟩
  | store calls here =>
    cases here
    cases calls
    refine .still rfl rfl rfl ?_ fun other => by cases other <;> rfl
    intro other
    cases other <;> simp [handled, done]
  | fetch calls here =>
    cases here
    cases calls
    refine .still rfl rfl rfl ?_ fun other => by cases other <;> rfl
    intro other
    cases other <;> simp [handled, done]
  | unlock here =>
    cases here
    refine .still rfl ?_ ?_ ?_ fun other => by cases other <;> rfl
    · simp [Point.inside]
    · cases call <;> rfl
    · intro other
      cases other <;> simp [handled, done]
  | postItem calls here =>
    cases here
    cases calls
    refine .still rfl rfl ?_ ?_ fun other => by cases other <;> rfl
    · simp
    · intro other
      cases other <;> simp [handled, done]
  | postSlot calls here =>
    cases here
    cases calls
    refine .still rfl rfl rfl ?_ fun other => by cases other <;> rfl
    intro other
    cases other <;> simp [handled, done]

theorem within_accesses {own : Local} {call : Call} :
    own.within call Point.accesses ↔ own.call = call ∧ own.point = .access := by
  rw [Local.within, Bool.and_eq_true, decide_eq_true_eq]
  refine and_congr_right fun _ => ?_
  cases own.point <;> simp

theorem within_elsewhere {own : Local} (elsewhere : own.point ≠ .access) (call : Call) :
    own.within call Point.accesses = false := by
  rw [← Bool.not_eq_true, within_accesses]
  exact fun both => elsewhere both.2

/-- An insertion stores its item in the slot that its register names, a removal loads one,
and every other step leaves what was inserted and what was removed as it was. -/
theorem Moves.access_cases (moves : Moves sp own sp' own') :
    (own.call = .insert ∧ own.point = .access ∧
      sp'.inserted = sp.inserted ++ [(sp.slot own.counter, own.item)] ∧
        sp'.removed = sp.removed) ∨
    (own.call = .remove ∧ own.point = .access ∧ sp'.inserted = sp.inserted ∧
      ∃ item, sp'.removed = sp.removed ++ [item]) ∨
    (own.point ≠ .access ∧ sp'.inserted = sp.inserted ∧ sp'.removed = sp.removed) := by
  cases moves with
  | store calls here => exact .inl ⟨calls, here, rfl, rfl⟩
  | fetch calls here => exact .inr (.inl ⟨calls, here, rfl, _, rfl⟩)
  | begin here => exact .inr (.inr ⟨by simp [here], rfl, rfl⟩)
  | takeSlot _ here | takeItem _ here | lock here | load here | countRear _ here
  | countFront _ here | unlock here | postItem _ here | postSlot _ here =>
    exact .inr (.inr ⟨by simp [here], rfl, rfl⟩)

theorem Moves.done_eq (moves : Moves sp own sp' own') (call : Call) :
    done sp' call = done sp call + (own.within call Point.accesses).toNat := by
  rcases moves.access_cases with ⟨calls, here, inserted, removed⟩ |
    ⟨calls, here, inserted, item, removed⟩ | ⟨elsewhere, inserted, removed⟩
  · cases call <;> simp [done, inserted, removed, Local.within, calls, here]
  · cases call <;> simp [done, inserted, removed, Local.within, calls, here]
  · rw [within_elsewhere elsewhere]
    cases call <;> simp [done, inserted, removed]

theorem Moves.inserted_eq (moves : Moves sp own sp' own') :
    sp'.inserted.map Prod.fst = sp.inserted.map Prod.fst ++
      if own.within .insert Point.accesses then [sp.slot own.counter] else [] := by
  rcases moves.access_cases with ⟨calls, here, inserted, -⟩ | ⟨calls, -, inserted, -⟩ |
    ⟨elsewhere, inserted, -⟩
  · rw [inserted, List.map_append, if_pos (within_accesses.mpr ⟨calls, here⟩)]
    rfl
  · simp [inserted, Local.within, calls]
  · rw [inserted, within_elsewhere elsewhere, if_neg Bool.false_ne_true, List.append_nil]

section Runs

variable {Thread : Type*} [DecidableEq Thread] {state after : State Thread Sbuf Local}

theorem done_step (stepped : threads state event = some after) (call : Call) :
    done state.shared call ≤ done after.shared call := by
  obtain ⟨own, moved, -⟩ := step_eq_some stepped
  rw [(moves_of_thread moved).done_eq]
  exact Nat.le_add_right _ _

theorem done_le (run : follow threads state actions = some after) (call : Call) :
    done state.shared call ≤ done after.shared call := by
  induction actions generalizing state with
  | nil =>
    cases run
    exact Nat.le_refl _
  | cons event rest ih =>
    obtain ⟨second, stepped, tail⟩ := Option.bind_eq_some_iff.mp run
    exact (done_step stepped call).trans (ih tail)

end Runs

section Counted

variable {Thread : Type*} [Fintype Thread] {capacity : BitVec 32}
  {state after : State Thread Sbuf Local}

/-- How often a counter was incremented. -/
def counts (state : State Thread Sbuf Local) (call : Call) : Nat :=
  done state.shared call + census (fun own => own.within call Point.accesses) state.locals

/-- What all of the threads keep, however large the counters are: these show how often
they were incremented, modulo 2^32. -/
structure Counted (capacity : BitVec 32) (state : State Thread Sbuf Local) : Prop where
  size : state.shared.n = capacity
  mutex : state.shared.mutex + census (fun own => own.point.inside) state.locals = 1
  items : state.shared.items + total itemsHeld state.locals + counts state .remove =
    counts state .insert
  counter : ∀ call, state.shared.counter call = BitVec.ofNat 32 (counts state call)
  registered : ∀ self, Registered state.shared (state.locals self)
  behind : done state.shared .remove ≤ done state.shared .insert
  slots : state.shared.inserted.map Prod.fst =
    (List.range (done state.shared .insert)).map fun place => slotAt capacity (place + 1)

/-- The index of an access is that of the next item. -/
theorem Counted.access (counted : Counted capacity state)
    (here : (state.locals self).point = .access) :
    state.shared.slot (state.locals self).counter =
      slotAt capacity (done state.shared (state.locals self).call + 1) := by
  rw [slot, counted.registered self (Or.inr here), counted.counter, counts,
    accessing_of_mutex counted.mutex here, if_pos rfl, counted.size, slotAt]

theorem Counted.slot_eq (counted : Counted capacity state)
    (found : (state.shared.inserted.map Prod.fst)[place]? = some index) :
    place < state.shared.inserted.length ∧ index = slotAt capacity (place + 1) := by
  rw [counted.slots] at found
  obtain ⟨below, same⟩ := List.getElem?_eq_some_iff.mp found
  rw [List.length_map, List.length_range] at below
  rw [List.getElem_map, List.getElem_range] at same
  exact ⟨below, same.symm⟩

/-- There is an item for a thread that is about to load one. -/
theorem Counted.ahead (counted : Counted capacity state)
    (call : (state.locals self).call = .remove) (here : (state.locals self).point = .access) :
    done state.shared .remove + 1 ≤ done state.shared .insert := by
  have items := counted.items
  rw [counts, counts, accessing_of_mutex counted.mutex here, accessing_of_mutex counted.mutex here,
    call, if_pos rfl, if_neg (by decide)] at items
  omega

theorem initial_counted (capacity : BitVec 32) :
    Counted capacity (initial capacity : State Thread Sbuf Local) := by
  refine ⟨rfl, ?_, ?_, ?_, ?_, Nat.le_refl _, rfl⟩
  · simp [initial, sbufInit, census, Point.inside]
  · simp [initial, sbufInit, total, counts, done, census]
  · intro call
    cases call <;> simp [initial, sbufInit, counts, done, census, counter]
  · intro self there
    simp [initial] at there

variable [DecidableEq Thread]

theorem counts_step
    (locals : after.locals = Function.update state.locals self own) (call : Call) :
    counts after call + handled state.shared (state.locals self) call =
      counts state call + handled after.shared own call := by
  have each := census_update (fun own => own.within call Point.accesses) state.locals self own
  rw [counts, counts, handled, handled, locals]
  omega

theorem Counted.step (counted : Counted capacity state)
    (stepped : threads state (self, action) = some after) : Counted capacity after := by
  obtain ⟨own, moved, locals⟩ := step_eq_some stepped
  have moves := moves_of_thread moved
  have tally := moves.tally (counted.registered self)
  have inside := census_update (fun own : Local => own.point.inside) state.locals self own
  have held := total_update itemsHeld state.locals self own
  have inserts := counts_step locals .insert
  have removes := counts_step locals .remove
  refine ⟨tally.size.trans counted.size, ?_, ?_, ?_, ?_, ?_, ?_⟩
  · have mutex := counted.mutex
    have mutex' := tally.mutex
    rw [locals]
    omega
  · have items := counted.items
    have items' := tally.items
    rw [locals]
    omega
  · intro call
    obtain ⟨more, grown, counter⟩ := tally.counter call
    have counted' := counts_step locals call
    have same : counts after call = counts state call + more := by omega
    rw [counter, counted.counter, same, BitVec.ofNat_add]
  · exact moves.registered_all locals counted.mutex counted.registered
  · have behind := counted.behind
    rw [moves.done_eq, moves.done_eq]
    by_cases loads : (state.locals self).within .remove Point.accesses
    · obtain ⟨call, here⟩ := within_accesses.mp loads
      have ahead := counted.ahead call here
      rw [loads, Bool.toNat_true]
      omega
    · rw [Bool.not_eq_true] at loads
      rw [loads, Bool.toNat_false]
      omega
  · rw [moves.inserted_eq, counted.slots, moves.done_eq]
    by_cases stores : (state.locals self).within .insert Point.accesses
    · obtain ⟨call, here⟩ := within_accesses.mp stores
      have slot := counted.access here
      rw [call] at slot
      rw [if_pos stores, stores, Bool.toNat_true, List.range_succ, List.map_append, slot]
      rfl
    · rw [if_neg stores, List.append_nil]
      rw [Bool.not_eq_true] at stores
      rw [stores, Bool.toNat_false, Nat.add_zero]

/-- The index that a step uses is one of the array. -/
def InRange (capacity : BitVec 32) (state : State Thread Sbuf Local) (event : Thread × Action) :
    Prop :=
  (state.locals event.1).point = .access →
    Fits capacity (state.shared.slot (state.locals event.1).counter)

/-- The indices between two counts are of the array. -/
def FitsBetween (capacity : BitVec 32) (before after : Sbuf) : Prop :=
  ∀ call count, done before call < count → count ≤ done after call →
    Fits capacity (slotAt capacity count)

/-- A step uses the index of the next item, if any. -/
theorem Counted.inRange_iff (counted : Counted capacity state)
    (stepped : threads state (self, action) = some after) :
    InRange capacity state (self, action) ↔ FitsBetween capacity state.shared after.shared := by
  obtain ⟨own, moved, locals⟩ := step_eq_some stepped
  have moves := moves_of_thread moved
  rw [InRange, FitsBetween]
  simp only [moves.done_eq]
  by_cases here : (state.locals self).point = .access
  · have slot := counted.access here
    simp only [here, forall_const, slot]
    constructor
    · intro fits call count above below
      have mine : (state.locals self).within call Point.accesses := by
        by_contra other
        rw [Bool.not_eq_true] at other
        rw [other, Bool.toNat_false] at below
        omega
      obtain ⟨rfl, -⟩ := within_accesses.mp mine
      rw [mine, Bool.toNat_true] at below
      obtain rfl : count = done state.shared (state.locals self).call + 1 := by omega
      exact fits
    · intro all
      have mine := within_accesses.mpr ⟨rfl, here⟩
      refine all (state.locals self).call _ (Nat.lt_succ_self _) ?_
      rw [mine, Bool.toNat_true]
  · refine iff_of_true (fun there => absurd there here) ?_
    intro call count above below
    rw [within_elsewhere here, Bool.toNat_false] at below
    omega

/-- The indices that a run uses are those from the first of its counts to the last. -/
theorem Counted.each_iff (counted : Counted capacity state)
    (run : follow threads state actions = some after) :
    EachStep threads (InRange capacity) state actions ↔
      FitsBetween capacity state.shared after.shared := by
  induction actions generalizing state with
  | nil =>
    cases run
    exact iff_of_true trivial fun call count above below => by omega
  | cons event rest ih =>
    obtain ⟨self, action⟩ := event
    obtain ⟨second, stepped, tail⟩ := Option.bind_eq_some_iff.mp run
    have first := counted.inRange_iff stepped
    have later := ih (counted.step stepped) tail
    have up := done_step stepped
    have further := done_le tail
    simp only [EachStep, stepped, Option.mem_some_iff, forall_eq', first, later]
    constructor
    · rintro ⟨before, behind⟩ call count above below
      rcases Nat.lt_or_ge (done second.shared call) count with there | here
      · exact behind call count there below
      · exact before call count above here
    · intro all
      exact ⟨fun call count above below => all call count above (below.trans (further call)),
        fun call count above below => all call count ((up call).trans_lt above) below⟩

end Counted

section Arithmetic

variable {capacity : BitVec 32}

/-- As long as the counter is not negative the index is what it should be, and for the
least value if the size divides that. -/
theorem slotAt_eq (low : count < 2 ^ 31 ∨ count = 2 ^ 31 ∧ capacity.toInt ∣ 2 ^ 31) :
    slotAt capacity count = (count : Int) % capacity.toInt := by
  rw [slotAt]
  rcases low with low | ⟨rfl, divides⟩
  · rw [(Counter.toInt_eq_iff count).mpr low, Int.tmod_eq_emod_of_nonneg (Int.natCast_nonneg _)]
  · have least : (BitVec.ofNat 32 (2 ^ 31)).toInt = -(2 ^ 31) := by decide
    have most : ((2 ^ 31 : Nat) : Int) = 2 ^ 31 := by decide
    rw [least, most, Int.tmod_eq_zero_of_dvd ((Int.dvd_neg).mpr divides),
      Int.emod_eq_zero_of_dvd divides]

/-- The remainder of a negative number is an index only if it is zero. -/
theorem dvd_of_fits {number : Int} (positive : 0 ≤ number)
    (fits : Fits capacity ((-number).tmod capacity.toInt)) : capacity.toInt ∣ number := by
  have low := fits.1
  have remainder := Int.tmod_nonneg capacity.toInt positive
  rw [Int.neg_tmod] at low
  exact Int.dvd_of_tmod_eq_zero (by omega)

theorem toInt_eq_one : capacity.toInt = 1 ↔ capacity = 1 := by
  have one : (1 : BitVec 32).toInt = 1 := by decide
  rw [← one, BitVec.toInt_inj]

theorem low_of_le {total : Nat} (low : total < 2 ^ 31 ∨ total = 2 ^ 31 ∧ capacity.toInt ∣ 2 ^ 31)
    (below : count ≤ total) : count < 2 ^ 31 ∨ count = 2 ^ 31 ∧ capacity.toInt ∣ 2 ^ 31 := by
  rcases low with low | ⟨rfl, divides⟩
  · exact .inl (Nat.lt_of_le_of_lt below low)
  · rcases Nat.lt_or_eq_of_le below with less | same
    · exact .inl less
    · exact .inr ⟨same, divides⟩

/-- All indices are of the array if there is one slot, if the counter does not become
negative, or if it comes to the least value and no further and the size divides that. -/
theorem fits_all_iff (positive : 1 ≤ capacity.toInt) (total : Nat) :
    (∀ count, 0 < count → count ≤ total → Fits capacity (slotAt capacity count)) ↔
      capacity = 1 ∨ total < 2 ^ 31 ∨ total = 2 ^ 31 ∧ capacity.toInt ∣ 2 ^ 31 := by
  constructor
  · intro all
    by_contra none
    obtain ⟨several, long, further⟩ : capacity ≠ 1 ∧ 2 ^ 31 ≤ total ∧
        ¬(total = 2 ^ 31 ∧ capacity.toInt ∣ 2 ^ 31) := by
      simpa only [not_or, Nat.not_lt] using none
    have least : (BitVec.ofNat 32 (2 ^ 31)).toInt = -(2 ^ 31) := by decide
    have next : (BitVec.ofNat 32 (2 ^ 31 + 1)).toInt = -(2 ^ 31 - 1) := by decide
    have divides : capacity.toInt ∣ 2 ^ 31 := by
      refine dvd_of_fits (by decide) ?_
      rw [← least]
      exact all (2 ^ 31) (by decide) long
    have divides' : capacity.toInt ∣ 2 ^ 31 - 1 := by
      refine dvd_of_fits (by decide) ?_
      rw [← next]
      refine all (2 ^ 31 + 1) (by decide) (Nat.lt_of_le_of_ne long fun same => ?_)
      exact further ⟨same.symm, divides⟩
    have one : capacity.toInt ∣ 1 := by
      have both := Int.dvd_sub divides divides'
      rwa [Int.sub_sub_self] at both
    exact several (toInt_eq_one.mp (Int.eq_one_of_dvd_one (by omega) one))
  · rintro (single | low) count above below
    · have one := toInt_eq_one.mpr single
      rw [Fits, slotAt, one, Int.tmod_one]
      exact ⟨Int.le_refl _, Int.one_pos⟩
    · rw [slotAt_eq (low_of_le low below)]
      exact ⟨Int.emod_nonneg _ (by omega), Int.emod_lt_of_pos _ (by omega)⟩

theorem slotAt_succ {total : Nat}
    (low : capacity = 1 ∨ total < 2 ^ 31 ∨ total = 2 ^ 31 ∧ capacity.toInt ∣ 2 ^ 31)
    (below : count + 1 ≤ total) :
    slotAt capacity (count + 1) % capacity.toInt =
      (slotAt capacity count + 1) % capacity.toInt := by
  rcases low with single | low
  · rw [toInt_eq_one.mpr single, Int.emod_one, Int.emod_one]
  · have before : count < 2 ^ 31 := by omega
    rw [slotAt_eq (low_of_le low below), slotAt_eq (.inl before), Int.emod_emod,
      Int.emod_add_emod]
    rfl

end Arithmetic

section Whole

variable {Thread : Type*} [Fintype Thread] [DecidableEq Thread] {capacity : BitVec 32}
  {state : State Thread Sbuf Local}

theorem counted_of_follow (run : follow threads (initial capacity) actions = some state) :
    Counted capacity state :=
  Reachable.invariant (initial_counted capacity)
    (fun _ _ _ counted stepped => counted.step stepped) ⟨actions, run⟩

theorem each_inRange_iff (positive : 1 ≤ capacity.toInt)
    (run : follow threads (initial capacity) actions = some state) :
    EachStep threads (InRange capacity) (initial capacity) actions ↔
      capacity = 1 ∨ state.shared.inserted.length < 2 ^ 31 ∨
        state.shared.inserted.length = 2 ^ 31 ∧ capacity.toInt ∣ 2 ^ 31 := by
  have behind := (counted_of_follow run).behind
  rw [(initial_counted capacity).each_iff run, ← fits_all_iff positive]
  constructor
  · intro all count above below
    exact all .insert count above below
  · intro all call count above below
    cases call with
    | insert => exact all count above below
    | remove => exact all count (Nat.zero_lt_of_lt above) (below.trans behind)

/-- In a run of any length, all indices that are used are of the array and insertions take
consecutive slots, exactly if the array has one slot, or there are fewer than 2^31
insertions, or there are as many as that and the size divides the number. -/
theorem indices_in_range_iff (positive : 1 ≤ capacity.toInt)
    (run : follow threads (initial capacity) actions = some state) :
    EachStep threads (InRange capacity) (initial capacity) actions ∧
        Consecutive capacity (state.shared.inserted.map Prod.fst) ↔
      capacity = 1 ∨ state.shared.inserted.length < 2 ^ 31 ∨
        state.shared.inserted.length = 2 ^ 31 ∧ capacity.toInt ∣ 2 ^ 31 := by
  rw [each_inRange_iff positive run]
  refine ⟨And.left, fun low => ⟨low, ?_⟩⟩
  intro place first second found found'
  obtain ⟨-, rfl⟩ := (counted_of_follow run).slot_eq found
  obtain ⟨below, rfl⟩ := (counted_of_follow run).slot_eq found'
  exact slotAt_succ low below

end Whole

/-- An insertion and a removal. -/
def roundTrip : List Action :=
  [.insert 7, .go, .go, .go, .go, .go, .go, .go, .remove, .go, .go, .go, .go, .go, .go, .go]

theorem indices_in_range_round :
    ∃ state : State Unit Sbuf Local,
      follow threads (initial 3) (roundTrip.map ((), ·)) = some state ∧
        state.shared.inserted = [(1, 7)] ∧ state.shared.removed = [7] ∧
          EachStep threads (InRange 3) (initial 3) (roundTrip.map ((), ·)) ∧
            Consecutive 3 (state.shared.inserted.map Prod.fst) := by
  refine ⟨_, rfl, rfl, rfl, (indices_in_range_iff (by decide) rfl).mpr (.inr (.inl ?_))⟩
  decide

/-- Between two calls of a thread, with so many items stored and all of them removed. -/
structure Rested (capacity : BitVec 32) (count : Nat) (sp : Sbuf) (own : Local) : Prop where
  idle : own.point = .idle
  mutex : sp.mutex = 1
  slots : sp.slots = capacity.toNat
  items : sp.items = 0
  stored : sp.inserted.length = count

theorem Rested.roundTrip (rested : Rested 3 count sp own) :
    ∃ sp' own', Rested 3 (count + 1) sp' own' ∧
      follow (fun now => thread now.1 now.2) (sp, own) roundTrip = some (sp', own') := by
  obtain ⟨call, point, item, register⟩ := own
  obtain ⟨buf, n, front, rear, mutex, slots, items, inserted, removed⟩ := sp
  obtain ⟨idle, mutexFree, allFree, noItems, stored⟩ := rested
  cases idle
  cases mutexFree
  cases allFree
  cases noItems
  refine ⟨_, _, ?_, rfl⟩
  exact ⟨rfl, rfl, rfl, rfl, by rw [← stored]; simp⟩

theorem reachable_rested (count : Nat) : ∃ state : State Unit Sbuf Local,
    Rested 3 count state.shared (state.locals ()) ∧ Reachable threads (initial 3) state := by
  refine reachable_rounds (fun count (state : State Unit Sbuf Local) =>
    Rested 3 count state.shared (state.locals ())) ?_ ?_ count
  · exact ⟨rfl, rfl, rfl, rfl, rfl⟩
  · intro count state rested
    obtain ⟨sp, own, rested', run⟩ := rested.roundTrip
    refine ⟨_, _, ?_, follow_alone () run⟩
    simpa using rested'

/-- With three slots, the insertion number 2^31 uses a negative index. -/
theorem negative_index :
    ∃ actions, ∃ state : State Unit Sbuf Local,
      follow threads (initial 3) actions = some state ∧
        ¬ (EachStep threads (InRange 3) (initial 3) actions ∧
          Consecutive 3 (state.shared.inserted.map Prod.fst)) := by
  obtain ⟨state, rested, actions, run⟩ := reachable_rested (2 ^ 31)
  refine ⟨actions, state, run, fun both => ?_⟩
  have low := (each_inRange_iff (by decide) run).mp both.1
  rw [rested.stored] at low
  exact absurd low (by decide)

end CssLab.Sync.Sbuf
