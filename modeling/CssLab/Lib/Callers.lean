import CssLab.Lib.Census
import CssLab.Lib.LostUpdate
import Mathlib.Data.Fintype.Fin

/-! Threads that call the operations of an object a number of times each, one call after the
other. `thread` is what is known of the steps of a call. -/

namespace CssLab.Callers

open Transition Interleaving

variable {Thread Shared Local Action : Type*}

/-- Before a test of the loop, in a call, or behind the loop. -/
inductive Place (Local : Type*)
  | loop
  | calls (inner : Local)
  | exited

structure Caller (Local : Type*) where
  i : Nat
  place : Place Local

def begun : Caller Local := ⟨0, .loop⟩

/-- A loop whose body is one call, that of a round starting at `enter`. -/
def repeats (thread : Shared → Local → Action → Option (Shared × Local)) (returned : Local → Bool)
    (enter : Nat → Local) (rounds : Nat) (shared : Shared) (own : Caller Local) (action : Action) :
    Option (Shared × Caller Local) :=
  match own.place with
  | .loop =>
    if own.i < rounds then some (shared, ⟨own.i, .calls (enter own.i)⟩)
    else some (shared, ⟨own.i, .exited⟩)
  | .calls inner =>
    if returned inner then some (shared, ⟨own.i + 1, .loop⟩)
    else (thread shared inner action).map fun after => (after.1, ⟨own.i, .calls after.2⟩)
  | .exited => none

/-- The steps of the loop. -/
inductive Moved (thread : Shared → Local → Action → Option (Shared × Local))
    (returned : Local → Bool) (enter : Nat → Local) (rounds : Nat) (shared : Shared) (i : Nat)
    (action : Action) : Place Local → Shared → Caller Local → Prop
  | enters (more : i < rounds) : Moved thread returned enter rounds shared i action .loop shared
      ⟨i, .calls (enter i)⟩
  | exits (past : ¬i < rounds) : Moved thread returned enter rounds shared i action .loop shared
      ⟨i, .exited⟩
  | returns {inner : Local} (ended : returned inner) : Moved thread returned enter rounds shared i
      action (.calls inner) shared ⟨i + 1, .loop⟩
  | goes {inner inner' : Local} (active : returned inner = false) (moved : thread shared inner
      action = some (shared', inner')) : Moved thread returned enter rounds shared i action
      (.calls inner) shared' ⟨i, .calls inner'⟩

variable {thread : Shared → Local → Action → Option (Shared × Local)} {returned : Local → Bool}
  {enter : Nat → Local} {rounds : Nat} {shared shared' : Shared} {own own' : Caller Local}
  {action : Action}

theorem moved_of_repeats
    (moved : repeats thread returned enter rounds shared own action = some (shared', own')) :
    Moved thread returned enter rounds shared own.i action own.place shared' own' := by
  obtain ⟨i, place⟩ := own
  cases place with
  | loop =>
    by_cases more : i < rounds
    · cases (if_pos more).symm.trans moved
      exact .enters more
    · cases (if_neg more).symm.trans moved
      exact .exits more
  | calls inner =>
    cases ended : returned inner with
    | true =>
      cases (if_pos ended).symm.trans moved
      exact .returns ended
    | false =>
      have active : ¬returned inner = true := by simp [ended]
      obtain ⟨⟨after, inner'⟩, goes, same⟩ :=
        Option.map_eq_some_iff.mp ((if_neg active).symm.trans moved)
      cases same
      exact .goes ended goes
  | exited => cases moved

/-- What the object sees of a caller, which is idle between its calls. -/
def Caller.inner (idle : Local) (own : Caller Local) : Local :=
  match own.place with
  | .calls inner => inner
  | _ => idle

def view (idle : Local) (state : State Thread Shared (Caller Local)) :
    State Thread Shared Local :=
  ⟨state.shared, fun self => (state.locals self).inner idle⟩

/-- For the object a step of the loop is one of a thread that uses it, or none. -/
theorem Moved.inner {idle : Local}
    (enters : ∀ shared i, ∃ action, thread shared idle action = some (shared, enter i))
    (leaves : ∀ shared inner, returned inner →
      ∃ action, thread shared inner action = some (shared, idle))
    (moved : Moved thread returned enter rounds shared i action place shared' own') :
    shared' = shared ∧ own'.inner idle = Caller.inner idle ⟨i, place⟩ ∨
      ∃ action', thread shared (Caller.inner idle ⟨i, place⟩) action' =
        some (shared', own'.inner idle) := by
  cases moved with
  | enters more => exact .inr (enters shared i)
  | exits past => exact .inl ⟨rfl, rfl⟩
  | returns ended => exact .inr (leaves shared _ ended)
  | goes active moved => exact .inr ⟨action, moved⟩

theorem view_step [DecidableEq Thread] {idle : Local} {enter : Thread → Nat → Local}
    {state after : State Thread Shared (Caller Local)} {self : Thread}
    (enters : ∀ shared i, ∃ action, thread shared idle action = some (shared, enter self i))
    (leaves : ∀ shared inner, returned inner →
      ∃ action, thread shared inner action = some (shared, idle))
    (stepped : Interleaving.step (fun self => repeats thread returned (enter self) rounds) state
      (self, action) = some after) :
    view idle after = view idle state ∨ ∃ action', Interleaving.step (fun _ => thread)
      (view idle state) (self, action') = some (view idle after) := by
  obtain ⟨own, moves, locals⟩ := step_eq_some stepped
  have seen : view idle after =
      ⟨after.shared, Function.update (view idle state).locals self (own.inner idle)⟩ := by
    refine congrArg (State.mk after.shared) (funext fun other => ?_)
    rw [locals]
    by_cases which : other = self
    · subst which
      simp
    · simp [which, view]
  rw [seen]
  rcases (moved_of_repeats moves).inner enters leaves with ⟨shared, same⟩ | ⟨action', went⟩
  · left
    rw [shared, same]
    exact congrArg (State.mk state.shared) (Function.update_eq_self self (view idle state).locals)
  · exact .inr ⟨action', congrArg (Option.map _) went⟩

/-- The rounds that are begun are at most all. -/
def Caller.Within (rounds : Nat) (own : Caller Local) : Prop :=
  match own.place with
  | .loop => own.i ≤ rounds
  | .calls _ => own.i < rounds
  | .exited => own.i = rounds

theorem Moved.within (within : Caller.Within rounds ⟨i, place⟩)
    (moved : Moved thread returned enter rounds shared i action place shared' own') :
    own'.Within rounds := by
  cases moved with
  | enters more => exact more
  | exits past => exact Nat.le_antisymm within (Nat.le_of_not_lt past)
  | returns ended => exact within
  | goes active moved => exact within

/-- A call is done as soon as it is past its effect. -/
def Caller.done (past : Local → Bool) (own : Caller Local) : Nat :=
  match own.place with
  | .calls inner => own.i + (past inner).toNat
  | _ => own.i

theorem Caller.Within.done_le (within : Caller.Within rounds own) (past : Local → Bool) :
    own.done past ≤ rounds := by
  obtain ⟨i, place⟩ := own
  cases place with
  | loop => exact within
  | calls inner =>
    have more : i < rounds := within
    have one : (past inner).toNat ≤ 1 := Bool.toNat_le _
    change i + (past inner).toNat ≤ rounds
    omega
  | exited => exact within.le

theorem Caller.Within.done_eq (within : Caller.Within rounds own) (exited : own.place = .exited)
    (past : Local → Bool) : own.done past = rounds := by
  rw [Caller.Within, exited] at within
  rw [Caller.done, exited]
  exact within

/-- What holds in each call. -/
def Caller.Inside (holds : Local → Prop) (own : Caller Local) : Prop :=
  ∀ inner, own.place = .calls inner → holds inner

theorem Moved.inside (holds : Local → Prop) (entered : holds (enter i))
    (goes : ∀ inner shared' inner', place = .calls inner → returned inner = false →
      thread shared inner action = some (shared', inner') → holds inner')
    (moved : Moved thread returned enter rounds shared i action place shared' own') :
    own'.Inside holds := by
  intro inner at'
  cases moved with
  | enters more =>
    cases at'
    exact entered
  | exits past => cases at'
  | returns ended => cases at'
  | goes active moved =>
    cases at'
    exact goes _ _ _ rfl active moved

/-- What the shared state gains or loses in a step is the effect of a call that gets past it. -/
theorem Moved.size {past : Local → Bool} {sign : Int} (size : Shared → Int)
    (entered : past (enter i) = false) (ended : ∀ inner, returned inner → past inner = true)
    (goes : ∀ inner shared' inner', place = .calls inner → returned inner = false →
      thread shared inner action = some (shared', inner') →
      size shared' = size shared + sign * ((past inner').toNat - (past inner).toNat))
    (moved : Moved thread returned enter rounds shared i action place shared' own') :
    size shared' = size shared + sign * (own'.done past - Caller.done past ⟨i, place⟩) := by
  cases moved with
  | enters more => simp [Caller.done, entered]
  | exits past => simp [Caller.done]
  | returns after => simp [Caller.done, ended _ after]
  | goes active moved =>
    rw [goes _ _ _ rfl active moved]
    simp only [Caller.done]
    push_cast
    ring

theorem Moved.keeps (holds : Shared → Prop) (held : holds shared)
    (goes : ∀ inner shared' inner', place = .calls inner → returned inner = false →
      thread shared inner action = some (shared', inner') → holds shared')
    (moved : Moved thread returned enter rounds shared i action place shared' own') :
    holds shared' := by
  cases moved with
  | enters more => exact held
  | exits past => exact held
  | returns ended => exact held
  | goes active moved => exact goes _ _ _ rfl active moved

/-- The steps that are left of a loop whose calls have a rank below `most`. -/
def Caller.left (rank : Local → Nat) (most rounds : Nat) (own : Caller Local) : Nat :=
  match own.place with
  | .loop => (rounds - own.i) * (most + 1) + 1
  | .calls inner => (rounds - 1 - own.i) * (most + 1) + 1 + rank inner
  | .exited => 0

theorem Moved.left (rank rank' : Local → Nat) {most : Nat} (entered : rank' (enter i) ≤ most)
    (ended : ∀ inner, returned inner → 0 < rank inner)
    (goes : ∀ inner inner', place = .calls inner → returned inner = false →
      thread shared inner action = some (shared', inner') → rank' inner' < rank inner)
    (moved : Moved thread returned enter rounds shared i action place shared' own') :
    own'.left rank' most rounds < Caller.left rank most rounds ⟨i, place⟩ := by
  cases moved with
  | enters more =>
    have split : rounds - i = rounds - 1 - i + 1 := by omega
    simp only [Caller.left]
    rw [split, Nat.succ_mul]
    omega
  | exits past => exact Nat.succ_pos _
  | returns after =>
    have positive := ended _ after
    have same : rounds - (i + 1) = rounds - 1 - i := by omega
    simp only [Caller.left]
    rw [same]
    omega
  | goes active moved => exact Nat.add_lt_add_left (goes _ _ rfl active moved) _

section Log

variable {past : Local → Bool} {locals : Thread → Caller Local} {self : Thread}
  {log : List (Thread × Nat)}

/-- What holds in each call of its round. -/
def Caller.InRound (holds : Nat → Local → Prop) (own : Caller Local) : Prop :=
  own.Inside (holds own.i)

theorem Moved.inRound (holds : Nat → Local → Prop) (entered : holds i (enter i))
    (goes : ∀ inner inner', place = .calls inner → returned inner = false →
      thread shared inner action = some (shared', inner') → holds i inner')
    (moved : Moved thread returned enter rounds shared i action place shared' own') :
    own'.InRound holds := by
  intro inner at'
  cases moved with
  | enters more =>
    cases at'
    exact entered
  | exits past => cases at'
  | returns ended => cases at'
  | goes active moved =>
    cases at'
    exact goes _ _ rfl active moved

/-- In a step a call takes its effect, or the shared state stays what it is. -/
theorem Moved.commits (past : Local → Bool) (same done : Shared → Prop) (still : same shared)
    (entered : past (enter i) = false) (ended : ∀ inner, returned inner → past inner = true)
    (goes : ∀ inner inner', place = .calls inner → returned inner = false →
      thread shared inner action = some (shared', inner') →
      past inner' = past inner ∧ same shared' ∨
        past inner = false ∧ past inner' = true ∧ done shared')
    (moved : Moved thread returned enter rounds shared i action place shared' own') :
    own'.done past = Caller.done past ⟨i, place⟩ ∧ same shared' ∨
      Caller.done past ⟨i, place⟩ = i ∧ own'.done past = i + 1 ∧ done shared' := by
  cases moved with
  | enters more => exact .inl ⟨by simp [Caller.done, entered], still⟩
  | exits => exact .inl ⟨rfl, still⟩
  | returns after => exact .inl ⟨by simp [Caller.done, ended _ after], still⟩
  | goes active moved =>
    rcases goes _ _ rfl active moved with ⟨kept, same⟩ | ⟨before, after, done⟩
    · exact .inl ⟨by simp [Caller.done, kept], same⟩
    · exact .inr ⟨by simp [Caller.done, before], by simp [Caller.done, after], done⟩

/-- The calls that are past their effects, the last one first. -/
structure Logged (past : Local → Bool) (locals : Thread → Caller Local)
    (log : List (Thread × Nat)) : Prop where
  order : log.Pairwise fun later earlier => later.1 = earlier.1 → earlier.2 < later.2
  mem : ∀ self i, (self, i) ∈ log ↔ i < (locals self).done past

theorem logged_begun (past : Local → Bool) : Logged past (fun _ : Thread => begun) [] :=
  ⟨.nil, fun _ _ => iff_of_false List.not_mem_nil (Nat.not_lt_zero _)⟩

theorem Logged.keep [DecidableEq Thread] (logged : Logged past locals log)
    (same : own.done past = (locals self).done past) :
    Logged past (Function.update locals self own) log := by
  refine ⟨logged.order, fun other i => ?_⟩
  rw [logged.mem]
  by_cases which : other = self
  · rw [which, Function.update_self, same]
  · rw [Function.update_of_ne which]

theorem Logged.next [DecidableEq Thread] (logged : Logged past locals log)
    (before : (locals self).done past = i) (after : own.done past = i + 1) :
    Logged past (Function.update locals self own) ((self, i) :: log) := by
  refine ⟨List.pairwise_cons.mpr ⟨fun ⟨other, j⟩ member same => ?_, logged.order⟩,
    fun other j => ?_⟩
  · have same : self = other := same
    have earlier := (logged.mem other j).mp member
    rwa [← same, before] at earlier
  · rw [List.mem_cons, logged.mem, Prod.mk.injEq]
    by_cases which : other = self
    · subst which
      rw [Function.update_self, before, after, Nat.lt_succ_iff_lt_or_eq]
      simp [or_comm]
    · simp [which]

theorem Logged.nodup (logged : Logged past locals log) : log.Nodup :=
  logged.order.imp fun before same => absurd (before (congrArg _ same))
    (same ▸ Nat.lt_irrefl _)

theorem Logged.length_le [Fintype Thread] [DecidableEq Thread] (logged : Logged past locals log)
    (within : ∀ self, (locals self).done past ≤ rounds) :
    log.length ≤ Fintype.card Thread * rounds := by
  have inside : log.toFinset ⊆ Finset.univ ×ˢ Finset.range rounds := by
    rintro ⟨self, i⟩ member
    have done := (logged.mem self i).mp (List.mem_toFinset.mp member)
    simpa using done.trans_le (within self)
  have fewer := Finset.card_le_card inside
  rwa [List.toFinset_card_of_nodup logged.nodup, Finset.card_product, Finset.card_range,
    Finset.card_univ] at fewer

/-- All calls are in the log once all loops are at their ends. -/
theorem Logged.length [Fintype Thread] [DecidableEq Thread] (logged : Logged past locals log)
    (done : ∀ self, (locals self).done past = rounds) :
    log.length = Fintype.card Thread * rounds := by
  have all : log.toFinset = Finset.univ ×ˢ Finset.range rounds := by
    ext ⟨self, i⟩
    simp [logged.mem, done]
  rw [← List.toFinset_card_of_nodup logged.nodup, all, Finset.card_product, Finset.card_range,
    Finset.card_univ]

end Log

/-- What is left becomes less when it does for the thread that moves and for no other more. -/
theorem left_lt [Fintype Thread] [DecidableEq Thread] {weight weight' : Local → Nat}
    {locals : Thread → Local} {self : Thread} {own : Local}
    (less : weight' own < weight (locals self))
    (others : ∀ other, other ≠ self → weight' (locals other) ≤ weight (locals other)) :
    total weight' (Function.update locals self own) < total weight locals := by
  refine Finset.sum_lt_sum (fun other _ => ?_) ⟨self, Finset.mem_univ self, ?_⟩
  · by_cases which : other = self
    · rw [which, Function.update_self]
      exact less.le
    · rw [Function.update_of_ne which]
      exact others other which
  · rw [Function.update_self]
    exact less

section Effect

variable [Fintype Thread] [DecidableEq Thread] {up : Finset Thread} {past : Local → Bool}
  {locals : Thread → Caller Local}

/-- What the calls have done that count up or down. -/
def effect (up : Finset Thread) (past : Local → Bool) (locals : Thread → Caller Local) : Int :=
  ∑ self, LostUpdate.countdown up self * (locals self).done past

theorem effect_update (up : Finset Thread) (past : Local → Bool) (locals : Thread → Caller Local)
    (self : Thread) (own : Caller Local) :
    effect up past (Function.update locals self own) = effect up past locals +
      LostUpdate.countdown up self * (own.done past - (locals self).done past) := by
  unfold effect
  rw [← Finset.add_sum_erase _ _ (Finset.mem_univ self),
    ← Finset.add_sum_erase _ (fun other => _ * ((locals other).done past : Int))
      (Finset.mem_univ self), Function.update_self]
  have others : ∑ other ∈ Finset.univ.erase self,
      LostUpdate.countdown up other * ((Function.update locals self own other).done past : Int) =
      ∑ other ∈ Finset.univ.erase self,
        LostUpdate.countdown up other * ((locals other).done past : Int) := by
    refine Finset.sum_congr rfl fun other apart => ?_
    rw [Function.update_of_ne (Finset.ne_of_mem_erase apart)]
  rw [others]
  ring

/-- While one of the calls that count down is missing, they have not all been done. -/
theorem effect_lower {self : Thread} (down : self ∉ up) (missing : (locals self).done past < rounds)
    (within : ∀ other, (locals other).done past ≤ rounds) :
    -(rounds * upᶜ.card : Int) < effect up past locals := by
  have each (other : Thread) : (if other ∈ upᶜ then -(rounds : Int) else 0) ≤
      LostUpdate.countdown up other * (locals other).done past := by
    have most := within other
    unfold LostUpdate.countdown
    by_cases member : other ∈ up
    · simp [member]
    · simp [member]
      omega
  have strict : (if self ∈ upᶜ then -(rounds : Int) else 0) <
      LostUpdate.countdown up self * (locals self).done past := by
    simp only [Finset.mem_compl, down, not_false_eq_true, if_true, LostUpdate.countdown, if_false]
    omega
  have less := Finset.sum_lt_sum (fun other _ => each other) ⟨self, Finset.mem_univ self, strict⟩
  rw [Finset.sum_ite_mem, Finset.univ_inter, Finset.sum_const, nsmul_eq_mul] at less
  rw [effect]
  linarith

theorem effect_le (up : Finset Thread) (within : ∀ self, (locals self).done past ≤ rounds) :
    effect up past locals ≤ rounds * up.card := by
  have each (self : Thread) : LostUpdate.countdown up self * (locals self).done past ≤
      if self ∈ up then (rounds : Int) else 0 := by
    have most := within self
    unfold LostUpdate.countdown
    by_cases member : self ∈ up
    · simp [member]
      omega
    · simp [member]
  have less := Finset.sum_le_sum fun self (_ : self ∈ Finset.univ) => each self
  rw [Finset.sum_ite_mem, Finset.univ_inter, Finset.sum_const, nsmul_eq_mul] at less
  rw [effect]
  linarith

theorem effect_exited (exited : ∀ self, (locals self).place = .exited)
    (within : ∀ self, (locals self).Within rounds) (past : Local → Bool) :
    effect up past locals = rounds * (up.card - upᶜ.card) := by
  have all (self : Thread) := (within self).done_eq (exited self) past
  obtain ⟨ups, downs⟩ := LostUpdate.sum_parts up
  have parts : ∑ self, LostUpdate.countdown up self = up.card - upᶜ.card := by
    rw [← ups, sub_eq_add_neg, ← downs, ← Finset.sum_add_distrib]
    refine Finset.sum_congr rfl fun self _ => ?_
    rw [add_comm, min_add_max, add_zero]
  simp only [effect, all]
  rw [← Finset.sum_mul, parts, mul_comm]

end Effect

/-- Threads that run their loops from one state of the object can all be at their ends with
another. -/
def Joined [DecidableEq Thread]
    (loop : Thread → Shared → Caller Local → Action → Option (Shared × Caller Local))
    (shared shared' : Shared) : Prop :=
  ∃ state, Reachable (Interleaving.step loop) ⟨shared, fun _ => begun⟩ state ∧
    (∀ self, (state.locals self).place = .exited) ∧ state.shared = shared'

section Chosen

variable {Call : Type*}

/-- Some threads make calls that depend on the round, the others the same call in all rounds. -/
def chosen [DecidableEq Thread] (up : Finset Thread) (counted : Nat → Call) (other : Call)
    (self : Thread) (i : Nat) : Call :=
  if self ∈ up then counted i else other

/-- The threads with the first numbers. -/
def below (count : Nat) : Finset (Fin n) := Finset.univ.filter (·.val < count)

theorem card_below (all : count ≤ n) : (below count : Finset (Fin n)).card = count ∧
    (below count : Finset (Fin n))ᶜ.card = n - count := by
  have card : (below count : Finset (Fin n)).card = count := by
    rw [below, Fin.card_filter_val_lt, Nat.min_eq_right all]
  rw [Finset.card_compl, card, Fintype.card_fin]
  exact ⟨rfl, rfl⟩

theorem repeats_below (enter : Call → Local) (counted : Nat → Call) (other : Call)
    (count : Nat) : (fun self : Fin n =>
      if self.val < count then repeats thread returned (fun i => enter (counted i)) rounds
      else repeats thread returned (fun _ => enter other) rounds) =
    fun self => repeats thread returned
      (fun i => enter (chosen (below count) counted other self i)) rounds := by
  funext self
  unfold chosen below
  by_cases first : self.val < count
  · simp [first]
  · simp [first]

theorem repeats_univ [DecidableEq Thread] [Fintype Thread] (enter : Call → Local)
    (counted : Nat → Call) (other : Call) :
    (fun _ : Thread => repeats thread returned (fun i => enter (counted i)) rounds) =
      fun self => repeats thread returned
        (fun i => enter (chosen Finset.univ counted other self i)) rounds := by
  simp [chosen]

end Chosen

end CssLab.Callers
