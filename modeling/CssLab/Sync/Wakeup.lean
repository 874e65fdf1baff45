import CssLab.Sync.ProducerConsumer

namespace CssLab.Sync.ProducerConsumer

open Transition Interleaving

/-- A thread inside `pthread_cond_wait` that no signal has reached. -/
def Asleep (role : Thread → Role) (state : State Thread (Buffer Thread) Local) (self : Thread) :
    Prop :=
  (state.locals self).point = .asleep ∧ self ∈ state.shared.waiting (role self).waitsFor

def Role.opposite : Role → Role
  | .producer => .consumer
  | .consumer => .producer

/-- The condition on which a role waits. -/
def Stuck (N : Int) (ring : Ring) : Role → Prop
  | .producer => ring.size = N
  | .consumer => ring.size = 0

/-- The role of a thread that has changed the size and not yet signalled it. -/
def announces (role : Role) : Point → Option Role
  | .print | .signal => some role
  | _ => none

/-- When all threads of a role are asleep, they have to be, or a thread of the
other role is about to signal. -/
structure Watched (N : Int) (role : Thread → Role) (announcing : Option Role)
    (buffer : Buffer Thread) : Prop where
  free : buffer.mutex = none → announcing = none
  waiters : ∀ cond, ∀ waiter ∈ buffer.waiting cond, (role waiter).waitsFor = cond
  asleep : ∀ duty, (∀ self, role self = duty → self ∈ buffer.waiting duty.waitsFor) →
    Stuck N buffer.ring duty ∨ announcing = some duty.opposite

/-- Only sleepers are among the waiters. A thread inside holds the mutex, and
one that is about to wait has a reason. -/
structure Minds (N : Int) (role : Thread → Role) (announcing : Option Role) (who : Thread)
    (buffer : Buffer Thread) (own : Local) : Prop where
  waiter : who ∈ buffer.waiting (role who).waitsFor → own.point = .asleep
  inside : own.point ≠ .lock → own.point ≠ .asleep →
    buffer.mutex = some who ∧ announcing = announces (role who) own.point
  outside : own.point = .lock ∨ own.point = .asleep → buffer.mutex ≠ some who
  reason : own.point = .wait → Stuck N buffer.ring (role who)

@[simp] theorem signals_eq (duty : Role) : duty.signals = duty.opposite.waitsFor := by
  cases duty <;> rfl

theorem waitsFor_inj {duty other : Role} (same : duty.waitsFor = other.waitsFor) :
    duty = other := by
  cases duty <;> cases other <;> first | rfl | cases same

theorem eq_opposite {duty other : Role} (apart : other ≠ duty) : other = duty.opposite := by
  cases duty <;> cases other <;> first | rfl | exact absurd rfl apart

/-- After its work a thread has either counted, and is about to signal, or left
the size alone. -/
structure Worked (N : Int) (duty : Role) (before after : Ring) (own : Local) : Prop where
  awake : own.point ≠ .lock ∧ own.point ≠ .asleep
  reason : own.point = .wait → Stuck N after duty
  signals : announces duty own.point = some duty ∨
    announces duty own.point = none ∧ after.size = before.size

theorem work_worked (done : work N duty ring own = some (ring', own')) :
    Worked N duty ring ring' own' := by
  obtain ⟨point, item⟩ := own
  cases duty with
  | producer =>
    cases point with
    | test =>
      cases done
      by_cases full : ring.size = N
      · simp only [if_pos full]
        exact ⟨⟨nofun, nofun⟩, fun _ => full, Or.inr ⟨rfl, rfl⟩⟩
      · simp only [if_neg full]
        exact ⟨⟨nofun, nofun⟩, nofun, Or.inr ⟨rfl, rfl⟩⟩
    | count =>
      cases done
      exact ⟨⟨nofun, nofun⟩, nofun, Or.inl rfl⟩
    | loadItem | storeItem | advance =>
      cases done
      exact ⟨⟨nofun, nofun⟩, nofun, Or.inr ⟨rfl, rfl⟩⟩
    | lock | wait | asleep | print | signal | unlock => cases done
  | consumer =>
    cases point with
    | test =>
      cases done
      by_cases empty : ring.size = 0
      · simp only [if_pos empty]
        exact ⟨⟨nofun, nofun⟩, fun _ => empty, Or.inr ⟨rfl, rfl⟩⟩
      · simp only [if_neg empty]
        exact ⟨⟨nofun, nofun⟩, nofun, Or.inr ⟨rfl, rfl⟩⟩
    | count =>
      cases done
      exact ⟨⟨nofun, nofun⟩, nofun, Or.inl rfl⟩
    | loadItem | advance =>
      cases done
      exact ⟨⟨nofun, nofun⟩, nofun, Or.inr ⟨rfl, rfl⟩⟩
    | storeItem | lock | wait | asleep | print | signal | unlock => cases done

theorem Stuck.of_size (stuck : Stuck N ring duty) (size : ring'.size = ring.size) :
    Stuck N ring' duty := by
  cases duty with
  | producer => exact size.trans stuck
  | consumer => exact size.trans stuck

variable {Thread : Type*} {role : Thread → Role} {self other : Thread}
  {buffer buffer' : Buffer Thread} {announcing announcing' : Option Role}

/-- Threads that do not hold the mutex mind only who holds it and who waits. -/
theorem Minds.elsewhere (minds : Minds N role announcing other buffer theirs)
    (unheld : buffer.mutex ≠ some other) (still : buffer'.mutex ≠ some other)
    (waits : other ∈ buffer'.waiting (role other).waitsFor →
      other ∈ buffer.waiting (role other).waitsFor) :
    Minds N role announcing' other buffer' theirs := by
  have outside : theirs.point = .lock ∨ theirs.point = .asleep := by
    by_contra inside
    obtain ⟨awake, awake'⟩ := not_or.mp inside
    exact unheld (minds.inside awake awake').1
  refine ⟨fun waiting => minds.waiter (waits waiting), ?_, fun _ => still, ?_⟩
  · intro awake awake'
    exact absurd outside (not_or.mpr ⟨awake, awake'⟩)
  · intro waiting
    rw [waiting] at outside
    simp at outside

theorem Minds.not_waiting (minds : Minds N role announcing self buffer own)
    (awake : own.point ≠ .asleep) : self ∉ buffer.waiting (role self).waitsFor :=
  fun waiting => awake (minds.waiter waiting)

/-- A thread that holds the mutex is not among those asleep. -/
theorem Minds.awake (minds : Minds N role announcing self buffer own)
    (inside : own.point ≠ .asleep) :
    ¬ ∀ thread, role thread = role self → thread ∈ buffer.waiting (role self).waitsFor :=
  fun all => minds.not_waiting inside (all self rfl)

theorem apart_of_held (different : other ≠ self) (held : buffer.mutex = some self) :
    buffer.mutex ≠ some other :=
  fun same => different (Option.some.inj (same.symm.trans held))

/-- A step of `self` after which the watch goes on: the others mind what they minded. -/
def Continues (N : Int) (role : Thread → Role) (announcing : Option Role) (self : Thread)
    (buffer buffer' : Buffer Thread) (own' : Local) : Prop :=
  ∃ announcing', Watched N role announcing' buffer' ∧ Minds N role announcing' self buffer' own' ∧
    ∀ other theirs, other ≠ self → Minds N role announcing other buffer theirs →
      Minds N role announcing' other buffer' theirs

theorem worked_moves (watched : Watched N role announcing buffer)
    (minds : Minds N role announcing self buffer own)
    (works : own.point.works) (done : work N (role self) buffer.ring own = some (ring, own')) :
    Continues N role announcing self buffer { buffer with ring } own' := by
  have worked := work_worked done
  have awake : own.point ≠ .lock ∧ own.point ≠ .asleep := by
    constructor <;> intro here <;> rw [here] at works <;> cases works
  have silent : announces (role self) own.point = none := by
    cases point : own.point <;> first | rfl | (rw [point] at works; cases works)
  obtain ⟨held, same⟩ := minds.inside awake.1 awake.2
  rw [silent] at same
  subst same
  have held' : ({ buffer with ring } : Buffer Thread).mutex = some self := held
  refine ⟨announces (role self) own'.point, ⟨?_, watched.waiters, ?_⟩, ⟨?_, ?_, ?_, ?_⟩, ?_⟩
  · intro unheld
    rw [held'] at unheld
    cases unheld
  · intro duty all
    by_cases mine : duty = role self
    · subst mine
      exact absurd all (minds.awake awake.2)
    · have opposite := eq_opposite (Ne.symm mine)
      rcases worked.signals with counted | ⟨quiet, size⟩
      · exact Or.inr (by rw [counted, opposite])
      · exact Or.inl (((watched.asleep duty all).resolve_right nofun).of_size size)
  · intro waiting
    exact absurd (minds.waiter waiting) awake.2
  · intro _ _
    exact ⟨held, rfl⟩
  · rintro (here | here)
    · exact absurd here worked.awake.1
    · exact absurd here worked.awake.2
  · exact worked.reason
  · intro other theirs apart known
    exact known.elsewhere (apart_of_held apart held) (apart_of_held apart held) id

theorem initial_watched (inhabited : ∀ duty, ∃ thread, role thread = duty) :
    Outline (Watched N role) (fun announcing self => Minds N role announcing self)
      (initial : State Thread (Buffer Thread) Local) := by
  refine ⟨none, ⟨fun _ => rfl, nofun, ?_⟩, fun self => ⟨nofun, ?_, fun _ => nofun, nofun⟩⟩
  · intro duty all
    obtain ⟨thread, mine⟩ := inhabited duty
    cases all thread mine
  · exact fun awake => absurd rfl awake

theorem acquire_watched (watched : Watched N role announcing buffer)
    (minds : Minds N role announcing self buffer own) (unheld : buffer.mutex = none)
    (outside : own.point = .lock ∨ own.point = .asleep ∧
      self ∉ buffer.waiting (role self).waitsFor) :
    Continues N role announcing self buffer { buffer with mutex := some self }
      { own with point := .test } := by
  have quiet := watched.free unheld
  subst quiet
  refine ⟨none, ⟨nofun, watched.waiters, watched.asleep⟩, ⟨?_, ?_, ?_, nofun⟩, ?_⟩
  · intro waiting
    rcases outside with here | ⟨here, signalled⟩
    · exact absurd waiting (minds.not_waiting (by simp [here]))
    · exact absurd waiting signalled
  · exact fun _ _ => ⟨rfl, rfl⟩
  · rintro (here | here) <;> cases here
  · intro other theirs different known
    have unheld' : buffer.mutex ≠ some other := by simp [unheld]
    exact known.elsewhere unheld' (fun same => different (Option.some.inj same).symm) id

theorem mem_sleep (duty : Role) (cond : Cond) (waiter : Thread) :
    waiter ∈ (sleep self duty.waitsFor buffer).waiting cond ↔
      waiter = self ∧ cond = duty.waitsFor ∨ waiter ∈ buffer.waiting cond := by
  by_cases same : cond = duty.waitsFor
  · subst same
    simp [sleep]
  · simp [sleep, same]

/-- A thread goes to sleep for a reason, and nobody is about to signal. -/
theorem sleep_watched (watched : Watched N role announcing buffer)
    (minds : Minds N role announcing self buffer own) (here : own.point = .wait) :
    Continues N role announcing self buffer (sleep self (role self).waitsFor buffer)
      { own with point := .asleep } := by
  obtain ⟨held, quiet⟩ := minds.inside (by simp [here]) (by simp [here])
  rw [here] at quiet
  subst quiet
  refine ⟨none, ⟨fun _ => rfl, ?_, ?_⟩, ⟨fun _ => rfl, ?_, fun _ => nofun, nofun⟩, ?_⟩
  · intro cond waiter member
    rcases (mem_sleep (role self) cond waiter).mp member with ⟨rfl, rfl⟩ | old
    · rfl
    · exact watched.waiters cond waiter old
  · intro duty all
    by_cases mine : duty = role self
    · subst mine
      exact Or.inl (minds.reason here)
    · refine watched.asleep duty fun thread same => ?_
      refine ((mem_sleep (role self) _ _).mp (all thread same)).resolve_left ?_
      rintro ⟨-, cond⟩
      exact mine (waitsFor_inj cond)
  · intro _ awake
    exact absurd rfl awake
  · intro other theirs different known
    refine known.elsewhere (apart_of_held different held) nofun ?_
    intro waiting
    exact ((mem_sleep (role self) _ _).mp waiting).resolve_left fun mine => different mine.1

variable [DecidableEq Thread]

/-- A signal of the other role wakes one of the sleepers of a role whose
threads are all asleep. -/
theorem not_all_after_wake (watched : Watched N role announcing buffer)
    (waiters : ∀ waiter ∈ woken, waiter ∈ buffer.waiting duty.waitsFor)
    (atLeastOne : woken = [] → buffer.waiting duty.waitsFor = [])
    (inhabited : ∃ thread, role thread = duty) :
    ¬ ∀ thread, role thread = duty →
      thread ∈ (rouse woken duty.waitsFor buffer).waiting duty.waitsFor := by
  intro all
  have still : ∀ thread, role thread = duty →
      thread ∈ buffer.waiting duty.waitsFor ∧ thread ∉ woken := by
    intro thread mine
    simpa [rouse] using all thread mine
  obtain ⟨thread, mine⟩ := inhabited
  cases woken with
  | nil =>
    have waits := (still thread mine).1
    rw [atLeastOne rfl] at waits
    cases waits
  | cons waked rest =>
    have waits := waiters waked List.mem_cons_self
    have same : role waked = duty := waitsFor_inj (watched.waiters _ waked waits)
    exact (still waked same).2 List.mem_cons_self

theorem mem_rouse {cond other : Cond}
    (member : waiter ∈ (rouse woken cond buffer).waiting other) :
    waiter ∈ buffer.waiting other := by
  by_cases same : other = cond
  · subst same
    have kept : waiter ∈ buffer.waiting other ∧ waiter ∉ woken := by
      simpa [rouse] using member
    exact kept.1
  · simpa [rouse, same] using member

/-- A signal wakes a thread of the other role if there is one asleep. -/
theorem signal_watched (watched : Watched N role announcing buffer)
    (minds : Minds N role announcing self buffer own)
    (inhabited : ∀ duty, ∃ thread, role thread = duty) (here : own.point = .signal)
    (waiters : ∀ waiter ∈ woken, waiter ∈ buffer.waiting (role self).opposite.waitsFor)
    (atLeastOne : woken = [] → buffer.waiting (role self).opposite.waitsFor = []) :
    Continues N role announcing self buffer (rouse woken (role self).opposite.waitsFor buffer)
      { own with point := .unlock } := by
  obtain ⟨held, quiet⟩ := minds.inside (by simp [here]) (by simp [here])
  refine ⟨none, ⟨fun _ => rfl, ?_, ?_⟩, ⟨?_, fun _ _ => ⟨held, rfl⟩, ?_, nofun⟩, ?_⟩
  · exact fun cond waiter member => watched.waiters cond waiter (mem_rouse member)
  · intro duty all
    by_cases mine : duty = role self
    · subst mine
      exact absurd (fun thread same => mem_rouse (all thread same))
        (minds.awake (by simp [here]))
    · have opposite := eq_opposite mine
      subst opposite
      exact absurd all (not_all_after_wake watched waiters atLeastOne (inhabited _))
  · intro waiting
    exact absurd (mem_rouse waiting) (minds.not_waiting (by simp [here]))
  · rintro (lock | asleep)
    · cases lock
    · cases asleep
  · intro other theirs different known
    exact known.elsewhere (apart_of_held different held) (apart_of_held different held) mem_rouse

theorem monitor_watched (watched : Watched N role announcing buffer)
    (minds : Minds N role announcing self buffer own)
    (inhabited : ∀ duty, ∃ thread, role thread = duty)
    (moves : Moves (role self) false self buffer own buffer' own') :
    Continues N role announcing self buffer buffer' own' := by
  cases moves with
  | acquire outside unheld => exact acquire_watched watched minds unheld outside
  | sleep here => exact sleep_watched watched minds here
  | spurious allowed here => cases allowed
  | print here =>
    obtain ⟨held, quiet⟩ := minds.inside (by simp [here]) (by simp [here])
    rw [here] at quiet
    refine ⟨announcing, watched, ⟨?_, fun _ _ => ⟨held, quiet⟩, ?_, nofun⟩,
      fun _ _ _ known => known⟩
    · intro waiting
      exact absurd waiting (minds.not_waiting (by simp [here]))
    · rintro (lock | asleep)
      · cases lock
      · cases asleep
  | signal here woken waiters atLeastOne =>
    rw [signals_eq] at waiters atLeastOne ⊢
    exact signal_watched watched minds inhabited here waiters atLeastOne
  | unlock here =>
    obtain ⟨held, quiet⟩ := minds.inside (by simp [here]) (by simp [here])
    rw [here] at quiet
    subst quiet
    refine ⟨none, ⟨fun _ => rfl, watched.waiters, watched.asleep⟩,
      ⟨?_, ?_, fun _ => nofun, nofun⟩, ?_⟩
    · intro waiting
      exact absurd waiting (minds.not_waiting (by simp [here]))
    · exact fun awake => absurd rfl awake
    · intro other theirs different known
      exact known.elsewhere (apart_of_held different held) nofun id

theorem thread_watched (watched : Watched N role announcing buffer)
    (minds : Minds N role announcing self buffer own)
    (inhabited : ∀ duty, ∃ thread, role thread = duty)
    (moved : thread N role false self buffer own action = some (buffer', own')) :
    Continues N role announcing self buffer buffer' own' := by
  rcases thread_cases moved with ⟨works, ring, done, rfl⟩ | moves
  · exact worked_moves watched minds works done
  · exact monitor_watched watched minds inhabited moves

/-- With at least one producer and one consumer, and wake-ups only by signals,
no reachable state has all of them asleep. -/
theorem never_all_asleep (N : Int) (positive : 1 ≤ N) (role : Thread → Role)
    (producers : ∃ self, role self = .producer) (consumers : ∃ self, role self = .consumer)
    {state : State Thread (Buffer Thread) Local}
    (reachable : Reachable (threads N role false) initial state) :
    ¬ ∀ self, Asleep role state self := by
  have inhabited : ∀ duty, ∃ thread, role thread = duty := by
    intro duty
    cases duty with
    | producer => exact producers
    | consumer => exact consumers
  obtain ⟨announcing, watched, minds⟩ :
      Outline (Watched N role) (fun announcing self => Minds N role announcing self) state := by
    refine reachable.invariant (initial_watched inhabited) ?_
    intro state event after outline stepped
    exact outline.step (fun _ _ watched minds moved =>
      thread_watched watched minds inhabited moved) stepped
  intro all
  -- nobody is about to signal, so both roles have to be asleep
  have free : state.shared.mutex = none := by
    cases held : state.shared.mutex with
    | none => rfl
    | some self => exact absurd held ((minds self).outside (Or.inr (all self).1))
  have stuck : ∀ duty, Stuck N state.shared.ring duty := by
    intro duty
    have asleep := watched.asleep duty
    rw [watched.free free] at asleep
    refine (asleep ?_).resolve_right nofun
    rintro self rfl
    exact (all self).2
  have full : state.shared.ring.size = N := stuck .producer
  have empty : state.shared.ring.size = 0 := stuck .consumer
  omega

/-- A producer and a consumer: the consumer sleeps until the producer's signal. -/
theorem never_all_asleep_two :
    ∃ state : State (Fin 2) (Buffer (Fin 2)) Local,
      Asleep (fun self => if self = 0 then .producer else .consumer) state 1 ∧
      ¬ ∀ self, Asleep (fun self => if self = 0 then .producer else .consumer) state self := by
  refine ⟨_, ⟨?_, ?_⟩, never_all_asleep 1 (Int.le_refl 1) _ ⟨0, rfl⟩ ⟨1, rfl⟩ (reachable_get
    [(1, .go), (1, .go), (1, .go), (0, .go), (0, .go), (0, .go)] rfl)⟩
  · rfl
  · decide

end CssLab.Sync.ProducerConsumer
