import CssLab.Lib.Transition

/-! Threads that share a state under one mutex. What the mutex guards holds while nobody
has it; while a thread has it, only that thread knows what holds instead. The other
threads know of nothing but what is their own. -/

namespace CssLab.Interleaving

/-- A mutex with what it guards. `inside` tells which threads have it. -/
structure Guard (Thread Shared Local Ghost : Type*) where
  held : Shared → Bool
  inside : Local → Bool
  resource : Ghost → Shared → Prop
  holding : Ghost → Thread → Shared → Local → Prop
  outside : Ghost → Thread → Shared → Local → Prop

namespace Guard

variable {Thread Shared Local Ghost Action : Type*}
  {guard : Guard Thread Shared Local Ghost} {ghost : Ghost} {self : Thread}
  {shared shared' : Shared} {own own' : Local}
  {thread : Thread → Shared → Local → Action → Option (Shared × Local)}

/-- The mutex has a holder when it is locked, and guards its resource when not. -/
def invariant (guard : Guard Thread Shared Local Ghost) (ghost : Option Thread × Ghost)
    (shared : Shared) : Prop :=
  guard.held shared = ghost.1.isSome ∧ (ghost.1 = none → guard.resource ghost.2 shared)

/-- A thread inside is the holder. -/
def asserts (guard : Guard Thread Shared Local Ghost) (ghost : Option Thread × Ghost)
    (self : Thread) (shared : Shared) (own : Local) : Prop :=
  if guard.inside own then ghost.1 = some self ∧ guard.holding ghost.2 self shared own
  else ghost.1 ≠ some self ∧ guard.outside ghost.2 self shared own

/-- The other threads go on knowing what they know outside. -/
def Yields (guard : Guard Thread Shared Local Ghost) (self : Thread) (ghost : Ghost)
    (shared : Shared) (ghost' : Ghost) (shared' : Shared) : Prop :=
  ∀ other theirs, other ≠ self → guard.outside ghost other shared theirs →
    guard.outside ghost' other shared' theirs

/-- What a step of a thread does to the mutex. -/
inductive Moves (guard : Guard Thread Shared Local Ghost) (self : Thread) (ghost : Ghost)
    (shared : Shared) (own : Local) (shared' : Shared) (own' : Local) : Prop
  | away (ghost' : Ghost) (before : guard.inside own = false) (after : guard.inside own' = false)
      (same : guard.held shared' = guard.held shared)
      (mine : guard.outside ghost' self shared' own')
      (free : guard.resource ghost shared → guard.resource ghost' shared')
      (holder : ∀ other theirs, other ≠ self → guard.holding ghost other shared theirs →
        guard.holding ghost' other shared' theirs)
      (others : guard.Yields self ghost shared ghost' shared')
  | lock (before : guard.inside own = false) (after : guard.inside own' = true)
      (free : guard.held shared = false) (taken : guard.held shared' = true)
      (takes : guard.resource ghost shared → ∃ ghost', guard.holding ghost' self shared' own' ∧
        guard.Yields self ghost shared ghost' shared')
  | within (ghost' : Ghost) (before : guard.inside own = true) (after : guard.inside own' = true)
      (same : guard.held shared' = guard.held shared)
      (mine : guard.holding ghost' self shared' own')
      (others : guard.Yields self ghost shared ghost' shared')
  | unlock (ghost' : Ghost) (before : guard.inside own = true) (after : guard.inside own' = false)
      (free : guard.held shared' = false) (gives : guard.resource ghost' shared')
      (mine : guard.outside ghost' self shared' own')
      (others : guard.Yields self ghost shared ghost' shared')

theorem asserts_inside (here : guard.inside own = true) {holder : Option Thread} :
    guard.asserts (holder, ghost) self shared own ↔
      holder = some self ∧ guard.holding ghost self shared own := by
  rw [asserts, if_pos here]

theorem asserts_outside (there : guard.inside own = false) {holder : Option Thread} :
    guard.asserts (holder, ghost) self shared own ↔
      holder ≠ some self ∧ guard.outside ghost self shared own := by
  rw [asserts, there]
  exact Iff.rfl

/-- While nobody else has the mutex, the others know what they know outside. -/
theorem Yields.asserts {ghost' : Ghost} (yields : guard.Yields self ghost shared ghost' shared')
    {holder holder' : Option Thread} (mine : holder = none ∨ holder = some self)
    (mine' : holder' = none ∨ holder' = some self) (apart : other ≠ self)
    (known : guard.asserts (holder, ghost) other shared theirs) :
    guard.asserts (holder', ghost') other shared' theirs := by
  have noOther : ∀ {who : Option Thread}, who = none ∨ who = some self → who ≠ some other := by
    rintro who (rfl | rfl) same
    · cases same
    · exact apart (Option.some.inj same).symm
  cases inside : guard.inside theirs with
  | true => exact absurd ((asserts_inside inside).mp known).1 (noOther mine)
  | false =>
    exact (asserts_outside inside).mpr
      ⟨noOther mine', yields other theirs apart ((asserts_outside inside).mp known).2⟩

/-- A step that treats the mutex in one of these ways keeps the outline. -/
theorem keeps_outline [DecidableEq Thread] {state after : State Thread Shared Local}
    (outline : Outline guard.invariant guard.asserts state)
    (moves : ∀ ghost own,
      (guard.inside (state.locals self) = true →
        guard.holding ghost self state.shared (state.locals self)) →
      (guard.inside (state.locals self) = false →
        guard.outside ghost self state.shared (state.locals self)) →
      thread self state.shared (state.locals self) action = some (after.shared, own) →
      guard.Moves self ghost state.shared (state.locals self) after.shared own)
    (stepped : Interleaving.step thread state (self, action) = some after) :
    Outline guard.invariant guard.asserts after := by
  refine outline.step ?_ stepped
  rintro ⟨holder, ghost⟩ own ⟨held, free⟩ known moved
  have inside (here : guard.inside (state.locals self) = true) := (asserts_inside here).mp known
  have outside (there : guard.inside (state.locals self) = false) :=
    (asserts_outside there).mp known
  cases moves ghost own (fun here => (inside here).2) (fun there => (outside there).2) moved with
  | away ghost' before later same mine resource holding others =>
    refine ⟨(holder, ghost'), ⟨same.trans held, fun none => resource (free none)⟩,
      (asserts_outside later).mpr ⟨(outside before).1, mine⟩, ?_⟩
    intro other theirs apart theyKnow
    cases place : guard.inside theirs with
    | true =>
      obtain ⟨isHolder, knows⟩ := (asserts_inside place).mp theyKnow
      exact (asserts_inside place).mpr ⟨isHolder, holding other theirs apart knows⟩
    | false =>
      obtain ⟨notHolder, knows⟩ := (asserts_outside place).mp theyKnow
      exact (asserts_outside place).mpr ⟨notHolder, others other theirs apart knows⟩
  | lock before later unlocked taken takes =>
    have nobody : holder = none := by
      rw [unlocked] at held
      exact Option.isNone_iff_eq_none.mp (by simpa using held.symm)
    obtain ⟨ghost', mine, others⟩ := takes (free nobody)
    refine ⟨(some self, ghost'), ⟨taken, nofun⟩, (asserts_inside later).mpr ⟨rfl, mine⟩, ?_⟩
    intro other theirs apart theyKnow
    exact others.asserts (.inl nobody) (.inr rfl) apart theyKnow
  | within ghost' before later same mine others =>
    have holds := (inside before).1
    refine ⟨(holder, ghost'), ⟨same.trans held, fun none => ?_⟩,
      (asserts_inside later).mpr ⟨holds, mine⟩, ?_⟩
    · rw [holds] at none
      cases none
    · intro other theirs apart theyKnow
      exact others.asserts (.inr holds) (.inr holds) apart theyKnow
  | unlock ghost' before later unlocked gives mine others =>
    have holds := (inside before).1
    refine ⟨(none, ghost'), ⟨unlocked, fun _ => gives⟩,
      (asserts_outside later).mpr ⟨nofun, mine⟩, ?_⟩
    intro other theirs apart theyKnow
    exact others.asserts (.inr holds) (.inl rfl) apart theyKnow

theorem resource_of_outline {state : State Thread Shared Local}
    (outline : Outline guard.invariant guard.asserts state)
    (free : guard.held state.shared = false) : ∃ ghost, guard.resource ghost state.shared := by
  obtain ⟨⟨holder, ghost⟩, ⟨held, resource⟩, -⟩ := outline
  refine ⟨ghost, resource (Option.isNone_iff_eq_none.mp ?_)⟩
  rw [free] at held
  simpa using held.symm

end Guard

end CssLab.Interleaving
