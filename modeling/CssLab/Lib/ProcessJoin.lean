import CssLab.Lib.Process
import Mathlib.Data.List.Nodup
import Mathlib.Order.BooleanAlgebra.Set

/-! Rules for programs that wait for each child before they go on: what the
child has done when it exits is done when the wait returns. -/

namespace CssLab.Unix

variable {Label Image : Type*}

/-- What must have ended before a label is reached, what has ended when a
process exits that was forked under a label, and which programs there are for sure. -/
structure Contract (Label : Type*) where
  needs : Label → Set Label
  promises : Label → Set Label
  loads : String → List String → Prop

/-- With these labels known to have ended and this child to wait for, the
program keeps the contract and reaches its goal before it exits. -/
def Prog.Keeps (contract : Contract Label) :
    Prog Label → (goal known : Set Label) → (child : Option Label) → Prop
  | .exit, goal, known, _ => goal ⊆ known
  | .fault, _, _, _ => False
  | .fork label forked parent, goal, known, child =>
    child = none ∧ forked.Keeps contract (contract.promises label) known none ∧
      ∀ pid, (parent pid).Keeps contract goal known (some label)
  | .wait next, goal, known, child =>
    ∃ label, child = some label ∧
      next.Keeps contract goal (known ∪ contract.promises label) none
  | .pipe _ next, goal, known, child => ∀ p0 p1, (next p0 p1).Keeps contract goal known child
  | .close _ next, goal, known, child => next.Keeps contract goal known child
  | .dup _ next, goal, known, child => next.Keeps contract goal known child
  | .openFile _ next, goal, known, child => next.Keeps contract goal known child
  | .chdir _ next, goal, known, child => ∀ done, (next done).Keeps contract goal known child
  | .print label _ next, goal, known, child =>
    contract.needs label ⊆ known ∧ next.Keeps contract goal known child
  | .exec label path args failed, goal, known, child =>
    child = none ∧ contract.needs label ⊆ known ∧ goal \ {label} ⊆ known ∧
      (¬contract.loads path args → failed.Keeps contract (goal \ {label}) known none)

theorem Prog.Keeps.mono {prog : Prog Label} (keeps : prog.Keeps contract goal known child)
    (more : known ⊆ known') : prog.Keeps contract goal known' child := by
  induction prog generalizing goal known known' child with
  | exit => exact keeps.trans more
  | fault => exact keeps.elim
  | fork label forked parent forked_ih parent_ih =>
    exact ⟨keeps.1, forked_ih keeps.2.1 more, fun pid => parent_ih pid (keeps.2.2 pid) more⟩
  | wait next ih =>
    obtain ⟨label, same, rest⟩ := keeps
    exact ⟨label, same, ih rest (Set.union_subset_union_left _ more)⟩
  | pipe label next ih => exact fun p0 p1 => ih p0 p1 (keeps p0 p1) more
  | close fd next ih => exact ih keeps more
  | dup fd next ih => exact ih keeps more
  | openFile path next ih => exact ih keeps more
  | chdir path next ih => exact fun done => ih done (keeps done) more
  | print label text next ih => exact ⟨keeps.1.trans more, ih keeps.2 more⟩
  | exec label path args failed ih =>
    exact ⟨keeps.1, keeps.2.1.trans more, keeps.2.2.1.trans more,
      fun missing => ih (keeps.2.2.2 missing) more⟩

/-- The lineage of a child that has not been waited for. -/
def childOf (processes : List (Process Label Image)) (pid child : Nat) : Option (List Label) :=
  processes[child]?.bind fun process =>
    if process.parent = some pid ∧ process.status.isReaped = false then some process.lineage
    else none

/-- The only child a process has not waited for is the one it forked last, under this label. -/
def Waits (processes : List (Process Label Image)) (pid : Nat) (forked : Option Nat) :
    Option Label → Prop
  | none => ∀ child, childOf processes pid child = none
  | some label => ∃ child, forked = some child ∧
      (∃ rest, childOf processes pid child = some (label :: rest)) ∧
      ∀ other, other ≠ child → childOf processes pid other = none

theorem Waits.congr {before after : List (Process Label Image)}
    (waits : Waits before pid forked child)
    (same : ∀ other, childOf after pid other = childOf before pid other) :
    Waits after pid forked child := by
  cases child with
  | none => exact fun other => (same other).trans (waits other)
  | some label =>
    obtain ⟨child, last, lineage, others⟩ := waits
    refine ⟨child, last, by rwa [same child], ?_⟩
    intro other apart
    exact (same other).trans (others other apart)

/-- What a process still has to see to before it exits. -/
def Process.goal (contract : Contract Label) (process : Process Label Image) : Set Label :=
  process.lineage.head?.elim ∅ contract.promises \ {label | label ∈ process.became}

theorem goal_became (contract : Contract Label) (process : Process Label Image)
    (status : Status Label Image) (label : Label) :
    Process.goal contract { process with status, became := label :: process.became } =
      process.goal contract \ {label} := by
  ext other
  simp only [Process.goal, List.mem_cons, Set.mem_sdiff, Set.mem_ofPred_eq,
    Set.mem_singleton_iff, not_or]
  tauto

/-- What is known about a process at any time. -/
def Orderly (contract : Contract Label) (system : System Label Image) (pid : Nat)
    (process : Process Label Image) : Prop :=
  match process.status with
  | .running prog => ∃ child, Waits system.processes pid process.forked child ∧
      prog.Keeps contract (process.goal contract) {label | label ∈ system.ended} child
  | .image _ => Waits system.processes pid none none ∧
      process.goal contract ⊆ {label | label ∈ system.ended}
  | .zombie | .reaped =>
    process.lineage.head?.elim ∅ contract.promises ⊆ {label | label ∈ system.ended}

/-- A process that does not step stays orderly while its children stay the same. -/
theorem Orderly.elsewhere {system after : System Label Image}
    (orderly : Orderly contract system pid process)
    (children : ∀ other, childOf after.processes pid other = childOf system.processes pid other)
    (ended : system.ended ⊆ after.ended) : Orderly contract after pid process := by
  have more : {label | label ∈ system.ended} ⊆ {label | label ∈ after.ended} := ended
  unfold Orderly at orderly ⊢
  split <;> rename_i status <;> simp only [status] at orderly
  · obtain ⟨child, waits, keeps⟩ := orderly
    exact ⟨child, waits.congr children, keeps.mono more⟩
  · exact ⟨orderly.1.congr children, orderly.2.trans more⟩
  · exact orderly.trans more
  · exact orderly.trans more

variable {system : System Label Image} {process process' : Process Label Image}
  {contract : Contract Label} {pid : Nat}

/-- A step that leaves alone who a process is leaves alone all children. -/
theorem childOf_set (found : system.processes[pid]? = some process)
    (parent : process'.parent = process.parent) (lineage : process'.lineage = process.lineage)
    (unreaped : process.status.isReaped = false) (unreaped' : process'.status.isReaped = false)
    (other child : Nat) :
    childOf (system.processes.set pid process') other child =
      childOf system.processes other child := by
  obtain ⟨present, same⟩ := List.getElem?_eq_some_iff.mp found
  by_cases own : pid = child
  · subst own
    simp [childOf, present, same, parent, lineage, unreaped, unreaped']
  · simp [childOf, own]

theorem childOf_disown (processes : List (Process Label Image)) (apart : other ≠ pid)
    (child : Nat) :
    childOf (processes.map (System.disown pid)) other child = childOf processes other child := by
  rw [childOf, childOf, List.getElem?_map]
  cases processes[child]? with
  | none => rfl
  | some there =>
    by_cases mine : there.parent = some pid
    · simp [System.disown, mine, apart.symm]
    · simp [System.disown, mine]

theorem childOf_leave (found : system.processes[pid]? = some process)
    (unreaped : process.status.isReaped = false) (apart : other ≠ pid) (child : Nat) :
    childOf (system.leave pid process).processes other child =
      childOf system.processes other child := by
  rw [System.leave, childOf_disown _ apart]
  refine childOf_set found ?_ ?_ unreaped ?_ other child <;> rfl

theorem childOf_append (processes : List (Process Label Image)) (new : Process Label Image)
    (other child : Nat) :
    childOf (processes ++ [new]) other child =
      if child = processes.length then
        if new.parent = some other ∧ new.status.isReaped = false then some new.lineage else none
      else childOf processes other child := by
  rw [childOf, childOf]
  by_cases last : child = processes.length
  · simp [last]
  · by_cases below : child < processes.length
    · rw [if_neg last, List.getElem?_append_left below]
    · have beyond : processes.length < child := by omega
      rw [if_neg last, List.getElem?_eq_none (by simp; omega),
        List.getElem?_eq_none (by omega)]

theorem childOf_reap (processes : List (Process Label Image)) (gone : Process Label Image)
    (pid other child : Nat) (reaped : gone.status.isReaped) :
    childOf (processes.set pid gone) other child =
      if child = pid then none else childOf processes other child := by
  rw [childOf, childOf]
  by_cases same : child = pid
  · subst same
    by_cases present : child < processes.length
    · simp [present, reaped]
    · simp [present]
  · simp [same, Ne.symm same]

/-- Every process is orderly, only processes have children, and no label was
reached too early. -/
structure Contract.Kept (contract : Contract Label) (system : System Label Image) : Prop where
  orderly : ∀ pid process, system.processes[pid]? = some process →
    Orderly contract system pid process
  bounded : ∀ pid child, system.processes.length ≤ pid → childOf system.processes pid child = none
  timely : ∀ label ∈ system.reached, contract.needs label ⊆ {label | label ∈ system.ended}

/-- A step that only moves a process on to a next status. -/
theorem Contract.Kept.advance {after : System Label Image} (kept : contract.Kept system)
    (found : system.processes[pid]? = some process)
    (parent : process'.parent = process.parent) (lineage : process'.lineage = process.lineage)
    (unreaped : process.status.isReaped = false) (unreaped' : process'.status.isReaped = false)
    (processes : after.processes = system.processes.set pid process')
    (ended : after.ended = system.ended)
    (timely : ∀ label ∈ after.reached, contract.needs label ⊆ {label | label ∈ after.ended})
    (orderly : (∀ forked child, Waits system.processes pid forked child →
        Waits after.processes pid forked child) → Orderly contract after pid process') :
    contract.Kept after := by
  have children (other child : Nat) :
      childOf after.processes other child = childOf system.processes other child := by
    rw [processes]
    exact childOf_set found parent lineage unreaped unreaped' other child
  refine ⟨?_, ?_, timely⟩
  swap
  · intro other child beyond
    rw [processes, List.length_set] at beyond
    exact (children other child).trans (kept.bounded other child beyond)
  intro other there found'
  rw [processes] at found'
  rcases System.found_set found' with ⟨rfl, rfl⟩ | ⟨_, old⟩
  · exact orderly fun _ _ waits => waits.congr (children other)
  · exact (kept.orderly other there old).elsewhere (children other) (by
      rw [ended]
      exact List.Subset.refl _)

/-- What a process leaves undone when it exits it has seen to itself. -/
theorem promises_of_goal (contract : Contract Label)
    (met : process.goal contract ⊆ {label | label ∈ system.ended}) :
    process.lineage.head?.elim ∅ contract.promises ⊆
      {label | label ∈ process.became ++ system.ended} := by
  intro label promised
  by_cases own : label ∈ process.became
  · exact List.mem_append_left _ own
  · exact List.mem_append_right _ (met ⟨promised, own⟩)

theorem Orderly.disown (orderly : Orderly contract system pid process) (other : Nat) :
    Orderly contract system pid (System.disown other process) := by
  unfold System.disown
  split
  · exact orderly
  · exact orderly

theorem Contract.Kept.leave (kept : contract.Kept system)
    (found : system.processes[pid]? = some process)
    (ended : process.status = .running .exit ∨ ∃ image, process.status = .image image) :
    contract.Kept (system.leave pid process) := by
  have orderly := kept.orderly pid process found
  have unreaped : process.status.isReaped = false := by
    rcases ended with ended | ⟨image, ended⟩ <;> rw [ended] <;> rfl
  have met : process.goal contract ⊆ {label | label ∈ system.ended} := by
    rcases ended with ended | ⟨image, ended⟩
    · simp only [Orderly, ended] at orderly
      obtain ⟨_, _, keeps⟩ := orderly
      exact keeps
    · simp only [Orderly, ended] at orderly
      exact orderly.2
  have ended : system.ended ⊆ (system.leave pid process).ended :=
    List.subset_append_right _ _
  refine ⟨?_, ?_, fun label reached => (kept.timely label reached).trans ended⟩
  swap
  · intro other child beyond
    simp only [System.leave, List.length_map, List.length_set] at beyond
    have below : pid < system.processes.length := (List.getElem?_eq_some_iff.mp found).1
    rw [childOf_leave found unreaped (by omega)]
    exact kept.bounded other child beyond
  intro other there found'
  rw [System.leave, List.getElem?_map, Option.map_eq_some_iff] at found'
  obtain ⟨there, found', rfl⟩ := found'
  refine Orderly.disown ?_ pid
  rcases System.found_set found' with ⟨rfl, rfl⟩ | ⟨apart, old⟩
  · exact promises_of_goal contract met
  · exact (kept.orderly other there old).elsewhere (childOf_leave found unreaped apart) ended

theorem Contract.Kept.fork (kept : contract.Kept system)
    (found : system.processes[pid]? = some process)
    (here : process.status = .running (.fork label child parent)) :
    contract.Kept (system.fork pid process label child parent) := by
  have orderly := kept.orderly pid process found
  simp only [Orderly, here] at orderly
  obtain ⟨_, waits, rfl, childKeeps, parentKeeps⟩ := orderly
  have below : pid < system.processes.length := (List.getElem?_eq_some_iff.mp found).1
  have children (other there : Nat) :
      childOf (system.fork pid process label child parent).processes other there =
        if there = system.processes.length then
          if pid = other then some (label :: process.lineage) else none
        else childOf system.processes other there := by
    rw [System.fork, childOf_append, List.length_set]
    congr 1
    · simp [Status.isReaped]
    · refine childOf_set found ?_ ?_ (by rw [here]; rfl) ?_ other there <;> rfl
  have unborn (other : Nat) : childOf system.processes other system.processes.length = none := by
    rw [childOf, List.getElem?_eq_none (Nat.le_refl _)]
    rfl
  refine ⟨?_, ?_, kept.timely⟩
  · intro other there found'
    have ended : (system.fork pid process label child parent).ended = system.ended := rfl
    rcases System.found_append found' with found' | ⟨new, rfl⟩
    · rcases System.found_set found' with ⟨rfl, rfl⟩ | ⟨apart, old⟩
      · refine ⟨some label, ⟨_, rfl, ⟨process.lineage, ?_⟩, ?_⟩, parentKeeps _⟩
        · rw [children, if_pos rfl, if_pos rfl]
        · intro elder apart
          rw [children, if_neg apart]
          exact waits elder
      · refine (kept.orderly other there old).elsewhere ?_ (List.Subset.refl _)
        intro child'
        rw [children]
        split
        · rename_i new
          rw [if_neg (Ne.symm apart), new, unborn]
        · rfl
    · obtain rfl : other = system.processes.length := new.trans (List.length_set ..)
      refine ⟨none, ?_, ?_⟩
      · intro child'
        rw [children]
        split
        · rw [if_neg (by omega)]
        · exact kept.bounded _ _ (Nat.le_refl _)
      · simp only [Process.goal, List.head?_cons, Option.elim_some, List.not_mem_nil,
          Set.ofPred_false, Set.sdiff_empty]
        exact childKeeps
  · intro other child' beyond
    simp only [System.fork, List.length_append, List.length_set, List.length_singleton] at beyond
    rw [children]
    split
    · rw [if_neg (by omega)]
    · exact kept.bounded _ _ (by omega)

/-- The wait for a child that has exited: what it promised is done. -/
theorem Contract.Kept.reap (kept : contract.Kept system)
    (found : system.processes[pid]? = some process)
    (here : process.status = .running (.wait next)) {gone : Process Label Image}
    (there : system.processes[child]? = some gone) (mine : gone.parent = some pid)
    (exited : gone.status.isZombie) :
    contract.Kept ((system.set child { gone with status := .reaped }).set pid
      { process with status := .running next }) := by
  have zombie : gone.status = .zombie := by
    cases status : gone.status <;> simp [status, Status.isZombie] at exited ⊢
  have apart : child ≠ pid := by
    intro same
    rw [same, found] at there
    cases there
    rw [here] at zombie
    cases zombie
  have before := kept.orderly child gone there
  simp only [Orderly, zombie] at before
  have orderly := kept.orderly pid process found
  simp only [Orderly, here] at orderly
  obtain ⟨_, waits, label, rfl, keeps⟩ := orderly
  have childLineage : childOf system.processes pid child = some gone.lineage := by
    simp [childOf, there, mine, zombie, Status.isReaped]
  obtain ⟨last, forked, ⟨rest, lineage⟩, others⟩ := waits
  have only : child = last := by
    by_contra different
    rw [others child different] at childLineage
    cases childLineage
  subst only
  have promised : contract.promises label ⊆ {label | label ∈ system.ended} := by
    rw [Option.some.inj (childLineage.symm.trans lineage)] at before
    exact before
  have children (other there : Nat) :
      childOf ((system.set child { gone with status := .reaped }).set pid
          { process with status := .running next }).processes other there =
        if there = child then none else childOf system.processes other there := by
    have still : (system.set child { gone with status := .reaped }).processes[pid]? =
        some process := by
      rw [System.set, List.getElem?_set_ne apart]
      exact found
    rw [← childOf_reap system.processes { gone with status := .reaped } child other there rfl]
    refine childOf_set still ?_ ?_ (by rw [here]; rfl) ?_ other there <;> rfl
  refine ⟨?_, ?_, kept.timely⟩
  · intro other there' found'
    rcases System.found_set found' with ⟨rfl, rfl⟩ | ⟨different, found'⟩
    · refine ⟨none, ?_, keeps.mono (Set.union_subset (Set.Subset.refl _) promised)⟩
      intro elder
      rw [children]
      split
      · rfl
      · rename_i different
        exact others elder different
    · rcases System.found_set found' with ⟨rfl, rfl⟩ | ⟨_, old⟩
      · exact before
      · refine (kept.orderly other there' old).elsewhere ?_ (List.Subset.refl _)
        intro elder
        rw [children]
        split
        · rename_i same
          rw [same]
          simp [childOf, there, mine, Ne.symm different]
        · rfl
  · intro other elder beyond
    simp only [System.set, List.length_set] at beyond
    rw [children]
    split
    · rfl
    · exact kept.bounded other elder beyond

theorem mem_unreaped {child : Nat} :
    child ∈ system.unreaped pid ↔ ∃ lineage, childOf system.processes pid child = some lineage := by
  rw [System.unreaped, List.mem_filter, List.mem_range]
  cases found : system.processes[child]? with
  | none => simp [childOf, found]
  | some there =>
    have below : child < system.processes.length := (List.getElem?_eq_some_iff.mp found).1
    rw [childOf, found]
    simp [below]

/-- A call that neither forks nor waits nor ends the process. -/
theorem Contract.Kept.proceed {after : System Label Image} (kept : contract.Kept system)
    (found : system.processes[pid]? = some process) (here : process.status = .running prog)
    (next : Prog Label) (table : Descriptors (File Label))
    (processes : after.processes =
      system.processes.set pid { process with status := .running next, table })
    (ended : after.ended = system.ended)
    (timely : ∀ label ∈ after.reached, contract.needs label ⊆ {label | label ∈ after.ended})
    (keeps : ∀ child, prog.Keeps contract (process.goal contract)
        {label | label ∈ system.ended} child →
      next.Keeps contract (process.goal contract) {label | label ∈ system.ended} child) :
    contract.Kept after := by
  have orderly := kept.orderly pid process found
  simp only [Orderly, here] at orderly
  obtain ⟨child, waits, kept'⟩ := orderly
  refine kept.advance found ?_ ?_ (by rw [here]; rfl) ?_ processes ended timely ?_
  · rfl
  · rfl
  · rfl
  · intro same
    refine ⟨child, same _ _ waits, ?_⟩
    rw [ended]
    exact keeps child kept'

theorem Contract.Kept.step {machine : Machine Image} (kept : contract.Kept system)
    (loads : ∀ path args, contract.loads path args → machine.Loads path args)
    (stepped : System.step machine system event = some after) : contract.Kept after := by
  obtain ⟨pid, answer⟩ := event
  obtain ⟨process, found, steps⟩ := System.steps_of_step stepped
  have orderly := kept.orderly pid process found
  cases steps with
  | leave ended => exact kept.leave found ended
  | fork here => exact kept.fork found here
  | alone here childless =>
    -- a program that keeps the contract has a child to wait for
    simp only [Orderly, here] at orderly
    obtain ⟨_, waits, label, rfl, _⟩ := orderly
    obtain ⟨child, _, ⟨rest, lineage⟩, _⟩ := waits
    have member : child ∈ system.unreaped pid := mem_unreaped.mpr ⟨_, lineage⟩
    rw [childless] at member
    cases member
  | reap here child gone there mine exited => exact kept.reap found here there mine exited
  | pipe here =>
    exact kept.proceed found here _ _ rfl rfl kept.timely (fun _ keeps => keeps _ _)
  | close here => exact kept.proceed found here _ _ rfl rfl kept.timely (fun _ keeps => keeps)
  | dup here => exact kept.proceed found here _ _ rfl rfl kept.timely (fun _ keeps => keeps)
  | openFile here => exact kept.proceed found here _ _ rfl rfl kept.timely (fun _ keeps => keeps)
  | chdir here done =>
    exact kept.proceed found here _ _ rfl rfl kept.timely (fun _ keeps => keeps done)
  | @print label text next here =>
    have early : contract.needs label ⊆ {label | label ∈ system.ended} := by
      simp only [Orderly, here] at orderly
      obtain ⟨_, _, keeps⟩ := orderly
      exact keeps.1
    refine kept.proceed found here _ _ rfl rfl ?_ (fun _ keeps => keeps.2)
    intro other reached
    rcases List.mem_cons.mp reached with rfl | before
    · exact early
    · exact kept.timely other before
  | exec here image =>
    simp only [Orderly, here] at orderly
    obtain ⟨_, waits, rfl, early, met, _⟩ := orderly
    refine kept.advance found ?_ ?_ (by rw [here]; rfl) ?_ rfl rfl ?_ ?_
    · rfl
    · rfl
    · rfl
    · intro label reached
      rcases List.mem_cons.mp reached with rfl | before
      · exact early
      · exact kept.timely label before
    · intro same
      refine ⟨same _ _ waits, ?_⟩
      rw [goal_became]
      exact met
  | execFailed here missing =>
    simp only [Orderly, here] at orderly
    obtain ⟨_, waits, rfl, _, _, keeps⟩ := orderly
    refine kept.advance found ?_ ?_ (by rw [here]; rfl) ?_ rfl rfl kept.timely ?_
    · rfl
    · rfl
    · rfl
    · intro same
      refine ⟨none, same _ _ waits, ?_⟩
      rw [goal_became]
      exact keeps fun loaded => loads _ _ loaded missing
  | image here next table _ pipes _ =>
    simp only [Orderly, here] at orderly
    refine kept.advance found ?_ ?_ (by rw [here]; rfl) ?_ rfl rfl kept.timely ?_
    · rfl
    · rfl
    · rfl
    · exact fun same => ⟨same _ _ orderly.1, orderly.2⟩

/-- A first process has nothing to see to but its own program. -/
theorem Contract.Kept.boot (keeps : prog.Keeps contract ∅ ∅ none) :
    contract.Kept (System.boot prog table : System Label Image) := by
  refine ⟨?_, ?_, nofun⟩
  · intro pid process found
    obtain ⟨rfl, rfl⟩ : pid = 0 ∧ process = _ := by
      cases pid with
      | zero => exact ⟨rfl, (Option.some.inj found).symm⟩
      | succ pid => cases found
    refine ⟨none, ?_, ?_⟩
    · intro child
      cases child <;> rfl
    · simp only [Process.goal, List.head?_nil, Option.elim_none, Set.empty_sdiff]
      exact keeps.mono (Set.empty_subset _)
  · intro pid child _
    cases child <;> rfl

/-- A process that waits has one child to wait for, the one it forked last. -/
theorem Contract.Kept.waits (kept : contract.Kept system)
    (found : system.processes[pid]? = some process)
    (here : process.status = .running (.wait next)) :
    ∃ child, process.forked = some child ∧ system.unreaped pid = [child] := by
  have orderly := kept.orderly pid process found
  simp only [Orderly, here] at orderly
  obtain ⟨_, waits, label, rfl, _⟩ := orderly
  obtain ⟨child, forked, ⟨rest, lineage⟩, others⟩ := waits
  refine ⟨child, forked, ?_⟩
  have distinct : (system.unreaped pid).Nodup := List.nodup_range.filter _
  apply List.perm_singleton.mp
  rw [List.perm_ext_iff_of_nodup distinct (List.nodup_singleton child)]
  intro other
  rw [mem_unreaped, List.mem_singleton]
  constructor
  · rintro ⟨theirs, found'⟩
    by_contra apart
    rw [others other apart] at found'
    cases found'
  · rintro rfl
    exact ⟨_, lineage⟩

/-- A program that keeps the contract comes to no step that is undefined. -/
theorem Contract.Kept.defined (kept : contract.Kept system)
    (found : system.processes[pid]? = some process) : process.status ≠ .running .fault := by
  intro here
  have orderly := kept.orderly pid process found
  simp only [Orderly, here] at orderly
  obtain ⟨_, _, keeps⟩ := orderly
  exact keeps

/-- A process that has exited has kept the promise it was forked under. -/
theorem Contract.Kept.exited (kept : contract.Kept system)
    (found : system.processes[pid]? = some process)
    (ended : process.status.isZombie ∨ process.status.isReaped)
    (task : process.lineage.head? = some label) :
    contract.promises label ⊆ {label | label ∈ system.ended} := by
  have orderly := kept.orderly pid process found
  cases status : process.status with
  | running prog => simp [status, Status.isZombie, Status.isReaped] at ended
  | image image => simp [status, Status.isZombie, Status.isReaped] at ended
  | zombie => simpa [Orderly, status, task] using orderly
  | reaped => simpa [Orderly, status, task] using orderly

end CssLab.Unix
