import Mathlib.Data.Multiset.Bind
import SharedRuns.Shard.Interleaving

/-!
# What every interleaving keeps

In which order the workers of a team act is left open, so what is said of a team is said of its
memory and of its tasks in no order. What one worker keeps, whatever the others are at, is kept by
every interleaving (`Steps.preserves`). If each action also lowers a rank (`Steps.keeps`), no
interleaving goes on forever, and each one that has begun can be finished (`exists_completes`).
-/

namespace SharedRuns.Interleaving

variable {σ τ : Type} {act : Act σ τ} {team team' start middle stop : Team σ τ}

instance (act : Act σ τ) (team : Team σ τ) : Decidable (Finished act team) :=
  decidable_of_iff (∀ task ∈ team.tasks, (act team.memory task).isNone = true)
    (forall₂_congr fun _ _ => Option.isNone_iff_eq_none)

/-- Each action of a worker preserves an invariant of the memory and all tasks. -/
def Preserves (act : Act σ τ) (Inv : σ → Multiset τ → Prop) : Prop :=
  ∀ ⦃memory memory' : σ⦄ ⦃task task' : τ⦄, act memory task = some (memory', task') →
    ∀ ⦃others : Multiset τ⦄, Inv memory (task ::ₘ others) → Inv memory' (task' ::ₘ others)

/-- Each action of a worker keeps an invariant of the memory and all tasks, and lowers its rank. -/
def Descends (act : Act σ τ) (Inv : Nat → σ → Multiset τ → Prop) : Prop :=
  ∀ ⦃memory memory' : σ⦄ ⦃task task' : τ⦄, act memory task = some (memory', task') →
    ∀ ⦃others : Multiset τ⦄ ⦃rank : Nat⦄, Inv rank memory (task ::ₘ others) →
      ∃ lower < rank, Inv lower memory' (task' ::ₘ others)

/-- A step is the action of one worker among others. -/
theorem Step.exists_others (step : Step act team team') :
    ∃ task task' others, act team.memory task = some (team'.memory, task') ∧
      (team.tasks : Multiset τ) = task ::ₘ others ∧
      (team'.tasks : Multiset τ) = task' ::ₘ others := by
  cases step with
  | @act worker task task' memory' at_work acts =>
      obtain ⟨inside, same⟩ := List.getElem?_eq_some_iff.mp at_work
      have parts : team.tasks =
          team.tasks.take worker ++ task :: team.tasks.drop (worker + 1) := by
        rw [← same, List.getElem_cons_drop, List.take_append_drop]
      have parts' : team.tasks.set worker task' =
          team.tasks.take worker ++ task' :: team.tasks.drop (worker + 1) := by
        rw [List.set_eq_take_append_cons_drop, if_pos inside]
      refine ⟨task, task', (team.tasks.take worker ++ team.tasks.drop (worker + 1) : List τ), acts,
        ?_, ?_⟩
      · exact Multiset.coe_eq_coe.mpr ((List.Perm.of_eq parts).trans List.perm_middle)
      · exact Multiset.coe_eq_coe.mpr ((List.Perm.of_eq parts').trans List.perm_middle)

theorem Steps.head (later : Steps act middle stop) (first : Step act start middle) :
    Steps act start stop := by
  induction later with
  | refl => exact .tail (.refl start) first
  | tail _ last ih => exact .tail ih last

/-- What each action preserves holds throughout every interleaving, also of one that never ends. -/
theorem Steps.preserves {Inv : σ → Multiset τ → Prop} (steps : Steps act start stop)
    (preserved : Preserves act Inv) (before : Inv start.memory start.tasks) :
    Inv stop.memory stop.tasks := by
  induction steps with
  | refl => exact before
  | tail _ last ih =>
      obtain ⟨task, task', others, acts, tasks, tasks'⟩ := last.exists_others
      rw [tasks] at ih
      rw [tasks']
      exact preserved acts ih

/-- No worker joins or leaves. -/
theorem Steps.length_tasks (steps : Steps act start stop) :
    stop.tasks.length = start.tasks.length := by
  induction steps with
  | refl => rfl
  | tail _ last ih =>
      cases last with
      | act => exact List.length_set.trans ih

/-- The team after the workers of a schedule acted one after another. A worker that has finished by
then is passed over. -/
def Team.follow (act : Act σ τ) (team : Team σ τ) : (schedule : List Nat) → Team σ τ
  | [] => team
  | worker :: rest =>
    match team.tasks[worker]? with
    | none => team.follow act rest
    | some task =>
      match act team.memory task with
      | none => team.follow act rest
      | some (memory, task) =>
        Team.follow act { memory, tasks := team.tasks.set worker task } rest

/-- Every schedule is one of the orders in which the workers may act. -/
theorem steps_follow (team : Team σ τ) (schedule : List Nat) :
    Steps act team (team.follow act schedule) := by
  induction schedule generalizing team with
  | nil => exact .refl team
  | cons worker rest ih =>
      simp only [Team.follow]
      split
      · exact ih team
      · next at_work =>
        split
        · exact ih team
        · next acts => exact (ih _).head (.act at_work acts)

section

variable {Inv : Nat → σ → Multiset τ → Prop} {rank : Nat}

theorem Step.keeps (step : Step act team team') (descends : Descends act Inv)
    (before : Inv rank team.memory team.tasks) :
    ∃ lower < rank, Inv lower team'.memory team'.tasks := by
  obtain ⟨task, task', others, acts, tasks, tasks'⟩ := step.exists_others
  rw [tasks] at before
  rw [tasks']
  exact descends acts before

theorem Descends.preserves (descends : Descends act Inv) :
    Preserves act fun memory tasks => ∃ rank, Inv rank memory tasks := by
  rintro _ _ _ _ acts others ⟨rank, before⟩
  obtain ⟨lower, -, after⟩ := descends acts before
  exact ⟨lower, after⟩

/-- What each action keeps is kept by every interleaving. -/
theorem Steps.keeps (steps : Steps act start stop) (descends : Descends act Inv)
    (before : Inv rank start.memory start.tasks) :
    ∃ lower, Inv lower stop.memory stop.tasks :=
  steps.preserves descends.preserves ⟨rank, before⟩

/-- A team that has finished is one of workers at the task that has no action. -/
theorem Completes.tasks_eq {last : τ} (completes : Completes act start stop)
    (idle : ∀ task, act stop.memory task = none → task = last) :
    (stop.tasks : Multiset τ) = Multiset.replicate stop.tasks.length last :=
  Multiset.eq_replicate.mpr ⟨rfl, fun task member => idle task (completes.2 task member)⟩

theorem bind_replicate_of_nil {α : Type} {held : τ → List α} {task : τ} (none : held task = [])
    (workers : Nat) :
    ((Multiset.replicate workers task).bind fun task => (held task : Multiset α)) = 0 := by
  rw [Multiset.bind, Multiset.join, Multiset.map_replicate, none, Multiset.coe_nil,
    Multiset.sum_replicate, nsmul_zero]

/-- A team can always finish, since its rank cannot fall forever. -/
theorem exists_completes (descends : Descends act Inv)
    (before : Inv rank start.memory start.tasks) : ∃ stop, Completes act start stop := by
  induction rank using Nat.strong_induction_on generalizing start with
  | _ rank ih =>
      by_cases finished : Finished act start
      · exact ⟨start, .refl start, finished⟩
      · simp only [Finished, not_forall] at finished
        obtain ⟨task, member, busy⟩ := finished
        obtain ⟨worker, at_work⟩ := List.mem_iff_getElem?.mp member
        obtain ⟨⟨memory', task'⟩, acts⟩ := Option.ne_none_iff_exists'.mp busy
        have first := Step.act at_work acts
        obtain ⟨lower, less, after⟩ := first.keeps descends before
        obtain ⟨stop, later, done⟩ := ih lower less after
        exact ⟨stop, later.head first, done⟩

end

end SharedRuns.Interleaving
