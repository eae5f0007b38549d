import Mathlib.Data.List.Induction
import SharedRuns.Shard.Crew

/-!
# What a crew does to its memory

A single worker claims the range of a phase chunk by chunk until nothing is left. Its work is the
traversal of the range, and it ends where the traversal is stopped (`Crew.run_one_endsAs`). The
cursor is a word, and does not wrap around before the range is exhausted.

However many workers there are and whatever stops them, a phase preserves what every chunk of its
work preserves (`Crew.run_preserves`), fails for what stops a chunk of its work
(`Crew.run_stopsOnly`), and what it does to a part of its memory is what its chunks do to that part
(`Crew.run_map`).
-/

namespace SharedRuns

variable {σ α β : Type}

theorem span_append {start middle stop : Nat} (le : start ≤ middle) (le' : middle ≤ stop) :
    span start stop = span start middle ++ span middle stop := by
  have whole : stop - start = (middle - start) + (stop - middle) := by omega
  rw [span, span, span, whole, ← List.range'_append_1, Nat.add_sub_cancel' le]

theorem span_of_le {start stop : Nat} (le : stop ≤ start) : span start stop = [] := by
  rw [span, Nat.sub_eq_zero_of_le le, List.range'_zero]

theorem span_zero (stop : Nat) : span 0 stop = List.range stop := by
  rw [span, Nat.sub_zero, List.range_eq_range']

namespace Work

theorem bind_eq (x : Work σ α) (f : α → Work σ β) (s : σ) :
    (x >>= f) s = match x s with
      | (.ok a, s') => f a s'
      | (.error p, s') => (.error p, s') := by
  simp only [bind, ExceptT.bind, ExceptT.mk, StateT.bind, ExceptT.bindCont]
  rcases x s with ⟨_ | _, _⟩ <;> rfl

theorem bind_of_ok {x : Work σ α} {f : α → Work σ β} {s s' : σ} {a : α}
    (ran : x s = (.ok a, s')) : (x >>= f) s = f a s' := by
  rw [bind_eq, ran]

theorem bind_of_error {x : Work σ α} {f : α → Work σ β} {s s' : σ} {p : Payload}
    (stopped : x s = (.error p, s')) : (x >>= f) s = (.error p, s') := by
  rw [bind_eq, stopped]

theorem forM_cons (f : α → Work σ Unit) (x : α) (xs : List α) :
    (x :: xs).forM f = (do f x; xs.forM f) := rfl

theorem forM_append (f : α → Work σ Unit) (xs ys : List α) :
    (xs ++ ys).forM f = (do xs.forM f; ys.forM f) := by
  simp only [List.forM_eq_forM, List.forM_append]

/-- What holds of the memory before the work holds afterwards, also if the work was stopped. -/
def Preserves (P : σ → Prop) (x : Work σ α) : Prop := ∀ s, P s → P (x s).2

/-- What holds of the memory before the work holds afterwards, and if the work is stopped, then with
one of certain payloads. -/
def StopsOnly (P : σ → Prop) (Q : Payload → Prop) (x : Work σ α) : Prop :=
  ∀ s, P s → P (x s).2 ∧ ∀ payload, (x s).1 = .error payload → Q payload

section

variable {P : σ → Prop} {Q : Payload → Prop}

theorem StopsOnly.bind {x : Work σ α} {f : α → Work σ β} (first : StopsOnly P Q x)
    (later : ∀ a, StopsOnly P Q (f a)) : StopsOnly P Q (x >>= f) := by
  intro s before
  have middle := first s before
  rw [bind_eq]
  rcases ran : x s with ⟨payload | a, s'⟩
  · rw [ran] at middle
    exact ⟨middle.1, fun _ stopped => middle.2 _ (congrArg Except.error (Except.error.inj stopped))⟩
  · rw [ran] at middle
    exact later a s' middle.1

theorem StopsOnly.forM {f : α → Work σ Unit} {xs : List α}
    (step : ∀ a ∈ xs, StopsOnly P Q (f a)) : StopsOnly P Q (xs.forM f) := by
  induction xs with
  | nil => exact fun _ before => ⟨before, nofun⟩
  | cons a rest ih =>
      rw [List.forall_mem_cons] at step
      exact step.1.bind fun _ => ih step.2

theorem StopsOnly.ofExcept_bind {x : Except Fault α} {f : α → Work σ β} {a : α}
    (ran : x = .ok a) (later : StopsOnly P Q (f a)) :
    StopsOnly P Q (Work.ofExcept x >>= f) := by
  intro s before
  rw [ran]
  exact later s before

/-- What is said of the memory alone leaves open with what the work is stopped. -/
theorem preserves_iff {x : Work σ α} : Preserves P x ↔ StopsOnly P (fun _ => True) x :=
  forall₂_congr fun _ _ => (and_iff_left fun _ _ => trivial).symm

theorem Preserves.bind {x : Work σ α} {f : α → Work σ β} (first : Preserves P x)
    (later : ∀ a, Preserves P (f a)) : Preserves P (x >>= f) := by
  simp only [preserves_iff] at first later ⊢
  exact first.bind later

theorem Preserves.forM {f : α → Work σ Unit} {xs : List α} (step : ∀ a ∈ xs, Preserves P (f a)) :
    Preserves P (xs.forM f) := by
  simp only [preserves_iff] at step ⊢
  exact .forM step

/-- Where a computation faults nothing is done, so only its value matters. -/
theorem Preserves.ofExcept_bind {x : Except Fault α} {f : α → Work σ β}
    (later : ∀ a, x = .ok a → Preserves P (f a)) : Preserves P (Work.ofExcept x >>= f) := by
  intro s before
  rw [bind_eq]
  cases x with
  | error fault => exact before
  | ok a => exact later a rfl s before

end

/-- Work `y` does to the part `f` of a memory what `x` does to the whole memory, and ends alike. -/
def Projects {τ : Type} (f : τ → σ) (x : Work τ α) (y : Work σ α) : Prop :=
  ∀ s, y (f s) = ((x s).1, f (x s).2)

section

variable {τ : Type} {f : τ → σ}

theorem Projects.bind {x : Work τ α} {y : Work σ α} {g : α → Work τ β} {h : α → Work σ β}
    (first : Projects f x y) (later : ∀ a, Projects f (g a) (h a)) :
    Projects f (x >>= g) (y >>= h) := by
  intro s
  rw [bind_eq, bind_eq, first]
  rcases x s with ⟨_ | a, s'⟩
  · rfl
  · exact later a s'

theorem Projects.forM {g : α → Work τ Unit} {h : α → Work σ Unit}
    (step : ∀ a, Projects f (g a) (h a)) (xs : List α) : Projects f (xs.forM g) (xs.forM h) := by
  induction xs with
  | nil => exact fun _ => rfl
  | cons a rest ih => exact (step a).bind fun _ => ih

theorem Projects.ofExcept (x : Except Fault α) :
    Projects f (Work.ofExcept x) (Work.ofExcept x) := by
  intro s
  cases x <;> rfl

end

end Work

namespace Crew

/-- The failure under which the result of a worker's work is reported. -/
def failureOf (phase : Phase) (worker : Nat) : Except Payload Unit → Option Fault
  | .ok () => none
  | .error payload => some (.workerStopped phase worker payload.message)

/-- The crew ended as a piece of work of one of its workers did. -/
structure EndsAs (phase : Phase) (worker : Nat) (crew : Crew σ)
    (ended : Except Payload Unit × σ) : Prop where
  memory : crew.memory = ended.2
  failure : crew.failure = failureOf phase worker ended.1

section

variable {chunkSize limit : Nat} {work : Nat → Nat → Work σ Unit} {step : Nat → Work σ Unit}

/-- The loop of a worker from `start` on traverses what is left of the range. The next claim starts
at a word as long as something is left. -/
theorem workLoop_endsAs (phase : Phase) (worker : Nat)
    (each : ∀ start stop, work start stop = (span start stop).forM step)
    (positive : 0 < chunkSize) (small : 2 * limit ≤ Position.space) {rounds start : Nat}
    (enough : limit < start + rounds) (word : start < limit → start + chunkSize < Position.space)
    (memory : σ) :
    (workLoop chunkSize limit phase work worker rounds
      { cursor := { next := start }, memory }).EndsAs phase worker
        ((span start limit).forM step memory) := by
  induction rounds generalizing start memory with
  | zero =>
      rw [span_of_le (by omega)]
      exact ⟨rfl, rfl⟩
  | succ rounds ih =>
      by_cases left : start < limit
      · have next : Position.add start chunkSize = start + chunkSize :=
          Position.add_of_lt (word left)
        have claimed : Cursor.claim chunkSize limit { next := start } =
            (some (start, min (start + chunkSize) limit), { next := start + chunkSize }) := by
          simp [Cursor.claim, Nat.not_le.mpr left, next]
        have parts : span start limit =
            span start (min (start + chunkSize) limit) ++ span (start + chunkSize) limit := by
          rcases Nat.le_total (start + chunkSize) limit with more | last
          · rw [Nat.min_eq_left more]
            exact span_append (Nat.le_add_right _ _) more
          · rw [Nat.min_eq_right last, span_of_le last, List.append_nil]
        simp only [workLoop, claimed, each]
        rw [parts, Work.forM_append, Work.bind_eq]
        rcases (span start (min (start + chunkSize) limit)).forM step memory with ⟨_ | _, after⟩
        · exact ⟨rfl, rfl⟩
        · exact ih (by omega) (fun _ => by omega) after
      · have none : Cursor.claim chunkSize limit { next := start } =
            (none, { next := Position.add start chunkSize }) := by
          simp [Cursor.claim, Nat.not_lt.mp left]
        simp only [workLoop, none]
        rw [span_of_le (Nat.not_lt.mp left)]
        exact ⟨rfl, rfl⟩

/-- One worker traverses the whole range. -/
theorem run_one_endsAs (phase : Phase)
    (each : ∀ start stop, work start stop = (span start stop).forM step)
    (positive : 0 < chunkSize) (word : chunkSize < Position.space)
    (small : 2 * limit ≤ Position.space) (cursor : Cursor) (memory : σ) :
    (run 1 chunkSize limit phase work cursor memory).EndsAs phase 0
      ((List.range limit).forM step memory) := by
  rw [← span_zero]
  exact workLoop_endsAs phase 0 each positive small (by omega) (fun _ => by omega) memory

end

section

variable {P : σ → Prop} {Q : Payload → Prop} {chunkSize limit : Nat} {phase : Phase}
  {work : Nat → Nat → Work σ Unit}

/-- A range that is claimed ends within the limit, wherever the cursor wrapped around. -/
theorem stop_le_of_claim {cursor cursor' : Cursor} {start stop : Nat}
    (claimed : cursor.claim chunkSize limit = (some (start, stop), cursor')) : stop ≤ limit := by
  unfold Cursor.claim at claimed
  split at claimed
  · cases claimed
  · dsimp only at claimed
    split at claimed
    · cases claimed
    · cases claimed
      exact Nat.min_le_right _ _

/-- Claiming does not raise the abort flag. -/
theorem aborted_of_claim {cursor cursor' : Cursor} {range : Option (Nat × Nat)}
    (claimed : cursor.claim chunkSize limit = (range, cursor')) :
    cursor'.aborted = cursor.aborted := by
  unfold Cursor.claim at claimed
  split at claimed
  · cases claimed
    rfl
  · dsimp only at claimed
    split at claimed
    · cases claimed
      rfl
    · cases claimed
      rfl

/-- A crew fails only for a payload of one of its workers. -/
def FailsOnly (Q : Payload → Prop) (phase : Phase) (crew : Crew σ) : Prop :=
  ∀ fault, crew.failure = some fault →
    ∃ worker payload, Q payload ∧ fault = .workerStopped phase worker payload.message

theorem workLoop_stopsOnly (chunk : ∀ start stop, stop ≤ limit → (work start stop).StopsOnly P Q)
    (worker : Nat) {rounds : Nat} {crew : Crew σ} (before : P crew.memory)
    (fails : crew.FailsOnly Q phase) :
    P (workLoop chunkSize limit phase work worker rounds crew).memory ∧
      (workLoop chunkSize limit phase work worker rounds crew).FailsOnly Q phase := by
  induction rounds generalizing crew with
  | zero => exact ⟨before, fails⟩
  | succ rounds ih =>
      obtain ⟨cursor, memory, failure⟩ := crew
      simp only [workLoop]
      rcases claimed : cursor.claim chunkSize limit with ⟨_ | ⟨start, stop⟩, cursor⟩
      · exact ⟨before, fails⟩
      · obtain ⟨after, stopped⟩ := chunk start stop (stop_le_of_claim claimed) memory before
        simp only
        rcases ran : work start stop memory with ⟨payload | _, memory'⟩
        · rw [ran] at after stopped
          refine ⟨after, fun fault failed => ?_⟩
          cases failure with
          | some earlier => exact fails fault failed
          | none => exact ⟨worker, payload, stopped payload rfl, (Option.some.inj failed).symm⟩
        · rw [ran] at after
          exact ih after fails

theorem run_stopsOnly (chunk : ∀ start stop, stop ≤ limit → (work start stop).StopsOnly P Q)
    (workers : Nat) (cursor : Cursor) {memory : σ} (before : P memory) :
    P (run workers chunkSize limit phase work cursor memory).memory ∧
      (run workers chunkSize limit phase work cursor memory).FailsOnly Q phase := by
  unfold run
  induction List.range workers using List.reverseRecOn with
  | nil => exact ⟨before, nofun⟩
  | append_singleton earlier worker ih =>
      rw [List.foldl_append]
      exact workLoop_stopsOnly chunk worker ih.1 ih.2

theorem run_preserves (chunk : ∀ start stop, (work start stop).Preserves P) (workers : Nat)
    (cursor : Cursor) {memory : σ} (before : P memory) :
    P (run workers chunkSize limit phase work cursor memory).memory :=
  (run_stopsOnly (fun start stop _ => Work.preserves_iff.mp (chunk start stop)) workers cursor
    before).1

end

section

variable {τ : Type} {f : τ → σ} {chunkSize limit : Nat} {phase : Phase}
  {work : Nat → Nat → Work τ Unit} {part : Nat → Nat → Work σ Unit}

/-- A crew of whose memory only a part is looked at. -/
def map (f : τ → σ) (crew : Crew τ) : Crew σ where
  cursor := crew.cursor
  memory := f crew.memory
  failure := crew.failure

theorem workLoop_map (chunk : ∀ start stop, (work start stop).Projects f (part start stop))
    (worker rounds : Nat) (crew : Crew τ) :
    workLoop chunkSize limit phase part worker rounds (crew.map f) =
      (workLoop chunkSize limit phase work worker rounds crew).map f := by
  induction rounds generalizing crew with
  | zero => rfl
  | succ rounds ih =>
      obtain ⟨cursor, memory, failure⟩ := crew
      simp only [workLoop, map]
      rcases cursor.claim chunkSize limit with ⟨_ | ⟨start, stop⟩, cursor⟩
      · rfl
      · simp only [chunk start stop memory]
        rcases work start stop memory with ⟨payload | ⟨⟩, memory'⟩
        · rfl
        · exact ih { cursor, memory := memory', failure }

/-- A phase does to a part of the memory what its work does to it. -/
theorem run_map (chunk : ∀ start stop, (work start stop).Projects f (part start stop))
    (workers : Nat) (cursor : Cursor) (memory : τ) :
    run workers chunkSize limit phase part cursor (f memory) =
      (run workers chunkSize limit phase work cursor memory).map f := by
  show (List.range workers).foldl _ (Crew.map f { cursor := cursor.rewind, memory }) = _
  apply List.foldl_hom
  intro crew worker
  exact workLoop_map chunk worker (limit + 1) crew

end

end Crew

end SharedRuns
