import SharedRuns.Proofs.Interleaving.Team
import SharedRuns.Proofs.Shard.Crew
import SharedRuns.Proofs.Shard.Engine

/-!
# Claims that interleave

The cursor moves by a chunk at every claim, so the claims of all workers cut a range into chunks
that follow one another. Each worker makes one claim that finds nothing, and these move the cursor
beyond the range by a chunk for each worker. As long as this is still a word, the ranges that were
given out are the range, cut into pieces (`ranges_partition`). If it is not, the cursor wraps around
and the range is given out again (`ranges_repeat_after_wrap`).
-/

namespace SharedRuns

/-- In a phase of `workers` workers, of whom `unfinished` will claim again, the positions before
`done` have been given out. -/
structure Cursor.HandedOut (chunkSize limit workers unfinished done : Nat) (c : Cursor) : Prop where
  running : c.aborted = false
  /-- The cursor is a word, but may have moved further. -/
  reached : ∃ reached, c.next = reached % Position.space ∧ done = min reached limit ∧
    reached + unfinished * chunkSize < limit + (workers + 1) * chunkSize
  few : unfinished ≤ workers
  exhausted : unfinished < workers → done = limit

namespace Cursor.HandedOut

variable {chunkSize limit workers unfinished done : Nat} {c : Cursor}

theorem start (positive : 0 < chunkSize) : HandedOut chunkSize limit workers workers 0 {} where
  running := rfl
  reached := by
    refine ⟨0, rfl, (Nat.zero_min limit).symm, ?_⟩
    rw [Nat.succ_mul]
    omega
  few := Nat.le_refl _
  exhausted less := absurd less (Nat.lt_irrefl _)

theorem done_le (h : c.HandedOut chunkSize limit workers unfinished done) : done ≤ limit := by
  obtain ⟨reached, -, same, -⟩ := h.reached
  exact same ▸ Nat.min_le_right _ _

theorem done_eq (h : c.HandedOut chunkSize limit workers 0 done) (some : 0 < workers) :
    done = limit :=
  h.exhausted some

/-- A worker that claims is given the next positions, or it has finished and there are none. -/
theorem claim (h : c.HandedOut chunkSize limit workers (unfinished + 1) done)
    (positive : 0 < chunkSize) (room : limit + workers * chunkSize ≤ Position.space) :
    (∃ c', c.claim chunkSize limit = (none, c') ∧ done = limit ∧
        c'.HandedOut chunkSize limit workers unfinished done) ∨
      ∃ stop c', c.claim chunkSize limit = (some (done, stop), c') ∧ done < stop ∧ stop ≤ limit ∧
        c'.HandedOut chunkSize limit workers (unfinished + 1) stop := by
  obtain ⟨next, aborted⟩ := c
  obtain ⟨running, ⟨reached, word, rfl, bounded⟩, few, exhausted⟩ := h
  obtain rfl : aborted = false := running
  have bounded' : reached + chunkSize + unfinished * chunkSize <
      limit + (workers + 1) * chunkSize := by
    rw [Nat.succ_mul] at bounded
    omega
  -- The claim starts at a word: the cursor wraps around with the last claim of all at the earliest.
  have small : reached < Position.space := by
    rw [Nat.succ_mul] at bounded'
    omega
  obtain rfl : next = reached := word.trans (Nat.mod_eq_of_lt small)
  by_cases left : next < limit
  · right
    have all : unfinished + 1 = workers := by
      refine Nat.le_antisymm few (Nat.le_of_not_lt fun less => ?_)
      have := exhausted less
      omega
    have one : chunkSize ≤ workers * chunkSize := Nat.le_mul_of_pos_left _ (by omega)
    have within : next + chunkSize < Position.space := by omega
    have sum : Position.add next chunkSize = next + chunkSize := Position.add_of_lt within
    refine ⟨min (next + chunkSize) limit, { next := next + chunkSize }, ?_, by omega, by omega, ?_⟩
    · simp [Cursor.claim, Nat.not_le.mpr left, sum, Nat.min_eq_left (Nat.le_of_lt left)]
    · refine ⟨rfl, ⟨next + chunkSize, (Nat.mod_eq_of_lt within).symm, rfl, ?_⟩, few,
        fun less => absurd less (by omega)⟩
      rw [all, Nat.succ_mul]
      omega
  · left
    refine ⟨{ next := Position.add next chunkSize }, ?_, by omega, rfl,
      ⟨next + chunkSize, rfl, by omega, bounded'⟩, by omega, fun _ => by omega⟩
    simp [Cursor.claim, Nat.not_lt.mp left]

end Cursor.HandedOut

namespace Interleaving

namespace Claimer

/-- The claims that find nothing and are still to come from a worker. -/
def unfinished (w : Claimer) : Nat := if w.finished then 0 else 1

/-- The positions that a worker was given. -/
def positions (w : Claimer) : List Nat := w.ranges.flatMap fun r => span r.1 r.2

@[simp] theorem unfinished_false (ranges : List (Nat × Nat)) :
    unfinished { ranges, finished := false } = 1 := rfl

@[simp] theorem unfinished_true (ranges : List (Nat × Nat)) :
    unfinished { ranges, finished := true } = 0 := rfl

/-- All positions before `done` were given out, each to one worker. -/
def Inv (chunkSize limit workers rank : Nat) (cursor : Cursor) (tasks : Multiset Claimer) : Prop :=
  ∃ done, cursor.HandedOut chunkSize limit workers (tasks.map unfinished).sum done ∧
    (tasks.bind fun w => (w.positions : Multiset Nat)) = (span 0 done : List Nat) ∧
    limit - done + (tasks.map unfinished).sum = rank

variable {chunkSize limit workers : Nat}

theorem descends (positive : 0 < chunkSize) (room : limit + workers * chunkSize ≤ Position.space) :
    Descends (Claimer.act chunkSize limit) (Inv chunkSize limit workers) := by
  intro cursor cursor' w w' acts others rank inv
  obtain ⟨ranges, finished⟩ := w
  obtain ⟨done, cursorAt, given, rfl⟩ := inv
  cases finished with
  | true => simp [Claimer.act] at acts
  | false =>
      simp only [Multiset.map_cons, Multiset.sum_cons, Multiset.cons_bind, unfinished_false,
        Nat.add_comm 1] at cursorAt given
      obtain ⟨c', found, whole, after⟩ | ⟨stop, c', found, more, inside, after⟩ :=
        cursorAt.claim positive room
      · simp only [Claimer.act, found] at acts
        obtain ⟨rfl, rfl⟩ := Prod.mk.inj (Option.some.inj acts)
        refine ⟨_, ?_, done, ?_, ?_, rfl⟩
        · simp
        · simpa using after
        · simpa [positions] using given
      · simp only [Claimer.act, found] at acts
        obtain ⟨rfl, rfl⟩ := Prod.mk.inj (Option.some.inj acts)
        refine ⟨_, ?_, stop, ?_, ?_, rfl⟩
        · simp only [Multiset.map_cons, Multiset.sum_cons, unfinished_false]
          omega
        · simpa [Nat.add_comm 1] using after
        · rw [span_append (Nat.zero_le done) (Nat.le_of_lt more), ← Multiset.coe_add, ← given]
          simp only [Multiset.cons_bind, positions, List.flatMap_append, List.flatMap_singleton,
            ← Multiset.coe_add]
          exact add_right_comm _ _ _

theorem inv_start (positive : 0 < chunkSize) :
    Inv chunkSize limit workers (limit + workers) {} (Multiset.replicate workers {}) := by
  refine ⟨0, ?_, ?_, ?_⟩
  · simpa [unfinished] using Cursor.HandedOut.start positive
  · exact bind_replicate_of_nil rfl workers
  · simp [unfinished]

theorem finished_of_act_eq_none {cursor : Cursor} {w : Claimer}
    (idle : Claimer.act chunkSize limit cursor w = none) : w.finished = true := by
  obtain ⟨ranges, finished⟩ := w
  cases finished with
  | true => rfl
  | false =>
      rcases found : cursor.claim chunkSize limit with ⟨_ | range, c'⟩ <;>
        simp [Claimer.act, found] at idle

end Claimer

/-- However the claims of the workers interleave, they can go on to an end, and then the ranges that
were given out do not meet and make up the whole range. -/
theorem ranges_partition {settings : ShardSettings} (accepted : settings.check = .ok ())
    {limit : Nat} (room : limit + settings.workers * settings.chunkSize ≤ Position.space) :
    let act := Claimer.act settings.chunkSize limit
    let start : Team Cursor Claimer := .uniform settings.workers {} {}
    (∀ middle, Steps act start middle → ∃ stop, Completes act middle stop) ∧
      ∀ stop, Completes act start stop →
        let ranges := stop.tasks.flatMap Claimer.ranges
        ranges.Pairwise (fun r s => (span r.1 r.2).Disjoint (span s.1 s.2)) ∧
          ∀ i, (∃ r ∈ ranges, i ∈ span r.1 r.2) ↔ i < limit := by
  intro act start
  obtain ⟨positive, -⟩ := ShardEngine.bounds_of_check accepted
  have some : 0 < settings.workers := ShardEngine.workers_pos_of_check accepted
  have descends := Claimer.descends positive room
  have before : Claimer.Inv settings.chunkSize limit settings.workers _ start.memory start.tasks :=
    Claimer.inv_start positive
  constructor
  · intro middle steps
    obtain ⟨rank, kept⟩ := steps.keeps descends before
    exact exists_completes descends kept
  · rintro stop ⟨steps, finished⟩ ranges
    obtain ⟨rank, done, cursorAt, given, -⟩ := steps.keeps descends before
    have none : ((stop.tasks : Multiset Claimer).map Claimer.unfinished).sum = 0 := by
      refine Multiset.sum_eq_zero fun n member => ?_
      obtain ⟨w, inTeam, rfl⟩ := Multiset.mem_map.mp member
      have idle := Claimer.finished_of_act_eq_none (finished w inTeam)
      simp [Claimer.unfinished, idle]
    rw [none] at cursorAt
    obtain rfl := cursorAt.done_eq some
    have positions : (ranges.flatMap fun r => span r.1 r.2).Perm (span 0 done) := by
      rw [Multiset.coe_bind, Multiset.coe_eq_coe] at given
      rw [List.flatMap_assoc]
      exact given
    have nodup : (ranges.flatMap fun r => span r.1 r.2).Nodup :=
      positions.nodup_iff.mpr List.nodup_range'
    refine ⟨(List.nodup_flatMap.mp nodup).2, fun i => ?_⟩
    rw [← List.mem_flatMap, positions.mem_iff, mem_span]
    omega

/-- Two workers cut five positions into a chunk of three and one of two. -/
theorem ranges_partition_of_two_workers :
    let settings : ShardSettings := { workers := 2, chunkSize := 3, maxChain := 2 }
    ∃ stop, settings.check = .ok () ∧
      5 + settings.workers * settings.chunkSize ≤ Position.space ∧
      Completes (Claimer.act settings.chunkSize 5) (.uniform settings.workers {} {}) stop ∧
      stop.tasks.flatMap Claimer.ranges = [(3, 5), (0, 3)] ∧
      ∀ i, (∃ r ∈ stop.tasks.flatMap Claimer.ranges, i ∈ span r.1 r.2) ↔ i < 5 := by
  intro settings
  have accepted : settings.check = .ok () := rfl
  have room : 5 + settings.workers * settings.chunkSize ≤ Position.space := by decide
  let start : Team Cursor Claimer := .uniform settings.workers {} {}
  have completes : Completes (Claimer.act settings.chunkSize 5) start
      (start.follow (Claimer.act settings.chunkSize 5) [1, 0, 1, 0]) :=
    ⟨steps_follow start _, by decide⟩
  have whole := ((ranges_partition accepted room).2 _ completes).2
  exact ⟨_, accepted, room, completes, by decide, whole⟩

/-- With chunks of half the words, the second claim of two workers moves the cursor back to the
start. Whichever worker has not finished then is given everything again. -/
theorem ranges_repeat_after_wrap :
    let settings : ShardSettings := { workers := 2, chunkSize := 2 ^ 63, maxChain := 1000 }
    ∃ stop, settings.check = .ok () ∧
      Completes (Claimer.act settings.chunkSize 6) (.uniform settings.workers {} {}) stop ∧
      stop.tasks.flatMap Claimer.ranges = [(0, 6), (0, 6)] := by
  intro settings
  let start : Team Cursor Claimer := .uniform settings.workers {} {}
  have completes : Completes (Claimer.act settings.chunkSize 6) start
      (start.follow (Claimer.act settings.chunkSize 6) [0, 1, 0, 0]) :=
    ⟨steps_follow start _, by decide⟩
  exact ⟨_, rfl, completes, by decide⟩

end Interleaving

end SharedRuns
