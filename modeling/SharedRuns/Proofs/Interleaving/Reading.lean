import Mathlib.Algebra.BigOperators.Group.List.Basic
import SharedRuns.Proofs.Interleaving.Claiming
import SharedRuns.Proofs.Shard.Reading

/-!
# Reading by workers that interleave

In the reading phase the arena does not change, so what a bin reports does not depend on the worker
that reads it. While workers read, the calls for all bins that have been given out were made or wait
with some worker, and their tallies are with the workers or in the common tally, which workers add
to in the order in which they finish (`ReadersAt`). When all have finished, the calls for all bins
were made, in some order, and all bins were tallied (`Reader.perm_of_completes`).
-/

namespace SharedRuns

namespace Tally

instance : Zero Tally := ⟨{}⟩

instance : Add Tally := ⟨Tally.add⟩

theorem add_def (t u : Tally) : t + u = t.add u := rfl

theorem zero_def : (0 : Tally) = {} := rfl

/-- In which order bins are tallied makes no difference. -/
instance : AddCommMonoid Tally where
  add_assoc t u v := by simp only [add_def, Tally.add, Nat.add_assoc]
  zero_add t := by simp only [add_def, zero_def, Tally.add, Nat.zero_add]
  add_zero t := rfl
  add_comm t u := by simp only [add_def, Tally.add, Nat.add_comm]
  nsmul := nsmulRec

end Tally

theorem foldl_tally {β : Type} (tallyOf : β → Tally) (bins : List β) (tally : Tally) :
    bins.foldl (fun tally bin => tally.add (tallyOf bin)) tally =
      tally + (bins.map tallyOf).sum := by
  induction bins generalizing tally with
  | nil => rfl
  | cons bin rest ih =>
      rw [List.foldl_cons, ih, List.map_cons, List.sum_cons, ← Tally.add_def, add_assoc]

namespace Interleaving

open Checked

namespace Reader

/-- What a worker has tallied and not yet added to the common tally. -/
@[simp] def own : Reader → Tally
  | .claiming own => own
  | .calling own _ => own
  | .finished => 0

/-- The calls that a worker has still to make. -/
@[simp] def waiting : Reader → List Match
  | .claiming _ => []
  | .calling _ calls => calls
  | .finished => []

/-- The claims that find nothing and are still to come from a worker. -/
@[simp] def unfinished : Reader → Nat
  | .claiming _ => 1
  | .calling _ _ => 1
  | .finished => 0

/-- A bound on the actions of a worker before it claims something again. -/
@[simp] def rank : Reader → Nat
  | .claiming _ => 1
  | .calling _ calls => calls.length + 2
  | .finished => 0

end Reader

theorem calls_ofBins_map (bins : List Nat) (reading : Nat → BinReading) :
    (RangeReading.ofBins (bins.map reading)).calls =
      bins.flatMap fun bin => (reading bin).calls :=
  List.flatMap_map ..

theorem tally_ofBins_map (bins : List Nat) (reading : Nat → BinReading) :
    (RangeReading.ofBins (bins.map reading)).tally =
      (bins.map fun bin => (reading bin).tally).sum := by
  rw [RangeReading.ofBins, foldl_tally, List.map_map]
  exact zero_add _

/-- The calls for the bins before `done` were made, in some order, or wait with a worker, and these
bins were tallied. -/
structure ReadersAt (chunkSize : Nat) (reading : Nat → BinReading) (workers rank : Nat)
    (s : ReadingMemory) (tasks : Multiset Reader) (done : Nat) : Prop where
  cursor : s.cursor.HandedOut chunkSize binCount workers (tasks.map Reader.unfinished).sum done
  calls : (s.calls : Multiset Match) + (tasks.bind fun w => (w.waiting : Multiset Match)) =
    ((span 0 done).flatMap fun bin => (reading bin).calls : List Match)
  tallied : s.tally + (tasks.map Reader.own).sum =
    ((span 0 done).map fun bin => (reading bin).tally).sum
  rank_eq : ((span done binCount).flatMap fun bin => (reading bin).calls).length +
    2 * (binCount - done) + (tasks.map Reader.rank).sum = rank

namespace ReadersAt

variable {chunkSize workers rank done stop : Nat} {reading : Nat → BinReading} {s : ReadingMemory}
  {others : Multiset Reader} {own : Tally} {found : Match} {calls : List Match} {c : Cursor}

/-- A worker finds nothing more to claim. -/
theorem finish (h : ReadersAt chunkSize reading workers rank s (.claiming own ::ₘ others) done)
    (after : c.HandedOut chunkSize binCount workers (others.map Reader.unfinished).sum done) :
    ∃ lower < rank, ReadersAt chunkSize reading workers lower
      { s with cursor := c, tally := s.tally.add own } (.finished ::ₘ others) done := by
  obtain ⟨-, called, tallied, rfl⟩ := h
  refine ⟨_, ?_, ?_, by simpa using called, ?_, rfl⟩
  · simp
  · simpa using after
  · simp only [Multiset.map_cons, Multiset.sum_cons, Reader.own] at tallied ⊢
    rw [zero_add, ← tallied, ← add_assoc]
    rfl

/-- A worker claims the bins up to `stop`. -/
theorem take (h : ReadersAt chunkSize reading workers rank s (.claiming own ::ₘ others) done)
    (more : done < stop) (inside : stop ≤ binCount)
    (after : c.HandedOut chunkSize binCount workers ((others.map Reader.unfinished).sum + 1) stop) :
    let taken := RangeReading.ofBins ((span done stop).map reading)
    ∃ lower < rank, ReadersAt chunkSize reading workers lower { s with cursor := c }
      (.calling (own.add taken.tally) taken.calls ::ₘ others) stop := by
  obtain ⟨-, called, tallied, rfl⟩ := h
  intro taken
  simp only [taken, calls_ofBins_map, tally_ofBins_map]
  refine ⟨_, ?_, ?_, ?_, ?_, rfl⟩
  · rw [span_append (Nat.le_of_lt more) inside]
    simp only [Multiset.map_cons, Multiset.sum_cons, Reader.rank, List.flatMap_append,
      List.length_append]
    omega
  · simpa [Nat.add_comm 1] using after
  · rw [span_append (Nat.zero_le done) (Nat.le_of_lt more), List.flatMap_append, ← Multiset.coe_add,
      ← called]
    simp only [Multiset.cons_bind, Reader.waiting, Multiset.coe_nil, zero_add]
    rw [add_assoc, add_comm (Multiset.bind _ _)]
  · rw [span_append (Nat.zero_le done) (Nat.le_of_lt more), List.map_append, List.sum_append,
      ← tallied]
    simp only [Multiset.map_cons, Multiset.sum_cons, Reader.own]
    rw [← Tally.add_def, add_right_comm own]
    exact (add_assoc _ _ _).symm

/-- A worker makes its next call. -/
theorem call (h : ReadersAt chunkSize reading workers rank s
    (.calling own (found :: calls) ::ₘ others) done) :
    ∃ lower < rank, ReadersAt chunkSize reading workers lower
      { s with calls := s.calls ++ [found] } (.calling own calls ::ₘ others) done := by
  obtain ⟨cursor, called, tallied, rfl⟩ := h
  refine ⟨_, ?_, by simpa using cursor, ?_, by simpa using tallied, rfl⟩
  · simp
  · rw [← called]
    simp only [Multiset.cons_bind, Reader.waiting, ← add_assoc, Multiset.coe_add,
      List.append_assoc, List.singleton_append]

/-- A worker that has made its calls goes back to claiming. -/
theorem back (h : ReadersAt chunkSize reading workers rank s (.calling own [] ::ₘ others) done) :
    ∃ lower < rank,
      ReadersAt chunkSize reading workers lower s (.claiming own ::ₘ others) done := by
  obtain ⟨cursor, called, tallied, rfl⟩ := h
  refine ⟨_, ?_, by simpa using cursor, by simpa using called, by simpa using tallied, rfl⟩
  simp

end ReadersAt

namespace Reader

/-- What the workers have read, up to any bin. -/
def Inv (chunkSize : Nat) (reading : Nat → BinReading) (workers rank : Nat) (s : ReadingMemory)
    (tasks : Multiset Reader) : Prop :=
  ∃ done, ReadersAt chunkSize reading workers rank s tasks done

theorem inv_start {chunkSize : Nat} (positive : 0 < chunkSize) (reading : Nat → BinReading)
    (workers : Nat) :
    ∃ rank, Inv chunkSize reading workers rank {} (Multiset.replicate workers (.claiming {})) := by
  refine ⟨_, 0, ?_, ?_, ?_, rfl⟩
  · simpa using Cursor.HandedOut.start positive
  · rw [bind_replicate_of_nil rfl, span_of_le (Nat.le_refl 0)]
    rfl
  · rw [Multiset.map_replicate, Multiset.sum_replicate, span_of_le (Nat.le_refl 0)]
    show (0 : Tally) + workers • (0 : Tally) = 0
    rw [nsmul_zero, add_zero]

variable {p : ShardPlan} {arena : Arena} {reading : Nat → BinReading} {workers : Nat}
  (read : ∀ bin < binCount, p.readBin arena bin = .ok (reading bin)) (positive : 0 < p.chunkSize)
  (room : binCount + workers * p.chunkSize ≤ Position.space)

include read in
theorem readRange_eq {first stop : Nat} (inside : stop ≤ binCount) :
    p.readRange arena first stop = .ok (.ofBins ((span first stop).map reading)) := by
  have bins : (span first stop).mapM (p.readBin arena) = .ok ((span first stop).map reading) :=
    mapM_ok fun bin member => read bin (Nat.lt_of_lt_of_le (mem_span.mp member).2 inside)
  rw [ShardPlan.readRange, bins, ok_bind, pure_eq_ok]

include read positive room

theorem descends : Descends (Reader.act p arena) (Inv p.chunkSize reading workers) := by
  rintro s s' w w' acts others rank ⟨done, inv⟩
  cases w with
  | claiming own =>
      have cursor := inv.cursor
      simp only [Multiset.map_cons, Multiset.sum_cons, unfinished, Nat.add_comm 1] at cursor
      obtain ⟨c, found, -, after⟩ | ⟨stop, c, found, more, inside, after⟩ :=
        cursor.claim positive room
      · simp only [Reader.act, found] at acts
        obtain ⟨rfl, rfl⟩ := Prod.mk.inj (Option.some.inj acts)
        obtain ⟨lower, less, next⟩ := inv.finish after
        exact ⟨lower, less, done, next⟩
      · simp only [Reader.act, found, readRange_eq read inside] at acts
        obtain ⟨rfl, rfl⟩ := Prod.mk.inj (Option.some.inj acts)
        obtain ⟨lower, less, next⟩ := inv.take more inside after
        exact ⟨lower, less, stop, next⟩
  | calling own calls =>
      cases calls with
      | nil =>
          obtain ⟨rfl, rfl⟩ := Prod.mk.inj (Option.some.inj acts)
          obtain ⟨lower, less, next⟩ := inv.back
          exact ⟨lower, less, done, next⟩
      | cons found calls =>
          obtain ⟨rfl, rfl⟩ := Prod.mk.inj (Option.some.inj acts)
          obtain ⟨lower, less, next⟩ := inv.call
          exact ⟨lower, less, done, next⟩
  | finished => cases acts

omit read positive room in
theorem eq_finished_of_act_eq_none {s : ReadingMemory} {w : Reader}
    (idle : Reader.act p arena s w = none) : w = .finished := by
  cases w with
  | claiming own =>
      simp only [Reader.act] at idle
      split at idle
      · cases idle
      · split at idle <;> cases idle
  | calling own calls => cases calls <;> cases idle
  | finished => rfl

theorem exists_completes :
    ∃ stop, Completes (Reader.act p arena) (.uniform workers {} (.claiming {})) stop := by
  obtain ⟨rank, before⟩ := inv_start positive reading workers
  exact Interleaving.exists_completes (descends read positive room) before

/-- When all workers have finished, the calls for all bins were made, in some order, and all bins
were tallied. -/
theorem perm_of_completes (some : 0 < workers) {stop : Team ReadingMemory Reader}
    (completes : Completes (Reader.act p arena) (.uniform workers {} (.claiming {})) stop) :
    stop.memory.calls.Perm ((List.range binCount).flatMap fun bin => (reading bin).calls) ∧
      stop.memory.tally =
        (List.range binCount).foldl (fun tally bin => tally.add (reading bin).tally) {} := by
  obtain ⟨rank, before⟩ := inv_start positive reading workers
  obtain ⟨rank, done, cursor, called, tallied, -⟩ :=
    completes.1.keeps (descends read positive room) before
  rw [completes.tasks_eq fun _ => eq_finished_of_act_eq_none] at cursor called tallied
  simp only [Multiset.map_replicate, Multiset.sum_replicate, unfinished, own, nsmul_zero,
    add_zero] at cursor tallied
  obtain rfl := cursor.done_eq some
  rw [bind_replicate_of_nil rfl, add_zero, Multiset.coe_eq_coe, span_zero] at called
  rw [span_zero, ← zero_add (List.sum _)] at tallied
  exact ⟨called, tallied.trans (foldl_tally _ _ _).symm⟩

end Reader

end Interleaving

end SharedRuns
