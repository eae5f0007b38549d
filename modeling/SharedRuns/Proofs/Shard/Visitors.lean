import SharedRuns.Proofs.Shard.Engine

/-!
# Visitors that stop a worker

A run of one worker calls its visitor for one list of matches, whatever the visitor does, and ends
with the first call that fails. So a visitor that fails at one of its calls has been called for a
prefix of the list: it has accepted what comes before the call, and nothing comes after it
(`ShardEngine.search_stoppingAt`).
-/

namespace SharedRuns

/-- The memory of a visitor whose calls are counted. -/
structure Counted (σ : Type) where
  out : σ
  calls : Nat

namespace Visitor

variable {σ : Type}

/-- The visitor that keeps all matches, in the order of its calls. -/
def keep : Visitor (List Match) := fun found kept => (.ok (), kept ++ [found])

/-- A visitor that stops nobody. -/
def Willing (visit : Visitor σ) : Prop := ∀ found out, (visit found out).1 = .ok ()

/-- What a visitor that stops nobody makes of matches, one after another. -/
def outAfter (visit : Visitor σ) (found : List Match) (out : σ) : σ :=
  found.foldl (fun out m => (visit m out).2) out

/-- The visitor that fails at its `k`th call and does as `visit` does at all others. -/
def stoppingAt (visit : Visitor σ) (k : Nat) (payload : Payload) : Visitor (Counted σ) :=
  fun found { out, calls } =>
    if calls + 1 = k then (.error payload, { out, calls := calls + 1 })
    else
      let (result, out) := visit found out
      (result, { out, calls := calls + 1 })

theorem willing_keep : keep.Willing := fun _ _ => rfl

theorem outAfter_keep (found kept : List Match) : keep.outAfter found kept = kept ++ found := by
  induction found generalizing kept with
  | nil => exact (List.append_nil kept).symm
  | cons m rest ih =>
      show keep.outAfter rest (kept ++ [m]) = _
      rw [ih, List.append_assoc, List.singleton_append]

section

variable {visit : Visitor σ} {found : List Match} {k calls : Nat}

theorem Willing.call (willing : visit.Willing) (m : Match) (out : σ) :
    visit m out = (.ok (), (visit m out).2) :=
  Prod.ext (willing m out) rfl

/-- A visitor that stops nobody is called for all matches. -/
theorem Willing.forM_eq (willing : visit.Willing) (found : List Match) (out : σ) :
    found.forM visit out = (.ok (), visit.outAfter found out) := by
  induction found generalizing out with
  | nil => rfl
  | cons m rest ih =>
      rw [Work.forM_cons, Work.bind_of_ok (willing.call m out), ih]
      rfl

/-- Up to the call that fails, the visitor is called as if it stopped nobody. -/
theorem Willing.forM_stoppingAt_of_lt (willing : visit.Willing) (payload : Payload) (out : σ)
    (fewer : calls + found.length < k) :
    found.forM (visit.stoppingAt k payload) { out, calls } =
      (.ok (), { out := visit.outAfter found out, calls := calls + found.length }) := by
  induction found generalizing out calls with
  | nil => rfl
  | cons m rest ih =>
      rw [List.length_cons] at fewer ⊢
      have accepted : visit.stoppingAt k payload m { out, calls } =
          (.ok (), { out := (visit m out).2, calls := calls + 1 }) := by
        simp only [stoppingAt]
        rw [if_neg (by omega), willing.call m out]
      have others : calls + 1 + rest.length < k := by omega
      rw [Work.forM_cons, Work.bind_of_ok accepted, ih _ others, Nat.add_right_comm, Nat.add_assoc]
      rfl

/-- The call that fails is the last one. -/
theorem Willing.forM_stoppingAt_succ (willing : visit.Willing) (payload : Payload) (out : σ)
    {accepted : Nat} (inside : accepted < found.length) :
    found.forM (visit.stoppingAt (accepted + 1) payload) { out, calls := 0 } =
      (.error payload,
        { out := visit.outAfter (found.take accepted) out, calls := accepted + 1 }) := by
  let stopping := visit.stoppingAt (accepted + 1) payload
  let before : Counted σ := { out := visit.outAfter (found.take accepted) out, calls := accepted }
  have length : (found.take accepted).length = accepted :=
    List.length_take_of_le (Nat.le_of_lt inside)
  have first : (found.take accepted).forM stopping { out, calls := 0 } = (.ok (), before) := by
    have fewer : 0 + (found.take accepted).length < accepted + 1 := by omega
    have called := willing.forM_stoppingAt_of_lt payload out fewer
    rwa [length, Nat.zero_add] at called
  have fails : stopping found[accepted] before =
      (.error payload, { out := before.out, calls := accepted + 1 }) :=
    if_pos rfl
  calc found.forM stopping { out, calls := 0 }
      = (found.take accepted ++ found[accepted] :: found.drop (accepted + 1)).forM stopping
          { out, calls := 0 } := by rw [List.getElem_cons_drop, List.take_append_drop]
    _ = (found[accepted] :: found.drop (accepted + 1)).forM stopping before := by
        rw [Work.forM_append, Work.bind_of_ok first]
    _ = (.error payload, { out := before.out, calls := accepted + 1 }) := by
        rw [Work.forM_cons, Work.bind_of_error fails]

end

end Visitor

namespace ShardEngine

variable {settings : ShardSettings} {engine : ShardEngine} {σ : Type}

/-- The calls of a run whose visitor stops nobody. -/
theorem out_search_keep (ready : Ready settings engine) (single : settings.workers = 1)
    (word : settings.chunkSize < Position.space) {m : Stencil} (accepted : m.Accepted)
    (patterns : 0 < m.patternCount) {texts : List Text} (taken : checkCorpus texts m = .ok ()) :
    (engine.search texts m Visitor.keep []).out = shardedMatches m settings.maxChain texts := by
  obtain ⟨kept, -⟩ := search_of_calls ready single word accepted patterns taken
    (Visitor.willing_keep.forM_eq _ [])
  rwa [Visitor.outAfter_keep, List.nil_append] at kept

/-- A visitor that fails at its `k`th call has accepted the first `k - 1` matches of the run in
which it does not fail, and is not called again; the run fails with the words its worker was stopped
with, or with a message for a payload without words. If there are fewer matches, the run is the one
in which the visitor does not fail. -/
theorem search_stoppingAt {size : Nat} {offsets : Array UInt32} {sorted : Bool} {m : Stencil}
    (made : Stencil.ofOffsets size offsets sorted = .ok m) (reached : Reachable settings engine)
    (single : settings.workers = 1) (word : settings.chunkSize < Position.space)
    (texts : List Text) {visit : Visitor σ} (willing : visit.Willing) (out : σ) {k : Nat}
    (positive : 0 < k) (payload : Payload) :
    let found := (engine.search texts m Visitor.keep []).out
    let whole := engine.search texts m visit out
    let run := engine.search texts m (visit.stoppingAt k payload) { out, calls := 0 }
    whole.out = visit.outAfter found out ∧
      (checkCorpus texts m = .ok () → ∃ stats, whole.result = .ok stats) ∧
      (k ≤ found.length →
        (∀ words, payload = .literal words ∨ payload = .text words →
          run.result = .error (.workerStopped .reading 0 words)) ∧
        (payload = .unreadable →
          run.result = .error (.workerStopped .reading 0 "worker panicked")) ∧
        run.out = { out := visit.outAfter (found.take (k - 1)) out, calls := k }) ∧
      (found.length < k →
        run.result = whole.result ∧ run.out = { out := whole.out, calls := found.length }) := by
  have ready := reached.ready
  have accepted := Stencil.accepted_of_ofOffsets made
  have patterns := Stencil.patternCount_pos made
  cases taken : checkCorpus texts m with
  | error fault =>
      simp only [search_refused taken]
      exact ⟨rfl, nofun, fun enough => absurd enough (Nat.not_le.mpr positive),
        fun _ => ⟨trivial, rfl⟩⟩
  | ok =>
      have kept := out_search_keep ready single word accepted patterns taken
      have searched {τ : Type} {visit : Visitor τ} {out after : τ} {ended : Except Payload Unit}
          (calls : (shardedMatches m settings.maxChain texts).forM visit out = (ended, after)) :=
        search_of_calls ready single word accepted patterns taken calls
      generalize shardedMatches m settings.maxChain texts = all at kept searched
      obtain ⟨wholeOut, wholeResult⟩ := searched (willing.forM_eq all out)
      intro found whole run
      have same : found = all := kept
      rw [same]
      refine ⟨wholeOut, fun _ => ⟨_, wholeResult⟩, fun enough => ?_, fun fewer => ?_⟩
      · obtain ⟨before, rfl⟩ : ∃ before, k = before + 1 := ⟨k - 1, by omega⟩
        obtain ⟨runOut, runResult⟩ := searched (willing.forM_stoppingAt_succ payload out enough)
        refine ⟨?_, ?_, runOut⟩
        · rintro words (rfl | rfl) <;> exact runResult
        · rintro rfl
          exact runResult
      · have fewer : 0 + all.length < k := by omega
        obtain ⟨runOut, runResult⟩ := searched (willing.forM_stoppingAt_of_lt payload out fewer)
        rw [Nat.zero_add] at runOut
        exact ⟨runResult.trans wholeResult.symm, wholeOut ▸ runOut⟩

/-- Of two matches, a visitor accepts the first and fails at its inverse, with words of either kind
or with none. -/
theorem search_stoppingAt_between_sides :
    let m : Stencil := { size := 2, offsets := #[0, 1], widths := #[2], sorted := true }
    let t : Text := { id := "first", symbols := #[7, 9] }
    let u : Text := { id := "second", symbols := #[9, 7] }
    let settings : ShardSettings := { workers := 1, chunkSize := 4, maxChain := 3 }
    ∃ engine, Stencil.ofOffsets 2 #[0, 1] true = .ok m ∧ Reachable settings engine ∧
      settings.workers = 1 ∧ settings.chunkSize < Position.space ∧ Visitor.keep.Willing ∧
      ∀ payload reason, (payload, reason) ∈ [(.literal "enough", "enough"),
          (.text "too many", "too many"), (.unreadable, "worker panicked")] →
        let run := engine.search [t, u] m (Visitor.keep.stoppingAt 2 payload)
          { out := [], calls := 0 }
        run.result = .error (.workerStopped .reading 0 reason) ∧
          run.out = { out := [{ a := ⟨u, 0, 2⟩, b := ⟨t, 0, 2⟩ }], calls := 2 } := by
  intro m t u settings
  have made : Stencil.ofOffsets 2 #[0, 1] true = .ok m := by decide
  have reached : Reachable settings { settings } := .created rfl
  have word : settings.chunkSize < Position.space := by decide
  have taken : checkCorpus [t, u] m = .ok () := by rfl
  have kept := out_search_keep reached.ready rfl word (Stencil.accepted_of_ofOffsets made)
    (Stencil.patternCount_pos made) taken
  rw [shardedMatches_of_two_texts] at kept
  refine ⟨_, made, reached, rfl, word, Visitor.willing_keep, fun payload reason listed => ?_⟩
  obtain ⟨-, -, stopped, -⟩ := search_stoppingAt made reached rfl word [t, u]
    Visitor.willing_keep [] (by decide : 0 < 2) payload
  simp only [kept] at stopped
  obtain ⟨worded, wordless, out⟩ := stopped (Nat.le_refl 2)
  simp only [List.mem_cons, Prod.mk.injEq, List.not_mem_nil, or_false] at listed
  obtain ⟨rfl, rfl⟩ | ⟨rfl, rfl⟩ | ⟨rfl, rfl⟩ := listed
  · exact ⟨worded _ (.inl rfl), out⟩
  · exact ⟨worded _ (.inr rfl), out⟩
  · exact ⟨wordless rfl, out⟩

end ShardEngine

end SharedRuns
