import SharedRuns.Shard.Crew
import SharedRuns.Shard.Phases

/-!
# The sharded engine

A sharded engine finds the stencil matches of a whole corpus in two phases, linking and reading,
each shared by its workers. It keeps its arena from one run to the next; the arena only grows. The
cursor is kept as the last phase left it, and each phase rewinds it. A run begins by laying out the
corpus, and is refused, before anything is changed, if its links cannot be numbered. After a run,
however it ended, the engine is idle.
-/

namespace SharedRuns

/-- What a completed run reports about itself. -/
structure ShardStats where
  texts : Nat
  symbols : Nat
  /-- Links put into chains. -/
  postings : Nat
  tally : Tally
  deriving DecidableEq

/-- An engine with its settings and the storage of its runs. -/
structure ShardEngine where
  settings : ShardSettings
  phase : Phase := .idle
  layout : Layout := {}
  arena : Arena := .empty
  /-- Where the last phase ended, and whether a worker was stopped in it. -/
  cursor : Cursor := {}

/-- How a run ended: its report or its failure, what the visitor kept, and the engine after it. -/
structure ShardRun (σ : Type) where
  result : Except Fault ShardStats
  out : σ
  engine : ShardEngine

namespace ShardEngine

/-- The engine with the given settings. -/
def create (settings : ShardSettings) : Except SettingsFlaw ShardEngine := do
  settings.check
  return { settings }

/-- The number of symbols in all texts. -/
def symbolCount (texts : List Text) : Nat := texts.foldr (fun t count => t.size + count) 0

/-- Refuses a corpus whose texts or links cannot be numbered. -/
def checkCorpus (texts : List Text) (model : Stencil) : Except Fault Unit :=
  if Position.wordLimit ≤ texts.length then .error (.tooManyTexts texts.length)
  else if symbolCount texts * model.patternCount < chainEnd.toNat then .ok ()
  else .error (.corpusTooLarge (symbolCount texts) model.patternCount)

/-- Lays out the texts and prepares the arena for them. -/
def layOut (texts : List Text) (model : Stencil) :
    ShardEngine → ShardEngine
  | { settings, phase, layout := _, arena, cursor } =>
    { settings, phase
      layout := .ofTexts texts
      arena := arena.prepare (symbolCount texts * model.patternCount)
      cursor }

/-- The plan of a run over texts that are laid out. -/
def plan (m : ShardEngine) (texts : List Text) (model : Stencil) : ShardPlan where
  texts := texts.toArray
  model
  layout := m.layout
  chunkSize := m.settings.chunkSize
  maxChain := m.settings.maxChain

/-- Links all postings of the layout. -/
def link (settings : ShardSettings) (p : ShardPlan) (cursor : Cursor) (arena : Arena) :
    Crew LinkMemory :=
  Crew.run settings.workers p.chunkSize p.layout.size .linking p.linkRange cursor { arena }

/-- Reports the matches of all bins. -/
def read (settings : ShardSettings) (p : ShardPlan) (cursor : Cursor) (arena : Arena)
    (visit : Visitor σ) (out : σ) : Crew (ReadMemory σ) :=
  Crew.run settings.workers p.chunkSize binCount .reading (p.visitRange arena visit) cursor { out }

/-- Matches every text with every other one under a model, and calls the visitor twice for each
match, once from each side. -/
def search (m : ShardEngine) (texts : List Text) (model : Stencil) (visit : Visitor σ)
    (out : σ) : ShardRun σ :=
  match checkCorpus texts model with
  | .error fault => { result := .error fault, out, engine := m }
  | .ok () =>
    let m := m.layOut texts model
    let p := m.plan texts model
    match m with
    | { settings, phase := _, layout, arena, cursor } =>
      let linking := link settings p cursor arena
      let arena := linking.memory.arena
      let cursor := linking.cursor
      match linking.failure with
      | some fault =>
        { result := .error fault
          out
          engine := { settings, phase := .idle, layout, arena, cursor } }
      | none =>
        let reading := read settings p cursor arena visit out
        { result := match reading.failure with
            | some fault => .error fault
            | none => .ok
              { texts := texts.length
                symbols := p.layout.size
                postings := linking.memory.linked
                tally := reading.memory.tally }
          out := reading.memory.out
          engine := { settings, phase := .idle, layout, arena, cursor := reading.cursor } }

end ShardEngine

end SharedRuns
