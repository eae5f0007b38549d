import SharedRuns.Basic
import SharedRuns.Match.Basic
import SharedRuns.Postings
import SharedRuns.Stencil
import SharedRuns.Text.Basic

/-!
# The layout of a corpus, and chains of links

For a run the texts of a corpus are laid out one after another, each symbol already mixed, so that
the samples at one position are fingerprinted without mixing a symbol twice. A posting is a
position of the layout with a pattern that fits there inside one text; its link is numbered
`position * patterns + pattern`, from which both are found again.

Postings that share a bin form a chain. The arena holds the head of each bin's chain and, for each
link, the link behind it; `chainEnd` ends a chain. A link is put in front of its chain in two
steps, each atomic: its number is exchanged for the head, and the old head is stored in its cell.
Since a cell belongs to one link, no two workers ever write the same one, and only the heads are
contended.

The cells of earlier runs stay in the arena. They do no harm: a chain is entered through a head of
the present run, and each link on it has had its cell stored in this run.
-/

namespace SharedRuns

/-- The number of a posting in the arena. -/
abbrev Link := UInt32

/-- What stands where no link follows. -/
def chainEnd : Link := 0xffffffff

/-- A link that is to be put in front of the chain of its bin. -/
structure Job where
  link : Link
  bin : Nat
  deriving DecidableEq

/-- The heads of all chains, and for each link the one behind it. -/
structure Arena where
  heads : Array Link
  links : Array Link

namespace Arena

/-- The arena before the first run: empty chains and no cells. -/
def empty : Arena := { heads := Array.replicate binCount chainEnd, links := #[] }

/-- Every chain emptied, and at least `cells` cells. -/
def prepare (cells : Nat) : Arena → Arena
  | { heads, links } =>
    { heads := Array.replicate heads.size chainEnd
      links := links ++ Array.replicate (cells - links.size) chainEnd }

/-- The head of a bin's chain. -/
def head (a : Arena) (bin : Nat) : Link := a.heads.getD bin chainEnd

/-- Makes `link` the head of a bin's chain. -/
def setHead (bin : Nat) (link : Link) : Arena → Arena
  | { heads, links } => { heads := heads.setIfInBounds bin link, links }

/-- Stores the link behind `link`. -/
def setNext (link next : Link) : Arena → Arena
  | { heads, links } => { heads, links := links.setIfInBounds link.toNat next }

/-- Whether the arena has the bin and the cell of a job. -/
def Admits (a : Arena) (job : Job) : Prop :=
  job.bin < a.heads.size ∧ job.link.toNat < a.links.size

instance (a : Arena) (job : Job) : Decidable (a.Admits job) := inferInstanceAs (Decidable (_ ∧ _))

/-- Puts a link in front of its chain, the two steps one after the other. -/
def push (job : Job) (a : Arena) : Arena :=
  let next := a.head job.bin
  setNext job.link next (setHead job.bin job.link a)

/-- The links from `link` on, at most `room` of them. -/
def follow (a : Arena) : (room : Nat) → (link : Link) → Except Fault (List Link)
  | 0, _ => return []
  | room + 1, link =>
    if link = chainEnd then return []
    else do return link :: (← a.follow room (← Checked.fetch a.links link.toNat))

/-- The chain of a bin, cut off after `room` links. -/
def chain (a : Arena) (room bin : Nat) : Except Fault (List Link) := do
  a.follow room (← Checked.fetch a.heads bin)

end Arena

/-- The mixed symbols of a corpus, and the place of each. -/
structure Layout where
  mixed : Array UInt32 := #[]
  places : Array Place := #[]

namespace Layout

/-- The places of a text's symbols. -/
def placesOf (t : Text) (number : Nat) : List Place :=
  (List.range t.size).map fun offset => { text := number, offset }

/-- The layout of texts in their order. -/
def ofTexts (texts : List Text) : Layout where
  mixed := (texts.flatMap fun t => t.symbols.toList.map Fingerprint.mix).toArray
  places := (texts.zipIdx.flatMap fun (t, number) => placesOf t number).toArray

/-- The number of positions. -/
def size (l : Layout) : Nat := l.mixed.size

/-- The number of the link at a position under a pattern. -/
def linkOf (patterns pos pattern : Nat) : Link := (pos * patterns + pattern).toUInt32

end Layout

/-- What the workers of a run read and none of them writes. -/
structure ShardPlan where
  texts : Array Text
  model : Stencil
  layout : Layout
  chunkSize : Nat
  maxChain : Nat

namespace ShardPlan

open Checked

/-- The job of a pattern at a position. -/
def jobOf (p : ShardPlan) (pos pattern : Nat) : Except Fault Job := do
  let sample ← Fault.within (p.model.sample? p.layout.mixed pos pattern)
  return {
    link := Layout.linkOf p.model.patternCount pos pattern
    bin := binNumber (Fingerprint.ofMixed sample) }

/-- The jobs at a position, one for each pattern that fits inside its text. -/
def jobsAt (p : ShardPlan) (pos : Nat) : Except Fault (List Job) := do
  let place ← fetch p.layout.places pos
  let text ← fetch p.texts place.text
  (p.model.placementsAt text.size place.offset).mapM fun placement => p.jobOf pos placement.pattern

/-- The jobs of the positions from `start` up to `stop`. -/
def jobs (p : ShardPlan) (start stop : Nat) : Except Fault (List Job) := do
  return (← (span start stop).mapM p.jobsAt).flatten

/-- A posting as it is compared with others. -/
structure Posting where
  text : Text
  place : Place
  width : Nat
  sample : List Symbol

/-- The posting of a link. -/
def postingOf (p : ShardPlan) (link : Link) : Except Fault Posting := do
  let pos := link.toNat / p.model.patternCount
  let pattern := link.toNat % p.model.patternCount
  let place ← fetch p.layout.places pos
  let text ← fetch p.texts place.text
  let sample ← Fault.within (p.model.sample? text.symbols place.offset pattern)
  let width ← Fault.within (p.model.width? pattern)
  return { text, place, width, sample }

/-- The window of a posting. -/
def Posting.side (x : Posting) : Side where
  text := x.text
  offset := x.place.offset
  len := x.width

end ShardPlan

end SharedRuns
