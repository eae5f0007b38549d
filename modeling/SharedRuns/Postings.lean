import Std.Data.TreeMap
import SharedRuns.Basic

/-!
# Bins of postings

An index files where each run occurs under the low bits of the run's fingerprint. A posting carries
no fingerprint of its own. Instead its numbers are folded with the fingerprint by exclusive or, and
a search unfolds every posting of a bin with the fingerprint that it is looking for. A posting of
that very fingerprint gives back its text and start; any other posting of the bin gives two numbers
that are wrong by the same multiple of `binCount`, which the search has to recognise.
-/

namespace SharedRuns

/-- The number of bins. -/
def binCount : Nat := 1 <<< 20

/-- The bin of a fingerprint: its low twenty bits. -/
def binNumber (hash : UInt32) : Nat := (hash &&& 0xfffff).toNat

/-- Where a run occurs: the number of a text and a start, folded with the run's fingerprint. -/
structure PostedRun where
  text : UInt32
  start : UInt32
  deriving DecidableEq

namespace PostedRun

/-- The posting of a run with fingerprint `hash`. -/
def encode (text start hash : UInt32) : PostedRun :=
  { text := text ^^^ hash, start := start ^^^ hash }

/-- The text number and the start, if the posting was folded with `hash`. -/
def decode (p : PostedRun) (hash : UInt32) : UInt32 × UInt32 := (p.text ^^^ hash, p.start ^^^ hash)

end PostedRun

/-- Where a sample occurs: a text number and a start, folded, and the pattern as it is. -/
structure PostedSample where
  text : UInt32
  start : UInt32
  pattern : UInt8
  deriving DecidableEq

namespace PostedSample

/-- The posting of a sample with fingerprint `hash`. -/
def encode (text start : UInt32) (pattern : UInt8) (hash : UInt32) : PostedSample :=
  { text := text ^^^ hash, start := start ^^^ hash, pattern }

/-- The text number, the start and the pattern, if the posting was folded with `hash`. -/
def decode (p : PostedSample) (hash : UInt32) : UInt32 × UInt32 × UInt8 :=
  (p.text ^^^ hash, p.start ^^^ hash, p.pattern)

end PostedSample

/-- Postings by bin, in the order in which they were pushed; empty bins are not stored. -/
structure PostingTable (α : Type) where
  bins : Std.TreeMap Nat (Array α) := ∅
  /-- The number of postings in all bins. -/
  size : Nat := 0

namespace PostingTable

/-- The table without postings. -/
def empty : PostingTable α := {}

/-- Appends a posting to the bin of `hash`. -/
def push (t : PostingTable α) (hash : UInt32) (posting : α) : PostingTable α where
  bins := t.bins.alter (binNumber hash) fun bin => some ((bin.getD #[]).push posting)
  size := t.size + 1

/-- The postings in the bin of `hash`. -/
def bin (t : PostingTable α) (hash : UInt32) : Array α := t.bins.getD (binNumber hash) #[]

/-- Whether there are no postings. -/
def isEmpty (t : PostingTable α) : Bool := t.size == 0

/-- The number of bins that hold a posting. -/
def occupied (t : PostingTable α) : Nat := t.bins.size

/-- The table with every posting forgotten. -/
def clear (_ : PostingTable α) : PostingTable α := empty

end PostingTable

end SharedRuns
