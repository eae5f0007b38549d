import SharedRuns.Match.Basic
import SharedRuns.Postings
import SharedRuns.Stencil

/-!
# Finding runs and samples

A run index files every window of `length` symbols of the texts that were added to it. Searching
for a text reports each window of it that occurs in an added text of another name, in the order of
the query's windows, and for one window in the order of the texts and of their starts.

A bin is read from its front, with the postings unfolded by the fingerprint of the query's window.
A posting of another fingerprint unfolds to numbers that may be anything, so a candidate has to name
a text, must not go back behind the text last reported from this bin, must fit, and must hold the
same symbols.

A sample index files the samples of the added texts under all patterns of a model, and searching for
a text reports each sample of it that occurs in an added text of another name, under whichever
pattern. It is read like a run index; besides, a candidate has to name a pattern of the model, and
the two windows of a match may differ in width, each being that of its own pattern. Every sample is
taken where its pattern fits, so `Fault.outOfRange` is never raised.
-/

namespace SharedRuns

/-- Refuses a text that cannot be numbered, or whose starts cannot be. -/
def Text.checkAddressable (t : Text) (count : Nat) : Except Fault Unit :=
  if Position.wordLimit ≤ count then .error (.tooManyTexts count)
  else if Position.wordLimit ≤ t.size then .error (.textTooLong t.size)
  else .ok ()

/-- The windows of `length` symbols of the added texts. -/
structure RunIndex where
  length : Nat
  table : PostingTable PostedRun := .empty
  texts : Array Text := #[]

namespace RunIndex

/-- The index of runs of `length` symbols, without texts. -/
def create (length : Nat) : Except Fault RunIndex :=
  if length = 0 then .error .zeroLength else .ok { length }

/-- The number of postings. -/
def postingCount (ix : RunIndex) : Nat := ix.table.size

/-- The window of the index's length from `start` on. -/
def runAt (ix : RunIndex) (t : Text) (start : Nat) : Array Symbol :=
  t.symbols.extract start (start + ix.length)

/-- The fingerprint of that window. -/
def hashAt (ix : RunIndex) (t : Text) (start : Nat) : UInt32 :=
  Fingerprint.ofRun (ix.runAt t start).toList

/-- The table after the window of text number `number` at `start` was filed. -/
def file (ix : RunIndex) (t : Text) (number : Nat) (table : PostingTable PostedRun) (start : Nat) :
    PostingTable PostedRun :=
  let hash := ix.hashAt t start
  table.push hash (.encode number.toUInt32 start.toUInt32 hash)

/-- Adds a text and files all its windows. -/
def add (ix : RunIndex) (t : Text) : Except Fault RunIndex := do
  t.checkAddressable ix.texts.size
  return { ix with
    texts := ix.texts.push t
    table := (t.starts ix.length).foldl (ix.file t ix.texts.size) ix.table }

/-- Forgets all texts. -/
def clear (ix : RunIndex) : RunIndex := { ix with texts := #[], table := ix.table.clear }

/-- Whether the window of `other` at `start` is a match for the window of `query` at `start₁`. -/
def agrees (ix : RunIndex) (query : Text) (start₁ : Nat) (other : Text) (start : Nat) : Bool :=
  !decide (other.SameId query) && Window.fits start ix.length other.size &&
    ix.runAt query start₁ == ix.runAt other start

/-- The match of two windows of the index's length. -/
def matchOf (ix : RunIndex) (query : Text) (start₁ : Nat) (other : Text) (start : Nat) : Match where
  a := { text := query, offset := start₁, len := ix.length }
  b := { text := other, offset := start, len := ix.length }

/-- Reads the postings of a bin for the query's window at `start`, whose fingerprint is `hash`. The
text last reported is `last`, or 0 before the first report. -/
def readBin (ix : RunIndex) (query : Text) (start : Nat) (hash : UInt32) :
    (last : Nat) → List PostedRun → List Match
  | _, [] => []
  | last, posting :: rest =>
    let (text, start₂) := posting.decode hash
    match ix.texts[text.toNat]? with
    | none => ix.readBin query start hash last rest
    | some other =>
      if last ≤ text.toNat ∧ ix.agrees query start other start₂.toNat then
        ix.matchOf query start other start₂.toNat :: ix.readBin query start hash text.toNat rest
      else ix.readBin query start hash last rest

/-- The matches of the query's window at `start`. -/
def searchAt (ix : RunIndex) (query : Text) (start : Nat) : List Match :=
  let hash := ix.hashAt query start
  ix.readBin query start hash 0 (ix.table.bin hash).toList

/-- The windows of `query` that occur in an added text of another name, each as `(query, added)`. -/
def search (ix : RunIndex) (query : Text) : List Match :=
  (query.starts ix.length).flatMap (ix.searchAt query)

end RunIndex

/-- The samples of the added texts. -/
structure SampleIndex where
  model : Stencil
  table : PostingTable PostedSample := .empty
  texts : Array Text := #[]

namespace SampleIndex

open Stencil (Placement)

/-- The number of postings. -/
def postingCount (ix : SampleIndex) : Nat := ix.table.size

/-- The sample of a text under a pattern at a start. -/
def sampleAt (ix : SampleIndex) (t : Text) (start pattern : Nat) : Except Fault (List Symbol) :=
  Fault.within (ix.model.sample? t.symbols start pattern)

/-- The table after one sample of text number `number` was filed. -/
def file (ix : SampleIndex) (t : Text) (number : Nat) (table : PostingTable PostedSample)
    (place : Placement) : Except Fault (PostingTable PostedSample) := do
  let sample ← ix.sampleAt t place.start place.pattern
  let hash := Fingerprint.ofRun sample
  return table.push hash
    (.encode number.toUInt32 place.start.toUInt32 place.pattern.toUInt8 hash)

/-- Adds a text and files all its samples. -/
def add (ix : SampleIndex) (t : Text) : Except Fault SampleIndex := do
  t.checkAddressable ix.texts.size
  let table ← (ix.model.placements t.size).foldlM (ix.file t ix.texts.size) ix.table
  return { ix with texts := ix.texts.push t, table }

/-- Forgets all texts. -/
def clear (ix : SampleIndex) : SampleIndex := { ix with texts := #[], table := ix.table.clear }

/-- The match of the query at `place` with the sample of `other` under `pattern` at `start`, if the
one named `sample` is found there. -/
def candidate? (ix : SampleIndex) (query : Text) (place : Placement) (sample : List Symbol)
    (other : Text) (start pattern : Nat) : Except Fault (Option Match) :=
  match ix.model.width? pattern with
  | none => return none
  | some width =>
    if other.SameId query ∨ ¬ Window.fits start width other.size then return none
    else do
      let found ← ix.sampleAt other start pattern
      return if sample = found then
          some
            { a := { text := query, offset := place.start, len := place.width }
              b := { text := other, offset := start, len := width } }
        else none

/-- Reads the postings of a bin for the query's sample at `place`, whose fingerprint is `hash`. The
text last reported is `last`, or 0 before the first report. -/
def readBin (ix : SampleIndex) (query : Text) (place : Placement) (sample : List Symbol)
    (hash : UInt32) : (last : Nat) → List PostedSample → Except Fault (List Match)
  | _, [] => return []
  | last, posting :: rest =>
    let (text, start, pattern) := posting.decode hash
    match ix.texts[text.toNat]? with
    | none => ix.readBin query place sample hash last rest
    | some other =>
      if text.toNat < last then ix.readBin query place sample hash last rest
      else do
        match ← ix.candidate? query place sample other start.toNat pattern.toNat with
        | some found => return found :: (← ix.readBin query place sample hash text.toNat rest)
        | none => ix.readBin query place sample hash last rest

/-- The matches of the query's sample at `place`. -/
def searchAt (ix : SampleIndex) (query : Text) (place : Placement) : Except Fault (List Match) := do
  let sample ← ix.sampleAt query place.start place.pattern
  let hash := Fingerprint.ofRun sample
  ix.readBin query place sample hash 0 (ix.table.bin hash).toList

/-- The samples of `query` that occur in an added text of another name, each as `(query, added)`. -/
def search (ix : SampleIndex) (query : Text) : Except Fault (List Match) := do
  let found ← (ix.model.placements query.size).mapM (ix.searchAt query)
  return found.flatten

end SampleIndex

end SharedRuns
