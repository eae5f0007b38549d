import SharedRuns.CommandLine.Program
import SharedRuns.Main
import SharedRuns.Match.Layers
import SharedRuns.Proofs.BruteForce
import SharedRuns.Proofs.CommandLine.Interchange
import SharedRuns.Proofs.CommandLine.Verification
import SharedRuns.Proofs.ContentCode
import SharedRuns.Proofs.Corpus
import SharedRuns.Proofs.Engines.Bounds
import SharedRuns.Proofs.Engines.Genuine
import SharedRuns.Proofs.Engines.Reordering
import SharedRuns.Proofs.Engines.Runs
import SharedRuns.Proofs.Engines.Samples
import SharedRuns.Proofs.Fingerprint
import SharedRuns.Proofs.Index.Contiguous
import SharedRuns.Proofs.Index.Decoys
import SharedRuns.Proofs.Index.History
import SharedRuns.Proofs.Index.Runs
import SharedRuns.Proofs.Index.Samples
import SharedRuns.Proofs.Interleaving.Bounds
import SharedRuns.Proofs.Interleaving.Chains
import SharedRuns.Proofs.Interleaving.ShortBins
import SharedRuns.Proofs.Interleaving.Turns
import SharedRuns.Proofs.Json.Objects
import SharedRuns.Proofs.Json.Tokens
import SharedRuns.Proofs.Match.Difference
import SharedRuns.Proofs.Match.Direction
import SharedRuns.Proofs.Match.Lines
import SharedRuns.Proofs.Match.Multiset
import SharedRuns.Proofs.Match.Windows
import SharedRuns.Proofs.Pairs
import SharedRuns.Proofs.Postings
import SharedRuns.Proofs.Postings.History
import SharedRuns.Proofs.Preferences
import SharedRuns.Proofs.Shard.Bounds
import SharedRuns.Proofs.Shard.Chains
import SharedRuns.Proofs.Shard.Corpus
import SharedRuns.Proofs.Shard.Crew
import SharedRuns.Proofs.Shard.Engine
import SharedRuns.Proofs.Shard.Genuine
import SharedRuns.Proofs.Shard.Linking
import SharedRuns.Proofs.Shard.Reading
import SharedRuns.Proofs.Shard.Reuse
import SharedRuns.Proofs.Shard.Sampling
import SharedRuns.Proofs.Stencil.Contiguous
import SharedRuns.Proofs.Stencil.Gapped
import SharedRuns.Proofs.Stencil.Width
import SharedRuns.Proofs.SuffixSort.Bounds
import SharedRuns.Proofs.SuffixSort.Buckets
import SharedRuns.Proofs.SuffixSort.Calls
import SharedRuns.Proofs.SuffixSort.Columns
import SharedRuns.Proofs.SuffixSort.Counting
import SharedRuns.Proofs.SuffixSort.Either
import SharedRuns.Proofs.SuffixSort.Engine
import SharedRuns.Proofs.SuffixSort.Insertion
import SharedRuns.Proofs.SuffixSort.Keys
import SharedRuns.Proofs.SuffixSort.Order
import SharedRuns.Proofs.SuffixSort.Runs
import SharedRuns.Proofs.Tape
import SharedRuns.Proofs.Tape.OneText
import SharedRuns.Proofs.Tape.Places
import SharedRuns.Proofs.Text.Numbered
import SharedRuns.Proofs.Text.Refusals
import SharedRuns.Proofs.Text.Sessions
import SharedRuns.Proofs.Text.Spans
import SharedRuns.Shard.Interleaving
import SharedRuns.Text.Description
import SharedRuns.Text.Session
