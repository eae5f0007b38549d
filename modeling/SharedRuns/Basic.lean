/-!
# Positions, faults and checked access

Texts are lists of symbols, and everything that is compared is a window of such a list: a start
and a width. Positions are words of 64 bits, so a sum or product of positions is taken modulo
`Position.space`; `Window.fits` is the test that keeps the sum inside the list, and `slice?` is the
only way in which a window is cut out. A window that does not fit has no slice.

A fault is the reason for which an engine, a model or a text was refused, or for which a run
stopped. `Fault.message` is its wording. The one fault without a wording of its own choice is
`Fault.outOfRange`: an index was asked for that its list does not have.

Algorithms that work inside rows of numbers read and write them through `Checked.fetch`,
`Checked.store` and `Checked.exchange` only. An index outside the row is a fault, so that an
algorithm without faults has kept to its rows.
-/

namespace SharedRuns

/-- An opaque code for one lexical unit of a text. -/
abbrev Symbol := UInt32

namespace Position

/-- The number of positions that one word can name. -/
def space : Nat := UInt64.size

/-- The sum of two positions, as words are added. -/
def add (p q : Nat) : Nat := (p + q) % space

/-- The product of two positions, as words are multiplied. -/
def mul (p q : Nat) : Nat := (p * q) % space

/-- A number of 32 bits, the widest that a stored text number or start may have. -/
def wordLimit : Nat := UInt32.size

end Position

/-- Whether `width` symbols from `start` on lie inside a list of `size` symbols. -/
def Window.fits (start width size : Nat) : Bool := start + width ≤ size

/-- The entries from `start` up to, but not including, `stop`; none if they are not all there. -/
def slice? (xs : Array α) (start stop : Nat) : Option (Array α) :=
  if start ≤ stop ∧ stop ≤ xs.size then some (xs.extract start stop) else none

/-- The numbers from `start` up to, but not including, `stop`. -/
def span (start stop : Nat) : List Nat := List.range' start (stop - start)

@[simp] theorem Window.fits_iff {start width size : Nat} :
    Window.fits start width size = true ↔ start + width ≤ size := by
  simp [Window.fits]

theorem Position.add_of_lt {p q : Nat} (h : p + q < space) : add p q = p + q :=
  Nat.mod_eq_of_lt h

theorem Position.mul_of_lt {p q : Nat} (h : p * q < space) : mul p q = p * q :=
  Nat.mod_eq_of_lt h

theorem Position.toNat_toUInt32 {n : Nat} (h : n < wordLimit) : n.toUInt32.toNat = n :=
  UInt32.toNat_ofNat_of_lt' h

theorem slice?_eq_some {xs : Array α} {start stop : Nat} (h : start ≤ stop ∧ stop ≤ xs.size) :
    slice? xs start stop = some (xs.extract start stop) := by
  simp [slice?, h]

@[simp] theorem slice?_isSome_iff {xs : Array α} {start stop : Nat} :
    (slice? xs start stop).isSome ↔ start ≤ stop ∧ stop ≤ xs.size := by
  unfold slice?; split <;> simp_all

@[simp] theorem mem_span {start stop i : Nat} : i ∈ span start stop ↔ start ≤ i ∧ i < stop := by
  simp only [span, List.mem_range'_1]; omega

/-- What a sharded engine is doing. -/
inductive Phase where
  | idle
  | linking
  | reading
  deriving DecidableEq

/-- The name under which a phase is reported. -/
def Phase.name : Phase → String
  | .idle => "idle"
  | .linking => "linking"
  | .reading => "reading"

/-- Why an operation gave no result. -/
inductive Fault where
  /-- A match of no symbols was asked for. -/
  | zeroLength
  /-- The patterns do not form a stencil model. -/
  | badStencil (reason : String)
  /-- The character spans do not belong to the symbols. -/
  | badSpan (reason : String)
  /-- The settings of a sharded engine cannot be met. -/
  | badSettings (reason : String)
  /-- No further text can be numbered. -/
  | tooManyTexts (count : Nat)
  /-- A text, or all texts together, cannot be addressed. -/
  | textTooLong (symbols : Nat)
  /-- The links of a corpus cannot be numbered. -/
  | corpusTooLarge (symbols stencils : Nat)
  /-- A worker stopped before its phase was over. -/
  | workerStopped (phase : Phase) (worker : Nat) (reason : String)
  /-- The workers could not be started. -/
  | workersUnavailable (reason : String)
  /-- An index has no entry in its list. -/
  | outOfRange
  deriving DecidableEq

/-- The wording of a fault. -/
def Fault.message : Fault → String
  | .zeroLength => "match length must be positive"
  | .badStencil reason => "invalid stencil model: " ++ reason
  | .badSpan reason => "invalid character span: " ++ reason
  | .badSettings reason => "invalid configuration: " ++ reason
  | .tooManyTexts count =>
    "index already holds " ++ toString count ++
      " texts, the posting format cannot address more"
  | .textTooLong symbols =>
    "sequence of " ++ toString symbols ++ " symbols exceeds the addressable posting range"
  | .corpusTooLarge symbols stencils =>
    "corpus of " ++ toString symbols ++ " symbols with " ++ toString stencils ++
      " stencils exceeds the addressable link space"
  | .workerStopped phase worker reason =>
    phase.name ++ " worker " ++ toString worker ++ " failed: " ++ reason
  | .workersUnavailable reason => "failed to build worker pool: " ++ reason
  | .outOfRange => "an index fell outside its list"

/-- The value of `x?`, or the fault of an index without an entry. -/
def Fault.within (x? : Option α) : Except Fault α :=
  match x? with
  | some x => .ok x
  | none => .error .outOfRange

@[simp] theorem Fault.within_some (x : α) : Fault.within (some x) = .ok x := rfl

@[simp] theorem Fault.within_none : Fault.within (none : Option α) = .error .outOfRange := rfl

namespace Checked

/-- Entry `i` of a row. -/
def fetch (row : Array α) (i : Nat) : Except Fault α := Fault.within row[i]?

/-- The row with entry `i` replaced. -/
def store (row : Array α) (i : Nat) (x : α) : Except Fault (Array α) :=
  if h : i < row.size then .ok (row.set i x) else .error .outOfRange

/-- The row with entries `i` and `j` exchanged. -/
def exchange (row : Array α) (i j : Nat) : Except Fault (Array α) :=
  if h : i < row.size ∧ j < row.size then .ok (row.swap i j h.1 h.2) else .error .outOfRange

theorem fetch_of_lt {row : Array α} {i : Nat} (h : i < row.size) : fetch row i = .ok row[i] := by
  simp [fetch, h]

theorem store_of_lt {row : Array α} {i : Nat} {x : α} (h : i < row.size) :
    store row i x = .ok (row.set i x) := by
  simp [store, h]

theorem exchange_of_lt {row : Array α} {i j : Nat} (hi : i < row.size) (hj : j < row.size) :
    exchange row i j = .ok (row.swap i j) := by
  simp [exchange, hi, hj]

end Checked

end SharedRuns
