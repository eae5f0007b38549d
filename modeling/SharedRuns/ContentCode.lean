import SharedRuns.Basic

/-!
# Digests and content codes

BLAKE3 cuts its input into chunks of 1024 bytes and a chunk into blocks of 64, chains the blocks of
a chunk through one compression function, and joins the chunks in a binary tree whose left branch
is always a full one. Each node is kept uncompressed as a `Node`, since the last compression of the
tree is marked as the root and any other one is not. `Blake3.digest` gives the 32 bytes of the root.

A content code names bytes by their digest, written as 24 digits of base 62, the least significant
digit first. `ContentCode.ofBytes` reads any list of bytes as one number, the most significant byte
first, and divides it by 62 again and again; digits beyond the twenty-fourth are dropped, so the
code stands for the number modulo `62 ^ 24`.
-/

namespace SharedRuns

namespace Blake3

/-- Eight words: what one compression hands to the next. -/
abbrev Chain := Vector UInt32 8

/-- Sixteen words: a block of the input, or the state of a compression. -/
abbrev Block := Vector UInt32 16

/-- The words that every chunk starts from. -/
def iv : Chain :=
  #v[0x6a09e667, 0xbb67ae85, 0x3c6ef372, 0xa54ff53a, 0x510e527f, 0x9b05688c, 0x1f83d9ab, 0x5be0cd19]

/-- Where each word of the next round's block comes from. -/
def schedule : Vector (Fin 16) 16 :=
  #v[2, 6, 3, 10, 7, 0, 4, 13, 1, 11, 12, 5, 9, 14, 15, 8]

/-- The number of rounds of a compression. -/
def rounds : Nat := 7

/-- The number of bytes in a block. -/
def blockSize : Nat := 64

/-- The number of bytes in a chunk. -/
def chunkSize : Nat := 1024

/-- Marks the first block of a chunk. -/
def chunkStart : UInt32 := 1

/-- Marks the last block of a chunk. -/
def chunkEnd : UInt32 := 2

/-- Marks the block that joins two subtrees. -/
def parentNode : UInt32 := 4

/-- Marks the last compression of the tree. -/
def rootNode : UInt32 := 8

/-- Rotation of a word towards its low end, for `0 < count < 32`. -/
def rotateRight (word count : UInt32) : UInt32 := (word >>> count) ||| (word <<< (32 - count))

/-- The quarter step: stirs two words of the block into four words of the state. -/
def stir (state : Block) (a b c d : Fin 16) (x y : UInt32) : Block :=
  let a₁ := state[a] + state[b] + x
  let d₁ := rotateRight (state[d] ^^^ a₁) 16
  let c₁ := state[c] + d₁
  let b₁ := rotateRight (state[b] ^^^ c₁) 12
  let a₂ := a₁ + b₁ + y
  let d₂ := rotateRight (d₁ ^^^ a₂) 8
  let c₂ := c₁ + d₂
  let b₂ := rotateRight (b₁ ^^^ c₂) 7
  (((state.set a a₂).set b b₂).set c c₂).set d d₂

/-- One round: the columns of the state, then its diagonals. -/
def round (state block : Block) : Block :=
  let s := stir state 0 4 8 12 block[0] block[1]
  let s := stir s 1 5 9 13 block[2] block[3]
  let s := stir s 2 6 10 14 block[4] block[5]
  let s := stir s 3 7 11 15 block[6] block[7]
  let s := stir s 0 5 10 15 block[8] block[9]
  let s := stir s 1 6 11 12 block[10] block[11]
  let s := stir s 2 7 8 13 block[12] block[13]
  stir s 3 4 9 14 block[14] block[15]

/-- `count` rounds, the block permuted after each. -/
def runRounds : (count : Nat) → (state block : Block) → Block
  | 0, state, _ => state
  | count + 1, state, block =>
    runRounds count (round state block) (schedule.map fun i => block[i])

/-- One compression still to be done. -/
structure Node where
  chain : Chain
  block : Block
  /-- The number of the chunk; zero where subtrees are joined. -/
  counter : UInt64
  /-- How many bytes of the block are input. -/
  length : UInt32
  flags : UInt32

namespace Node

/-- The eight words that compressing `node` yields. -/
def compress (node : Node) : Chain :=
  let tail : Vector UInt32 8 :=
    #v[iv[0], iv[1], iv[2], iv[3], node.counter.toUInt32, (node.counter >>> 32).toUInt32,
      node.length, node.flags]
  let state := runRounds rounds (node.chain ++ tail) node.block
  Vector.ofFn fun i : Fin 8 => state[i.val] ^^^ state[i.val + 8]

/-- `node` marked as the last compression of its tree. -/
def asRoot (node : Node) : Node := { node with flags := node.flags ||| rootNode }

/-- The node that joins two subtrees. -/
def join (left right : Node) : Node where
  chain := iv
  block := left.compress ++ right.compress
  counter := 0
  length := 64
  flags := parentNode

end Node

/-- The word whose bytes, least significant first, start `bytes`; missing bytes are zero. -/
def word (bytes : List UInt8) : UInt32 :=
  (bytes.take 4).foldr (fun byte rest => byte.toUInt32 ||| (rest <<< 8)) 0

/-- The words of a block, zero where the input has ended. -/
def blockOf (bytes : List UInt8) : Block :=
  Vector.ofFn fun i : Fin 16 => word (bytes.drop (4 * i.val))

/-- The last block of a chunk after its other blocks were compressed into `chain`. -/
def chunkFrom (chain : Chain) (counter : UInt64) (flags : UInt32) (bytes : List UInt8) : Node :=
  if bytes.length ≤ blockSize then
    { chain, block := blockOf bytes, counter, length := bytes.length.toUInt32,
      flags := flags ||| chunkEnd }
  else
    let first : Node := { chain, block := blockOf bytes, counter, length := 64, flags }
    chunkFrom first.compress counter 0 (bytes.drop blockSize)
termination_by bytes.length
decreasing_by simp [blockSize] at *; omega

/-- The node of one chunk. -/
def chunk (counter : Nat) (bytes : List UInt8) : Node :=
  chunkFrom iv counter.toUInt64 chunkStart bytes

/-- The number of chunks in the left branch of a tree over `size` bytes: the largest power of two
that leaves something for the right branch. -/
def leftChunks (size : Nat) : Nat := 1 <<< ((size - 1) / chunkSize).log2

theorem leftChunks_pos (size : Nat) : 0 < leftChunks size := by
  rw [leftChunks, Nat.one_shiftLeft]
  exact Nat.two_pow_pos _

theorem leftChunks_mul_lt {size : Nat} (h : chunkSize < size) :
    leftChunks size * chunkSize < size := by
  have hne : (size - 1) / chunkSize ≠ 0 := by simp [chunkSize] at *; omega
  have hle : leftChunks size ≤ (size - 1) / chunkSize := by
    rw [leftChunks, Nat.one_shiftLeft]
    exact Nat.log2_self_le hne
  have := Nat.mul_le_of_le_div _ _ _ hle
  omega

/-- The node over `bytes`, whose first chunk is numbered `first`. -/
def tree (first : Nat) (bytes : List UInt8) : Node :=
  if bytes.length ≤ chunkSize then chunk first bytes
  else
    let left := leftChunks bytes.length
    (tree first (bytes.take (left * chunkSize))).join
      (tree (first + left) (bytes.drop (left * chunkSize)))
termination_by bytes.length
decreasing_by
  all_goals
    have hlt : leftChunks bytes.length * chunkSize < bytes.length := leftChunks_mul_lt (by omega)
    have hpos := leftChunks_pos bytes.length
    simp [chunkSize] at *
    omega

/-- The four bytes of a word, least significant first. -/
def wordBytes (word : UInt32) : List UInt8 :=
  [word.toUInt8, (word >>> 8).toUInt8, (word >>> 16).toUInt8, (word >>> 24).toUInt8]

/-- The 32 bytes of the digest of `bytes`. -/
def digest (bytes : List UInt8) : List UInt8 :=
  (tree 0 bytes).asRoot.compress.toList.flatMap wordBytes

end Blake3

namespace ContentCode

/-- The base of the digits. -/
def base : Nat := 62

/-- The number of digits in a code. -/
def size : Nat := 24

/-- The characters that write the digits, in the order of their values. -/
def alphabet : List Char :=
  ['0', 'J', 'X', 'D', '9', 'U', 's', 'Y', 'G', 'R', 'E', 'M', 'i', 't', 'B', 'f', 'Q', 'A', 'c',
    'g', 'd', 'x', 'm', 'C', 'e', 'V', '1', 'Z', 'T', 'z', '4', 'k', 'r', 'q', '6', 'v', 'W', 'O',
    'p', 'b', 'F', 'l', 'I', 'K', 'P', '7', 'S', 'a', 'y', 'h', 'j', '2', '8', 'L', '5', 'w', 'N',
    '3', 'u', 'o', 'n', 'H']

/-- The character of a digit. -/
def digitChar (digit : Nat) : Char := alphabet.getD digit '0'

/-- Long division of a number by the base, after `rest` was carried into its first byte: the bytes
of the quotient, and the remainder. -/
def divide (rest : Nat) : List UInt8 → List UInt8 × Nat
  | [] => ([], rest)
  | byte :: bytes =>
    let current := rest * 256 + byte.toNat
    let (quotient, remainder) := divide (current % base) bytes
    ((current / base).toUInt8 :: quotient, remainder)

/-- The first `count` digits of a number, the least significant one first. -/
def digits : (count : Nat) → List UInt8 → List Nat
  | 0, _ => []
  | count + 1, number =>
    let (quotient, remainder) := divide 0 number
    remainder :: digits count quotient

/-- The code of the number that `bytes` write, the most significant byte first. -/
def ofBytes (bytes : List UInt8) : String :=
  String.ofList ((digits size bytes).map digitChar)

/-- The code of arbitrary content. -/
def ofContent (bytes : List UInt8) : String := ofBytes (Blake3.digest bytes)

/-- The code of a run of symbols, each written as four bytes, the least significant one first. -/
def ofSymbols (symbols : List Symbol) : String := ofContent (symbols.flatMap Blake3.wordBytes)

end ContentCode

end SharedRuns
