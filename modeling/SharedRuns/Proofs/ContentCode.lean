import Mathlib.Data.List.Nodup
import Mathlib.Data.Nat.Digits.Lemmas
import SharedRuns.ContentCode

/-!
# What a content code stands for

Bytes write a number in base 256, the most significant byte first (`value`). A code writes the same
number in base 62, the least significant digit first, as far as 24 digits reach: the digits of the
code add up to the number modulo `62 ^ 24` (`ofBytes_writes_value`). Long division is followed byte
by byte: the part of the quotient that is known so far, times the base, and the remainder in hand
always make up the part of the number that was read.
-/

namespace SharedRuns.ContentCode

/-- The number that `start` turns into when bytes are written behind it. -/
def valueFrom (start : Nat) (bytes : List UInt8) : Nat :=
  bytes.foldl (fun number byte => number * 256 + byte.toNat) start

/-- The number that bytes write, the most significant byte first. -/
def value (bytes : List UInt8) : Nat := valueFrom 0 bytes

theorem valueFrom_cons (start : Nat) (byte : UInt8) (bytes : List UInt8) :
    valueFrom start (byte :: bytes) = valueFrom (start * 256 + byte.toNat) bytes := rfl

theorem valueFrom_lt (start : Nat) (bytes : List UInt8) :
    valueFrom start bytes < (start + 1) * 256 ^ bytes.length := by
  induction bytes generalizing start with
  | nil =>
      change start < (start + 1) * 1
      omega
  | cons byte bytes ih =>
      have small : byte.toNat < 256 := byte.toNat_lt
      calc valueFrom (start * 256 + byte.toNat) bytes
          < (start * 256 + byte.toNat + 1) * 256 ^ bytes.length := ih _
        _ ≤ (start + 1) * 256 * 256 ^ bytes.length :=
            Nat.mul_le_mul_right _ (by omega)
        _ = (start + 1) * 256 ^ (bytes.length + 1) := by
            rw [Nat.pow_succ']
            exact Nat.mul_assoc _ _ _

theorem value_lt (bytes : List UInt8) : value bytes < 256 ^ bytes.length := by
  have bound := valueFrom_lt 0 bytes
  rwa [Nat.zero_add, Nat.one_mul] at bound

/-- Zeros in front of the bytes do not change the number. -/
theorem value_replicate_zero_append (zeros : Nat) (bytes : List UInt8) :
    value (List.replicate zeros 0 ++ bytes) = value bytes := by
  induction zeros with
  | zero => rfl
  | succ zeros ih => exact ih

/-- Nothing is lost when a digit of a quotient is stored as a byte. -/
theorem toNat_quotient {rest : Nat} (small : rest < base) (byte : UInt8) :
    ((rest * 256 + byte.toNat) / base).toUInt8.toNat = (rest * 256 + byte.toNat) / base := by
  have byteSmall : byte.toNat < 256 := byte.toNat_lt
  have fits : (rest * 256 + byte.toNat) / base < 256 := by
    rw [base] at small ⊢
    omega
  exact UInt8.toNat_ofNat_of_lt' fits

/-- If the quotient of what was read before is `known` and its remainder `rest`, then division goes
on to the quotient and the remainder of the whole number. -/
theorem valueFrom_divide {rest : Nat} (small : rest < base) (known : Nat) (bytes : List UInt8) :
    valueFrom known (divide rest bytes).1 * base + (divide rest bytes).2 =
        valueFrom (known * base + rest) bytes ∧
      (divide rest bytes).2 < base := by
  induction bytes generalizing rest known with
  | nil => exact ⟨rfl, small⟩
  | cons byte bytes ih =>
      have next : (rest * 256 + byte.toNat) % base < base := Nat.mod_lt _ (by decide)
      obtain ⟨whole, remainder⟩ := ih next (known * 256 + (rest * 256 + byte.toNat) / base)
      refine ⟨?_, remainder⟩
      have carried : (known * 256 + (rest * 256 + byte.toNat) / base) * base +
          (rest * 256 + byte.toNat) % base = (known * base + rest) * 256 + byte.toNat := by
        have split := Nat.div_add_mod (rest * 256 + byte.toNat) base
        rw [base] at split ⊢
        omega
      rw [carried] at whole
      rw [valueFrom_cons, ← whole, divide]
      simp only [valueFrom_cons, toNat_quotient small]

/-- Long division gives the remainder of the number and writes its quotient. -/
theorem divide_eq (bytes : List UInt8) :
    (divide 0 bytes).2 = value bytes % base ∧ value (divide 0 bytes).1 = value bytes / base := by
  obtain ⟨whole, remainder⟩ := valueFrom_divide (show 0 < base by decide) 0 bytes
  have split : value (divide 0 bytes).1 * base + (divide 0 bytes).2 = value bytes := whole
  rw [base] at *
  omega

variable {count : Nat} {bytes others : List UInt8}

theorem digits_succ (count : Nat) (bytes : List UInt8) :
    digits (count + 1) bytes = (divide 0 bytes).2 :: digits count (divide 0 bytes).1 := rfl

theorem length_digits (count : Nat) (bytes : List UInt8) : (digits count bytes).length = count := by
  induction count generalizing bytes with
  | zero => rfl
  | succ count ih =>
      rw [digits_succ, List.length_cons, ih]

theorem lt_base_of_mem_digits {digit : Nat} (member : digit ∈ digits count bytes) :
    digit < base := by
  induction count generalizing bytes with
  | zero => cases member
  | succ count ih =>
      cases member with
      | head =>
          rw [(divide_eq bytes).1]
          exact Nat.mod_lt _ (by decide)
      | tail _ later => exact ih later

theorem ofDigits_digits (count : Nat) (bytes : List UInt8) :
    Nat.ofDigits base (digits count bytes) = value bytes % base ^ count := by
  induction count generalizing bytes with
  | zero => exact (Nat.mod_one _).symm
  | succ count ih =>
      obtain ⟨remainder, quotient⟩ := divide_eq bytes
      calc Nat.ofDigits base (digits (count + 1) bytes)
          = value bytes % base + base * (value bytes / base % base ^ count) := by
            rw [digits_succ, Nat.ofDigits_cons, ih, remainder, quotient]
        _ = value bytes % base ^ (count + 1) := by
            rw [Nat.pow_succ', Nat.mod_mul]

/-- Numbers are written by the same digits if they agree as far as the digits reach. -/
theorem digits_eq_iff :
    digits count bytes = digits count others ↔ value bytes ≡ value others [MOD base ^ count] := by
  rw [Nat.ModEq, ← ofDigits_digits, ← ofDigits_digits]
  constructor
  · exact congrArg _
  · apply Nat.ofDigits_inj_of_len_eq (by decide)
    · rw [length_digits, length_digits]
    · exact fun _ => lt_base_of_mem_digits
    · exact fun _ => lt_base_of_mem_digits

theorem nodup_alphabet : alphabet.Nodup := by decide

theorem digitChar_eq {digit : Nat} (inside : digit < alphabet.length) :
    digitChar digit = alphabet[digit] := by
  rw [digitChar, List.getD_eq_getElem?_getD, List.getElem?_eq_getElem inside, Option.getD_some]

theorem idxOf_digitChar {digit : Nat} (inside : digit < base) :
    alphabet.idxOf (digitChar digit) = digit := by
  rw [digitChar_eq inside]
  exact nodup_alphabet.idxOf_getElem digit inside

/-- The digits of a code can be read back from its characters. -/
theorem map_idxOf_ofBytes (bytes : List UInt8) :
    (ofBytes bytes).toList.map alphabet.idxOf = digits size bytes := by
  rw [ofBytes, String.toList_ofList, List.map_map]
  calc (digits size bytes).map (alphabet.idxOf ∘ digitChar)
      = (digits size bytes).map id := by
        apply List.map_congr_left
        exact fun digit member => idxOf_digitChar (lt_base_of_mem_digits member)
    _ = digits size bytes := List.map_id _

/-- The digits of a code, each times the power of the base that belongs to its place, add up to the
number as far as the code reaches. -/
theorem sum_ofBytes (bytes : List UInt8) :
    ((ofBytes bytes).toList.mapIdx fun i c => alphabet.idxOf c * base ^ i).sum =
      value bytes % base ^ size := by
  rw [← ofDigits_digits, ← map_idxOf_ofBytes, Nat.ofDigits_eq_sum_mapIdx]
  apply congrArg List.sum
  exact List.ext_getElem (by simp) (by simp)

theorem mem_alphabet_of_mem_ofBytes {c : Char} (member : c ∈ (ofBytes bytes).toList) :
    c ∈ alphabet := by
  rw [ofBytes, String.toList_ofList] at member
  obtain ⟨digit, inDigits, rfl⟩ := List.mem_map.mp member
  have inside : digit < alphabet.length := lt_base_of_mem_digits inDigits
  rw [digitChar_eq inside]
  exact List.getElem_mem inside

theorem ofBytes_eq_iff :
    ofBytes bytes = ofBytes others ↔ value bytes ≡ value others [MOD base ^ size] := by
  rw [← digits_eq_iff]
  constructor
  · intro same
    rw [← map_idxOf_ofBytes, same, map_idxOf_ofBytes]
  · intro same
    rw [ofBytes, same]
    rfl

/-- Numbers of 17 bytes are below the number of codes. -/
theorem value_lt_of_short (short : bytes.length ≤ 17) : value bytes < base ^ size :=
  calc value bytes
      < 256 ^ bytes.length := value_lt bytes
    _ ≤ 256 ^ 17 := Nat.pow_le_pow_right (by decide) short
    _ ≤ base ^ size := by decide

/-- A code has 24 characters of the alphabet, and they write the number of the bytes modulo
`62 ^ 24`, the least significant digit first. So codes are equal if the numbers are congruent, zeros
in front do not matter, and of at most 17 bytes the code determines the number. -/
theorem ofBytes_writes_value (bytes : List UInt8) :
    (ofBytes bytes).length = 24 ∧
    (∀ c ∈ (ofBytes bytes).toList, c ∈ alphabet) ∧
    ((ofBytes bytes).toList.mapIdx fun i c => alphabet.idxOf c * 62 ^ i).sum =
      value bytes % 62 ^ 24 ∧
    (∀ others, ofBytes bytes = ofBytes others ↔ value bytes ≡ value others [MOD 62 ^ 24]) ∧
    (∀ zeros, ofBytes (List.replicate zeros 0 ++ bytes) = ofBytes bytes) ∧
    ∀ others, bytes.length ≤ 17 → others.length ≤ 17 →
      (ofBytes bytes = ofBytes others ↔ value bytes = value others) := by
  refine ⟨?_, fun _ => mem_alphabet_of_mem_ofBytes, sum_ofBytes bytes,
    fun _ => ofBytes_eq_iff, ?_, ?_⟩
  · rw [ofBytes, String.length_ofList, List.length_map, length_digits]
    rfl
  · intro zeros
    apply ofBytes_eq_iff.mpr
    rw [value_replicate_zero_append]
  · intro others short othersShort
    rw [ofBytes_eq_iff]
    constructor
    · intro congruent
      exact congruent.eq_of_lt_of_lt (value_lt_of_short short) (value_lt_of_short othersShort)
    · intro same
      rw [same]

/-- The largest number of 17 bytes and the smallest one that needs all of them. -/
theorem ofBytes_writes_value_of_seventeen :
    (List.replicate 17 255).length ≤ 17 ∧ (1 :: List.replicate 16 0).length ≤ 17 ∧
    ofBytes (List.replicate 17 255) ≠ ofBytes (1 :: List.replicate 16 0) := by
  obtain ⟨-, -, -, -, -, determines⟩ := ofBytes_writes_value (List.replicate 17 255)
  have different : value (List.replicate 17 255) ≠ value (1 :: List.replicate 16 0) := by decide
  exact ⟨by decide, by decide, fun same =>
    different ((determines _ (by decide) (by decide)).mp same)⟩

end SharedRuns.ContentCode
