import Mathlib.Data.FinEnum
import Mathlib.Data.Nat.ModEq
import Mathlib.Data.Nat.Prime.Basic
import SharedRuns.Text.Basic

/-!
# Fingerprints lose nothing in one place

Every ingredient of a fingerprint can be undone: multiplication by an odd word, rotation, and the
folding of the high bits onto the low ones. Hence mixing a symbol, absorbing it, and the avalanche
are bijections of the words of 32 bits, and so is what a run does to the state before it. With all
arguments but one held fixed a fingerprint takes each value exactly once
(`bijective_in_each_argument`).
-/

namespace SharedRuns.Fingerprint

open Function

variable {v w count factor : UInt32}

theorem testBit_of_ge {i : Nat} (beyond : 32 ≤ i) : w.toNat.testBit i = false :=
  Nat.testBit_lt_two_pow (w.toNat_lt.trans_le (Nat.pow_le_pow_right (by decide) beyond))

theorem eq_of_testBit_eq (same : ∀ i < 32, v.toNat.testBit i = w.toNat.testBit i) : v = w := by
  apply UInt32.toNat_inj.mp
  apply Nat.eq_of_testBit_eq
  intro i
  rcases Nat.lt_or_ge i 32 with inside | beyond
  · exact same i inside
  · rw [testBit_of_ge beyond, testBit_of_ge beyond]

/-- Bit `i` of a word is bit `i + count` of its rotated form, counted around the word. -/
theorem testBit_rotate (positive : 0 < count.toNat) (small : count.toNat < 32) {i : Nat}
    (inside : i < 32) :
    (rotate w count).toNat.testBit ((i + count.toNat) % 32) = w.toNat.testBit i := by
  have complement : (32 - count).toNat = 32 - count.toNat :=
    UInt32.toNat_sub_of_le _ _ (UInt32.le_iff_toNat_le.mpr small.le)
  have short : 32 - count.toNat < 32 := by omega
  simp only [rotate, UInt32.toNat_or, UInt32.toNat_shiftLeft, UInt32.toNat_shiftRight, complement,
    Nat.testBit_or, Nat.testBit_mod_two_pow, Nat.testBit_shiftLeft, Nat.testBit_shiftRight,
    Nat.mod_eq_of_lt small, Nat.mod_eq_of_lt short]
  rcases Nat.lt_or_ge (i + count.toNat) 32 with stays | wraps
  · have beyond : 32 ≤ 32 - count.toNat + (i + count.toNat) := by omega
    rw [Nat.mod_eq_of_lt stays, testBit_of_ge beyond, Nat.add_sub_cancel]
    simp [stays]
  · have place : (i + count.toNat) % 32 = i + count.toNat - 32 := by omega
    have back : 32 - count.toNat + (i + count.toNat - 32) = i := by omega
    rw [place, back, decide_eq_false (by omega : ¬ i + count.toNat - 32 ≥ count.toNat)]
    simp

theorem testBit_foldHigh (small : count.toNat < 32) (i : Nat) :
    (foldHigh w count).toNat.testBit i =
      (w.toNat.testBit i ^^ w.toNat.testBit (count.toNat + i)) := by
  rw [foldHigh, UInt32.toNat_xor, UInt32.toNat_shiftRight, Nat.testBit_xor, Nat.testBit_shiftRight,
    Nat.mod_eq_of_lt small]

theorem bijective_mul (odd : Odd factor.toNat) : Bijective fun word => word * factor := by
  apply Injective.bijective_of_finite
  intro v w same
  have products : v.toNat * factor.toNat ≡ w.toNat * factor.toNat [MOD 2 ^ 32] := by
    have products := congrArg UInt32.toNat same
    rwa [UInt32.toNat_mul, UInt32.toNat_mul] at products
  have coprime : Nat.Coprime (2 ^ 32) factor.toNat :=
    Nat.Coprime.pow_left 32 (Nat.coprime_two_left.mpr odd)
  apply UInt32.toNat_inj.mp
  exact (products.cancel_right_of_coprime coprime).eq_of_lt_of_lt v.toNat_lt w.toNat_lt

theorem bijective_rotate (positive : 0 < count.toNat) (small : count.toNat < 32) :
    Bijective fun word => rotate word count := by
  apply Injective.bijective_of_finite
  intro v w (same : rotate v count = rotate w count)
  apply eq_of_testBit_eq
  intro i inside
  rw [← testBit_rotate positive small inside, same, testBit_rotate positive small inside]

/-- A folded word is undone from its highest bit down: each bit was folded with a higher one. -/
theorem bijective_foldHigh (positive : 0 < count.toNat) (small : count.toNat < 32) :
    Bijective fun word => foldHigh word count := by
  apply Injective.bijective_of_finite
  intro v w (same : foldHigh v count = foldHigh w count)
  have down (left i : Nat) (near : 32 ≤ i + left) : v.toNat.testBit i = w.toNat.testBit i := by
    induction left generalizing i with
    | zero =>
      have beyond : 32 ≤ i := near
      rw [testBit_of_ge beyond, testBit_of_ge beyond]
    | succ left ih =>
      have folded : (v.toNat.testBit i ^^ v.toNat.testBit (count.toNat + i)) =
          (w.toNat.testBit i ^^ w.toNat.testBit (count.toNat + i)) := by
        rw [← testBit_foldHigh small, same, testBit_foldHigh small]
      rw [ih (count.toNat + i) (by omega)] at folded
      exact Bool.xor_left_inj.mp folded
  exact eq_of_testBit_eq fun i _ => down 32 i (Nat.le_add_left 32 i)

theorem bijective_xor (mask : UInt32) : Bijective fun word => word ^^^ mask :=
  Involutive.bijective fun word => by rw [UInt32.xor_assoc, UInt32.xor_self, UInt32.xor_zero]

theorem bijective_add (shift : UInt32) : Bijective fun word => word + shift :=
  bijective_iff_has_inverse.mpr ⟨fun word => word - shift,
    fun word => UInt32.add_sub_cancel word shift, fun word => UInt32.sub_add_cancel word shift⟩

theorem bijective_mix : Bijective mix :=
  (bijective_mul (by decide)).comp <|
    (bijective_rotate (by decide) (by decide)).comp (bijective_mul (by decide))

/-- What is done to a state and a mixed symbol after the two were combined. -/
theorem bijective_stir : Bijective fun word => rotate word 13 * 5 + 0xe6546b64 :=
  (bijective_add _).comp <|
    (bijective_mul (by decide)).comp (bijective_rotate (by decide) (by decide))

theorem bijective_absorb_state (mixed : UInt32) : Bijective fun state => absorb state mixed :=
  bijective_stir.comp (bijective_xor mixed)

theorem bijective_absorb_mixed (state : UInt32) : Bijective fun mixed => absorb state mixed := by
  have swapped : Bijective fun mixed => state ^^^ mixed := by
    simpa only [UInt32.xor_comm] using bijective_xor state
  exact bijective_stir.comp swapped

theorem bijective_avalanche : Bijective avalanche :=
  (bijective_foldHigh (by decide) (by decide)).comp <|
    (bijective_mul (by decide)).comp <|
      (bijective_foldHigh (by decide) (by decide)).comp <|
        (bijective_mul (by decide)).comp (bijective_foldHigh (by decide) (by decide))

/-- What comes behind a place keeps apart the states that differ there. -/
theorem bijective_foldl_absorb (values : List UInt32) :
    Bijective fun state => values.foldl absorb state := by
  induction values with
  | nil => exact bijective_id
  | cons value rest ih => exact ih.comp (bijective_absorb_state value)

/-- The fingerprint of values that are already mixed, from a state of one's own choice. -/
def seededMixed (state : UInt32) (values : List UInt32) : UInt32 :=
  avalanche (values.foldl absorb state)

theorem seeded_eq (state : UInt32) (run : List Symbol) :
    seeded state run = seededMixed state (run.map mix) := by
  rw [seeded, seededMixed, List.foldl_map]

theorem bijective_seededMixed_state (values : List UInt32) :
    Bijective fun state => seededMixed state values :=
  bijective_avalanche.comp (bijective_foldl_absorb values)

theorem bijective_seededMixed_value (state : UInt32) (before after : List UInt32) :
    Bijective fun value => seededMixed state (before ++ [value] ++ after) := by
  have split (value : UInt32) : seededMixed state (before ++ [value] ++ after) =
      seededMixed (absorb (before.foldl absorb state) value) after := by
    simp only [seededMixed, List.foldl_append, List.foldl_cons, List.foldl_nil]
  simp only [split]
  exact (bijective_seededMixed_state after).comp (bijective_absorb_mixed _)

theorem bijective_seeded_symbol (state : UInt32) (before after : List Symbol) :
    Bijective fun symbol => seeded state (before ++ [symbol] ++ after) := by
  simp only [seeded_eq, List.map_append, List.map_cons, List.map_nil]
  exact (bijective_seededMixed_value state _ _).comp bijective_mix

/-- Two lists of one length that differ in exactly one place. -/
structure DifferOnce (xs ys : List UInt32) : Prop where
  length_eq : xs.length = ys.length
  once : ∃! i : Nat, xs[i]? ≠ ys[i]?

theorem DifferOnce.exists_split {xs ys : List UInt32} (differ : DifferOnce xs ys) :
    ∃ before x y after, x ≠ y ∧ xs = before ++ [x] ++ after ∧ ys = before ++ [y] ++ after := by
  obtain ⟨length_eq, i, apart, only⟩ := differ
  have same {j : Nat} (other : j ≠ i) : xs[j]? = ys[j]? :=
    Decidable.not_not.mp fun apart => other (only j apart)
  have inside : i < xs.length := by
    refine Nat.lt_of_not_le fun beyond => apart ?_
    rw [List.getElem?_eq_none beyond, List.getElem?_eq_none (length_eq ▸ beyond)]
  have insideToo : i < ys.length := length_eq ▸ inside
  have before : xs.take i = ys.take i := by
    apply List.ext_getElem?
    intro j
    simp only [List.getElem?_take]
    split
    · exact same (by omega)
    · rfl
  have after : xs.drop (i + 1) = ys.drop (i + 1) := by
    apply List.ext_getElem?
    intro j
    simp only [List.getElem?_drop]
    exact same (by omega)
  refine ⟨xs.take i, xs[i], ys[i], xs.drop (i + 1), ?_, ?_, ?_⟩
  · intro equal
    apply apart
    rw [List.getElem?_eq_getElem inside, List.getElem?_eq_getElem insideToo, equal]
  · simp
  · rw [before, after]
    simp

/-- A fingerprint is a bijection of the words of 32 bits in each of its arguments: in every symbol
of a run and in the state before it, and in every value that is already mixed. Hence two lists of
one length that differ in exactly one place never have the same fingerprint. -/
theorem bijective_in_each_argument :
    (∀ state before after, Bijective fun symbol => seeded state (before ++ [symbol] ++ after)) ∧
    (∀ run, Bijective fun state => seeded state run) ∧
    (∀ before after, Bijective fun value => ofMixed (before ++ [value] ++ after)) ∧
    (∀ state run other, DifferOnce run other → seeded state run ≠ seeded state other) ∧
    ∀ mixed other, DifferOnce mixed other → ofMixed mixed ≠ ofMixed other := by
  refine ⟨bijective_seeded_symbol, ?_, bijective_seededMixed_value seed, ?_, ?_⟩
  · intro run
    simp only [seeded_eq]
    exact bijective_seededMixed_state _
  · intro state run other differ same
    obtain ⟨before, x, y, after, apart, rfl, rfl⟩ := differ.exists_split
    exact apart ((bijective_seeded_symbol state before after).injective same)
  · intro mixed other differ same
    obtain ⟨before, x, y, after, apart, rfl, rfl⟩ := differ.exists_split
    exact apart ((bijective_seededMixed_value seed before after).injective same)

/-- Two runs that differ in their second symbol only, by its highest bit. -/
theorem bijective_in_each_argument_of_highest_bit :
    DifferOnce [7, 0, 7] [7, 0x80000000, 7] ∧ seeded 5 [7, 0, 7] ≠ seeded 5 [7, 0x80000000, 7] ∧
      ofMixed [7, 0, 7] ≠ ofMixed [7, 0x80000000, 7] := by
  have differ : DifferOnce [7, 0, 7] [7, 0x80000000, 7] := by
    refine ⟨rfl, 1, by decide, fun i apart => ?_⟩
    match i with
    | 0 => exact absurd rfl apart
    | 1 => rfl
    | 2 => exact absurd rfl apart
    | _ + 3 => exact absurd rfl apart
  obtain ⟨-, -, -, symbols, values⟩ := bijective_in_each_argument
  exact ⟨differ, symbols 5 _ _ differ, values _ _ differ⟩

end SharedRuns.Fingerprint
