import Mathlib.Data.List.Basic
import Mathlib.Data.Nat.Bitwise
import SharedRuns.Postings

/-!
# Bins as lists, and numbers unfolded by another fingerprint

A bin is described by the list of postings that were pushed: it holds those whose fingerprints end
in the same twenty bits, in the order in which they came. What a search reads from a posting is the
filed number up to a mask, the exclusive or of the two fingerprints. Inside one bin a mask that is
not zero is at least `binCount`, and so lifts every number below `binCount` to at least `binCount`.

An index that reads a bin never goes back behind the text it last reported. `reportAscending` is
that rule alone. It drops nothing from a bin in which the postings that can be reported ascend.
-/

namespace SharedRuns

theorem binCount_eq : binCount = 2 ^ 20 := rfl

theorem binNumber_eq_mod (hash : UInt32) : binNumber hash = hash.toNat % binCount := by
  rw [binNumber, UInt32.toNat_and]
  exact Nat.and_two_pow_sub_one_eq_mod hash.toNat 20

theorem binNumber_lt (hash : UInt32) : binNumber hash < binCount := by
  rw [binNumber_eq_mod]
  exact Nat.mod_lt _ (by decide)

/-- Two fingerprints that share a bin differ by a multiple of `binCount`. -/
theorem binCount_dvd_xor {g h : UInt32} (same : binNumber g = binNumber h) :
    binCount ∣ (g ^^^ h).toNat := by
  rw [binNumber_eq_mod, binNumber_eq_mod] at same
  apply Nat.dvd_of_mod_eq_zero
  rw [UInt32.toNat_xor, binCount_eq, Nat.xor_mod_two_pow]
  rw [binCount_eq] at same
  rw [same, Nat.xor_self]

/-- A small number that is unfolded by another fingerprint of its bin is not small any more. -/
theorem binCount_le_unfolded {g h x : UInt32} (same : binNumber g = binNumber h) (different : g ≠ h)
    (small : x.toNat < binCount) : binCount ≤ (x ^^^ (g ^^^ h)).toNat := by
  by_contra! low
  have mask : (g ^^^ h).toNat = x.toNat ^^^ (x ^^^ (g ^^^ h)).toNat := by
    rw [UInt32.toNat_xor x, ← Nat.xor_assoc, Nat.xor_self, Nat.zero_xor]
  have bound : (g ^^^ h).toNat < binCount := by
    rw [binCount_eq] at small low ⊢
    rw [mask]
    exact Nat.xor_lt_two_pow small low
  have zero : (g ^^^ h).toNat = 0 := Nat.eq_zero_of_dvd_of_lt (binCount_dvd_xor same) bound
  exact different (UInt32.xor_eq_zero_iff.mp (UInt32.toNat_inj.mp zero))

namespace PostedRun

theorem decode_encode (text start g h : UInt32) :
    (encode text start g).decode h = (text ^^^ (g ^^^ h), start ^^^ (g ^^^ h)) := by
  simp only [encode, decode, UInt32.xor_assoc]

@[simp] theorem decode_encode_self (text start hash : UInt32) :
    (encode text start hash).decode hash = (text, start) := by
  simp [decode_encode]

end PostedRun

namespace PostedSample

theorem decode_encode (text start g h : UInt32) (pattern : UInt8) :
    (encode text start pattern g).decode h =
      (text ^^^ (g ^^^ h), start ^^^ (g ^^^ h), pattern) := by
  simp only [encode, decode, UInt32.xor_assoc]

@[simp] theorem decode_encode_self (text start hash : UInt32) (pattern : UInt8) :
    (encode text start pattern hash).decode hash = (text, start, pattern) := by
  simp [decode_encode]

end PostedSample

namespace PostingTable

variable {α : Type}

@[simp] theorem bin_empty (hash : UInt32) : (empty : PostingTable α).bin hash = #[] :=
  Std.TreeMap.getD_emptyc

theorem bin_push (t : PostingTable α) (g h : UInt32) (posting : α) :
    (t.push g posting).bin h =
      if binNumber g = binNumber h then (t.bin h).push posting else t.bin h := by
  simp only [bin, push, Std.TreeMap.getD_alter, Nat.compare_eq_eq]
  split
  · next same => simp [← same, Std.TreeMap.getD_eq_getD_getElem?]
  · rfl

/-- The table after each posting of a list was pushed under the fingerprint beside it. -/
def pushAll (t : PostingTable α) (entries : List (UInt32 × α)) : PostingTable α :=
  entries.foldl (fun t entry => t.push entry.1 entry.2) t

theorem pushAll_append (t : PostingTable α) (xs ys : List (UInt32 × α)) :
    t.pushAll (xs ++ ys) = (t.pushAll xs).pushAll ys :=
  List.foldl_append

/-- A bin holds what was pushed under fingerprints with its number, in the order of the pushes. -/
theorem toList_bin_pushAll (t : PostingTable α) (entries : List (UInt32 × α)) (hash : UInt32) :
    ((t.pushAll entries).bin hash).toList =
      (t.bin hash).toList ++
        (entries.filter fun entry => binNumber entry.1 = binNumber hash).map Prod.snd := by
  induction entries generalizing t with
  | nil => simp [pushAll]
  | cons entry rest ih =>
      show (((t.push entry.1 entry.2).pushAll rest).bin hash).toList = _
      rw [ih, bin_push]
      by_cases same : binNumber entry.1 = binNumber hash <;> simp [same]

theorem size_pushAll (t : PostingTable α) (entries : List (UInt32 × α)) :
    (t.pushAll entries).size = t.size + entries.length := by
  induction entries generalizing t with
  | nil => rfl
  | cons entry rest ih =>
      show ((t.push entry.1 entry.2).pushAll rest).size = _
      rw [ih, List.length_cons]
      show t.size + 1 + rest.length = _
      omega

end PostingTable

/-- Reports what is found among entries that carry numbers, and passes over every entry whose number
is smaller than the one last reported. -/
def reportAscending {α β : Type} (number : α → Nat) (found? : α → Option β) :
    (last : Nat) → List α → List β
  | _, [] => []
  | last, entry :: rest =>
    match found? entry with
    | none => reportAscending number found? last rest
    | some m =>
      if last ≤ number entry then m :: reportAscending number found? (number entry) rest
      else reportAscending number found? last rest

section

variable {α β : Type} {number : α → Nat} {found? : α → Option β} {last : Nat} {entry : α} {m : β}

theorem reportAscending_cons_of_le (found : found? entry = some m) (le : last ≤ number entry)
    (rest : List α) :
    reportAscending number found? last (entry :: rest) =
      m :: reportAscending number found? (number entry) rest := by
  rw [reportAscending, found]
  exact if_pos le

theorem reportAscending_cons_of_lt (behind : number entry < last) (rest : List α) :
    reportAscending number found? last (entry :: rest) =
      reportAscending number found? last rest := by
  rw [reportAscending]
  cases found? entry with
  | none => rfl
  | some m => exact if_neg (Nat.not_le.mpr behind)

end

theorem reportAscending_map {α β γ : Type} {number : β → Nat} {found? : β → Option γ} {f : α → β}
    {last : Nat} {entries : List α} :
    reportAscending number found? last (entries.map f) =
      reportAscending (number ∘ f) (found? ∘ f) last entries := by
  induction entries generalizing last with
  | nil => rfl
  | cons entry rest ih =>
      simp only [List.map_cons, reportAscending, Function.comp_apply, ih]

/-- Whatever is reported was found at one of the entries. -/
theorem mem_reportAscending {α β : Type} {number : α → Nat} {found? : α → Option β} {last : Nat}
    {entries : List α} {m : β} (member : m ∈ reportAscending number found? last entries) :
    ∃ entry ∈ entries, found? entry = some m := by
  induction entries generalizing last with
  | nil => cases member
  | cons entry rest ih =>
      have later : ∀ {bound}, m ∈ reportAscending number found? bound rest →
          ∃ e ∈ entry :: rest, found? e = some m := by
        intro bound inRest
        obtain ⟨e, inside, found⟩ := ih inRest
        exact ⟨e, List.mem_cons_of_mem _ inside, found⟩
      cases result : found? entry with
      | none =>
          simp only [reportAscending, result] at member
          exact later member
      | some first =>
          simp only [reportAscending, result] at member
          split at member
          · rcases List.mem_cons.mp member with rfl | inRest
            · exact ⟨entry, List.mem_cons_self, result⟩
            · exact later inRest
          · exact later member

/-- If the entries that can be reported ascend, each of them is reported. Entries in between may
carry any numbers: they are not reported, and so do not raise the bound. -/
theorem reportAscending_eq_filterMap {α β : Type} {number : α → Nat} {found? : α → Option β}
    {last : Nat} {entries : List α}
    (above : ∀ entry ∈ entries, (found? entry).isSome → last ≤ number entry)
    (ascending : (entries.filter fun entry => (found? entry).isSome).Pairwise
      fun e f => number e ≤ number f) :
    reportAscending number found? last entries = entries.filterMap found? := by
  induction entries generalizing last with
  | nil => rfl
  | cons entry rest ih =>
      rw [List.forall_mem_cons] at above
      cases result : found? entry with
      | none =>
          simp only [reportAscending, result, List.filterMap_cons]
          rw [List.filter_cons_of_neg (by simp [result])] at ascending
          exact ih above.2 ascending
      | some m =>
          have first : last ≤ number entry := above.1 (by simp [result])
          simp only [reportAscending, result, first, if_true, List.filterMap_cons]
          rw [List.filter_cons_of_pos (by simp [result]), List.pairwise_cons] at ascending
          rw [ih (fun e member found => ascending.1 e (by simp [member, found])) ascending.2]

/-- Items are filed one after another under their fingerprints, in the order of their numbers. If
each posting of the bin leads to what is to be reported of its item, and nothing is to be reported
of items outside the bin, then reading the bin reports all of it in the order of the items. -/
theorem reportAscending_bin {ι α β : Type} {items : List ι} {posting : ι → UInt32 × α}
    {rank : ι → Nat} {number : α → Nat} {found? : α → Option β} {report? : ι → Option β}
    {hash : UInt32} (ascending : items.Pairwise fun i j => rank i ≤ rank j)
    (genuine : ∀ i ∈ items, binNumber (posting i).1 = binNumber hash →
      found? (posting i).2 = report? i)
    (filed : ∀ i ∈ items, (report? i).isSome →
      binNumber (posting i).1 = binNumber hash ∧ number (posting i).2 = rank i) :
    reportAscending number found? 0
        (((PostingTable.empty.pushAll (items.map posting)).bin hash).toList) =
      items.filterMap report? := by
  have inBin : ∀ i ∈ items.filter (fun i => binNumber (posting i).1 = binNumber hash),
      i ∈ items ∧ binNumber (posting i).1 = binNumber hash := by
    intro i member
    simpa using List.mem_filter.mp member
  rw [PostingTable.toList_bin_pushAll, PostingTable.bin_empty, List.filter_map, List.map_map]
  simp only [Function.comp_def, List.nil_append]
  rw [reportAscending_eq_filterMap (fun _ _ _ => Nat.zero_le _)]
  · rw [List.filterMap_map]
    calc
      _ = (items.filter fun i => binNumber (posting i).1 = binNumber hash).filterMap report? := by
        apply List.filterMap_congr
        intro i member
        exact genuine i (inBin i member).1 (inBin i member).2
      _ = items.filterMap report? := by
        rw [List.filterMap_filter]
        apply List.filterMap_congr
        intro i member
        cases found : report? i with
        | none => simp
        | some m => simp [(filed i member (by simp [found])).1]
  · rw [List.filter_map, List.pairwise_map]
    refine (ascending.sublist (List.filter_sublist.trans List.filter_sublist)).imp_of_mem ?_
    intro i j hi hj le
    have rankOf : ∀ k ∈ items.filter (fun i => binNumber (posting i).1 = binNumber hash),
        (found? (posting k).2).isSome → number (posting k).2 = rank k := by
      intro k member found
      obtain ⟨item, same⟩ := inBin k member
      rw [genuine k item same] at found
      exact (filed k item found).2
    obtain ⟨insideI, foundI⟩ := List.mem_filter.mp hi
    obtain ⟨insideJ, foundJ⟩ := List.mem_filter.mp hj
    rw [rankOf i insideI foundI, rankOf j insideJ foundJ]
    exact le

end SharedRuns
