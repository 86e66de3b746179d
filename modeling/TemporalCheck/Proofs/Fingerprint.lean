import TemporalCheck.Proofs.StateTable

/-! Fingerprints under a change of one value. Taking in a byte comes to eight steps from the
exclusive or of the fingerprint and the byte, so that taking in a whole word comes to sixty-four.
A step is linear and loses nothing; so neither does a word, whether the fingerprint or the word is
the unknown. -/
namespace TemporalCheck

namespace Fingerprint

section Step

theorem and_one_eq_one_iff (t : UInt64) : t &&& 1 = 1 ↔ t.toNat % 2 = 1 := by
  rw [← UInt64.toNat_inj, UInt64.toNat_and]
  simp [Nat.and_one_is_mod]

theorem shiftRight_eq (x : UInt64) {k : Nat} (bound : k < 64) :
    x >>> UInt64.ofNat k = UInt64.ofNat (x.toNat / 2 ^ k) := by
  have below : x.toNat / 2 ^ k < 2 ^ 64 := lt_of_le_of_lt (Nat.div_le_self _ _) x.toNat_lt
  have small : k < 2 ^ 64 := by omega
  rw [← UInt64.toNat_inj, UInt64.toNat_shiftRight, UInt64.toNat_ofNat_of_lt' small,
    UInt64.toNat_ofNat_of_lt' below, Nat.mod_eq_of_lt bound, Nat.shiftRight_eq_div_pow]

/-- A step is linear over the two-element field. -/
theorem step_xor (a b : UInt64) : step (a ^^^ b) = step a ^^^ step b := by
  have parity : (a ^^^ b).toNat % 2 = (a.toNat + b.toNat) % 2 := by
    rw [UInt64.toNat_xor, Nat.xor_mod_two_eq]
  simp only [step, and_one_eq_one_iff, UInt64.shiftRight_xor, parity]
  by_cases oddA : a.toNat % 2 = 1 <;> by_cases oddB : b.toNat % 2 = 1
  · have even : ¬(a.toNat + b.toNat) % 2 = 1 := by omega
    have cancel : polynomial ^^^ polynomial = 0 := UInt64.xor_self
    rw [if_neg even, if_pos oddA, if_pos oddB, ← cancel]
    ac_rfl
  · have odd : (a.toNat + b.toNat) % 2 = 1 := by omega
    rw [if_pos odd, if_pos oddA, if_neg oddB, UInt64.xor_zero]
    ac_rfl
  · have odd : (a.toNat + b.toNat) % 2 = 1 := by omega
    rw [if_pos odd, if_neg oddA, if_pos oddB, UInt64.xor_zero]
    ac_rfl
  · have even : ¬(a.toNat + b.toNat) % 2 = 1 := by omega
    simp only [if_neg even, if_neg oddA, if_neg oddB, UInt64.xor_zero]

/-- The polynomial has the place that a shift leaves clear. -/
theorem eq_zero_of_step {t : UInt64} (gone : step t = 0) : t = 0 := by
  have half : (t >>> 1).toNat = t.toNat / 2 := by
    rw [UInt64.toNat_shiftRight]
    exact Nat.shiftRight_eq_div_pow _ 1
  have bound := t.toNat_lt
  rw [← UInt64.toNat_inj, UInt64.toNat_zero]
  unfold step at gone
  split at gone
  · have same : (t >>> 1).toNat = 0x911498AE0E66BAD6 :=
      congrArg UInt64.toNat (UInt64.xor_eq_zero_iff.mp gone)
    omega
  · next even =>
    rw [and_one_eq_one_iff] at even
    rw [UInt64.xor_zero] at gone
    have none : (t >>> 1).toNat = 0 := congrArg UInt64.toNat gone
    omega

theorem step_injective : Function.Injective step := by
  intro a b same
  apply UInt64.xor_eq_zero_iff.mp
  apply eq_zero_of_step
  rw [step_xor, same, UInt64.xor_self]

theorem step_double {m : Nat} (bound : m * 2 < 2 ^ 64) :
    step (UInt64.ofNat (m * 2)) = UInt64.ofNat m := by
  have value : (UInt64.ofNat (m * 2)).toNat = m * 2 := UInt64.toNat_ofNat_of_lt' bound
  have even : ¬UInt64.ofNat (m * 2) &&& 1 = 1 := by
    rw [and_one_eq_one_iff, value]
    omega
  have half := shiftRight_eq (UInt64.ofNat (m * 2)) (k := 1) (by decide)
  rw [value, pow_one, Nat.mul_div_cancel m two_pos] at half
  rw [step, if_neg even, UInt64.xor_zero]
  exact half

theorem iterate_step_xor (n : Nat) (a b : UInt64) :
    step^[n] (a ^^^ b) = step^[n] a ^^^ step^[n] b := by
  induction n generalizing a b with
  | zero => rfl
  | succ n ih => simp only [Function.iterate_succ_apply, step_xor, ih]

/-- What stands above the last places only moves down. -/
theorem iterate_step_shift {n m : Nat} (bound : m * 2 ^ n < 2 ^ 64) :
    step^[n] (UInt64.ofNat (m * 2 ^ n)) = UInt64.ofNat m := by
  induction n with
  | zero => simp
  | succ n ih =>
    rw [pow_succ, ← mul_assoc] at bound ⊢
    rw [Function.iterate_succ_apply, step_double bound]
    exact ih (by omega)

theorem power_add (i n : Nat) : power (i + n) = step^[n] (power i) := by
  induction n with
  | zero => rfl
  | succ n ih => rw [Function.iterate_succ_apply', ← ih, ← Nat.add_assoc, power]

/-- Powers below the degree are single places. -/
theorem power_eq {i : Nat} (bound : i < 64) : power i = UInt64.ofNat (2 ^ (63 - i)) := by
  induction i with
  | zero => rfl
  | succ i ih =>
    have double : 2 ^ (63 - i) = 2 ^ (63 - (i + 1)) * 2 := by
      rw [← pow_succ]
      congr 1
      omega
    have small : 2 ^ (63 - i) < 2 ^ 64 := Nat.pow_lt_pow_right (by omega) (by omega)
    rw [power, ih (by omega), double, step_double (double ▸ small)]

end Step

/-- A number is made up of its last places and those above them. -/
theorem mod_two_pow_add (x n k : Nat) :
    x % 2 ^ (n + k) = x % 2 ^ n ^^^ x / 2 ^ n % 2 ^ k * 2 ^ n := by
  apply Nat.eq_of_testBit_eq
  intro i
  simp only [Nat.testBit_xor, Nat.testBit_mod_two_pow, Nat.testBit_mul_two_pow,
    Nat.testBit_div_two_pow]
  by_cases low : i < n
  · have inside : i < n + k := by omega
    have above : ¬n ≤ i := by omega
    simp [low, inside, above]
  · have above : n ≤ i := by omega
    have same : i - n < k ↔ i < n + k := by omega
    simp [low, above, same]

section Bytes

/-- Eight places above, a place of a byte stands for a power that the table adds up. -/
theorem iterate_step_place {k : Nat} (bound : k < 8) :
    step^[8] (UInt64.ofNat (2 ^ k)) = power (71 - k) := by
  have split : 71 - k = 63 - k + 8 := by omega
  have back : 63 - (63 - k) = k := by omega
  rw [split, power_add, power_eq (by omega), back]

/-- The powers for the first places of a byte add up to what eight steps make of those places. -/
theorem sum_powers (j : Nat) {n : Nat} (bound : n ≤ 8) :
    (List.range n).foldl (fun sum k => if j.testBit k then sum ^^^ power (71 - k) else sum) 0 =
      step^[8] (UInt64.ofNat (j % 2 ^ n)) := by
  induction n with
  | zero =>
    rw [pow_zero, Nat.mod_one]
    rfl
  | succ n ih =>
    rw [List.range_succ, List.foldl_append, ih (by omega), List.foldl_cons, List.foldl_nil,
      mod_two_pow_add, UInt64.ofNat_xor, iterate_step_xor, pow_one]
    have place := iterate_step_place (k := n) (by omega)
    rcases Nat.mod_two_eq_zero_or_one (j / 2 ^ n) with clear | set
    · have absent : j.testBit n = false := by simp [Nat.testBit_eq_decide_div_mod_eq, clear]
      have zero : step^[8] (UInt64.ofNat 0) = 0 := by decide
      rw [absent, clear, zero_mul, zero, UInt64.xor_zero, if_neg Bool.false_ne_true]
    · have present : j.testBit n = true := by simp [Nat.testBit_eq_decide_div_mod_eq, set]
      rw [present, set, one_mul, place, if_pos rfl]

theorem byteRemainder_eq (j : Nat) : byteRemainder j = step^[8] (UInt64.ofNat (j % 2 ^ 8)) :=
  sum_powers j le_rfl

theorem getD_byteTable {j : Nat} (bound : j < 2 ^ 8) : byteTable.getD j 0 = byteRemainder j := by
  have size : j < (Array.ofFn (n := 256) fun j => byteRemainder j).size := by simpa using bound
  rw [byteTable, Array.getD_eq_getD_getElem?, Array.getElem?_eq_getElem size, Array.getElem_ofFn]
  rfl

/-- Eight steps move all but the last eight places down and replace those by their remainder. -/
theorem iterate_step_eight (x : UInt64) :
    step^[8] x = (x >>> 8) ^^^ byteRemainder (x.toNat % 2 ^ 8) := by
  have bound := x.toNat_lt
  have split := mod_two_pow_add x.toNat 8 56
  rw [Nat.mod_eq_of_lt (a := x.toNat) (b := 2 ^ (8 + 56)) bound,
    Nat.mod_eq_of_lt (a := x.toNat / 2 ^ 8) (by omega)] at split
  calc step^[8] x
      = step^[8] (UInt64.ofNat (x.toNat % 2 ^ 8)) ^^^
          step^[8] (UInt64.ofNat (x.toNat / 2 ^ 8 * 2 ^ 8)) := by
        rw [← iterate_step_xor, ← UInt64.ofNat_xor, ← split, UInt64.ofNat_toNat]
    _ = byteRemainder (x.toNat % 2 ^ 8) ^^^ UInt64.ofNat (x.toNat / 2 ^ 8) := by
        rw [iterate_step_shift (by omega), byteRemainder_eq, Nat.mod_mod]
    _ = (x >>> 8) ^^^ byteRemainder (x.toNat % 2 ^ 8) := by
        rw [← shiftRight_eq x (by decide), UInt64.xor_comm]
        rfl

/-- Taking in a byte is eight steps. -/
theorem extendByte_eq (h : UInt64) (b : UInt8) : extendByte h b = step^[8] (h ^^^ b.toUInt64) := by
  have place : ((b.toUInt64 ^^^ h) &&& 0xFF).toNat = (h ^^^ b.toUInt64).toNat % 2 ^ 8 := by
    rw [UInt64.xor_comm, UInt64.toNat_and]
    exact Nat.and_two_pow_sub_one_eq_mod _ 8
  have gone : b.toUInt64 >>> 8 = 0 := by
    have small : b.toUInt64.toNat / 2 ^ 8 = 0 := Nat.div_eq_of_lt b.toNat_lt
    exact (shiftRight_eq b.toUInt64 (k := 8) (by decide)).trans (congrArg UInt64.ofNat small)
  rw [extendByte, place, getD_byteTable (Nat.mod_lt _ (by decide)), iterate_step_eight,
    UInt64.shiftRight_xor, gone, UInt64.xor_zero]

/-- Taking in the first bytes of a word. -/
theorem extendBytes_first (h x : UInt64) {n : Nat} (bound : n ≤ 8) :
    extendBytes h ((List.range n).map fun k => (x >>> UInt64.ofNat (8 * k)).toUInt8) =
      step^[8 * n] (h ^^^ UInt64.ofNat (x.toNat % 2 ^ (8 * n))) := by
  induction n with
  | zero => simp [extendBytes, Nat.mod_one]
  | succ n ih =>
    have size : x.toNat < 2 ^ 64 := x.toNat_lt
    have byte : ((x >>> UInt64.ofNat (8 * n)).toUInt8.toUInt64) =
        UInt64.ofNat (x.toNat / 2 ^ (8 * n) % 2 ^ 8) := by
      rw [← UInt64.toNat_inj, shiftRight_eq x (by omega), UInt8.toNat_toUInt64,
        UInt64.toNat_toUInt8, UInt64.toNat_ofNat', UInt64.toNat_ofNat',
        Nat.mod_mod_of_dvd _ (by decide), Nat.mod_mod_of_dvd' (by decide)]
    have below : x.toNat / 2 ^ (8 * n) % 2 ^ 8 * 2 ^ (8 * n) < 2 ^ 64 :=
      calc x.toNat / 2 ^ (8 * n) % 2 ^ 8 * 2 ^ (8 * n)
          ≤ x.toNat / 2 ^ (8 * n) * 2 ^ (8 * n) := Nat.mul_le_mul_right _ (Nat.mod_le _ _)
        _ ≤ x.toNat := Nat.div_mul_le_self _ _
        _ < 2 ^ 64 := size
    calc extendBytes h ((List.range (n + 1)).map fun k => (x >>> UInt64.ofNat (8 * k)).toUInt8)
        = extendByte (step^[8 * n] (h ^^^ UInt64.ofNat (x.toNat % 2 ^ (8 * n))))
            (x >>> UInt64.ofNat (8 * n)).toUInt8 := by
          rw [← ih (by omega), List.range_succ, List.map_append]
          exact List.foldl_append
      _ = step^[8] (step^[8 * n] (h ^^^ UInt64.ofNat (x.toNat % 2 ^ (8 * n))) ^^^
            step^[8 * n] (UInt64.ofNat (x.toNat / 2 ^ (8 * n) % 2 ^ 8 * 2 ^ (8 * n)))) := by
          rw [extendByte_eq, byte, iterate_step_shift below]
      _ = step^[8 * (n + 1)] (h ^^^ UInt64.ofNat (x.toNat % 2 ^ (8 * (n + 1)))) := by
          rw [← iterate_step_xor, ← Function.iterate_add_apply, UInt64.xor_assoc,
            ← UInt64.ofNat_xor, ← mod_two_pow_add, Nat.mul_succ, Nat.add_comm 8]

/-- Taking in a word is sixty-four steps. -/
theorem extendInt_eq (h : UInt64) (x : Int64) : extendInt h x = step^[64] (h ^^^ x.toUInt64) := by
  have first := extendBytes_first h x.toUInt64 (n := 8) le_rfl
  rwa [Nat.mod_eq_of_lt x.toUInt64.toNat_lt, UInt64.ofNat_toNat] at first

end Bytes

theorem extendInt_injective (h : UInt64) : Function.Injective (extendInt h) := by
  intro x y same
  rw [extendInt_eq, extendInt_eq] at same
  have words := (UInt64.xor_right_inj h).mp (step_injective.iterate 64 same)
  exact congrArg Int64.ofUInt64 words

theorem extendInt_left_injective (x : Int64) : Function.Injective (extendInt · x) := by
  intro h k same
  simp only [extendInt_eq] at same
  exact (UInt64.xor_left_inj _).mp (step_injective.iterate 64 same)

theorem foldl_extendInt_injective (values : List Int64) :
    Function.Injective fun h => values.foldl extendInt h := by
  induction values with
  | nil => exact fun _ _ same => same
  | cons x values ih => exact ih.comp (extendInt_left_injective x)

/-- Lists that differ at one place only agree before and behind it. -/
theorem exists_split {α : Type} {xs ys : List α} (length : xs.length = ys.length)
    (once : ∃! i : Nat, xs[i]? ≠ ys[i]?) :
    ∃ front x y back, xs = front ++ x :: back ∧ ys = front ++ y :: back ∧ x ≠ y := by
  obtain ⟨i, differs, only⟩ := once
  dsimp only at differs only
  have elsewhere {j : Nat} (other : j ≠ i) : xs[j]? = ys[j]? :=
    not_not.mp fun differ => other (only j differ)
  have inside : i < xs.length := by
    by_contra outside
    rw [not_lt] at outside
    apply differs
    rw [List.getElem?_eq_none outside, List.getElem?_eq_none (length ▸ outside)]
  have inside' : i < ys.length := length ▸ inside
  have front : xs.take i = ys.take i := by
    apply List.ext_getElem?
    intro j
    by_cases before : j < i
    · rw [List.getElem?_take_of_lt before, List.getElem?_take_of_lt before]
      exact elsewhere before.ne
    · rw [List.getElem?_take_eq_none (by omega), List.getElem?_take_eq_none (by omega)]
  have back : xs.drop (i + 1) = ys.drop (i + 1) := by
    apply List.ext_getElem?
    intro j
    rw [List.getElem?_drop, List.getElem?_drop]
    exact elsewhere (by omega)
  refine ⟨xs.take i, xs[i], ys[i], xs.drop (i + 1), ?_, ?_, ?_⟩
  · rw [← List.drop_eq_getElem_cons inside, List.take_append_drop]
  · rw [front, back, ← List.drop_eq_getElem_cons inside', List.take_append_drop]
  · rw [List.getElem?_eq_getElem inside, List.getElem?_eq_getElem inside'] at differs
    exact fun same => differs (congrArg some same)

theorem ofInts_ne_of_split {front back : List Int64} {x y : Int64} (differ : x ≠ y) :
    ofInts (front ++ x :: back) ≠ ofInts (front ++ y :: back) := by
  intro same
  have length : (front ++ x :: back).length = (front ++ y :: back).length := by simp
  rw [ofInts, ofInts, length, List.foldl_append, List.foldl_append] at same
  exact differ (extendInt_injective _ (foldl_extendInt_injective back same))

section Table

variable {t : StateTable} {s s' : TableState}

/-- The fingerprints of one variable are as different as its values. -/
theorem eq_of_fingerprint (single : t.names.length = 1) (rectangular : t.Rectangular)
    (lists : t.Lists s) (lists' : t.Lists s') (same : s.fingerprint = s'.fingerprint) :
    s = s' := by
  obtain ⟨row, found⟩ := lists
  obtain ⟨row', found'⟩ := lists'
  obtain ⟨r, at_row, rfl⟩ := Option.map_eq_some_iff.mp found
  obtain ⟨r', at_row', rfl⟩ := Option.map_eq_some_iff.mp found'
  obtain ⟨x, values⟩ := List.length_eq_one_iff.mp
    ((rectangular r (Array.mem_of_getElem? at_row)).trans single)
  obtain ⟨y, values'⟩ := List.length_eq_one_iff.mp
    ((rectangular r' (Array.mem_of_getElem? at_row')).trans single)
  simp only [TableState.fingerprint, values, values'] at same ⊢
  by_contra differ
  have apart : x ≠ y := by
    rintro rfl
    exact differ rfl
  have split : ofInts ([] ++ x :: []) ≠ ofInts ([] ++ y :: []) := ofInts_ne_of_split apart
  exact split same

/-- Tuples that differ in one place only have different fingerprints, because the entry can be told
from the fingerprint it leaves, and so can the fingerprint that it was taken into. So every table of
one variable tells all its states apart. -/
theorem ofInts_separates :
    (∀ h, Function.Injective (extendInt h)) ∧
    (∀ x, Function.Injective (extendInt · x)) ∧
    (∀ xs ys : List Int64, xs.length = ys.length → (∃! i : Nat, xs[i]? ≠ ys[i]?) →
      ofInts xs ≠ ofInts ys) ∧
    ∀ t : StateTable, t.Built → t.names.length = 1 →
      (∀ s s', t.Lists s → t.Lists s' → s.fingerprint = s'.fingerprint → s = s') ∧
        t.model.Separates := by
  refine ⟨extendInt_injective, extendInt_left_injective, ?_, ?_⟩
  · intro xs ys length once
    obtain ⟨front, x, y, back, rfl, rfl, differ⟩ := exists_split length once
    exact ofInts_ne_of_split differ
  · intro t built single
    have apart (s s' : TableState) (lists : t.Lists s) (lists' : t.Lists s') :=
      eq_of_fingerprint single built.rectangular lists lists'
    refine ⟨apart, fun s s' reachable reachable' => ?_⟩
    exact apart s s' (StateTable.lists_of_reachable reachable)
      (StateTable.lists_of_reachable reachable')

def coin : StateTable :=
  (StateTable.addInitial { names := ["side"], rows := #[{ values := [0] }, { values := [1] }] }
    0).addPath [0, 1, 0]

theorem built_coin : coin.Built := by
  have tails : StateTable.register? { names := ["side"] } [0] =
      some (0, { names := ["side"], rows := #[{ values := [0] }] }) := by
    simp [StateTable.register?, StateTable.size]
  have both : StateTable.register? { names := ["side"], rows := #[{ values := [0] }] } [1] =
      some (1, { names := ["side"], rows := #[{ values := [0] }, { values := [1] }] }) := by
    simp [StateTable.register?, StateTable.size]
  exact (((StateTable.Built.empty ["side"]).register tails).register both |>.initial 0).path _

/-- The middle of three entries is changed, and the sides of a coin. -/
theorem ofInts_separates_sides :
    (∃! i : Nat, ([1, 2, 3] : List Int64)[i]? ≠ [1, 5, 3][i]?) ∧
      ofInts [1, 2, 3] ≠ ofInts [1, 5, 3] ∧
      coin.Built ∧ coin.names.length = 1 ∧ coin.model.Separates := by
  have once : ∃! i : Nat, ([1, 2, 3] : List Int64)[i]? ≠ [1, 5, 3][i]? := by
    refine ⟨1, by decide, fun i differs => ?_⟩
    match i with
    | 0 => simp at differs
    | 1 => rfl
    | 2 => simp at differs
    | _ + 3 => simp at differs
  have single : coin.names.length = 1 := rfl
  obtain ⟨-, -, tuples, tables⟩ := ofInts_separates
  exact ⟨once, tuples _ _ rfl once, built_coin, single, (tables coin built_coin single).2⟩

end Table

end Fingerprint
end TemporalCheck
