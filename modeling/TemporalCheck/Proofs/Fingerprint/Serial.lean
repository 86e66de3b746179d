import TemporalCheck.Proofs.Fingerprint

/-! Fingerprints bit by bit. The table takes in eight places at a time; a shift register that lets
them go one by one comes to the same, whatever stands in it. Since the register is linear over the
two-element field, so is everything that is made of it: fingerprints of tuples of one length differ
by what the differences of their entries come to. -/
namespace TemporalCheck

namespace Fingerprint

/-- The register moves down by one place, and the polynomial is added if the place that falls out
was set. -/
def shiftOut (t : UInt64) : UInt64 := if t &&& 1 = 1 then (t >>> 1) ^^^ polynomial else t >>> 1

def serialByte (h : UInt64) (b : UInt8) : UInt64 := shiftOut^[8] (h ^^^ b.toUInt64)

theorem shiftOut_eq_step : shiftOut = step := by
  funext t
  unfold shiftOut step
  split
  · rfl
  · rw [UInt64.xor_zero]

theorem extendByte_eq_serialByte : extendByte = serialByte := by
  funext h b
  rw [extendByte_eq, serialByte, shiftOut_eq_step]

theorem extendByte_xor (a b : UInt64) (x y : UInt8) :
    extendByte (a ^^^ b) (x ^^^ y) = extendByte a x ^^^ extendByte b y := by
  simp only [extendByte_eq, ← iterate_step_xor, UInt8.toUInt64_xor]
  congr 1
  ac_rfl

theorem extendInt_xor (a b : UInt64) (x y : Int64) :
    extendInt (a ^^^ b) (x ^^^ y) = extendInt a x ^^^ extendInt b y := by
  simp only [extendInt_eq, ← iterate_step_xor, Int64.toUInt64_xor]
  congr 1
  ac_rfl

/-- What is linear for one entry is so for a list of them. The pairs hold the entries of two lists
of one length. -/
theorem foldl_xor {α : Type} [XorOp α] {extend : UInt64 → α → UInt64}
    (linear : ∀ a b x y, extend (a ^^^ b) (x ^^^ y) = extend a x ^^^ extend b y)
    (a b : UInt64) (pairs : List (α × α)) :
    (pairs.map fun p => p.1 ^^^ p.2).foldl extend (a ^^^ b) =
      (pairs.map Prod.fst).foldl extend a ^^^ (pairs.map Prod.snd).foldl extend b := by
  induction pairs generalizing a b with
  | nil => rfl
  | cons p pairs ih =>
    simp only [List.map_cons, List.foldl_cons, linear]
    exact ih (extend a p.1) (extend b p.2)

/-- Tag and length are the same, so they cancel out. -/
theorem ofInts_xor (pairs : List (Int64 × Int64)) :
    ofInts (pairs.map Prod.fst) ^^^ ofInts (pairs.map Prod.snd) =
      (pairs.map fun p => p.1 ^^^ p.2).foldl extendInt 0 := by
  unfold ofInts
  rw [← foldl_xor extendInt_xor, List.length_map, List.length_map, UInt64.xor_self]

/-- The table and the shift register agree on all bytes and all values, and both are linear. -/
theorem extend_serial :
    (∀ (h : UInt64) (bytes : List UInt8), extendBytes h bytes = bytes.foldl serialByte h) ∧
    (∀ (h : UInt64) (x : Int64), extendInt h x = shiftOut^[64] (h ^^^ x.toUInt64)) ∧
    (∀ (a b : UInt64) (pairs : List (UInt8 × UInt8)),
      extendBytes (a ^^^ b) (pairs.map fun p => p.1 ^^^ p.2) =
        extendBytes a (pairs.map Prod.fst) ^^^ extendBytes b (pairs.map Prod.snd)) ∧
    ∀ (a b : UInt64) (x y : Int64),
      extendInt (a ^^^ b) (x ^^^ y) = extendInt a x ^^^ extendInt b y := by
  refine ⟨fun h bytes => ?_, fun h x => ?_, foldl_xor extendByte_xor, extendInt_xor⟩
  · rw [extendBytes, extendByte_eq_serialByte]
  · rw [shiftOut_eq_step, extendInt_eq]

end Fingerprint
end TemporalCheck
