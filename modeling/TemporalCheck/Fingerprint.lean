/-! Fingerprints: the 64-bit identities of states. A fingerprint is the remainder of a bit string
modulo an irreducible polynomial over the two-element field, with the coefficient of the highest
power in the lowest bit. Bytes are taken in one at a time through a table of 256 remainders. -/
namespace TemporalCheck

/-- The identity under which a state is filed. -/
abbrev Fingerprint := UInt64

namespace Fingerprint

/-- The coefficients of the polynomial, which is also the fingerprint of the empty string. -/
def polynomial : UInt64 := 0x911498AE0E66BAD6

def one : UInt64 := 0x8000000000000000

/-- Multiplies by the indeterminate and reduces. -/
def step (t : UInt64) : UInt64 :=
  (t >>> 1) ^^^ (if t &&& 1 = 1 then polynomial else 0)

/-- The remainder of the `i`-th power of the indeterminate. -/
def power : Nat → UInt64
  | 0 => one
  | i + 1 => step (power i)

/-- The remainder contributed by the byte `j` as it leaves the low end of a word: bit `k` of the
byte stands for the power `71 - k`. -/
def byteRemainder (j : Nat) : UInt64 :=
  (List.range 8).foldl (fun sum k => if j.testBit k then sum ^^^ power (71 - k) else sum) 0

def byteTable : Array UInt64 := Array.ofFn (n := 256) fun j => byteRemainder j

def extendByte (h : UInt64) (b : UInt8) : UInt64 :=
  (h >>> 8) ^^^ byteTable.getD ((b.toUInt64 ^^^ h) &&& 0xFF).toNat 0

def extendBytes (h : UInt64) (bytes : List UInt8) : UInt64 :=
  bytes.foldl extendByte h

/-- The eight bytes of a word, lowest first. -/
def littleEndian (x : UInt64) : List UInt8 :=
  (List.range 8).map fun k => (x >>> UInt64.ofNat (8 * k)).toUInt8

def extendInt (h : UInt64) (x : Int64) : UInt64 :=
  extendBytes h (littleEndian x.toUInt64)

/-- Distinguishes tuples of integers from other hashed things. -/
def tupleTag : Int64 := 7

/-- The fingerprint of a tuple: its tag, its length, then its entries. -/
def ofInts (values : List Int64) : Fingerprint :=
  values.foldl extendInt (extendInt (extendInt polynomial tupleTag) (Int64.ofNat values.length))

/-- Sixteen lower-case hexadecimal digits. -/
def hex (fp : Fingerprint) : String :=
  let digits := Nat.toDigits 16 fp.toNat
  String.ofList (List.replicate (16 - digits.length) '0' ++ digits)

def describe (fp : Fingerprint) : String := "FP(" ++ fp.hex ++ ")"

end Fingerprint
end TemporalCheck
