/-! What a user may choose about a check. -/
namespace TemporalCheck

/-- When the product is scanned for violations. -/
inductive ScanMode where
  /-- Every so many events, and once more at the end. -/
  | periodic
  /-- At the end only. -/
  | final
deriving DecidableEq, Repr

def ScanMode.text : ScanMode → String
  | .periodic => "PERIODIC"
  | .final => "FINAL"

structure Settings where
  mode : ScanMode := .periodic
  /-- Events between two periodic scans; zero counts as one. -/
  scanInterval : UInt64 := 1024
  /-- Lets every state be followed by itself. -/
  stuttering : Bool := false
  /-- Exploration stops before it stores more states than this. -/
  maxStates : Option UInt64 := none
  /-- Events published and read at a time; zero counts as one. -/
  feedBatch : UInt64 := 256
  /-- Permits one worker for each property. -/
  parallel : Bool := true
deriving DecidableEq, Repr

namespace Settings

/-- The number of events between scans, if there are scans before the end. -/
def scanEvery (s : Settings) : Option Nat :=
  match s.mode with
  | .periodic => some (max s.scanInterval.toNat 1)
  | .final => none

def batch (s : Settings) : Nat := max s.feedBatch.toNat 1

end Settings
end TemporalCheck
