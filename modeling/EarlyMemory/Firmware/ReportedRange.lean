import EarlyMemory.Region.Basic

/-!
# Reported ranges

The firmware reports memory as typed ranges by base and length. A range may run
past the last address, and its type may be one that only the firmware knows.
-/

namespace EarlyMemory

structure ReportedRange where
  base : PhysicalAddress
  length : Nat
  kind : Nat
deriving DecidableEq

namespace ReportedRange

def start (range : ReportedRange) : PhysicalAddress :=
  range.base

/-- The first address past the range, or the last address if there is none. -/
def stop (range : ReportedRange) : PhysicalAddress :=
  ⟨min (range.base.value + range.length) (1 <<< 64 - 1), by omega⟩

/-- The kind a range is recorded as; what the firmware invents on its own counts
as reserved. -/
def regionKind (range : ReportedRange) : RegionKind :=
  match range.kind with
  | 1 => .available
  | 3 => .acpiReclaimable
  | 4 => .nonVolatile
  | 5 => .badMemory
  | _ => .reserved

end ReportedRange

end EarlyMemory
