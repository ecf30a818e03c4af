import EarlyMemory.Firmware.BootInformation
import EarlyMemory.Region.Table

/-!
# The memory map

The reported ranges become the loader's region table. What the loader must not
hand out is then fenced off: its own image, the boot information and every
module. Each of these is expected to lie in one available region; one that does
not is left alone with a warning.
-/

namespace EarlyMemory.MemoryMap

variable {capacity : Nat} {sorting : Region.Sorting} {ε : Type}

open Operation (state refuse report check attempt mapRefusal)

inductive Refusal where
  /-- No reported range survives rounding. -/
  | noRegions
  | table (cause : RegionTableError)
deriving DecidableEq

def Refusal.message : Refusal → String
  | .noRegions => "the firmware memory map holds no usable region"
  | .table cause => cause.message

def recordRanges :
    List ReportedRange → Operation (RegionTable capacity sorting) RegionTableError Unit
  | [] => return ()
  | range :: rest => do
      RegionTable.add range.regionKind range.start range.stop
      recordRanges rest

/-- Records every range and counts them, on top of those counted before. -/
def countRanges (count : Nat) :
    List ReportedRange → Operation (RegionTable capacity sorting) RegionTableError Nat
  | [] => return count
  | range :: rest => do
      RegionTable.add range.regionKind range.start range.stop
      countRanges (count + 1) rest

/-- Records every range; the value is the number of ranges read. -/
def ingest (ranges : List ReportedRange) :
    Operation (RegionTable capacity sorting) RegionTableError Nat :=
  countRanges 0 ranges

/-- Reserves a range if one available region holds it; otherwise warns. -/
def fence (what : String) (start stop : PhysicalAddress) :
    Operation (RegionTable capacity sorting) RegionTableError Unit := do
  match ← attempt (RegionTable.reserve start stop) with
  | .ok () => return ()
  | .error (.notContained first last) =>
      report .warn .memoryMap
        (s!"Not reserving {what} [{first.text}, {last.text}): " ++
          "not inside a single available region")
  | .error cause => refuse cause

def fenceModules :
    List (Except Fault BootModule) → Operation (RegionTable capacity sorting) RegionTableError Unit
  | [] => return ()
  | bootModule :: rest => do
      let bootModule ← check bootModule
      report .info .memoryMap
        (s!"Module {Text.quote bootModule.commandLine} at " ++
          s!"[{bootModule.start.text}, {bootModule.stop.text})")
      fence "module" bootModule.start bootModule.stop
      fenceModules rest

def reportRegions : List Region → Operation (RegionTable capacity sorting) ε Unit
  | [] => return ()
  | region :: rest => do
      let kind := (region.kind?.map RegionKind.label).getD "unknown"
      report .info .memoryMap
        s!"  [{Hex.lower 16 region.start.value}, {Hex.lower 16 region.stop.value}) {kind}"
      reportRegions rest

def reportTable : Operation (RegionTable capacity sorting) ε Unit := do
  report .info .memoryMap "Parsed memory map (rounded to page boundaries):"
  let table ← state
  reportRegions table.regions

/-- Builds the table. The boot information itself stands at `address`, the
loader's own image in `[imageStart, imageStop)`. -/
def build (information : BootInformation) (address imageStart imageStop : PhysicalAddress) :
    Operation (RegionTable capacity sorting) Refusal Unit := do
  let ranges ← check information.ranges
  let count ← mapRefusal .table (ingest ranges)
  report .info .memoryMap s!"Firmware reported {count} memory ranges"
  let table ← state
  if table.regions.isEmpty then
    report .error .memoryMap "Got no memory regions from the firmware"
    refuse .noRegions
  else
    mapRefusal .table do
      fence "loader image" imageStart imageStop
      let stop ← check (address.add information.totalSize)
      fence "boot information" address stop
      fenceModules information.modules
    reportTable

end EarlyMemory.MemoryMap
