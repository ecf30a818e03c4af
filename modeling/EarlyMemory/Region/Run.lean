import EarlyMemory.Region.Basic

/-!
# Runs

The kernel does not care how the loader cut memory up. It works on runs: the
nonempty regions in the order they are given, with neighbours merged while one
ends where the next starts and the kernel takes both for the same kind.
-/

namespace EarlyMemory

structure Run where
  base : PhysicalAddress
  stop : PhysicalAddress
  kind : KernelKind
deriving DecidableEq

namespace Run

def pages (run : Run) : Except Fault Nat := do
  let bytes ← run.stop.since run.base
  return bytes / PageSize.small.bytes

def ofRegion (region : Region) : Run :=
  ⟨region.start, region.stop, region.kernelKind⟩

def continuesInto (run : Run) (region : Region) : Bool :=
  region.start == run.stop && region.kernelKind == run.kind

/-- The runs of regions that follow an open run, the open run first. -/
def extend (run : Run) : List Region → List Run
  | [] => [run]
  | next :: rest =>
      if run.continuesInto next then
        extend { run with stop := next.stop } rest
      else
        run :: (ofRegion next).extend rest

def ofNonempty : List Region → List Run
  | [] => []
  | first :: rest => (ofRegion first).extend rest

def ofRegions (regions : List Region) : List Run :=
  ofNonempty (regions.filter fun region => !region.isEmpty)

end Run

end EarlyMemory
