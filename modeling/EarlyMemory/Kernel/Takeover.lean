import EarlyMemory.FrameManager.Setup
import EarlyMemory.Loader.Handoff

/-!
# The takeover

The kernel's side of the handoff: it reports what it was given, installs the
recursive map in the bootstrap root and brings its frame manager up.
-/

namespace EarlyMemory.Takeover

variable {ε : Type}

def kernelBase : VirtualAddress :=
  ⟨0xFFFFFFFF80000000, by decide⟩

open Operation (report check)

def traceRegions {σ : Type} : List Region → Operation σ ε Unit
  | [] => return ()
  | region :: rest => do
      let kind := (region.kind?.map RegionKind.label).getD "Unknown"
      report .debug .kernelTrace
        s!"  [{Hex.lower 12 region.start.value}, {Hex.lower 12 region.stop.value}) {kind}"
      traceRegions rest

def traceHandoff {σ : Type} (info : BootInfo) : Operation σ ε Unit := do
  report .info .kernelTrace
    (s!"Boot Info in Kernel:\n  BI ptr   = {HostObject.bootInfo.text}\n" ++
      s!"  MMAP ptr = {HostObject.regionTable.text}, regions = {info.count}\n" ++
      s!"  PML4     = {info.root.text}")
  traceRegions info.regions

def bringUp (info : BootInfo) : Operation (Paged FrameManager) FrameManager.Refusal Unit := do
  FrameManager.install (info.root.page .small)
  FrameManager.adopt info.regions
  let paged ← Operation.state
  let free ← check (FrameManager.freePageCount paged)
  report .info .takeover
    (s!"Kernel memory manager ready: {free} free pages, " ++
      s!"next virtual address {paged.source.nextVirtual.text}")

def run (info : BootInfo) : Operation (Paged FrameManager) FrameManager.Refusal Unit := do
  traceHandoff info
  bringUp info

/-- The manager that takes over; its ledger will stand right behind the image. -/
def manager (info : BootInfo) (imageEnd : VirtualAddress) : FrameManager :=
  .create (info.root.page .small) imageEnd

end EarlyMemory.Takeover
