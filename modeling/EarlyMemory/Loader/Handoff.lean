import EarlyMemory.Firmware.MemoryMap
import EarlyMemory.Loader.Image
import EarlyMemory.Processor.Features

/-!
# The handoff

Everything between reading the boot information and switching to the new
tables: the region table is built, the bootstrap tables are set up, and the
kernel module is placed. What is left for the kernel is the region table and
the root of the tables.
-/

namespace EarlyMemory

structure BootInfo where
  /-- The region table; `none` if the loader recorded no place for it. -/
  table : Option (List Region)
  count : Nat
  root : PhysicalAddress
deriving DecidableEq

namespace BootInfo

def regions (info : BootInfo) : List Region :=
  (info.table.getD []).take info.count

def describe {capacity : Nat} {sorting : Region.Sorting}
    (table : RegionTable capacity sorting) (root : Frame) : BootInfo :=
  ⟨some table.regions, table.regions.length, root.base⟩

end BootInfo

namespace Loader

inductive Refusal where
  | bootInformation (cause : BootInformation.Refusal)
  | processor (cause : ExtendedFeatures.Missing)
  | noMemoryMap
  | memoryMap (cause : MemoryMap.Refusal)
  | noKernelModule
  | tables (cause : BootTables.Refusal)
  | image (cause : Executable.Refusal)
deriving DecidableEq

def Refusal.message : Refusal → String
  | .bootInformation cause => cause.message
  | .processor cause => cause.message
  | .noMemoryMap => "the firmware provided no memory map"
  | .memoryMap cause => cause.message
  | .noKernelModule => "no boot module carries the kernel image"
  | .tables cause => cause.message
  | .image cause => cause.message

structure Handoff where
  info : BootInfo
  kernel : KernelImage
deriving DecidableEq

variable {capacity : Nat} {sorting : Region.Sorting} {ε : Type}

open Operation (state refuse report check mapRefusal)
open Paged (inspect onSource)

def bootInfo (root : Frame) : Operation (Paged (RegionTable capacity sorting)) ε BootInfo := do
  let paged ← state
  return .describe paged.source root

def traceBootInfo {σ : Type} (info : BootInfo) : Operation σ ε Unit :=
  report .info .loaderTrace
    (s!"Boot info at {HostObject.bootInfo.text}\n" ++
      s!"  regions ptr   = {HostObject.regionTable.text}\n" ++
      s!"  region count  = {info.count}\n" ++
      s!"  bootstrap PML4 = {info.root.text}")

def findKernel {σ : Type} (information : BootInformation) : Operation σ Refusal BootModule := do
  if !(← check information.hasMemoryMap) then
    report .error .handoff "Got no memory map from the firmware"
    refuse .noMemoryMap
  else
    match ← check information.kernelModule? with
    | none =>
        report .error .handoff
          (s!"No boot module named {Text.quote BootModule.kernelName}; " ++
            "cannot load the kernel")
        refuse .noKernelModule
    | some bootModule =>
        report .info .handoff
          s!"Kernel module at [{bootModule.start.text}, {bootModule.stop.text})"
        return bootModule

/-- Prepares the kernel's start. The boot information stands at `address`, the
loader's own image in `[imageStart, imageStop)`. -/
def prepare (information : BootInformation) (address imageStart imageStop : PhysicalAddress) :
    Operation (Paged (RegionTable capacity sorting)) Refusal Handoff := do
  let bootModule ← findKernel information
  mapRefusal .memoryMap
    (onSource (MemoryMap.build information address imageStart imageStop))
  let root ← mapRefusal .tables (BootTables.create .long64)
  inspect fun memory => memory.requireRange bootModule.start bootModule.length
  let kernel ← mapRefusal .image
    (loadImage root (.window bootModule.start bootModule.length))
  let info ← bootInfo root
  return ⟨info, kernel⟩

end Loader

end EarlyMemory
