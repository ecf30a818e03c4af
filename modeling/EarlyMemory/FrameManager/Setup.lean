import EarlyMemory.FrameManager.Pages
import EarlyMemory.Frames.Pool

/-!
# Bringing the manager up

The ledger is placed in the first available region outside low memory that can
hold it together with the tables that mapping it may take. Those tables come
from the frames right behind the ledger, so nothing else has to be able to
allocate yet. Pages of allocated regions and the ledger's own pages start out
busy.
-/

namespace EarlyMemory.FrameManager

open Operation (refuse report check mapRefusal)
open Paged (changeMemory alter inspect lending onSecond)

/-! ## The recursive map -/

/-- Points the recursive slot of a root table at the table itself. A slot that
already does is kept; one that holds anything else is refused. -/
def install (root : Frame) : Operation (Paged FrameManager) Refusal Unit := do
  inspect fun memory => memory.requireFrame root
  let manager ← current
  manager.requireStage .uninitialized
  let installed ← inspect fun memory => .ok (RecursiveMap.isInstalled memory root)
  if installed then
    report .debug .frameManager s!"PML4 at {root.text} already maps itself"
  else
    let existing ← inspect fun memory => .ok (RecursiveMap.entryOf memory root)
    if existing.present then
      let frame := existing.frame.base
      report .error .frameManager
        s!"Fractal slot of the PML4 at {root.text} already maps {frame.text}"
      refuse (.slotInUse frame)
    else
      changeMemory fun memory => RecursiveMap.install memory root
  change fun manager => { manager with root := some root, stage := .selfMapInstalled }
  report .info .frameManager s!"Fractal self-map installed for PML4 at {root.text}"

/-! ## Mapping behind the image -/

section

variable {F : Type} [FrameSource F]

/-- Maps pages from an index on. Each mapped page moves the manager's next
virtual address behind itself. -/
def mapPages (space : AddressSpace) (base : PhysicalAddress) (start : VirtualAddress)
    (rights : Rights) (index : Nat) :
    Nat → Operation (Paged (FrameManager × F)) Refusal Unit
  | 0 => return ()
  | remaining + 1 => do
      let offset ← check (Word.multiply index PageSize.small.bytes)
      let target ← check (base.add offset)
      let address ← check (start.add offset)
      onSecond (mapRefusal Refusal.map (space.map target address rights))
      let next ← check (address.add PageSize.small.bytes)
      Paged.onSource (Operation.update fun (manager, frames) =>
        ({ manager with nextVirtual := next }, frames))
      mapPages space base start rights (index + 1) remaining

/-- Maps consecutive frames at the next virtual addresses behind the image and
gives the first of those. Missing tables come from `F`. -/
def mapBeyond (base : PhysicalAddress) (count : Nat) (rights : Rights) :
    Operation (Paged (FrameManager × F)) Refusal VirtualAddress := do
  let paged ← Operation.state
  let manager := paged.source.1
  let space ← manager.space
  mapPages space base manager.nextVirtual rights 0 count
  report .debug .frameManager
    s!"Mapped {count} pages of {base.text} at {manager.nextVirtual.text}"
  return manager.nextVirtual

end

/-! ## The ledger -/

def reportUnknown : List Region → Operation (Paged FrameManager) Refusal Unit
  | [] => return ()
  | region :: rest => do
      if region.kernelKind?.isNone then
        report .warn .frameManager
          (s!"Region [{region.start.text}, {region.stop.text}) has unknown type " ++
            s!"{region.code.toNat}; treating it as reserved")
      reportUnknown rest

def canHost (requiredBytes : Nat) (region : Region) : Bool :=
  region.hasKind .available && lowMemoryEnd.value ≤ region.start.value &&
    requiredBytes ≤ region.length

def markPages (first : Frame) (index : Nat) : Nat → Operation (Paged FrameManager) Refusal Unit
  | 0 => return ()
  | remaining + 1 => do
      let page ← check (first.advance index)
      setBusy page true
      markPages first (index + 1) remaining

def markAllocated : List Region → Operation (Paged FrameManager) Refusal Unit
  | [] => return ()
  | region :: rest => do
      if region.hasKind .allocated then
        markPages (region.start.page .small) 0 (region.length / PageSize.small.bytes)
      markAllocated rest

/-- The frames that the tables for a ledger at an address are taken from. -/
def earlyFrames (host : PhysicalAddress) (layout : Ledger.Layout) :
    Except Fault FrameStrip := do
  let bytes ← Word.multiply layout.metadataPages PageSize.small.bytes
  let behind ← host.add bytes
  FrameStrip.create (behind.page .small) layout.tableFrames

/-- Clears the mapped ledger and records the runs in it. -/
def openLedger (address : VirtualAddress) (host : PhysicalAddress) (layout : Ledger.Layout)
    (regions : List Region) : Operation (Paged FrameManager) Refusal Unit := do
  let manager ← current
  let bytes ← check (Word.multiply layout.metadataPages PageSize.small.bytes)
  let start ← inspect fun memory => manager.access.locate memory address bytes
  changeMemory fun memory => memory.fill start.value bytes 0
  let ledger : Ledger :=
    ⟨start, layout.bitmapBytes, layout.descriptorsOffset, layout.regionCount⟩
  change fun manager => { manager with ledger := ledger, stage := .bitmapAllocated }
  report .debug .frameManager
    (s!"Memory manager metadata: {layout.regionCount} regions, " ++
      s!"{layout.bitmapBytes} bitmap bytes, {layout.metadataPages} pages at " ++
      s!"{host.text} ({address.text})")
  alter fun memory => ledger.recordRuns memory 0 0 (Run.ofRegions regions)

def adopt (regions : List Region) : Operation (Paged FrameManager) Refusal Unit := do
  let manager ← current
  manager.requireStage .selfMapInstalled
  reportUnknown regions
  let layout ← check (Ledger.Layout.ofRegions regions)
  let requiredBytes ← check layout.requiredBytes
  match regions.find? (canHost requiredBytes) with
  | none =>
      report .error .frameManager
        s!"No region can hold {requiredBytes} bytes of memory manager metadata"
      refuse (.noRegionForMetadata requiredBytes)
  | some region =>
      let host := region.start
      let strip ← check (earlyFrames host layout)
      let (address, strip) ← lending strip (mapBeyond host layout.metadataPages .readWrite)
      openLedger address host layout regions
      markAllocated regions
      let used ← check strip.used
      let own ← check (Word.add layout.metadataPages used)
      markPages (host.page .small) 0 own
      change fun manager => { manager with stage := .ready }
      let paged ← Operation.state
      let free ← check (freePageCount paged)
      let tracked := (descriptors paged).length
      report .info .frameManager
        s!"Memory manager ready: {free} free pages in {tracked} regions"

end EarlyMemory.FrameManager
