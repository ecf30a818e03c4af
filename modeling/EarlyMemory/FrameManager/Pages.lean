import EarlyMemory.FrameManager.Basic

/-!
# Frames that the manager tracks

A page is busy or free in the bitmap of the run that holds it. `allocate` takes
the lowest free page outside low memory. Once it is ready the manager is a
source of frames, so that `map` takes missing tables from the very frames it
tracks.
-/

namespace EarlyMemory.FrameManager

open Operation (refuse report check reportRefusal)
open Paged (changeMemory inspect)

def locate (page : Frame) : Operation (Paged FrameManager) Refusal (Descriptor × Nat) := do
  let manager ← current
  match ← inspect fun memory => manager.ledger.locate memory page with
  | .outside => refuse (.outOfRange page.base)
  | .unavailable => refuse (.notAvailable page.base)
  | .bit descriptor index => return (descriptor, index)

def readBitmap {ε α : Type} (descriptor : Descriptor) (read : Bitmap → Except Fault α) :
    Operation (Paged FrameManager) ε α := do
  let manager ← current
  inspect fun memory => do
    let bitmap ← manager.ledger.bitmap memory descriptor
    read bitmap

def setBit {ε : Type} (descriptor : Descriptor) (index : Nat) (busy : Bool) :
    Operation (Paged FrameManager) ε Unit := do
  let manager ← current
  let byte ← readBitmap descriptor (·.changedByte index busy)
  changeMemory fun memory => manager.ledger.setBitmapByte memory descriptor index byte

def setBusy (page : Frame) (busy : Bool) : Operation (Paged FrameManager) Refusal Unit := do
  let (descriptor, index) ← locate page
  setBit descriptor index busy

def requireReady : Operation (Paged FrameManager) Refusal Unit := do
  let manager ← current
  manager.requireStage .ready

/-! ## Operations -/

def markBusy (page : Frame) : Operation (Paged FrameManager) Refusal Unit := do
  requireReady
  reportRefusal .warn .frameManager
    (fun cause => s!"Cannot mark {page.text} busy: {cause.message}")
    (setBusy page true)
  report .trace .frameManager s!"{page.text} busy"

def free (page : Frame) : Operation (Paged FrameManager) Refusal Unit := do
  requireReady
  reportRefusal .warn .frameManager
    (fun cause => s!"Cannot free {page.text}: {cause.message}")
    (setBusy page false)
  report .trace .frameManager s!"{page.text} free"

def isBusy (page : Frame) : Operation (Paged FrameManager) Refusal Bool := do
  requireReady
  let (descriptor, index) ← locate page
  readBitmap descriptor (·.get index)

/-- The first bit of a run that stands for memory the manager may hand out. -/
def firstUsable (descriptor : Descriptor) : Nat :=
  (lowMemoryEnd.value - descriptor.base.value) / PageSize.small.bytes

/-- Takes the lowest free page of the first run that has one. -/
def allocateFrom {ε : Type} : List Descriptor → Operation (Paged FrameManager) ε (Option Frame)
  | [] => do
      report .warn .frameManager "Out of physical pages"
      return none
  | descriptor :: rest => do
      match ← readBitmap descriptor
          (·.firstClear (firstUsable descriptor) descriptor.pages) with
      | none => allocateFrom rest
      | some index =>
          setBit descriptor index true
          let page ← check ((descriptor.base.page .small).advance index)
          report .trace .frameManager s!"Allocated {page.text}"
          return some page

def allocate {ε : Type} : Operation (Paged FrameManager) ε (Option Frame) := do
  let manager ← current
  if manager.stage = .ready then
    let tracked ← inspect fun memory => .ok (manager.ledger.descriptors memory)
    allocateFrom (tracked.filter fun descriptor => descriptor.kind = .available)
  else
    return none

instance : FrameSource FrameManager where
  take := allocate

/-- Maps one page; missing tables are frames that the manager hands out. -/
def map (target : PhysicalAddress) (address : VirtualAddress) (rights : Rights) :
    Operation (Paged FrameManager) Refusal Unit := do
  requireReady
  let manager ← current
  let space ← manager.space
  Operation.mapRefusal Refusal.map (space.map target address rights)

end EarlyMemory.FrameManager
