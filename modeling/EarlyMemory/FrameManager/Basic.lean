import EarlyMemory.Ledger.Basic
import EarlyMemory.Machine.Paged
import EarlyMemory.Paging.AddressSpace

/-!
# The frame manager

The kernel's frame manager comes up in stages: it installs the recursive map,
maps its ledger right behind the kernel image, and records the loader's regions
there. Only then does it hand out frames. Beyond the ledger it knows its stage,
the root it works on and the next virtual address it maps to.
-/

namespace EarlyMemory

namespace FrameManager

inductive Stage where
  | uninitialized
  | selfMapInstalled
  | bitmapAllocated
  | ready
deriving DecidableEq

namespace Stage

def label : Stage → String
  | .uninitialized => "Uninitialized"
  | .selfMapInstalled => "SelfMapInstalled"
  | .bitmapAllocated => "BitmapAllocated"
  | .ready => "Ready"

/-- How far the manager has come; no call takes it back. -/
def rank : Stage → Nat
  | .uninitialized => 0
  | .selfMapInstalled => 1
  | .bitmapAllocated => 2
  | .ready => 3

end Stage

inductive Refusal where
  | noRegionForMetadata (requiredBytes : Nat)
  | notAvailable (page : PhysicalAddress)
  | outOfRange (page : PhysicalAddress)
  | slotInUse (frame : PhysicalAddress)
  | wrongStage (expected actual : Stage)
  | map (cause : MapError)
deriving DecidableEq

def Refusal.message : Refusal → String
  | .noRegionForMetadata requiredBytes =>
      s!"no available region can hold {requiredBytes} bytes of allocator metadata"
  | .notAvailable page => s!"{page.text} does not belong to an available region"
  | .outOfRange page => s!"{page.text} is not covered by any region"
  | .slotInUse frame => s!"fractal slot already maps {frame.text}"
  | .wrongStage expected actual =>
      s!"operation requires state {expected.label}, manager is {actual.label}"
  | .map cause => cause.message

end FrameManager

structure FrameManager where
  /-- The root whose recursive map tables are reached through. -/
  active : Frame
  stage : FrameManager.Stage
  /-- The root that the recursive map was installed in. -/
  root : Option Frame
  nextVirtual : VirtualAddress
  ledger : Ledger
deriving DecidableEq

namespace FrameManager

/-- A manager that will map its ledger right behind the kernel image. -/
def create (active : Frame) (imageEnd : VirtualAddress) : FrameManager :=
  ⟨active, .uninitialized, none, imageEnd.alignUp .small, .empty⟩

def access (manager : FrameManager) : TableAccess :=
  .recursive manager.active

section

variable {F ε : Type}

open Operation (state refuse)

def requireStage (manager : FrameManager) (expected : Stage) :
    Operation (Paged F) Refusal Unit :=
  if manager.stage = expected then
    return ()
  else
    refuse (.wrongStage expected manager.stage)

def space (manager : FrameManager) : Operation (Paged F) Refusal AddressSpace :=
  match manager.root with
  | some root => return ⟨root, manager.access⟩
  | none => refuse (.wrongStage .selfMapInstalled manager.stage)

def current : Operation (Paged FrameManager) ε FrameManager := do
  let paged ← state
  return paged.source

def change (change : FrameManager → FrameManager) : Operation (Paged FrameManager) ε Unit :=
  Paged.onSource (Operation.update change)

end

/-! ## Reading -/

def descriptors (paged : Paged FrameManager) : List Descriptor :=
  paged.source.ledger.descriptors paged.memory

def freePageCount (paged : Paged FrameManager) : Except Fault Nat :=
  paged.source.ledger.freePageCount paged.memory

end FrameManager

end EarlyMemory
