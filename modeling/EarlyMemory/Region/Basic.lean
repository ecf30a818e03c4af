import EarlyMemory.Fault

/-!
# Regions

A region is a range of physical memory with a type code. Both stages share the
codes, so a region keeps the code as it was written down, known or not.
-/

namespace EarlyMemory

inductive RegionKind where
  | available
  | reserved
  | acpiReclaimable
  | nonVolatile
  | badMemory
  /-- Pages that back a loaded image. -/
  | allocated
  /-- The kernel image itself. -/
  | kernel
deriving DecidableEq

namespace RegionKind

def all : List RegionKind :=
  [.available, .reserved, .acpiReclaimable, .nonVolatile, .badMemory, .allocated, .kernel]

def code : RegionKind → UInt32
  | .available => 0
  | .reserved => 1
  | .acpiReclaimable => 2
  | .nonVolatile => 3
  | .badMemory => 4
  | .allocated => 5
  | .kernel => 6

def ofCode? (code : UInt32) : Option RegionKind :=
  all.find? fun kind => kind.code == code

theorem ofCode?_code (kind : RegionKind) : ofCode? kind.code = some kind := by
  cases kind <;> rfl

def label : RegionKind → String
  | .available => "available"
  | .reserved => "reserved"
  | .acpiReclaimable => "acpi-reclaimable"
  | .nonVolatile => "nvs"
  | .badMemory => "bad-memory"
  | .allocated => "allocated"
  | .kernel => "kernel"

/-- Whether a region of this kind is memory the kernel may come to manage. -/
def isCombinable : RegionKind → Bool
  | .available | .allocated => true
  | _ => false

/-- Available memory is rounded inward, so that no partial page is handed out;
everything else is rounded outward, so that no hazard is under-reported. -/
def roundsInward : RegionKind → Bool
  | .available => true
  | _ => false

end RegionKind

inductive KernelKind where
  | available
  | reserved
  | acpiReclaimable
  | nonVolatile
  | badMemory
deriving DecidableEq

namespace KernelKind

def all : List KernelKind :=
  [.available, .reserved, .acpiReclaimable, .nonVolatile, .badMemory]

def code : KernelKind → Nat
  | .available => 0
  | .reserved => 1
  | .acpiReclaimable => 2
  | .nonVolatile => 3
  | .badMemory => 4

def label : KernelKind → String
  | .available => "available"
  | .reserved => "reserved"
  | .acpiReclaimable => "acpi-reclaimable"
  | .nonVolatile => "nvs"
  | .badMemory => "bad-memory"

/-- The kind with a code; an unknown code counts as reserved. -/
def ofCode (code : Nat) : KernelKind :=
  (all.find? fun kind => kind.code == code).getD .reserved

theorem ofCode_code (kind : KernelKind) : ofCode kind.code = kind := by
  cases kind <;> rfl

/-- What the kernel takes a region kind for: image pages are memory it manages,
its own image is not. -/
def ofRegionKind : RegionKind → KernelKind
  | .available | .allocated => .available
  | .reserved | .kernel => .reserved
  | .acpiReclaimable => .acpiReclaimable
  | .nonVolatile => .nonVolatile
  | .badMemory => .badMemory

end KernelKind

structure Region where
  start : PhysicalAddress
  stop : PhysicalAddress
  code : UInt32
deriving DecidableEq

namespace Region

def of (kind : RegionKind) (start stop : PhysicalAddress) : Region :=
  ⟨start, stop, kind.code⟩

def kind? (region : Region) : Option RegionKind :=
  RegionKind.ofCode? region.code

def hasKind (region : Region) (kind : RegionKind) : Bool :=
  region.code == kind.code

def withKind (region : Region) (kind : RegionKind) : Region :=
  { region with code := kind.code }

def kernelKind? (region : Region) : Option KernelKind :=
  region.kind?.map KernelKind.ofRegionKind

/-- The kernel reserves what it does not know. -/
def kernelKind (region : Region) : KernelKind :=
  region.kernelKind?.getD .reserved

def length (region : Region) : Nat :=
  region.stop.value - region.start.value

def isEmpty (region : Region) : Bool :=
  region.stop.value ≤ region.start.value

def containsRange (region : Region) (start stop : PhysicalAddress) : Bool :=
  region.start.value ≤ start.value && stop.value ≤ region.stop.value

def Covers (region : Region) (address : Nat) : Prop :=
  region.start.value ≤ address ∧ address < region.stop.value

instance (region : Region) (address : Nat) : Decidable (region.Covers address) :=
  inferInstanceAs (Decidable (_ ∧ _))

end Region

/-- Memory below this address is left to firmware; no allocator hands it out. -/
def lowMemoryEnd : PhysicalAddress :=
  ⟨0x100000, by decide⟩

/-- The first address that four-level paging cannot reach. -/
def physicalLimit : PhysicalAddress :=
  ⟨0x10000000000000, by decide⟩

end EarlyMemory
