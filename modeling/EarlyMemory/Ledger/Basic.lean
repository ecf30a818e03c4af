import EarlyMemory.Ledger.Layout
import EarlyMemory.Machine.Memory

/-!
# The ledger

The ledger is the frame manager's record of memory: for each run a descriptor,
and for each available run a bitmap of busy pages. It stands in machine memory,
bitmaps first, and is read from there each time, so what overwrites that memory
changes the record.
-/

namespace EarlyMemory

/-- A run as the ledger records it; its bitmap is a range of the bytes that all
bitmaps share. -/
structure Descriptor where
  base : PhysicalAddress
  pages : Nat
  kind : KernelKind
  bitmapOffset : Nat
  bitmapBytes : Nat
deriving DecidableEq

namespace Descriptor

def stop (descriptor : Descriptor) : Except Fault PhysicalAddress := do
  let bytes ← Word.multiply descriptor.pages PageSize.small.bytes
  descriptor.base.add bytes

def contains (descriptor : Descriptor) (address : PhysicalAddress) : Except Fault Bool := do
  if descriptor.base.value ≤ address.value then
    let stop ← descriptor.stop
    return address.value < stop.value
  else
    return false

def bitmapStop (descriptor : Descriptor) : Except Fault Nat :=
  Word.add descriptor.bitmapOffset descriptor.bitmapBytes

def encode (descriptor : Descriptor) : List UInt8 :=
  LittleEndian.bytes 8 descriptor.base.value ++
    LittleEndian.bytes 8 descriptor.pages ++
    LittleEndian.bytes 8 descriptor.kind.code ++
    LittleEndian.bytes 8 descriptor.bitmapOffset ++
    LittleEndian.bytes 8 descriptor.bitmapBytes

theorem length_encode (descriptor : Descriptor) :
    descriptor.encode.length = Ledger.descriptorBytes := by
  simp [encode, Ledger.descriptorBytes]

def decode (bytes : List UInt8) : Descriptor where
  base := .ofNat (LittleEndian.field bytes 0 8)
  pages := LittleEndian.field bytes 8 8
  kind := KernelKind.ofCode (LittleEndian.field bytes 16 4)
  bitmapOffset := LittleEndian.field bytes 24 8
  bitmapBytes := LittleEndian.field bytes 32 8

end Descriptor

structure Ledger where
  start : PhysicalAddress
  bitmapBytes : Nat
  descriptorsOffset : Nat
  regionCount : Nat
deriving DecidableEq

namespace Ledger

def empty : Ledger :=
  ⟨⟨0, by decide⟩, 0, 0, 0⟩

/-! ## Descriptors -/

def descriptorAddress (ledger : Ledger) (index : Nat) : Nat :=
  ledger.start.value + ledger.descriptorsOffset + index * descriptorBytes

def descriptor (ledger : Ledger) (memory : Memory) (index : Nat) : Descriptor :=
  .decode (memory.load (ledger.descriptorAddress index) descriptorBytes)

/-- The recorded runs, lowest first. -/
def descriptors (ledger : Ledger) (memory : Memory) : List Descriptor :=
  (List.range ledger.regionCount).map (ledger.descriptor memory)

def setDescriptor (ledger : Ledger) (memory : Memory) (index : Nat)
    (descriptor : Descriptor) : Memory :=
  memory.store (ledger.descriptorAddress index) descriptor.encode

/-- Records runs from an index on; their bitmaps follow each other from an
offset on. -/
def recordRuns (ledger : Ledger) (memory : Memory) (index offset : Nat) :
    List Run → Except Fault Memory
  | [] => .ok memory
  | run :: rest => do
      let bytes ← bitmapBytesOf run
      let pages ← run.pages
      let next ← Word.add offset bytes
      let recorded := ledger.setDescriptor memory index
        ⟨run.base, pages, run.kind, offset, bytes⟩
      ledger.recordRuns recorded (index + 1) next rest

/-! ## Bitmaps -/

def bitmapAddress (ledger : Ledger) (descriptor : Descriptor) : Nat :=
  ledger.start.value + descriptor.bitmapOffset

/-- The bitmap of a run, which has to lie within the shared bytes. -/
def bitmap (ledger : Ledger) (memory : Memory) (descriptor : Descriptor) :
    Except Fault Bitmap := do
  let stop ← descriptor.bitmapStop
  if stop ≤ ledger.bitmapBytes then
    let start := ledger.bitmapAddress descriptor
    return ⟨descriptor.bitmapBytes, fun index => memory.byteAt (start + index)⟩
  else
    .error .violation

def setBitmapByte (ledger : Ledger) (memory : Memory) (descriptor : Descriptor)
    (bit : Nat) (byte : UInt8) : Memory :=
  memory.setByte (ledger.bitmapAddress descriptor + bit / 8) byte

/-! ## Pages -/

inductive Place where
  | outside
  | unavailable
  | bit (descriptor : Descriptor) (index : Nat)
deriving DecidableEq

/-- A page belongs to the last run that starts at or below it, or to none. -/
def locate (ledger : Ledger) (memory : Memory) (page : Frame) : Except Fault Place := do
  let address := page.base
  let below := fun (descriptor : Descriptor) => descriptor.base.value ≤ address.value
  match (ledger.descriptors memory).reverse.find? below with
  | none => return .outside
  | some descriptor =>
      if !(← descriptor.contains address) then
        return .outside
      else if descriptor.kind ≠ .available then
        return .unavailable
      else
        let bytes ← address.since descriptor.base
        return .bit descriptor (bytes / PageSize.small.bytes)

/-- The pages of available runs that are not busy. -/
def freePageCount (ledger : Ledger) (memory : Memory) : Except Fault Nat := do
  let available := (ledger.descriptors memory).filter fun descriptor =>
    descriptor.kind = .available
  let counts ← available.mapM fun descriptor => do
    let bitmap ← ledger.bitmap memory descriptor
    Word.subtract descriptor.pages bitmap.countSet
  Word.sum counts

end Ledger

end EarlyMemory
