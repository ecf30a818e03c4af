import EarlyMemory.Loader.Executable
import EarlyMemory.Loader.Segment

/-!
# Placing the kernel image

The whole image is checked before its first page is taken, so an image that is
rejected for its own faults leaves the region table as it was. Then each segment
gets pages of its own: they are cleared and the segment's file bytes are copied
in. Two segments in one page are refused by the mapping.
-/

namespace EarlyMemory.Loader

open Operation (refuse report check mapRefusal reportRefusal)
open Paged (changeMemory alter inspect)

/-- Where the bytes of an image stand. A window of memory shows what the memory
holds at the time it is read. -/
inductive ImageSource where
  /-- Bytes of their own, `shift` bytes past an aligned place. -/
  | buffer (bytes : ByteArray) (shift : Nat)
  | window (start : PhysicalAddress) (size : Nat)

def ImageSource.size : ImageSource → Nat
  | .buffer bytes _ => bytes.size
  | .window _ size => size

def ImageSource.view (source : ImageSource) (memory : Memory) : Executable :=
  match source with
  | .buffer bytes shift =>
      ⟨source.size, shift % 8 == 0, fun index =>
        if inside : index < bytes.size then bytes.get index inside else 0⟩
  | .window start _ =>
      ⟨source.size, start.value % 8 == 0, fun index => memory.byteAt (start.value + index)⟩

@[simp] theorem ImageSource.size_view (source : ImageSource) (memory : Memory) :
    (source.view memory).size = source.size := by
  cases source <;> rfl

structure KernelImage where
  entry : VirtualAddress
  /-- The first address past the highest segment. -/
  stop : VirtualAddress
  segments : Nat
deriving DecidableEq

variable {capacity : Nat} {sorting : Region.Sorting}

def view (source : ImageSource) :
    Operation (Paged (RegionTable capacity sorting)) Executable.Refusal Executable :=
  inspect fun memory => .ok (source.view memory)

def place (root : Frame) (source : ImageSource) (segment : Executable.Segment) :
    Operation (Paged (RegionTable capacity sorting)) Executable.Refusal Unit := do
  let base := segment.address.alignDown .small
  let pages ← check segment.pageCount
  let backing ← mapRefusal .backing (loadSegment root base pages segment.rights)
  let bytes ← check (Word.multiply pages PageSize.small.bytes)
  alter fun memory => memory.overwrite backing bytes 0
  check (segment.requireInside bytes)
  let image ← view source
  let content ← check (image.slice segment.fileOffset segment.fileSize)
  changeMemory fun memory =>
    memory.store (backing.value + segment.address.offset .small) content
  report .info .image
    (s!"  {segment.address.text} +{Hex.lower 1 segment.memorySize} " ++
      s!"({segment.rights.text}) at {backing.text}")

/-- Places the segments from an index on, reading each header anew. -/
def placeFrom (root : Frame) (source : ImageSource) (index : Nat) :
    Nat → Operation (Paged (RegionTable capacity sorting)) Executable.Refusal Unit
  | 0 => return ()
  | remaining + 1 => do
      let image ← view source
      match ← image.segmentAt index with
      | none => pure ()
      | some segment => place root source segment
      placeFrom root source (index + 1) remaining

def furthestStop : List Executable.Segment → Except Fault VirtualAddress
  | [] => return .ofNat 0
  | segment :: rest => do
      let stop ← segment.stop
      let below ← furthestStop rest
      return if below.value ≤ stop.value then stop else below

def examine (image : Executable) :
    Operation (Paged (RegionTable capacity sorting)) Executable.Refusal KernelImage :=
  match image.refusal? with
  | some cause => refuse cause
  | none => do
      let segments ← image.segments
      let stop ← check (furthestStop segments)
      if segments.isEmpty then
        refuse .noSegments
      else if !segments.any fun segment =>
          segment.rights.execute && segment.contains image.entry then
        refuse (.entryOutsideImage image.entry)
      else
        return ⟨image.entry, stop, segments.length⟩

def tryLoadImage (root : Frame) (source : ImageSource) :
    Operation (Paged (RegionTable capacity sorting)) Executable.Refusal KernelImage := do
  let image ← view source
  let kernel ← examine image
  placeFrom root source 0 image.tableLength
  report .info .image
    (s!"Kernel image loaded: {kernel.segments} segments, entry {kernel.entry.text}, " ++
      s!"end {kernel.stop.text}")
  return kernel

def loadImage (root : Frame) (source : ImageSource) :
    Operation (Paged (RegionTable capacity sorting)) Executable.Refusal KernelImage :=
  reportRefusal .error .image (fun cause => s!"Kernel image rejected: {cause.message}")
    (tryLoadImage root source)

end EarlyMemory.Loader
