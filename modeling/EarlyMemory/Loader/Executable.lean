import EarlyMemory.Operation
import EarlyMemory.Loader.BootTables

/-!
# Executable images

The kernel image is a 64-bit executable: a header, a table of program headers,
and the bytes of its segments. `Executable` is a view of the image's bytes,
wherever they stand. Headers are decoded from the view each time they are
asked for, and every decoded segment is checked against the image's size.
-/

namespace EarlyMemory

/-- The bytes of an image; `aligned` tells whether they start at a multiple of
eight. -/
structure Executable where
  size : Nat
  aligned : Bool
  byteAt : Nat → UInt8

namespace Executable

inductive Defect where
  | shortIdentification
  | noMagic
  | invalidClass
  | shortHeader
  | tableOutOfBounds
  | noProgramHeaders
deriving DecidableEq

def Defect.message : Defect → String
  | .shortIdentification => "File is shorter than the first ELF header part"
  | .noMagic => "Did not find ELF magic number"
  | .invalidClass => "Invalid ELF class"
  | .shortHeader => "File is shorter than ELF headers"
  | .tableOutOfBounds => "program header table out of bounds"
  | .noProgramHeaders => "There are no program headers in this file"

inductive Refusal where
  | misaligned
  | invalid (defect : Defect)
  | unsupportedFormat
  | noSegments
  | segmentOutOfBounds (address : VirtualAddress)
  | entryOutsideImage (entry : VirtualAddress)
  | backing (cause : BootTables.Refusal)
deriving DecidableEq

def Refusal.message : Refusal → String
  | .misaligned => "kernel image is not 8-byte aligned"
  | .invalid defect => s!"kernel image is not a valid ELF file: {defect.message}"
  | .unsupportedFormat => "kernel image is not a little-endian x86-64 ELF64 executable"
  | .noSegments => "kernel image has no loadable segments"
  | .segmentOutOfBounds address =>
      s!"segment at {address.text} does not fit the image file or the address space"
  | .entryOutsideImage entry =>
      s!"entry point {entry.text} is not inside an executable segment"
  | .backing cause => cause.message

/-! ## Fields -/

def load (image : Executable) (offset count : Nat) : List UInt8 :=
  (List.range count).map fun index => image.byteAt (offset + index)

def slice (image : Executable) (offset count : Nat) : Except Fault (List UInt8) := do
  let stop ← Word.add offset count
  if stop ≤ image.size then
    return image.load offset count
  else
    .error .violation

def number (image : Executable) (offset width : Nat) : Nat :=
  LittleEndian.value (image.load offset width)

inductive WordClass where
  | bits32
  | bits64
deriving DecidableEq

/-- The size of the part of the header that tells how to read the rest. -/
def identificationBytes : Nat :=
  16

def WordClass.headerBytes : WordClass → Nat
  | .bits32 => 52
  | .bits64 => 64

def wordClass? (image : Executable) : Option WordClass :=
  match image.number 4 1 with
  | 1 => some .bits32
  | 2 => some .bits64
  | _ => none

def entry (image : Executable) : VirtualAddress :=
  .ofNat (image.number 24 8)

def tableOffset (image : Executable) : Nat :=
  image.number 32 8

def tableEntryBytes (image : Executable) : Nat :=
  image.number 54 2

def tableLength (image : Executable) : Nat :=
  image.number 56 2

/-! ## The header -/

def magic : List UInt8 :=
  [0x7F, 0x45, 0x4C, 0x46]

/-- Little-endian, for this processor, and linked at fixed addresses. -/
def isSupported (image : Executable) : Bool :=
  image.wordClass? == some .bits64 && image.number 5 1 == 1 &&
    image.number 18 2 == 62 && image.number 16 2 == 2

def WordClass.programHeaderBytes : WordClass → Nat
  | .bits32 => 32
  | .bits64 => 56

def tableIsInside (image : Executable) : Bool :=
  image.tableEntryBytes == WordClass.programHeaderBytes .bits64 &&
    image.tableOffset % 8 == 0 &&
    image.tableLength * image.tableEntryBytes + image.tableOffset < 1 <<< 64 &&
    image.tableLength * image.tableEntryBytes + image.tableOffset ≤ image.size

def refusal? (image : Executable) : Option Refusal :=
  if !image.aligned then
    some .misaligned
  else if image.size < identificationBytes then
    some (.invalid .shortIdentification)
  else if image.load 0 4 ≠ magic then
    some (.invalid .noMagic)
  else
    match image.wordClass? with
    | none => some (.invalid .invalidClass)
    | some wordClass =>
        if image.size < wordClass.headerBytes then
          some (.invalid .shortHeader)
        else if !image.isSupported then
          some .unsupportedFormat
        else if !image.tableIsInside then
          some (.invalid .tableOutOfBounds)
        else
          none

/-! ## Program headers -/

structure ProgramHeader where
  kind : Nat
  flags : Nat
  offset : Nat
  address : Nat
  fileSize : Nat
  memorySize : Nat
deriving DecidableEq

namespace ProgramHeader

def decode (image : Executable) (start : Nat) : WordClass → ProgramHeader
  | .bits32 =>
      ⟨image.number start 4, image.number (start + 24) 4, image.number (start + 4) 4,
        image.number (start + 8) 4, image.number (start + 16) 4,
        image.number (start + 20) 4⟩
  | .bits64 =>
      ⟨image.number start 4, image.number (start + 4) 4, image.number (start + 8) 8,
        image.number (start + 16) 8, image.number (start + 32) 8,
        image.number (start + 40) 8⟩

def isLoadable (header : ProgramHeader) : Bool :=
  header.kind == 1 && header.memorySize != 0

def isWritable (header : ProgramHeader) : Bool :=
  header.flags.testBit 1

def isExecutable (header : ProgramHeader) : Bool :=
  header.flags.testBit 0

end ProgramHeader

section

variable {σ : Type}

open Operation (refuse check)

/-- The program header with an index. An image can change after it was checked,
so the bounds of the table are checked again. -/
def programHeader (image : Executable) (index : Nat) : Operation σ Refusal ProgramHeader := do
  let entryBytes := image.tableEntryBytes
  if index < image.tableLength ∧ 0 < image.tableOffset ∧ 0 < entryBytes then
    let start ← check (Word.add image.tableOffset (index * entryBytes))
    let stop ← check (Word.add start entryBytes)
    match image.wordClass? with
    | none => check (.error .violation)
    | some wordClass =>
        let alignment := match wordClass with
          | .bits32 => 4
          | .bits64 => 8
        if stop ≤ image.size ∧ wordClass.programHeaderBytes ≤ entryBytes ∧
            start % alignment = 0 then
          return .decode image start wordClass
        else
          check (.error .violation)
  else
    refuse (.invalid .noProgramHeaders)

end

/-! ## Segments -/

/-- A loadable part of an image. Its file bytes lie within the image and its
memory within the address space. -/
structure Segment where
  address : VirtualAddress
  fileOffset : Nat
  fileSize : Nat
  memorySize : Nat
  rights : Rights
deriving DecidableEq

namespace Segment

/-- The segment of a program header; `none` if it fits neither the image nor
the address space. -/
def ofHeader? (header : ProgramHeader) (imageSize : Nat) : Option Segment :=
  if header.offset + header.fileSize ≤ imageSize ∧ header.offset + header.fileSize < 1 <<< 64 ∧
      header.fileSize ≤ header.memorySize ∧
      header.address + header.memorySize < 1 <<< 64 then
    some ⟨.ofNat header.address, header.offset, header.fileSize, header.memorySize,
      ⟨true, header.isWritable, header.isExecutable⟩⟩
  else
    none

def stop (segment : Segment) : Except Fault VirtualAddress :=
  segment.address.add segment.memorySize

def pages (segment : Segment) : Nat :=
  PageSize.small.pagesFor (segment.address.offset .small + segment.memorySize)

/-- The number of pages, with the size from the start of the first one as a word. -/
def pageCount (segment : Segment) : Except Fault Nat := do
  let bytes ← Word.add (segment.address.offset .small) segment.memorySize
  return PageSize.small.pagesFor bytes

/-- The file bytes must lie in the pages that back the segment. -/
def requireInside (segment : Segment) (bytes : Nat) : Except Fault Unit :=
  if segment.address.offset .small + segment.fileSize ≤ bytes then
    .ok ()
  else
    .error .violation

def contains (segment : Segment) (address : VirtualAddress) : Bool :=
  segment.address.value ≤ address.value &&
    address.value < segment.address.value + segment.memorySize

end Segment

section

variable {σ : Type}

open Operation (refuse check)

def segmentAt (image : Executable) (index : Nat) : Operation σ Refusal (Option Segment) := do
  let header ← image.programHeader index
  if header.isLoadable then
    match Segment.ofHeader? header image.size with
    | some segment => return some segment
    | none => refuse (.segmentOutOfBounds (.ofNat header.address))
  else
    return none

def segmentsFrom (image : Executable) (index : Nat) : Nat → Operation σ Refusal (List Segment)
  | 0 => return []
  | remaining + 1 => do
      let first ← image.segmentAt index
      let rest ← image.segmentsFrom (index + 1) remaining
      return first.toList ++ rest

def segments (image : Executable) : Operation σ Refusal (List Segment) :=
  image.segmentsFrom 0 image.tableLength

end

end Executable

end EarlyMemory
