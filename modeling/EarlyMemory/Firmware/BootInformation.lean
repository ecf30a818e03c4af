import EarlyMemory.Operation
import EarlyMemory.Firmware.BootModule
import EarlyMemory.Firmware.ReportedRange
import EarlyMemory.Machine.LittleEndian

/-!
# Boot information

Boot information is a run of tags behind an eight-byte header, closed by an end
tag; each tag starts at a multiple of eight bytes. Only the header and the end
tag are checked when it is opened. Tags are read one after another as they are
needed, so a tag that no reading reaches does no harm however broken it is.
-/

namespace EarlyMemory

structure BootInformation where
  /-- What follows the header. -/
  payload : List UInt8
deriving DecidableEq

namespace BootInformation

def magic : Nat :=
  0x36D76289

inductive Refusal where
  | badMagic (magic : Nat)
  | malformed
deriving DecidableEq

def Refusal.message : Refusal → String
  | .badMagic magic => s!"unexpected bootloader magic {Hex.lower 1 magic}"
  | .malformed => "boot information is malformed"

/-! ## Opening -/

inductive Defect where
  | missingPadding
  | noEndTag
deriving DecidableEq

def Defect.label : Defect → String
  | .missingPadding => "MissingPadding"
  | .noEndTag => "NoEndTag"

def declaredSize (bytes : List UInt8) : Nat :=
  LittleEndian.field bytes 0 4

def endTag : List UInt8 :=
  LittleEndian.bytes 4 0 ++ LittleEndian.bytes 4 8

/-- The first defect of the declared bytes; missing bytes count as zero. -/
def defect? (declared : List UInt8) : Option Defect :=
  if declared.length % 8 ≠ 0 then
    some .missingPadding
  else if declared.drop (declared.length - 8) ≠ endTag then
    some .noEndTag
  else
    none

def load {σ : Type} (bytes : List UInt8) : Operation σ Refusal BootInformation := do
  let size := declaredSize bytes
  let payloadSize ← Operation.check (Word.subtract size 8)
  let declared := (bytes ++ List.replicate (size - bytes.length) 0).take size
  match defect? declared with
  | some defect =>
      Operation.report .error .bootInformation
        (s!"Cannot read boot information at {HostObject.bootInformation.text}: " ++
          defect.label)
      Operation.refuse .malformed
  | none => return ⟨(declared.drop 8).take payloadSize⟩

def totalSize (information : BootInformation) : Nat :=
  information.payload.length + 8

/-! ## Tags -/

structure Tag where
  kind : Nat
  /-- What follows the tag's own header. -/
  body : List UInt8
deriving DecidableEq

def Tag.moduleKind : Nat :=
  3

def Tag.memoryMapKind : Nat :=
  6

/-- The tags in the order they stand in. The first one that is shorter than its
header or reaches past the end is a fault, and nothing follows it. -/
def tagsFrom (bytes : List UInt8) : List (Except Fault Tag) :=
  if bytes.isEmpty then
    []
  else
    let size := LittleEndian.field bytes 4 4
    let padded := (size + 7) / 8 * 8
    if size < 8 ∨ (bytes.drop (padded - 1)).isEmpty then
      [.error .violation]
    else
      .ok ⟨LittleEndian.field bytes 0 4, (bytes.take size).drop 8⟩ ::
        tagsFrom (bytes.drop padded)
termination_by bytes.length
decreasing_by
  have nonempty : bytes.length ≠ 0 := by simp_all
  simp only [List.length_drop]
  omega

def tags (information : BootInformation) : List (Except Fault Tag) :=
  tagsFrom information.payload

/-! ## The memory map -/

/-- The entries that the firmware reported, not taken apart yet. -/
structure MemoryMapTag where
  entrySize : Nat
  entries : List UInt8
deriving DecidableEq

namespace MemoryMapTag

def entryBytes : Nat :=
  24

/-- A tag whose body has to hold whole entries. -/
def ofTag (tag : Tag) : Except Fault MemoryMapTag :=
  if tag.body.length < 8 ∨ (tag.body.length - 8) % entryBytes ≠ 0 then
    .error .violation
  else
    .ok ⟨LittleEndian.field tag.body 0 4, tag.body.drop 8⟩

def rangeOf (entry : List UInt8) : ReportedRange :=
  ⟨.ofNat (LittleEndian.field entry 0 8), LittleEndian.field entry 8 8,
    LittleEndian.field entry 16 4⟩

def rangesOf (bytes : List UInt8) : Nat → List ReportedRange
  | 0 => []
  | remaining + 1 => rangeOf bytes :: rangesOf (bytes.drop entryBytes) remaining

def ranges (tag : MemoryMapTag) : Except Fault (List ReportedRange) :=
  if tag.entrySize = entryBytes then
    .ok (rangesOf tag.entries (tag.entries.length / entryBytes))
  else
    .error .violation

end MemoryMapTag

def firstMemoryMap : List (Except Fault Tag) → Except Fault (Option MemoryMapTag)
  | [] => .ok none
  | .error cause :: _ => .error cause
  | .ok tag :: rest =>
      if tag.kind = Tag.memoryMapKind then
        some <$> MemoryMapTag.ofTag tag
      else
        firstMemoryMap rest

def memoryMap? (information : BootInformation) : Except Fault (Option MemoryMapTag) :=
  firstMemoryMap information.tags

def hasMemoryMap (information : BootInformation) : Except Fault Bool := do
  let found ← information.memoryMap?
  return found.isSome

def ranges (information : BootInformation) : Except Fault (List ReportedRange) := do
  match ← information.memoryMap? with
  | none => return []
  | some tag => tag.ranges

/-! ## Modules -/

/-- Text up to the first zero byte; empty if there is none or it is not text. -/
def textUpToZero (bytes : List UInt8) : String :=
  if bytes.contains 0 then
    (String.fromUTF8? ⟨(bytes.takeWhile (· != 0)).toArray⟩).getD ""
  else
    ""

def moduleOfTag (tag : Tag) : Except Fault BootModule :=
  if tag.body.length < 8 then
    .error .violation
  else
    .ok ⟨.ofNat (LittleEndian.field tag.body 0 4), .ofNat (LittleEndian.field tag.body 4 4),
      textUpToZero (tag.body.drop 8)⟩

def moduleTags (tags : List (Except Fault Tag)) : List (Except Fault Tag) :=
  tags.filter fun
    | .ok tag => tag.kind = Tag.moduleKind
    | .error _ => true

/-- The modules in the order they are reported. A fault ends the reading. -/
def modules (information : BootInformation) : List (Except Fault BootModule) :=
  (moduleTags information.tags).map (· >>= moduleOfTag)

def firstKernel : List (Except Fault BootModule) → Except Fault (Option BootModule)
  | [] => .ok none
  | .error cause :: _ => .error cause
  | .ok bootModule :: rest =>
      if bootModule.isKernel then .ok (some bootModule) else firstKernel rest

def kernelModule? (information : BootInformation) : Except Fault (Option BootModule) :=
  firstKernel information.modules

end BootInformation

end EarlyMemory
