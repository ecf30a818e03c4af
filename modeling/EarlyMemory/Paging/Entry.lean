import EarlyMemory.Fault
import EarlyMemory.Machine.BitField
import EarlyMemory.Paging.Rights

/-!
# Page entries

One 64-bit entry layout serves all four levels: ten flags, the number of the
frame the entry points at, and two fields left to the operating system. The
fields cover the word without overlap.
-/

namespace EarlyMemory

structure PageEntry where
  bits : BitVec 64
deriving DecidableEq

namespace PageEntry

/-! ## Fields -/

inductive Flag where
  | present
  | writable
  | userAccess
  | writeThrough
  | cacheDisabled
  | accessed
  | dirty
  | large
  | global
  | noExecute
deriving DecidableEq

def Flag.field : Flag → BitField 1
  | .present => ⟨0⟩
  | .writable => ⟨1⟩
  | .userAccess => ⟨2⟩
  | .writeThrough => ⟨3⟩
  | .cacheDisabled => ⟨4⟩
  | .accessed => ⟨5⟩
  | .dirty => ⟨6⟩
  | .large => ⟨7⟩
  | .global => ⟨8⟩
  | .noExecute => ⟨63⟩

def osLowField : BitField 3 :=
  ⟨9⟩

def frameField : BitField 40 :=
  ⟨12⟩

def osHighField : BitField 11 :=
  ⟨52⟩

def flag (entry : PageEntry) (flag : Flag) : Bool :=
  flag.field.readFlag entry.bits

def withFlag (entry : PageEntry) (flag : Flag) (value : Bool) : PageEntry :=
  ⟨flag.field.writeFlag entry.bits value⟩

def osLow (entry : PageEntry) : BitVec 3 :=
  osLowField.read entry.bits

def withOsLow (entry : PageEntry) (value : BitVec 3) : PageEntry :=
  ⟨osLowField.write entry.bits value⟩

def osHigh (entry : PageEntry) : BitVec 11 :=
  osHighField.read entry.bits

def withOsHigh (entry : PageEntry) (value : BitVec 11) : PageEntry :=
  ⟨osHighField.write entry.bits value⟩

/-- Whether the entry is valid; without this flag the rest means nothing. -/
def present (entry : PageEntry) : Bool :=
  entry.flag .present

def frame (entry : PageEntry) : Frame :=
  ⟨(frameField.read entry.bits).toNat, by
    have bound := (frameField.read entry.bits).isLt
    simp only [PageSize.count]
    omega⟩

/-- Points the entry at a frame; only the low 40 bits of its number are kept. -/
def withFrame (entry : PageEntry) (frame : Frame) : PageEntry :=
  ⟨frameField.write entry.bits (BitVec.ofNat 40 frame.number)⟩

def frameMask : BitVec 64 :=
  (withFrame ⟨0⟩ ⟨1 <<< 40 - 1, by decide⟩).bits

example : frameMask = 0x000F_FFFF_FFFF_F000#64 := by decide

/-! ## Entries of each kind -/

def zero : PageEntry :=
  ⟨0⟩

/-- Links to the next table; the effective rights are decided at the leaf. -/
def table (frame : Frame) : PageEntry :=
  ((zero.withFlag .present true).withFlag .writable true).withFrame frame

/-- Maps one page, writable and executable only on request. -/
def leaf (frame : Frame) (rights : Rights) : PageEntry :=
  (((zero.withFlag .present true).withFlag .writable rights.write).withFlag
    .noExecute (!rights.execute)).withFrame frame

/-- Points a root table at itself, never executable. -/
def selfReference (frame : Frame) : PageEntry :=
  (((zero.withFlag .present true).withFlag .writable true).withFlag
    .noExecute true).withFrame frame

def rights (entry : PageEntry) : Rights :=
  ⟨true, entry.flag .writable, !entry.flag .noExecute⟩

example : (table ⟨0x101, by decide⟩).bits = 0x101003#64 := by decide
example : (leaf ⟨0x200, by decide⟩ .readWrite).bits = 0x8000000000200003#64 := by decide

end PageEntry

end EarlyMemory
