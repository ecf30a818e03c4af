import EarlyMemory.Machine.BitField

/-!
# Control registers

Two registers govern paging: CR3 names the active root table and how the
processor caches it, EFER turns on long mode and no-execute pages.
-/

namespace EarlyMemory

structure Cr3 where
  bits : BitVec 64
deriving DecidableEq

namespace Cr3

def writeThroughField : BitField 1 :=
  ⟨3⟩

def cacheDisabledField : BitField 1 :=
  ⟨4⟩

def rootField : BitField 40 :=
  ⟨12⟩

def writeThrough (register : Cr3) : Bool :=
  writeThroughField.readFlag register.bits

def withWriteThrough (register : Cr3) (value : Bool) : Cr3 :=
  ⟨writeThroughField.writeFlag register.bits value⟩

def cacheDisabled (register : Cr3) : Bool :=
  cacheDisabledField.readFlag register.bits

def withCacheDisabled (register : Cr3) (value : Bool) : Cr3 :=
  ⟨cacheDisabledField.writeFlag register.bits value⟩

def root (register : Cr3) : PhysicalAddress :=
  ⟨(rootField.read register.bits).toNat * 4096, by
    have bound := (rootField.read register.bits).isLt
    omega⟩

/-- The value that activates the root table in the page of an address; the
page's number has to fit the field. -/
def ofRoot (address : PhysicalAddress) : Except Fault Cr3 := do
  let number ← rootField.fit (address.value / 4096)
  return ⟨rootField.write 0 number⟩

end Cr3

structure Efer where
  bits : BitVec 64
deriving DecidableEq

namespace Efer

inductive Flag where
  | systemCall
  | longModeEnable
  | longModeActive
  | noExecuteEnable
deriving DecidableEq

def Flag.field : Flag → BitField 1
  | .systemCall => ⟨0⟩
  | .longModeEnable => ⟨8⟩
  | .longModeActive => ⟨10⟩
  | .noExecuteEnable => ⟨11⟩

def flag (register : Efer) (flag : Flag) : Bool :=
  flag.field.readFlag register.bits

def withFlag (register : Efer) (flag : Flag) (value : Bool) : Efer :=
  ⟨flag.field.writeFlag register.bits value⟩

/-- The bits that have no name here and are kept as they are read. -/
def upperField : BitField 52 :=
  ⟨12⟩

def upper (register : Efer) : BitVec 52 :=
  upperField.read register.bits

def withUpper (register : Efer) (value : BitVec 52) : Efer :=
  ⟨upperField.write register.bits value⟩

def index : Nat :=
  0xC0000080

end Efer

end EarlyMemory
