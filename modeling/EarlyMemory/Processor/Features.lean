import EarlyMemory.Operation
import EarlyMemory.Machine.BitField

/-!
# Processor features

The hierarchy needs two features of the processor: long mode, and pages that
must not be executed. A processor without the extended leaf has neither.
-/

namespace EarlyMemory

structure ExtendedFeatures where
  bits : BitVec 32
deriving DecidableEq

namespace ExtendedFeatures

inductive Feature where
  | systemCall
  | noExecute
  | hugePages
  | timestampAndProcessor
  | longMode
deriving DecidableEq

def Feature.field : Feature → BitField 1
  | .systemCall => ⟨11⟩
  | .noExecute => ⟨20⟩
  | .hugePages => ⟨26⟩
  | .timestampAndProcessor => ⟨27⟩
  | .longMode => ⟨29⟩

def has (features : ExtendedFeatures) (feature : Feature) : Bool :=
  feature.field.readFlag features.bits

def maximumLeaf : Nat :=
  0x80000000

def leaf : Nat :=
  0x80000001

def ofLeaves? (highest : Nat) (bits : BitVec 32) : Option ExtendedFeatures :=
  if highest < leaf then none else some ⟨bits⟩

inductive Missing where
  | longMode
  | noExecute
deriving DecidableEq

def Missing.message : Missing → String
  | .longMode => "the CPU does not support long mode"
  | .noExecute => "the CPU does not support no-execute pages"

/-- Refuses a processor that lacks what the hierarchy depends on. -/
def require {σ : Type} (features : Option ExtendedFeatures) : Operation σ Missing Unit :=
  match features.filter (·.has .longMode) with
  | none => do
      Operation.report .error .processor "CPU does not support long mode"
      Operation.refuse .longMode
  | some features =>
      if features.has .noExecute then
        Operation.report .info .processor "CPU supports long mode and NX"
      else do
        Operation.report .error .processor "CPU does not support the execute-disable bit"
        Operation.refuse .noExecute

end ExtendedFeatures

end EarlyMemory
