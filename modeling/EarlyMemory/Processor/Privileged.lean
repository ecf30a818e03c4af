import EarlyMemory.Operation
import EarlyMemory.Paging.TableAccess
import EarlyMemory.Processor.Registers

/-!
# Privileged instructions

What the kernel asks of the processor itself: reading and writing the control
registers, and dropping cached translations. Addresses are flushed in the order
they are listed.
-/

namespace EarlyMemory

structure Processor where
  efer : Efer
  cr3 : Cr3
  flushed : List VirtualAddress
deriving DecidableEq

namespace Processor

variable {ε : Type}

open Operation (state update check)

def loadEfer : Operation Processor ε Efer := do
  let processor ← state
  return processor.efer

def storeEfer (efer : Efer) : Operation Processor ε Unit :=
  update fun processor => { processor with efer := efer }

/-- Allows entries to forbid execution; all other bits stay. -/
def enableNoExecute : Operation Processor ε Unit := do
  let efer ← loadEfer
  storeEfer (efer.withFlag .noExecuteEnable true)

def loadCr3 : Operation Processor ε Cr3 := do
  let processor ← state
  return processor.cr3

def storeCr3 (cr3 : Cr3) : Operation Processor ε Unit :=
  update fun processor => { processor with cr3 := cr3 }

def activate (root : PhysicalAddress) : Operation Processor ε Unit := do
  let cr3 ← check (Cr3.ofRoot root)
  storeCr3 cr3

def flush (addresses : List VirtualAddress) : Operation Processor ε Unit :=
  update fun processor => { processor with flushed := processor.flushed ++ addresses }

end Processor

end EarlyMemory
