import EarlyMemory.Address.Basic
import EarlyMemory.Text.Blank
import EarlyMemory.Text.Quoted

/-!
# Boot modules

A module is a range of memory that was filled before the loader started, with a
command line. The kernel image is the module whose command line names it in its
first word; the rest of the line is meant for the kernel.
-/

namespace EarlyMemory

structure BootModule where
  start : PhysicalAddress
  stop : PhysicalAddress
  commandLine : String
deriving DecidableEq

namespace BootModule

def kernelName : String :=
  "kernel-x86_64.bin"

def isKernel (bootModule : BootModule) : Bool :=
  Text.firstWord bootModule.commandLine.toList == kernelName.toList

/-- The length in bytes; none if the module ends before it starts. -/
def length (bootModule : BootModule) : Nat :=
  bootModule.stop.value - bootModule.start.value

def isEmpty (bootModule : BootModule) : Bool :=
  bootModule.length == 0

end BootModule

end EarlyMemory
