/-!
# Trace records

Every part of the system reports what it does in records with a severity, the
part's label and a message. A filter passes the records at or above a severity.
-/

namespace EarlyMemory

inductive Severity where
  | error
  | warn
  | info
  | debug
  | trace
deriving DecidableEq

namespace Severity

def all : List Severity :=
  [.error, .warn, .info, .debug, .trace]

/-- Lower ranks are more severe. -/
def rank : Severity → Nat
  | .error => 1
  | .warn => 2
  | .info => 3
  | .debug => 4
  | .trace => 5

def label : Severity → String
  | .error => "ERROR"
  | .warn => "WARN"
  | .info => "INFO"
  | .debug => "DEBUG"
  | .trace => "TRACE"

end Severity

inductive Component where
  | regionTable
  | addressSpace
  | frameManager
  | processor
  | handoff
  | image
  | loader
  | memoryMap
  | bootInformation
  | bootTables
  | loaderTrace
  | takeover
  | kernelTrace
deriving DecidableEq

def Component.label : Component → String
  | .regionTable => "bootmem::allocator"
  | .addressSpace => "kernel_vmem::address_space"
  | .frameManager => "kernel_alloc::manager"
  | .processor => "multiboot_loader::cpu"
  | .handoff => "multiboot_loader::handoff"
  | .image => "multiboot_loader::kernel_image"
  | .loader => "multiboot_loader::loader"
  | .memoryMap => "multiboot_loader::memory_map"
  | .bootInformation => "multiboot_loader::multiboot"
  | .bootTables => "multiboot_loader::pager"
  | .loaderTrace => "multiboot_loader::tracing"
  | .takeover => "kernel::init"
  | .kernelTrace => "kernel::tracing"

structure Record where
  severity : Severity
  target : String
  message : String
deriving DecidableEq

namespace Record

def text (record : Record) : String :=
  s!"[{record.severity.label}] {record.target}: {record.message}"

end Record

/-- What stands outside the machine's memory. Its address differs from run to
run, so records name it instead. -/
inductive HostObject where
  | bootInformation
  | bootInfo
  | regionTable
deriving DecidableEq

def HostObject.text : HostObject → String
  | .bootInformation => "<info>"
  | .bootInfo => "<boot_info>"
  | .regionTable => "<regions>"

/-- The least severe records a filter passes; `none` passes nothing. -/
abbrev SeverityFilter := Option Severity

def SeverityFilter.passes (filter : SeverityFilter) (severity : Severity) : Bool :=
  match filter with
  | none => false
  | some least => severity.rank ≤ least.rank

end EarlyMemory
