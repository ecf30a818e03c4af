import EarlyMemory.Trace.Record

/-!
# The debug console

Records go out byte by byte through an I/O port, one record per line. A console
drops what its filter does not pass. Text can also be written past the filter;
it then goes to the default port, whatever the console's own port is.
-/

namespace EarlyMemory

inductive DebugPort where
  /-- The emulator's debug port. -/
  | emulator
  /-- The first serial port. -/
  | serial
  | other (number : Nat)
deriving DecidableEq

def DebugPort.number : DebugPort → Nat
  | .emulator => 0x402
  | .serial => 0x3F8
  | .other number => number

structure DebugConsole where
  filter : SeverityFilter
  port : DebugPort
deriving DecidableEq

namespace DebugConsole

structure Written where
  port : Nat
  text : String
deriving DecidableEq

def create (filter : SeverityFilter) : DebugConsole :=
  ⟨filter, .emulator⟩

def withPort (console : DebugConsole) (port : DebugPort) : DebugConsole :=
  { console with port := port }

def write (port : DebugPort) (text : String) : Written :=
  ⟨port.number, text⟩

/-- The severities that the console lets through, most severe first. -/
def enabled (console : DebugConsole) : List Severity :=
  Severity.all.filter console.filter.passes

def log (console : DebugConsole) (record : Record) : List Written :=
  if console.filter.passes record.severity then
    [write console.port s!"{record.text}\n"]
  else
    []

def trace (text : String) : List Written :=
  [write .emulator text]

/-- Puts text in front of what was written later; a port's text stays together
until another port is used. -/
def Written.before (first : Written) : List Written → List Written
  | [] => [first]
  | next :: rest =>
      if first.port = next.port then
        ⟨first.port, first.text ++ next.text⟩ :: rest
      else
        first :: next :: rest

/-- What a reader of the ports sees; empty text leaves no trace. -/
def joined : List Written → List Written
  | [] => []
  | first :: rest =>
      if first.text.isEmpty then joined rest else first.before (joined rest)

end DebugConsole

end EarlyMemory
