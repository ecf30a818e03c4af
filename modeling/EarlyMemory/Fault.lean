import EarlyMemory.Address.Basic

/-!
# Faults

A fault ends a call without an answer: a 64-bit operation would have left its
range, an access missed the memory it was meant for, or a check failed that a
caller must never let fail. Faults are kept apart from the refusals that a call
documents.
-/

namespace EarlyMemory

inductive Fault where
  | additionOverflow
  | subtractionOverflow
  | multiplicationOverflow
  | outsideMemory (address base stop : PhysicalAddress)
  | pageFault (address : VirtualAddress)
  | misalignedMemory
  /-- A failed check that has no text of its own. -/
  | violation
deriving DecidableEq

def Fault.message : Fault → Option String
  | .additionOverflow => some "attempt to add with overflow"
  | .subtractionOverflow => some "attempt to subtract with overflow"
  | .multiplicationOverflow => some "attempt to multiply with overflow"
  | .outsideMemory address base stop =>
      some s!"{address.text} is outside simulated memory [{base.text}, {stop.text})"
  | .pageFault address => some s!"page fault: {address.text} is not mapped"
  | .misalignedMemory => some "simulated memory must be page aligned"
  | .violation => none

/-! ## Checked 64-bit arithmetic -/

namespace Word

def add (left right : Nat) : Except Fault Nat :=
  if left + right < 1 <<< 64 then .ok (left + right) else .error .additionOverflow

def subtract (left right : Nat) : Except Fault Nat :=
  if right ≤ left then .ok (left - right) else .error .subtractionOverflow

def multiply (left right : Nat) : Except Fault Nat :=
  if left * right < 1 <<< 64 then .ok (left * right) else .error .multiplicationOverflow

def sum (words : List Nat) : Except Fault Nat :=
  words.foldlM add 0

end Word

namespace Address

variable {space : Space}

def add (address : Address space) (distance : Nat) : Except Fault (Address space) :=
  if fits : address.value + distance < 1 <<< 64 then
    .ok ⟨address.value + distance, fits⟩
  else
    .error .additionOverflow

/-- The number of bytes from `earlier` up to `later`. -/
def since (later earlier : Address space) : Except Fault Nat :=
  Word.subtract later.value earlier.value

end Address

namespace Page

variable {space : Space} {size : PageSize}

def advance (page : Page space size) (count : Nat) : Except Fault (Page space size) :=
  if count * size.bytes < 1 <<< 64 then
    if fits : page.number + count < size.count then
      .ok ⟨page.number + count, fits⟩
    else
      .error .additionOverflow
  else
    .error .multiplicationOverflow

def since (later earlier : Page space size) : Except Fault Nat :=
  Word.subtract later.number earlier.number

end Page

def PageSize.pagesFor (size : PageSize) (bytes : Nat) : Nat :=
  (bytes + (size.bytes - 1)) / size.bytes

end EarlyMemory
