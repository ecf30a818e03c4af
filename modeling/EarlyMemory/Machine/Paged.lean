import EarlyMemory.Operation
import EarlyMemory.Machine.Memory
import EarlyMemory.Region.Table

/-!
# A machine and its source of frames

Mapping works on a machine and on whoever hands out frames at that stage: the
region table, a pool set aside, or the kernel's frame manager. The machine is
its memory and the virtual addresses flushed so far.
-/

namespace EarlyMemory

structure Machine where
  memory : Memory
  /-- The addresses flushed so far, the latest first. -/
  history : List VirtualAddress

namespace Machine

/-- The addresses flushed so far, oldest first. -/
def flushed (machine : Machine) : List VirtualAddress :=
  machine.history.reverse

@[simp] theorem flushed_mk_reverse_append (memory : Memory)
    (addresses history : List VirtualAddress) :
    flushed ⟨memory, addresses.reverse ++ history⟩ = flushed ⟨memory, history⟩ ++ addresses := by
  simp [flushed]

end Machine

structure Paged (F : Type) where
  machine : Machine
  source : F

namespace Paged

variable {F ε α : Type}

open Operation (state check)

def memory (paged : Paged F) : Memory :=
  paged.machine.memory

@[inline] def changeMemory (change : Memory → Memory) : Operation (Paged F) ε Unit :=
  fun ⟨⟨memory, history⟩, source⟩ => ((.done (), ⟨⟨change memory, history⟩, source⟩), [])

@[inline] def flush (addresses : List VirtualAddress) : Operation (Paged F) ε Unit :=
  fun ⟨⟨memory, history⟩, source⟩ =>
    ((.done (), ⟨⟨memory, addresses.reverse ++ history⟩, source⟩), [])

@[inline] def inspect (read : Memory → Except Fault α) : Operation (Paged F) ε α :=
  fun paged =>
    match read paged.memory with
    | .ok value => ((.done value, paged), [])
    | .error cause => ((.fault cause, paged), [])

/-- A change of the memory that may fault; a fault leaves it as it was. -/
@[inline] def alter (change : Memory → Except Fault Memory) : Operation (Paged F) ε Unit :=
  fun ⟨⟨memory, history⟩, source⟩ =>
    match change memory with
    | .ok changed => ((.done (), ⟨⟨changed, history⟩, source⟩), [])
    | .error cause => ((.fault cause, ⟨⟨memory, history⟩, source⟩), [])

@[inline] def onSource (operation : Operation F ε α) : Operation (Paged F) ε α :=
  fun ⟨machine, source⟩ =>
    match operation source with
    | ((ending, source), made) => ((ending, ⟨machine, source⟩), made)

/-- An operation that leaves the first of two sources alone. -/
@[inline] def onSecond {G : Type} (operation : Operation (Paged G) ε α) :
    Operation (Paged (F × G)) ε α :=
  fun ⟨machine, (first, second)⟩ =>
    match operation ⟨machine, second⟩ with
    | ((ending, ⟨machine, second⟩), made) => ((ending, ⟨machine, (first, second)⟩), made)

/-- Adds a second source for the time of an operation; its rest is part of the
answer. -/
@[inline] def lending {G : Type} (second : G) (operation : Operation (Paged (F × G)) ε α) :
    Operation (Paged F) ε (α × G) :=
  fun ⟨machine, first⟩ =>
    match operation ⟨machine, (first, second)⟩ with
    | ((.done value, ⟨machine, (first, second)⟩), made) =>
        ((.done (value, second), ⟨machine, first⟩), made)
    | ((.refused cause, ⟨machine, (first, _)⟩), made) =>
        ((.refused cause, ⟨machine, first⟩), made)
    | ((.fault cause, ⟨machine, (first, _)⟩), made) =>
        ((.fault cause, ⟨machine, first⟩), made)

@[simp] theorem run_changeMemory (change : Memory → Memory) (paged : Paged F) :
    (changeMemory change : Operation (Paged F) ε Unit).run paged =
      (.done (), ⟨⟨change paged.machine.memory, paged.machine.history⟩, paged.source⟩) :=
  rfl

@[simp] theorem run_flush (addresses : List VirtualAddress) (paged : Paged F) :
    (flush addresses : Operation (Paged F) ε Unit).run paged =
      (.done (), ⟨⟨paged.machine.memory, addresses.reverse ++ paged.machine.history⟩,
        paged.source⟩) :=
  rfl

theorem run_inspect (read : Memory → Except Fault α) (paged : Paged F) :
    (inspect read : Operation (Paged F) ε α).run paged =
      match read paged.memory with
      | .ok value => (.done value, paged)
      | .error cause => (.fault cause, paged) := by
  cases answer : read paged.memory <;> simp only [inspect, Operation.run, answer]

theorem run_alter (change : Memory → Except Fault Memory) (paged : Paged F) :
    (alter change : Operation (Paged F) ε Unit).run paged =
      match change paged.memory with
      | .ok changed => (.done (), ⟨⟨changed, paged.machine.history⟩, paged.source⟩)
      | .error cause => (.fault cause, paged) := by
  rcases paged with ⟨⟨memory, history⟩, source⟩
  cases answer : change memory <;> simp only [alter, Operation.run, Paged.memory, answer]

theorem run_onSource (operation : Operation F ε α) (paged : Paged F) :
    (onSource operation).run paged =
      ((operation.run paged.source).1, ⟨paged.machine, (operation.run paged.source).2⟩) :=
  rfl

theorem run_onSecond {G : Type} (operation : Operation (Paged G) ε α) (machine : Machine)
    (first : F) (second : G) :
    (onSecond operation).run ⟨machine, (first, second)⟩ =
      ((operation.run ⟨machine, second⟩).1,
        ⟨(operation.run ⟨machine, second⟩).2.machine,
          (first, (operation.run ⟨machine, second⟩).2.source)⟩) :=
  rfl

theorem run_lending {G : Type} (second : G) (operation : Operation (Paged (F × G)) ε α)
    (paged : Paged F) :
    (lending second operation).run paged =
      match operation.run ⟨paged.machine, (paged.source, second)⟩ with
      | (.done value, ⟨machine, (first, second)⟩) =>
          (.done (value, second), ⟨machine, first⟩)
      | (.refused cause, ⟨machine, (first, _)⟩) => (.refused cause, ⟨machine, first⟩)
      | (.fault cause, ⟨machine, (first, _)⟩) => (.fault cause, ⟨machine, first⟩) := by
  rcases ending : operation ⟨paged.machine, (paged.source, second)⟩ with
    ⟨⟨value | cause | cause, after⟩, made⟩ <;>
    simp only [lending, Operation.run, ending]

end Paged

/-- A source of frames for missing tables. What a fresh frame holds is left
open. -/
class FrameSource (F : Type) where
  take {ε : Type} : Operation (Paged F) ε (Option Frame)

instance {capacity : Nat} {sorting : Region.Sorting} :
    FrameSource (RegionTable capacity sorting) where
  take := Paged.onSource RegionTable.allocateFrame

end EarlyMemory
