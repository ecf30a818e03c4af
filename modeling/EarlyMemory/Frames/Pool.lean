import EarlyMemory.Machine.Paged

/-!
# Pools of consecutive frames

Both pools hand out consecutive frames. A `FramePool` counts what remains; a
`FrameStrip` fixes its end beforehand, so a strip that would leave the 64-bit
space cannot be set up at all.
-/

namespace EarlyMemory

structure FramePool where
  next : Frame
  remaining : Nat
  used : Nat
deriving DecidableEq

namespace FramePool

variable {ε : Type}

open Operation (state update check)

def create (start : PhysicalAddress) (count : Nat) : FramePool :=
  ⟨start.page .small, count, 0⟩

def take : Operation FramePool ε (Option Frame) := do
  let pool ← state
  if pool.remaining = 0 then
    return none
  else
    let next ← check (pool.next.advance 1)
    update fun pool => ⟨next, pool.remaining - 1, pool.used + 1⟩
    return some pool.next

instance : FrameSource FramePool where
  take := Paged.onSource take

end FramePool

structure FrameStrip where
  start : Frame
  next : Frame
  stop : Frame
deriving DecidableEq

namespace FrameStrip

variable {ε : Type}

open Operation (state update check)

def create (start : Frame) (count : Nat) : Except Fault FrameStrip := do
  let stop ← start.advance count
  return ⟨start, start, stop⟩

def used (strip : FrameStrip) : Except Fault Nat :=
  strip.next.since strip.start

def take : Operation FrameStrip ε (Option Frame) := do
  let strip ← state
  if strip.stop.number ≤ strip.next.number then
    return none
  else
    let next ← check (strip.next.advance 1)
    update fun strip => { strip with next := next }
    return some strip.next

instance : FrameSource FrameStrip where
  take := Paged.onSource take

end FrameStrip

end EarlyMemory
