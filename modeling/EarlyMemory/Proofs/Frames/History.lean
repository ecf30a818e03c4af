import EarlyMemory.Frames.Pool
import EarlyMemory.FrameManager.Pages
import EarlyMemory.Proofs.Maintenance

/-!
# Sources that ignore what was flushed

Machines are alike when they differ at most in the addresses flushed so far. Two
operations mirror each other when they take alike machines to alike machines with the
same outcome. Every source of frames mirrors itself: what it hands out depends on the
memory and on its own records only. Nor does it flush anything itself.
-/

namespace EarlyMemory

namespace Paged

variable {F ε α β : Type}

structure Alike (left right : Paged F) : Prop where
  memory : left.memory = right.memory
  source : left.source = right.source

theorem Alike.refl (paged : Paged F) : Alike paged paged :=
  ⟨rfl, rfl⟩

/-- The same outcome on machines that are alike, which stay alike. -/
def Mirrors (left right : Operation (Paged F) ε α) : Prop :=
  ∀ one other, Alike one other →
    (left.run one).1 = (right.run other).1 ∧ Alike (left.run one).2 (right.run other).2

theorem Mirrors.run {left right : Operation (Paged F) ε α} (mirrors : Mirrors left right)
    {one other after : Paged F} {outcome : Outcome ε α} (alike : Alike one other)
    (ran : left.run one = (outcome, after)) :
    ∃ mirrored, right.run other = (outcome, mirrored) ∧ Alike after mirrored := by
  rcases mirrors one other alike with ⟨same, still⟩
  rw [ran] at same still
  exact ⟨(right.run other).2, Prod.ext same.symm rfl, still⟩

theorem Mirrors.pure (value : α) :
    Mirrors (pure value : Operation (Paged F) ε α) (Pure.pure value) :=
  fun _ _ alike => ⟨rfl, alike⟩

theorem Mirrors.bind {left right : Operation (Paged F) ε α}
    {leftNext rightNext : α → Operation (Paged F) ε β} (first : Mirrors left right)
    (next : ∀ value, Mirrors (leftNext value) (rightNext value)) :
    Mirrors (left >>= leftNext) (right >>= rightNext) := by
  intro one other alike
  rcases ending : left.run one with ⟨value | cause | cause, after⟩
  all_goals rcases first.run alike ending with ⟨mirrored, mirror, still⟩
  · rw [Operation.run_bind_of_done ending, Operation.run_bind_of_done mirror]
    exact next value after mirrored still
  · rw [Operation.run_bind_of_refused ending, Operation.run_bind_of_refused mirror]
    exact ⟨rfl, still⟩
  · rw [Operation.run_bind_of_fault ending, Operation.run_bind_of_fault mirror]
    exact ⟨rfl, still⟩

theorem Mirrors.check (computed : Except Fault α) :
    Mirrors (Operation.check computed : Operation (Paged F) ε α) (Operation.check computed) := by
  intro one other alike
  cases computed with
  | ok value => exact ⟨rfl, alike⟩
  | error cause => exact ⟨rfl, alike⟩

theorem Mirrors.report (severity : Severity) (component : Component) (message : String) :
    Mirrors (Operation.report severity component message : Operation (Paged F) ε Unit)
      (Operation.report severity component message) :=
  fun _ _ alike => ⟨rfl, alike⟩

theorem Mirrors.inspect (read : Memory → Except Fault α) :
    Mirrors (Paged.inspect read : Operation (Paged F) ε α) (Paged.inspect read) := by
  intro one other alike
  rw [run_inspect, run_inspect, alike.memory]
  cases read other.memory with
  | ok value => exact ⟨rfl, alike⟩
  | error cause => exact ⟨rfl, alike⟩

theorem Mirrors.changeMemory (change : Memory → Memory) :
    Mirrors (Paged.changeMemory change : Operation (Paged F) ε Unit)
      (Paged.changeMemory change) :=
  fun _ _ alike => ⟨rfl, ⟨congrArg change alike.memory, alike.source⟩⟩

theorem Mirrors.onSource (operation : Operation F ε α) :
    Mirrors (Paged.onSource operation) (Paged.onSource operation) := by
  intro one other alike
  rw [run_onSource, run_onSource, alike.source]
  exact ⟨rfl, ⟨alike.memory, rfl⟩⟩

end Paged

open Paged (Mirrors)

/-- Whether the frames a source hands out are the same whatever was flushed. -/
def FrameSource.IgnoresHistory (F : Type) [FrameSource F] : Prop :=
  ∀ ε : Type, Mirrors (FrameSource.take : Operation (Paged F) ε (Option Frame)) FrameSource.take

theorem RegionTable.ignoresHistory (capacity : Nat) (sorting : Region.Sorting) :
    FrameSource.IgnoresHistory (RegionTable capacity sorting) :=
  fun _ => .onSource RegionTable.allocateFrame

theorem FramePool.ignoresHistory : FrameSource.IgnoresHistory FramePool :=
  fun _ => .onSource FramePool.take

theorem FrameStrip.ignoresHistory : FrameSource.IgnoresHistory FrameStrip :=
  fun _ => .onSource FrameStrip.take

/-! ## The frame manager -/

namespace FrameManager

variable {ε α : Type}

theorem current_mirrors :
    Mirrors (current : Operation (Paged FrameManager) ε FrameManager) current := by
  intro one other alike
  change Outcome.done one.source = .done other.source ∧ Paged.Alike one other
  exact ⟨congrArg _ alike.source, alike⟩

theorem readBitmap_mirrors (descriptor : Descriptor) (read : Bitmap → Except Fault α) :
    Mirrors (readBitmap (ε := ε) descriptor read) (readBitmap descriptor read) :=
  current_mirrors.bind fun _ => .inspect _

theorem setBit_mirrors (descriptor : Descriptor) (index : Nat) (busy : Bool) :
    Mirrors (setBit (ε := ε) descriptor index busy) (setBit descriptor index busy) :=
  current_mirrors.bind fun _ => (readBitmap_mirrors _ _).bind fun _ => .changeMemory _

theorem allocateFrom_mirrors (tracked : List Descriptor) :
    Mirrors (allocateFrom (ε := ε) tracked) (allocateFrom tracked) := by
  induction tracked with
  | nil => exact (Mirrors.report _ _ _).bind fun _ => .pure none
  | cons descriptor rest induction =>
      refine (readBitmap_mirrors _ _).bind fun found => ?_
      cases found with
      | none => exact induction
      | some index =>
          exact (setBit_mirrors _ _ _).bind fun _ => (Mirrors.check _).bind fun page =>
            (Mirrors.report _ _ _).bind fun _ => .pure (some page)

theorem ignoresHistory : FrameSource.IgnoresHistory FrameManager := by
  intro ε
  refine current_mirrors.bind fun manager => ?_
  by_cases ready : manager.stage = .ready
  · rw [if_pos ready]
    exact (Mirrors.inspect _).bind fun tracked => allocateFrom_mirrors _
  · rw [if_neg ready]
    exact .pure none

end FrameManager

/-! ## What asking for a frame maintains -/

namespace FrameManager

variable {ε α : Type} {holds : Paged FrameManager → Prop}

theorem maintains_current :
    (current : Operation (Paged FrameManager) ε FrameManager).Maintains holds :=
  .bind .state fun _ => .pure

theorem maintains_readBitmap {descriptor : Descriptor} {read : Bitmap → Except Fault α} :
    (readBitmap (ε := ε) descriptor read).Maintains holds :=
  .bind maintains_current fun _ => Paged.maintains_inspect

theorem maintains_setBit (stands : Paged.StandsWrites holds) {descriptor : Descriptor}
    {index : Nat} {busy : Bool} : (setBit (ε := ε) descriptor index busy).Maintains holds :=
  .bind maintains_current fun _ => .bind maintains_readBitmap fun _ =>
    Paged.maintains_changeMemory stands

theorem maintains_allocateFrom (stands : Paged.StandsWrites holds) {tracked : List Descriptor} :
    (allocateFrom (ε := ε) tracked).Maintains holds := by
  induction tracked with
  | nil => exact .bind .report fun _ => .pure
  | cons descriptor rest induction =>
      refine .bind maintains_readBitmap fun found => ?_
      cases found with
      | none => exact induction
      | some index =>
          exact .bind (maintains_setBit stands) fun _ => .bind .check fun _ =>
            .bind .report fun _ => .pure

theorem maintains_allocate (stands : Paged.StandsWrites holds) :
    (allocate (ε := ε)).Maintains holds := by
  refine .bind maintains_current fun manager => ?_
  split
  · exact .bind Paged.maintains_inspect fun _ => maintains_allocateFrom stands
  · exact .pure

end FrameManager

def FrameSource.FlushesNothing (F : Type) [FrameSource F] : Prop :=
  ∀ (ε : Type) (history : List VirtualAddress),
    (FrameSource.take : Operation (Paged F) ε (Option Frame)).Maintains
      fun paged => paged.machine.history = history

theorem RegionTable.flushesNothing (capacity : Nat) (sorting : Region.Sorting) :
    FrameSource.FlushesNothing (RegionTable capacity sorting) :=
  fun _ _ _ before => before

theorem FramePool.flushesNothing : FrameSource.FlushesNothing FramePool :=
  fun _ _ _ before => before

theorem FrameStrip.flushesNothing : FrameSource.FlushesNothing FrameStrip :=
  fun _ _ _ before => before

theorem FrameManager.flushesNothing : FrameSource.FlushesNothing FrameManager :=
  fun _ history => maintains_allocate (Paged.standsWrites_history history)

end EarlyMemory
