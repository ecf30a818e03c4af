import EarlyMemory.Proofs.Frames.Supply
import EarlyMemory.Proofs.Maintenance

/-!
# Asking a source

A run of requests is told by its answers. Between two requests others may write to memory, as
long as they leave the source's records alone.
-/

namespace EarlyMemory

open Memory (AgreesOutside)

namespace FrameSource

variable {F : Type} [FrameSource F] {keeps : Frame → Prop} {before middle after : Paged F}
  {answers later : List (Option Frame)}

/-- Requests with their answers. What is written in between leaves the source and the frames
with its records as they were. -/
inductive Asks (keeps : Frame → Prop) : List (Option Frame) → Paged F → Paged F → Prop
  | done (paged : Paged F) : Asks keeps [] paged paged
  | written {answers : List (Option Frame)} {before changed after : Paged F}
      (spared : AgreesOutside (fun frame => ¬ keeps frame) before.memory changed.memory)
      (source : changed.source = before.source) (further : Asks keeps answers changed after) :
      Asks keeps answers before after
  | asked {ε : Type} {answer : Option Frame} {answers : List (Option Frame)}
      {before asked after : Paged F}
      (taken : (take : Operation (Paged F) ε (Option Frame)).run before = (.done answer, asked))
      (further : Asks keeps answers asked after) : Asks keeps (answer :: answers) before after

theorem Asks.trans (first : Asks keeps answers before middle)
    (second : Asks keeps later middle after) :
    Asks keeps (answers ++ later) before after := by
  induction first with
  | done => exact second
  | written spared source _ induction => exact .written spared source (induction second)
  | asked taken _ induction => exact .asked taken (induction second)

theorem Asks.source_eq (asks : Asks keeps answers before after) (nothing : answers = []) :
    after.source = before.source := by
  induction asks with
  | done => rfl
  | written _ source _ induction => exact (induction nothing).trans source
  | asked => cases nothing

/-- Whether a number of requests are all answered with a frame. -/
def Lasts (keeps : Frame → Prop) (count : Nat) (paged : Paged F) : Prop :=
  ∀ answers after, Asks keeps answers paged after → answers.length ≤ count → none ∉ answers

/-- Whether a request that does not fault is always answered. -/
def NeverRefuses (F : Type) [FrameSource F] : Prop :=
  ∀ ε : Type, (take : Operation (Paged F) ε (Option Frame)).RefusesOnly fun _ => False

end FrameSource

namespace FramePool

open FrameSource (Asks Lasts)

variable {keeps : Frame → Prop} {before after : Paged FramePool}

theorem neverRefuses : FrameSource.NeverRefuses FramePool := by
  intro ε
  refine Paged.refusesOnly_onSource (.bind .state fun pool => ?_)
  split
  · exact .pure
  · exact .bind .check fun _ => .bind .update fun _ => .pure

theorem none_not_mem_of_asks {answers : List (Option Frame)}
    (asks : Asks keeps answers before after)
    (orderly : before.source.next.number + before.source.remaining < 1 <<< 52)
    (enough : answers.length ≤ before.source.remaining) : none ∉ answers := by
  induction asks with
  | done => exact List.not_mem_nil
  | written _ source _ induction =>
      rw [source] at induction
      exact induction orderly enough
  | @asked ε answer answers before asked after taken _ induction =>
      rw [List.length_cons] at enough
      have left : before.source.remaining ≠ 0 := by omega
      have room : before.source.next.number + 1 < 1 <<< 52 := by omega
      have ran := (Paged.run_onSource ..).symm.trans taken
      rw [run_take left room] at ran
      cases ran
      refine fun member => ?_
      rcases List.mem_cons.1 member with impossible | isLater
      · cases impossible
      · refine induction ?_ ?_ isLater
        · change before.source.next.number + 1 + (before.source.remaining - 1) < 1 <<< 52
          omega
        · change answers.length ≤ before.source.remaining - 1
          omega

theorem lasts {count : Nat} {paged : Paged FramePool}
    (orderly : paged.source.next.number + paged.source.remaining < 1 <<< 52)
    (enough : count ≤ paged.source.remaining) : Lasts keeps count paged :=
  fun _ _ asks few => none_not_mem_of_asks asks orderly (Nat.le_trans few enough)

end FramePool

end EarlyMemory
