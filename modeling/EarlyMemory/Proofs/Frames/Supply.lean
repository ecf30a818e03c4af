import EarlyMemory.Frames.Pool
import EarlyMemory.Proofs.Machine.Agreement

/-!
# Supplies of frames

What mapping needs of a source of frames, whichever source it is: a request never
faults, a frame that was handed out is not handed out again, and the source touches
no frames but those it keeps its own records in. Nobody knows beforehand when a
source runs dry.
-/

namespace EarlyMemory

/-- When a source is in order, with the frames it may still hand out and the frames
it keeps its records in. -/
structure Supply (F : Type) [FrameSource F] where
  Holds (memory : Memory) (source : F) (offers keeps : Frame → Prop) : Prop
  /-- Writes that leave the records alone leave the source in order. -/
  stable {touched offers keeps : Frame → Prop} {before after : Memory} {source : F} :
    Holds before source offers keeps → Memory.AgreesOutside touched before after →
      (∀ frame, keeps frame → ¬ touched frame) → Holds after source offers keeps
  /-- A request is answered. -/
  take {ε : Type} {offers keeps : Frame → Prop} {paged : Paged F} :
    Holds paged.memory paged.source offers keeps →
      ∃ answer after rest,
        (FrameSource.take : Operation (Paged F) ε (Option Frame)).run paged =
          (.done answer, after) ∧
        Memory.AgreesOutside keeps paged.memory after.memory ∧
        Holds after.memory after.source rest keeps ∧
        (∀ frame, rest frame → offers frame) ∧
        ∀ frame, answer = some frame → offers frame ∧ ¬ rest frame

/-- A source that lives outside the memory. -/
structure OwnRecords (F : Type) [FrameSource F] where
  Orderly (source : F) : Prop
  Offers (source : F) (frame : Frame) : Prop
  take {ε : Type} (machine : Machine) {source : F} : Orderly source →
    ∃ answer rest,
      (FrameSource.take : Operation (Paged F) ε (Option Frame)).run ⟨machine, source⟩ =
        (.done answer, ⟨machine, rest⟩) ∧
      Orderly rest ∧ (∀ frame, Offers rest frame → Offers source frame) ∧
      ∀ frame, answer = some frame → Offers source frame ∧ ¬ Offers rest frame

def OwnRecords.supply {F : Type} [FrameSource F] (records : OwnRecords F) : Supply F where
  Holds _ source offers keeps :=
    records.Orderly source ∧ (∀ frame, offers frame ↔ records.Offers source frame) ∧
      ∀ frame, ¬ keeps frame
  stable holds _ _ := holds
  take {_ offers keeps paged} holds := by
    rcases holds with ⟨orderly, offered, nothing⟩
    rcases records.take paged.machine orderly with ⟨answer, source, ran, restOrderly, fewer, handed⟩
    refine ⟨answer, ⟨paged.machine, source⟩, records.Offers source, ran, .refl _,
      ⟨restOrderly, fun _ => Iff.rfl, nothing⟩, ?_, ?_⟩
    · intro frame isOffered
      exact (offered frame).2 (fewer frame isOffered)
    · intro frame isAnswer
      exact ⟨(offered frame).2 (handed frame isAnswer).1, (handed frame isAnswer).2⟩

/-- What is left of a source that handed out a number of frames. It may have been asked in vain
in between. -/
inductive Grants {F : Type} [FrameSource F] : Nat → F → F → Prop
  | none (source : F) : Grants 0 source source
  | handed {ε : Type} {count : Nat} {before after : Paged F} {frame : Frame} {rest : F}
      (taken : (FrameSource.take : Operation (Paged F) ε (Option Frame)).run before =
        (.done (some frame), after))
      (further : Grants count after.source rest) : Grants (count + 1) before.source rest
  | dry {ε : Type} {count : Nat} {before after : Paged F} {rest : F}
      (taken : (FrameSource.take : Operation (Paged F) ε (Option Frame)).run before =
        (.done Option.none, after))
      (further : Grants count after.source rest) : Grants count before.source rest

theorem Grants.trans {F : Type} [FrameSource F] {first second : Nat} {before middle after : F}
    (early : Grants first before middle) (late : Grants second middle after) :
    Grants (second + first) before after := by
  induction early with
  | none => exact late
  | handed taken _ induction => exact .handed taken (induction late)
  | dry taken _ induction => exact .dry taken (induction late)

namespace Page

theorem advance_eq_ok {space : Space} {page : Page space .small} {count : Nat}
    (room : page.number + count < 1 <<< 52) :
    page.advance count = .ok ⟨page.number + count, room⟩ := by
  have bytes : count * PageSize.small.bytes < 1 <<< 64 := by
    simp only [PageSize.bytes]
    omega
  rw [Page.advance, if_pos bytes]
  exact dif_pos room

theorem of_advance {frame reached : Frame} {count : Nat}
    (done : frame.advance count = .ok reached) :
    reached.number = frame.number + count := by
  unfold Page.advance at done
  split at done
  next =>
    split at done
    next => exact (congrArg Page.number (Except.ok.inj done)).symm
    next => cases done
  next => cases done

def Between (first : Frame) (limit : Nat) (frame : Frame) : Prop :=
  first.number ≤ frame.number ∧ frame.number < limit

end Page

/-! ## Pools -/

namespace FramePool

variable {ε : Type}

def Offers (pool : FramePool) : Frame → Prop :=
  Page.Between pool.next (pool.next.number + pool.remaining)

theorem run_take_of_dry {pool : FramePool} (dry : pool.remaining = 0) :
    (take : Operation FramePool ε (Option Frame)).run pool = (.done none, pool) := by
  rw [take, Operation.run_bind_of_done (Operation.run_state pool), if_pos dry,
    Operation.run_pure]

theorem run_take {pool : FramePool} (left : pool.remaining ≠ 0)
    (room : pool.next.number + 1 < 1 <<< 52) :
    (take : Operation FramePool ε (Option Frame)).run pool =
      (.done (some pool.next),
        ⟨⟨pool.next.number + 1, room⟩, pool.remaining - 1, pool.used + 1⟩) := by
  rw [take, Operation.run_bind_of_done (Operation.run_state pool), if_neg left,
    Page.advance_eq_ok room]
  rfl

def records : OwnRecords FramePool where
  Orderly pool := pool.next.number + pool.remaining < 1 <<< 52
  Offers := Offers
  take {_} machine pool orderly := by
    by_cases dry : pool.remaining = 0
    · refine ⟨none, pool, ?_, orderly, fun _ offered => offered, by simp⟩
      exact (Paged.run_onSource ..).trans (by rw [run_take_of_dry dry])
    · have room : pool.next.number + 1 < 1 <<< 52 := by omega
      refine ⟨some pool.next, ⟨⟨pool.next.number + 1, room⟩, pool.remaining - 1, pool.used + 1⟩,
        ?_, ?_, ?_, ?_⟩
      · exact (Paged.run_onSource ..).trans (by rw [run_take dry room])
      · change pool.next.number + 1 + (pool.remaining - 1) < 1 <<< 52
        omega
      · intro frame offered
        simp only [Offers, Page.Between] at offered ⊢
        omega
      · rintro frame ⟨⟩
        simp only [Offers, Page.Between]
        omega

end FramePool

namespace FrameStrip

variable {ε : Type}

def Offers (strip : FrameStrip) : Frame → Prop :=
  Page.Between strip.next strip.stop.number

theorem run_take_of_dry {strip : FrameStrip} (dry : strip.stop.number ≤ strip.next.number) :
    (take : Operation FrameStrip ε (Option Frame)).run strip = (.done none, strip) := by
  rw [take, Operation.run_bind_of_done (Operation.run_state strip), if_pos dry,
    Operation.run_pure]

theorem run_take {strip : FrameStrip} (left : ¬ strip.stop.number ≤ strip.next.number)
    (room : strip.next.number + 1 < 1 <<< 52) :
    (take : Operation FrameStrip ε (Option Frame)).run strip =
      (.done (some strip.next), { strip with next := ⟨strip.next.number + 1, room⟩ }) := by
  rw [take, Operation.run_bind_of_done (Operation.run_state strip), if_neg left,
    Page.advance_eq_ok room]
  rfl

/-- The strips from one frame to another. They end inside the 64-bit space, so a request
never faults. -/
def recordsBetween (start stop : Frame) : OwnRecords FrameStrip where
  Orderly strip := strip.start = start ∧ strip.stop = stop ∧
    start.number ≤ strip.next.number ∧ strip.next.number ≤ stop.number
  Offers := Offers
  take {_} machine strip orderly := by
    rcases orderly with ⟨rfl, rfl, advanced, within⟩
    by_cases dry : strip.stop.number ≤ strip.next.number
    · refine ⟨none, strip, ?_, ⟨rfl, rfl, advanced, within⟩, fun _ offered => offered, by simp⟩
      exact (Paged.run_onSource ..).trans (by rw [run_take_of_dry dry])
    · have bound := strip.stop.isLt
      have room : strip.next.number + 1 < 1 <<< 52 := by
        simp only [PageSize.count] at bound
        omega
      refine ⟨some strip.next, { strip with next := ⟨strip.next.number + 1, room⟩ },
        ?_, ⟨rfl, rfl, Nat.le_succ_of_le advanced, Nat.lt_of_not_le dry⟩, ?_, ?_⟩
      · exact (Paged.run_onSource ..).trans (by rw [run_take dry room])
      · intro frame offered
        simp only [Offers, Page.Between] at offered ⊢
        omega
      · rintro frame ⟨⟩
        simp only [Offers, Page.Between]
        omega

theorem of_run_take {before after : Paged FrameStrip} {answer : Option Frame}
    (taken : (FrameSource.take : Operation (Paged FrameStrip) ε (Option Frame)).run before =
      (.done answer, after)) :
    after.source.next.number = before.source.next.number + answer.toList.length ∧
      (answer = none → after.source.stop.number ≤ after.source.next.number) := by
  have ran := (Paged.run_onSource ..).symm.trans taken
  by_cases dry : before.source.stop.number ≤ before.source.next.number
  · rw [run_take_of_dry dry] at ran
    cases ran
    exact ⟨rfl, fun _ => dry⟩
  · have bound := before.source.stop.isLt
    have room : before.source.next.number + 1 < 1 <<< 52 := by
      simp only [PageSize.count] at bound
      omega
    rw [run_take dry room] at ran
    cases ran
    exact ⟨rfl, nofun⟩

theorem next_of_grants {count : Nat} {before after : FrameStrip}
    (grants : Grants count before after) :
    after.next.number = before.next.number + count := by
  induction grants with
  | none => rfl
  | handed taken _ induction => rw [induction, (of_run_take taken).1, Option.toList_some,
      List.length_singleton, Nat.add_assoc, Nat.add_comm 1]
  | dry taken _ induction => rw [induction, (of_run_take taken).1, Option.toList_none,
      List.length_nil, Nat.add_zero]

end FrameStrip

end EarlyMemory
