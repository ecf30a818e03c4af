import EarlyMemory.Proofs.FrameManager.BusyPages
import EarlyMemory.Proofs.Kernel.Safety

/-!
# A manager as a set of busy pages

Once a manager took over regions it answers whatever it is asked as the set of its busy
pages does, over dialogues of any length. Nothing is assumed of the page tables: taking over
is done only if the ledger was found in memory, and from then on no request writes to
anything but bitmaps.
-/

namespace EarlyMemory.FrameManager

open Operation

variable {managed busy middle last : Set Frame} {keeps : Frame → Prop} {page : Frame}
  {before start reached after : Paged FrameManager} {regions : List Region}

/-! ## Dialogues -/

structure Exchange where
  {α : Type}
  request : Request α
  answer : Outcome Refusal α

def Exchange.handsOut (page : Frame) : Exchange :=
  ⟨.allocate, .done (some page)⟩

def Exchange.takesBack (page : Frame) : Exchange :=
  ⟨.free page, .done ()⟩

def Exchange.handedOut? : Exchange → Option Frame
  | ⟨.allocate, .done answer⟩ => answer
  | _ => none

/-- What a manager becomes in a dialogue. -/
inductive Serves : Paged FrameManager → List Exchange → Paged FrameManager → Prop
  | nil {paged : Paged FrameManager} : Serves paged [] paged
  | cons {α : Type} {request : Request α} {answer : Outcome Refusal α}
      {before between after : Paged FrameManager} {dialogue : List Exchange}
      (ran : request.operation.run before = (answer, between))
      (rest : Serves between dialogue after) : Serves before (⟨request, answer⟩ :: dialogue) after

/-- What a set of busy pages becomes in a dialogue. -/
inductive Conducts (managed : Set Frame) : Set Frame → List Exchange → Set Frame → Prop
  | nil {busy : Set Frame} : Conducts managed busy [] busy
  | cons {α : Type} {request : Request α} {answer : Outcome Refusal α} {busy next last : Set Frame}
      {dialogue : List Exchange} (allows : Allows managed busy request answer next)
      (rest : Conducts managed next dialogue last) :
      Conducts managed busy (⟨request, answer⟩ :: dialogue) last

variable {dialogue earlier between later : List Exchange}

theorem AccountsFor.conducts (accounts : AccountsFor managed keeps before)
    (serves : Serves before dialogue after) :
    AccountsFor managed keeps after ∧
      Conducts managed (busyPages before) dialogue (busyPages after) := by
  induction serves with
  | nil => exact ⟨accounts, .nil⟩
  | cons ran rest induction =>
      rcases accounts.serve ran with ⟨next, allows⟩
      rcases induction next with ⟨last, conducts⟩
      exact ⟨last, .cons allows conducts⟩

/-! ## Pages handed out twice -/

theorem Allows.mem_or_takesBack {α : Type} {request : Request α} {answer : Outcome Refusal α}
    {next : Set Frame} (allows : Allows managed busy request answer next) (isBusy : page ∈ busy) :
    page ∈ next ∨ Exchange.takesBack page = ⟨request, answer⟩ := by
  cases allows with
  | marked => exact .inl (.inr isBusy)
  | @freed freed _ =>
      by_cases same : page = freed
      · subst same
        exact .inr rfl
      · exact .inl ⟨isBusy, same⟩
  | told => exact .inl isBusy
  | refused => exact .inl isBusy
  | handed => exact .inl (.inr isBusy)
  | exhausted => exact .inl isBusy
  | counted => exact .inl isBusy

theorem Allows.of_handsOut {α : Type} {request : Request α} {answer : Outcome Refusal α}
    {next : Set Frame} (allows : Allows managed busy request answer next)
    (same : Exchange.mk request answer = .handsOut page) : page ∉ busy ∧ page ∈ next := by
  -- The types of the answers cannot be told apart, the pages that are handed out can.
  have given : (Exchange.mk request answer).handedOut? = some page := congrArg _ same
  cases allows with
  | handed free =>
      cases given
      exact ⟨free.2, Set.mem_insert ..⟩
  | marked | freed | told | exhausted | counted => cases given
  | @refused _ request => cases request <;> cases given

namespace Conducts

theorem mem_or_takesBack (conducts : Conducts managed busy dialogue last) (isBusy : page ∈ busy) :
    page ∈ last ∨ Exchange.takesBack page ∈ dialogue := by
  induction conducts with
  | nil => exact .inl isBusy
  | cons allows _ induction =>
      rcases allows.mem_or_takesBack isBusy with stays | freed
      · exact (induction stays).imp_right (List.mem_cons_of_mem _)
      · rw [freed]
        exact .inr List.mem_cons_self

theorem of_append (conducts : Conducts managed busy (earlier ++ later) last) :
    ∃ middle, Conducts managed busy earlier middle ∧ Conducts managed middle later last := by
  induction earlier generalizing busy with
  | nil => exact ⟨busy, .nil, conducts⟩
  | cons exchange rest induction =>
      cases conducts with
      | cons allows further =>
          rcases induction further with ⟨middle, first, second⟩
          exact ⟨middle, .cons allows first, second⟩

theorem of_handsOut (conducts : Conducts managed busy (.handsOut page :: later) last) :
    page ∉ busy ∧ ∃ next, page ∈ next ∧ Conducts managed next later last := by
  cases conducts with
  | cons allows further =>
      rcases allows.of_handsOut rfl with ⟨notBusy, isBusy⟩
      exact ⟨notBusy, _, isBusy, further⟩

/-- A page is handed out again only after it was taken back. -/
theorem takesBack_between
    (conducts : Conducts managed busy
      (earlier ++ .handsOut page :: (between ++ .handsOut page :: later)) last) :
    Exchange.takesBack page ∈ between := by
  rcases conducts.of_append with ⟨_, _, first⟩
  rcases first.of_handsOut with ⟨_, _, isBusy, further⟩
  rcases further.of_append with ⟨_, meanwhile, second⟩
  exact (meanwhile.mem_or_takesBack isBusy).resolve_left second.of_handsOut.1

end Conducts

/-! ## After taking over -/

def managedPages (regions : List Region) : Set Frame :=
  {page | ∃ region ∈ regions, (region.code = RegionKind.available.code ∨
    region.code = RegionKind.allocated.code) ∧ region.HoldsPage page}

theorem mem_managedPages : page ∈ managedPages regions ↔
    ∃ region ∈ regions, region.IsManaged ∧ region.HoldsPage page :=
  exists_congr fun _ => and_congr_right' (and_congr_left' Region.isManaged_iff.symm)

theorem mem_managedPages_iff_tracks (aligned : ∀ region ∈ regions, region.IsPageAligned) :
    page ∈ managedPages regions ↔
      ∃ descriptor ∈ Run.planned 0 (Run.ofRegions regions),
        ∃ index, descriptor.Tracks index page := by
  rw [mem_managedPages]
  unfold Region.IsManaged
  rw [← Run.exists_planned_iff aligned]
  refine exists_congr fun descriptor => and_congr_right fun member => ?_
  rcases (Run.of_mem_planned member).1 with ⟨run, isRun, isPlanned⟩
  have wellFormed := isPlanned.isWellFormed (Run.mem_ofRegions aligned isRun).1
  exact (Descriptor.exists_tracks_iff wellFormed).symm

theorem accountsFor_of_withdraws {layout : Ledger.Layout} {host : PhysicalAddress}
    {gone : Frame → Prop} {mapped opened marked : Paged FrameManager}
    (aligned : ∀ region ∈ regions, region.IsPageAligned)
    (sorted : regions.Pairwise Region.Precedes)
    (opens : Opens layout host regions mapped opened)
    (withdraws : Withdraws keeps gone opened marked) :
    AccountsFor (managedPages regions) keeps
      ⟨marked.machine, { marked.source with stage := .ready }⟩ := by
  have recorded : marked.source.ledger.descriptors marked.memory =
      Run.planned 0 (Run.ofRegions regions) := withdraws.recorded.trans opens.recorded
  refine ⟨rfl, withdraws.orderly, ?_, fun page => ?_⟩
  · change (marked.source.ledger.descriptors marked.memory).Pairwise _
    rw [recorded]
    exact Run.pairwise_precedes_planned
      (fun run isRun => (Run.mem_ofRegions aligned isRun).1) (Run.pairwise_precedes sorted)
  · change _ ↔ ∃ descriptor ∈ marked.source.ledger.descriptors marked.memory, _
    rw [recorded]
    exact mem_managedPages_iff_tracks aligned

theorem accountsFor_of_run_adopt (aligned : ∀ region ∈ regions, region.IsPageAligned)
    (sorted : regions.Pairwise Region.Precedes)
    (done : (adopt regions).run before = (.done (), start)) :
    ∃ keeps, AccountsFor (managedPages regions) keeps start := by
  rcases of_run_adopt done with ⟨layout, region, address, strip, left, mapped, opened, allocated,
    marked, steps, rfl⟩
  have separate := (Run.pairwise_precedes sorted).imp Run.Precedes.separate
  rcases steps.withdraws aligned separate with ⟨host, _, _, _, opens, withdraws⟩
  exact ⟨_, accountsFor_of_withdraws aligned sorted opens withdraws⟩

/-- Whether no bit is set that stands for no page of its run. -/
def HasClearPadding (paged : Paged FrameManager) : Prop :=
  ∀ descriptor ∈ paged.source.ledger.descriptors paged.memory, descriptor.kind = .available →
    ∀ bit, descriptor.pages ≤ bit →
      (paged.source.ledger.view paged.memory descriptor).isSet bit = false

/-- After taking over regions the manager is the set of its busy pages: each dialogue with the
one is a dialogue with the other. A refused request changes nothing, no padding bit is ever
set, and no page is handed out twice unless it was taken back in between. -/
theorem adopted_manager_refines_busyPages (aligned : ∀ region ∈ regions, region.IsPageAligned)
    (sorted : regions.Pairwise Region.Precedes)
    (done : (adopt regions).run before = (.done (), start)) :
    busyPages start ⊆ managedPages regions ∧
    ∀ dialogue reached, Serves start dialogue reached →
      Conducts (managedPages regions) (busyPages start) dialogue (busyPages reached) ∧
      HasClearPadding reached ∧
      (∀ (α : Type) (request : Request α) cause after,
        request.operation.run reached = (.refused cause, after) → after = reached) ∧
      ∀ page earlier between later,
        dialogue = earlier ++ .handsOut page :: (between ++ .handsOut page :: later) →
          Exchange.takesBack page ∈ between := by
  rcases accountsFor_of_run_adopt aligned sorted done with ⟨keeps, accounts⟩
  refine ⟨fun page isBusy => (accounts.mem_busyPages_iff.1 isBusy).1,
    fun dialogue reached serves => ?_⟩
  rcases accounts.conducts serves with ⟨still, conducts⟩
  refine ⟨conducts, still.orderly.padding, fun α request cause after ran => still.eq_of_refused ran,
    fun page earlier between later same => ?_⟩
  subst same
  exact conducts.takesBack_between

theorem tinyTable_is_a_set_of_busyPages : ∃ before start,
    (adopt Kernel.tinyTable.regions).run before = (.done (), start) ∧
    (∀ region ∈ Kernel.tinyTable.regions, region.IsPageAligned) ∧
    Kernel.tinyTable.regions.Pairwise Region.Precedes ∧
    busyPages start ⊆ managedPages Kernel.tinyTable.regions ∧
    ∀ dialogue reached, Serves start dialogue reached →
      Conducts (managedPages Kernel.tinyTable.regions) (busyPages start) dialogue
        (busyPages reached) := by
  rcases Kernel.exists_tinyTakenOver with ⟨before, start, prepared, _, done⟩
  have inOrder : Kernel.tinyTable.regions.Pairwise fun left right =>
      left.stop.value ≤ right.start.value := by decide
  have sorted := inOrder.imp Region.precedes_of_stop_le
  rcases adopted_manager_refines_busyPages prepared.pageAligned sorted done with
    ⟨within, refines⟩
  exact ⟨before, start, done, prepared.pageAligned, sorted, within,
    fun dialogue reached serves => (refines dialogue reached serves).1⟩

end EarlyMemory.FrameManager
