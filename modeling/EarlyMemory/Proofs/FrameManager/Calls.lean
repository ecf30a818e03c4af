import EarlyMemory.Proofs.FrameManager.Stages
import EarlyMemory.Proofs.Kernel.Safety

/-!
# Calls of a manager

A run of calls may ask for anything at any time, with handed over regions of any shape. All
that is known of a manager in such a run follows from what each single call keeps.
-/

namespace EarlyMemory.FrameManager

open Operation

/-! ## Single calls -/

/-- A call of a manager, by what it is answered with. -/
inductive Call : Type → Type 1 where
  | install (root : Frame) : Call Unit
  | mapBeyond {F : Type} [FrameSource F] (frames : F) (base : PhysicalAddress) (count : Nat)
      (rights : Rights) : Call (VirtualAddress × F)
  | adopt (regions : List Region) : Call Unit
  | map (target : PhysicalAddress) (address : VirtualAddress) (rights : Rights) : Call Unit
  | request {α : Type} (request : Request α) : Call α

namespace Call

variable {α : Type}

def operation : Call α → Operation (Paged FrameManager) Refusal α
  | .install root => FrameManager.install root
  | @mapBeyond _ _ frames base count rights =>
      Paged.lending frames (FrameManager.mapBeyond base count rights)
  | .adopt regions => FrameManager.adopt regions
  | .map target address rights => FrameManager.map target address rights
  | .request asked => asked.operation

theorem follows (call : Call α) (before : Paged FrameManager) :
    Follows before.source (call.operation.run before).2.source := by
  have start : Paged.AtSource (Follows before.source) before := .refl _
  cases call with
  | install root => exact (install_spec root before).follows
  | mapBeyond frames base count rights =>
      exact (Paged.maintains_lending
        (maintains_mapBeyond (standsMoving_follows before.source))).of_run start rfl
  | adopt regions => exact follows_of_adopt regions before
  | map target address rights => exact maintains_mapOwn.of_run start rfl
  | request asked => exact (Request.maintains (Paged.standsWrites_atSource _)).of_run start rfl

theorem spares (call : Call α) : call.operation.Spares Refusal.IsOutOfTurn := by
  cases call with
  | install root =>
      intro before cause after ran _
      have installs := install_spec root before
      rw [operation] at ran
      rw [ran] at installs
      exact installs.of_refused
  | mapBeyond frames base count rights => exact Paged.spares_lending spares_mapBeyond
  | adopt regions => exact spares_adopt
  | map target address rights => exact spares_mapOwn
  | request asked => exact Request.spares

end Call

/-! ## Runs -/

structure Answered where
  {α : Type}
  call : Call α
  answer : Outcome Refusal α

namespace Answered

/-- The recursive map was installed. -/
def installs : Answered → Bool
  | ⟨.install _, .done _⟩ => true
  | _ => false

def adopts : Answered → Bool
  | ⟨.adopt _, .done _⟩ => true
  | _ => false

end Answered

/-- What a manager becomes in a run of calls. -/
inductive Undergoes : Paged FrameManager → List Answered → Paged FrameManager → Prop
  | nil {paged : Paged FrameManager} : Undergoes paged [] paged
  | cons {α : Type} {call : Call α} {answer : Outcome Refusal α}
      {before between after : Paged FrameManager} {log : List Answered}
      (ran : call.operation.run before = (answer, between))
      (rest : Undergoes between log after) : Undergoes before (⟨call, answer⟩ :: log) after

namespace Undergoes

variable {before after : Paged FrameManager} {log : List Answered}

theorem follows (undergoes : Undergoes before log after) :
    Follows before.source after.source := by
  induction undergoes with
  | nil => exact .refl _
  | @cons _ call _ before between _ _ ran _ induction =>
      have first := call.follows before
      rw [ran] at first
      exact first.trans induction

/-- What only succeeds at a stage that it takes the manager past succeeds once at most. -/
theorem countP_le_one {succeeds : Answered → Bool} {rank : Nat}
    (passes : ∀ {α : Type} {call : Call α} {answer : Outcome Refusal α}
      {before after : Paged FrameManager}, call.operation.run before = (answer, after) →
      succeeds ⟨call, answer⟩ = true →
        before.source.stage.rank < rank ∧ rank ≤ after.source.stage.rank)
    (undergoes : Undergoes before log after) :
    log.countP succeeds ≤ 1 ∧ (rank ≤ before.source.stage.rank → log.countP succeeds = 0) := by
  induction undergoes with
  | nil => exact ⟨Nat.zero_le _, fun _ => rfl⟩
  | @cons _ call answer before between _ log ran _ induction =>
      have first := call.follows before
      rw [ran] at first
      rcases induction with ⟨once, never⟩
      cases success : succeeds ⟨call, answer⟩ with
      | true =>
          rcases passes ran success with ⟨early, late⟩
          rw [List.countP_cons_of_pos success, never late]
          exact ⟨Nat.le_refl _, fun passed => absurd early (Nat.not_lt.2 passed)⟩
      | false =>
          rw [List.countP_cons_of_neg (by rw [success]; decide)]
          exact ⟨once, fun passed => never (Nat.le_trans passed first.forward.stage)⟩

end Undergoes

/-! ## Runs of a new manager -/

theorem passes_installs {α : Type} {call : Call α} {answer : Outcome Refusal α}
    {before after : Paged FrameManager} (ran : call.operation.run before = (answer, after))
    (success : Answered.installs ⟨call, answer⟩ = true) :
    before.source.stage.rank < Stage.selfMapInstalled.rank ∧
      Stage.selfMapInstalled.rank ≤ after.source.stage.rank := by
  cases call with
  | install root =>
      cases answer with
      | done value =>
          have installs := install_spec root before
          rw [Call.operation] at ran
          rw [ran] at installs
          rcases installs.of_done with ⟨first, last, _⟩
          rw [first, last]
          decide
      | refused cause => cases success
      | fault cause => cases success
  | mapBeyond | adopt | map | request => cases success

theorem passes_adopts {α : Type} {call : Call α} {answer : Outcome Refusal α}
    {before after : Paged FrameManager} (ran : call.operation.run before = (answer, after))
    (success : Answered.adopts ⟨call, answer⟩ = true) :
    before.source.stage.rank < Stage.ready.rank ∧
      Stage.ready.rank ≤ after.source.stage.rank := by
  cases call with
  | adopt regions =>
      cases answer with
      | done value =>
          rcases of_run_adopt ran with ⟨_, _, _, _, _, _, _, _, marked, _, rfl⟩
          rw [stage_of_run_adopt ran]
          exact ⟨by decide, Nat.le_refl _⟩
      | refused cause => cases success
      | fault cause => cases success
  | mapBeyond | install | map | request => cases success

theorem Undergoes.descriptors_eq_nil {active : Frame} {imageEnd : VirtualAddress}
    {start reached : Paged FrameManager} {log : List Answered}
    (created : start.source = create active imageEnd) (undergoes : Undergoes start log reached)
    (early : reached.source.stage.rank < Stage.bitmapAllocated.rank) :
    descriptors reached = [] := by
  have blank : IsBlankBefore start.source := by
    rw [created]
    exact fun _ => rfl
  rw [descriptors, undergoes.follows.blank blank early]
  rfl

/-- A new manager comes up once, stage after stage, whatever it is called for. Neither its stage
nor its next virtual address ever goes back, a call out of turn changes nothing, and installing
the recursive map takes nothing but an empty slot, or one that holds the root already. The root
is mapped to itself from then on if its frame is one that entries can point at. -/
theorem new_manager_moves_forward {active : Frame} {imageEnd : VirtualAddress}
    {start reached : Paged FrameManager} {log : List Answered}
    (created : start.source = create active imageEnd) (undergoes : Undergoes start log reached) :
    log.countP Answered.installs ≤ 1 ∧ log.countP Answered.adopts ≤ 1 ∧
    (reached.source.stage.rank < Stage.bitmapAllocated.rank → descriptors reached = []) ∧
    (∀ later last, Undergoes reached later last →
      reached.source.stage.rank ≤ last.source.stage.rank ∧
      reached.source.nextVirtual.value ≤ last.source.nextVirtual.value) ∧
    (∀ (α : Type) (call : Call α) expected actual after,
      call.operation.run reached = (.refused (.wrongStage expected actual), after) →
      after = reached) ∧
    (reached.source.stage ≠ .ready →
      (Call.request .allocate).operation.run reached = (.done none, reached)) ∧
    ∀ root answer after, (Call.install root).operation.run reached = (answer, after) →
      (answer = .done () →
        reached.source.stage = .uninitialized ∧
        ((RecursiveMap.entryOf reached.memory root).present = false ∨
          (RecursiveMap.entryOf reached.memory root).frame = root) ∧
        (∀ index, index ≠ RecursiveMap.slot →
          after.memory.entry root index = reached.memory.entry root index) ∧
        (RecursiveMap.isInstalled after.memory root = true ↔ root.number < 1 <<< 40)) ∧
      ∀ frame, answer = .refused (.slotInUse frame) → after = reached := by
  refine ⟨(undergoes.countP_le_one passes_installs).1, (undergoes.countP_le_one passes_adopts).1,
    undergoes.descriptors_eq_nil created, fun later last further => ?_,
    fun α call expected actual after ran => call.spares reached _ after ran trivial,
    run_allocate_of_not_ready, fun root answer after ran => ?_⟩
  · exact ⟨further.follows.forward.stage, further.follows.forward.cursor⟩
  · have installs := install_spec root reached
    rw [Call.operation] at ran
    rw [ran] at installs
    constructor
    · rintro rfl
      rcases installs.of_done with ⟨first, _, free, installed⟩
      exact ⟨first, free, fun index other => installs.sameButSlot root index (.inr other),
        installed⟩
    · rintro frame rfl
      exact installs.of_refused

/-- On the small machine a new manager installs the map and takes over regions, each once. -/
theorem tinyManager_moves_forward : ∃ start reached,
    start.source = create Kernel.tinyRoot Kernel.tinyEnd ∧
    Undergoes start [⟨.install Kernel.tinyRoot, .done ()⟩,
      ⟨.adopt Kernel.tinyTable.regions, .done ()⟩] reached ∧
    ∀ later last, Undergoes reached later last →
      reached.source.stage.rank ≤ last.source.stage.rank ∧
      reached.source.nextVirtual.value ≤ last.source.nextVirtual.value := by
  rcases Kernel.exists_tinyBroughtUp with
    ⟨start, installed, adopted, created, installing, _, _, adopting⟩
  have undergoes : Undergoes start [⟨.install Kernel.tinyRoot, .done ()⟩,
      ⟨.adopt Kernel.tinyTable.regions, .done ()⟩] adopted :=
    .cons installing (.cons adopting .nil)
  rcases new_manager_moves_forward created undergoes with ⟨_, _, _, forward, _⟩
  exact ⟨start, adopted, created, undergoes, forward⟩

/-! ## A root that entries cannot point at -/

def unlinkableRoot : Frame :=
  ⟨1 <<< 40, by decide⟩

def unlinkableMachine : Paged FrameManager :=
  ⟨⟨Memory.zeroed unlinkableRoot 1, []⟩, create unlinkableRoot Kernel.tinyEnd⟩

/-- There the map is installed, but the root is not mapped to itself. -/
theorem unlinkable_root_is_not_mapped : ∃ after,
    (install unlinkableRoot).run unlinkableMachine = (.done (), after) ∧
      RecursiveMap.isInstalled after.memory unlinkableRoot = false := by
  have inside : unlinkableMachine.memory.HasFrame unlinkableRoot :=
    ⟨Nat.le_refl _, Nat.lt_succ_self _⟩
  have absent : (RecursiveMap.entryOf unlinkableMachine.memory unlinkableRoot).present = false := by
    have zero : RecursiveMap.entryOf unlinkableMachine.memory unlinkableRoot = .zero :=
      Memory.entry_of_byteAt_eq_zero (fun _ _ => Memory.byteAt_zeroed ..) _
    rw [zero, PageEntry.present_zero]
  rcases exists_run_install (by decide) inside rfl absent with ⟨after, done⟩
  have installs := install_spec unlinkableRoot unlinkableMachine
  rw [done] at installs
  refine ⟨after, done, Bool.eq_false_iff.2 fun installed => ?_⟩
  exact Nat.lt_irrefl _ (installs.of_done.2.2.2.1 installed)

end EarlyMemory.FrameManager
