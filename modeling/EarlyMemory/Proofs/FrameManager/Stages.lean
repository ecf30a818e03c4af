import EarlyMemory.Proofs.Frames.History
import EarlyMemory.Proofs.FrameManager.BusyPages
import EarlyMemory.Proofs.FrameManager.Adoption
import EarlyMemory.Proofs.Paging.Sources

/-!
# The stages of a manager

A manager comes up once. Whatever it is asked, in whatever order, with whatever answer, its
stage and its next virtual address never go back. Calls that come too early or too late are
refused and change nothing.
-/

namespace EarlyMemory

open Operation (Maintains RefusesOnly)
open Paged (AtSource)

namespace FrameManager

open Operation

/-! ## What leaves the manager -/

section

variable {ε α : Type} {holds : Paged FrameManager → Prop}

theorem maintains_requireStage {manager : FrameManager} {expected : Stage} :
    (manager.requireStage expected : Operation (Paged FrameManager) Refusal Unit).Maintains
      holds := by
  unfold requireStage
  split
  · exact .pure
  · exact .refuse

theorem maintains_requireReady : requireReady.Maintains holds :=
  .bind maintains_current fun _ => maintains_requireStage

theorem maintains_locate {page : Frame} : (locate page).Maintains holds := by
  refine .bind maintains_current fun _ => .bind Paged.maintains_inspect fun place => ?_
  cases place with
  | outside => exact .refuse
  | unavailable => exact .refuse
  | bit descriptor index => exact .pure

theorem maintains_setBusy (stands : Paged.StandsWrites holds) {page : Frame} {busy : Bool} :
    (setBusy page busy).Maintains holds :=
  .bind maintains_locate fun _ => maintains_setBit stands

theorem maintains_markPages (stands : Paged.StandsWrites holds) {first : Frame}
    {index count : Nat} : (markPages first index count).Maintains holds := by
  induction count generalizing index with
  | zero => exact .pure
  | succ count induction =>
      exact .bind .check fun _ => .bind (maintains_setBusy stands) fun _ => induction

theorem maintains_markAllocated (stands : Paged.StandsWrites holds) {regions : List Region} :
    (markAllocated regions).Maintains holds := by
  induction regions with
  | nil => exact .pure
  | cons region rest induction =>
      rw [markAllocated]
      split
      · exact .bind (maintains_markPages stands) fun _ => induction
      · exact induction

theorem maintains_reportUnknown {regions : List Region} :
    (reportUnknown regions).Maintains holds := by
  intro paged before
  rw [run_reportUnknown]
  exact before

theorem maintains_space {G : Type} {manager : FrameManager} {holds : Paged G → Prop} :
    (manager.space : Operation (Paged G) Refusal AddressSpace).Maintains holds := by
  unfold FrameManager.space
  cases manager.root with
  | none => exact .refuse
  | some root => exact .pure

theorem unchanged_of_run_space {G : Type} {manager : FrameManager} {before after : Paged G}
    {outcome : Outcome Refusal AddressSpace}
    (ran : (manager.space : Operation (Paged G) Refusal AddressSpace).run before =
      (outcome, after)) : after = before := by
  have maintains : (manager.space : Operation (Paged G) Refusal AddressSpace).Maintains
      (· = before) := maintains_space
  exact maintains.of_run rfl ran

theorem maintains_change {holds : FrameManager → Prop} {change : FrameManager → FrameManager}
    (keeps : ∀ manager, holds manager → holds (change manager)) :
    (FrameManager.change change : Operation (Paged FrameManager) ε Unit).Maintains
      (AtSource holds) :=
  fun paged before => keeps paged.source before

theorem Request.maintains (stands : Paged.StandsWrites holds) {request : Request α} :
    request.operation.Maintains holds := by
  cases request with
  | markBusy page =>
      exact .bind maintains_requireReady fun _ =>
        .bind (.reportRefusal (maintains_setBusy stands)) fun _ => .report
  | free page =>
      exact .bind maintains_requireReady fun _ =>
        .bind (.reportRefusal (maintains_setBusy stands)) fun _ => .report
  | isBusy page =>
      exact .bind maintains_requireReady fun _ => .bind maintains_locate fun _ =>
        maintains_readBitmap
  | allocate => exact maintains_allocate stands
  | freePageCount => exact .bind .state fun _ => .check

theorem maintains_mapOwn {holds : FrameManager → Prop} {target : PhysicalAddress}
    {address : VirtualAddress} {rights : Rights} :
    (FrameManager.map target address rights).Maintains (AtSource holds) :=
  .bind maintains_requireReady fun _ => .bind maintains_current fun _ =>
    .bind maintains_space fun _ => .mapRefusal (AddressSpace.maintains_map
      (maintains_allocate (Paged.standsWrites_atSource holds)))

end

/-! ## Mapping behind the image -/

/-- Whether a property of a manager stays true when its next virtual address moves on. -/
def StandsMoving (holds : FrameManager → Prop) : Prop :=
  ∀ manager next, holds manager → manager.nextVirtual.value ≤ next.value →
    holds { manager with nextVirtual := next }

section

variable {F : Type} {holds : FrameManager → Prop} {base : PhysicalAddress} {count : Nat}
  {rights : Rights}

abbrev AtManager (holds : FrameManager → Prop) : Paged (FrameManager × F) → Prop :=
  AtSource fun sources => holds sources.1

variable [FrameSource F]

/-- The next virtual address lies at or below the page to map, so it moves on with it. -/
theorem holds_run_mapPages (stands : StandsMoving holds) {space : AddressSpace}
    {start : VirtualAddress} {index : Nat} {before : Paged (FrameManager × F)}
    (held : AtManager holds before)
    (behind : before.source.1.nextVirtual.value ≤ start.value + index * 4096) :
    AtManager holds ((mapPages space base start rights index count).run before).2 := by
  induction count generalizing index before with
  | zero => exact held
  | succ count induction =>
      rw [mapPages]
      refine holds_run_check held fun offset product => ?_
      refine holds_run_check held fun target _ => ?_
      refine holds_run_check held fun address addressSum => ?_
      rcases Address.pageAfter_eq product addressSum with ⟨rfl, room⟩
      have value : (start.pageAfter index).value = start.value + index * 4096 :=
        Nat.mod_eq_of_lt room
      refine holds_run_bind held fun _ mapped mapping => ?_
      have manager := (Paged.of_run_onSecond mapping).2
      have stillHeld : AtManager holds mapped := by
        change holds mapped.source.1
        rwa [manager]
      refine holds_run_check stillHeld fun next nextSum => ?_
      have nextValue : next.value = start.value + (index + 1) * 4096 := by
        rw [Address.value_of_add nextSum, value]
        simp only [PageSize.bytes]
        omega
      have moved : holds { mapped.source.1 with nextVirtual := next } := by
        refine stands _ _ stillHeld ?_
        rw [manager]
        omega
      exact induction moved (Nat.le_of_eq nextValue)

theorem maintains_mapBeyond (stands : StandsMoving holds) :
    (mapBeyond base count rights :
      Operation (Paged (FrameManager × F)) Refusal VirtualAddress).Maintains
        (AtManager holds) := by
  intro before held
  refine holds_run_bind held fun _ _ isState => ?_
  cases isState
  refine holds_run_bind (maintains_space before held) fun space between working => ?_
  cases unchanged_of_run_space working
  have mapped : AtManager holds
      ((mapPages space base before.source.1.nextVirtual rights 0 count).run before).2 :=
    holds_run_mapPages stands held (Nat.le_add_right ..)
  refine holds_run_bind mapped fun _ after mapping => ?_
  rwa [mapping] at mapped

end

/-! ## Going forward -/

/-- Where a manager may get to: neither its stage nor its next virtual address goes back. -/
structure Forward (before after : FrameManager) : Prop where
  stage : before.stage.rank ≤ after.stage.rank
  cursor : before.nextVirtual.value ≤ after.nextVirtual.value

theorem Forward.refl (manager : FrameManager) : Forward manager manager :=
  ⟨Nat.le_refl _, Nat.le_refl _⟩

theorem Forward.trans {before between after : FrameManager} (first : Forward before between)
    (second : Forward between after) : Forward before after :=
  ⟨Nat.le_trans first.stage second.stage, Nat.le_trans first.cursor second.cursor⟩

/-- Whether a manager has no ledger yet unless its bitmaps are allocated. -/
def IsBlankBefore (manager : FrameManager) : Prop :=
  manager.stage.rank < Stage.bitmapAllocated.rank → manager.ledger = .empty

structure Follows (before after : FrameManager) : Prop where
  forward : Forward before after
  blank : IsBlankBefore before → IsBlankBefore after

theorem Follows.refl (manager : FrameManager) : Follows manager manager :=
  ⟨.refl manager, id⟩

theorem Follows.trans {before between after : FrameManager} (first : Follows before between)
    (second : Follows between after) : Follows before after :=
  ⟨first.forward.trans second.forward, second.blank ∘ first.blank⟩

theorem standsMoving_follows (before : FrameManager) : StandsMoving (Follows before) :=
  fun _ _ follows further =>
    ⟨⟨follows.forward.stage, Nat.le_trans follows.forward.cursor further⟩, follows.blank⟩

theorem Follows.opened {given manager after : FrameManager} (follows : Follows given manager)
    (cursor : after.nextVirtual = manager.nextVirtual)
    (stage : given.stage.rank ≤ after.stage.rank)
    (allocated : Stage.bitmapAllocated.rank ≤ after.stage.rank) : Follows given after := by
  refine ⟨⟨stage, ?_⟩, fun _ below => absurd below (Nat.not_lt.2 allocated)⟩
  rw [cursor]
  exact follows.forward.cursor

theorem Stage.rank_le_ready (stage : Stage) : stage.rank ≤ Stage.ready.rank := by
  cases stage <;> decide

theorem maintains_openLedger {given : FrameManager} (early : given.stage = .selfMapInstalled)
    {address : VirtualAddress} {host : PhysicalAddress} {layout : Ledger.Layout}
    {regions : List Region} :
    (openLedger address host layout regions).Maintains (AtSource (Follows given)) := by
  have stage : given.stage.rank ≤ Stage.bitmapAllocated.rank := by
    rw [early]
    decide
  have stands := Paged.standsWrites_atSource (Follows given)
  exact .bind maintains_current fun _ => .bind .check fun _ => .bind Paged.maintains_inspect
    fun _ => .bind (Paged.maintains_changeMemory stands) fun _ => .bind
    (maintains_change fun manager follows => follows.opened rfl stage (Nat.le_refl _)) fun _ =>
    .bind .report fun _ => Paged.maintains_alter stands

/-- Between two stages of taking over nothing is undone, however far it gets. -/
theorem maintains_adopt {given : FrameManager} (early : given.stage = .selfMapInstalled)
    {regions : List Region} : (adopt regions).Maintains (AtSource (Follows given)) := by
  have stands := Paged.standsWrites_atSource (Follows given)
  refine .bind maintains_current fun _ => .bind maintains_requireStage fun _ =>
    .bind maintains_reportUnknown fun _ => .bind .check fun layout => .bind .check fun bytes => ?_
  cases regions.find? (canHost bytes) with
  | none => exact .bind .report fun _ => .refuse
  | some region =>
      exact .bind .check fun strip => .bind (Paged.maintains_lending
        (maintains_mapBeyond (standsMoving_follows given))) fun _ =>
        .bind (maintains_openLedger early) fun _ => .bind (maintains_markAllocated stands) fun _ =>
        .bind .check fun _ => .bind .check fun _ => .bind (maintains_markPages stands) fun _ =>
        .bind (maintains_change fun manager follows =>
          follows.opened rfl given.stage.rank_le_ready
            (Stage.rank_le_ready .bitmapAllocated)) fun _ =>
        .bind .state fun _ => .bind .check fun _ => .report

theorem follows_of_adopt (regions : List Region) (before : Paged FrameManager) :
    Follows before.source ((adopt regions).run before).2.source := by
  by_cases early : before.source.stage = .selfMapInstalled
  · exact maintains_adopt early before (.refl _)
  · have refused : (before.source.requireStage .selfMapInstalled :
        Operation (Paged FrameManager) Refusal Unit).run before =
          (.refused (.wrongStage .selfMapInstalled before.source.stage), before) := by
      rw [requireStage, if_neg early, run_refuse]
    rw [adopt, run_bind_of_done (run_current before), run_bind_of_refused refused]
    exact .refl _

theorem stage_of_run_adopt {regions : List Region} {before after : Paged FrameManager}
    (done : (adopt regions).run before = (.done (), after)) :
    before.source.stage = .selfMapInstalled := by
  rw [adopt] at done
  rcases of_run_bind done with ⟨_, _, isCurrent, done⟩
  cases isCurrent
  rcases of_run_bind done with ⟨_, _, staged, _⟩
  exact (of_run_requireStage staged).1

/-! ## Installing the recursive map -/

namespace Installs

variable {root : Frame} {before after : Paged FrameManager} {outcome : Outcome Refusal Unit}

theorem follows (installs : Installs root before outcome after) :
    Follows before.source after.source := by
  have moved (first : before.source.stage = .uninitialized) : Follows before.source
      { before.source with root := some root, stage := .selfMapInstalled } := by
    have early : before.source.stage.rank = 0 := by rw [first]; rfl
    refine ⟨⟨?_, Nat.le_refl _⟩, fun blank _ => blank ?_⟩
    · rw [early]
      exact Nat.zero_le _
    · rw [early]
      decide
  cases installs with
  | kept first _ => exact moved first
  | written first _ _ _ source =>
      rw [source]
      exact moved first
  | taken => exact .refl _
  | late => exact .refl _
  | outside => exact .refl _

theorem sameButSlot (installs : Installs root before outcome after) :
    Hierarchy.SameButSlot root RecursiveMap.slot before.memory after.memory := by
  cases installs with
  | written _ _ _ memory _ =>
      rw [memory]
      exact RecursiveMap.sameButSlot_install root before.memory
  | kept | taken | late | outside => exact fun _ _ _ => rfl

/-- The slot was free or the root's own. It holds the root afterwards if an entry can. -/
theorem of_done (installs : Installs root before (.done ()) after) :
    before.source.stage = .uninitialized ∧ after.source.stage = .selfMapInstalled ∧
      ((RecursiveMap.entryOf before.memory root).present = false ∨
        (RecursiveMap.entryOf before.memory root).frame = root) ∧
      (RecursiveMap.isInstalled after.memory root = true ↔ root.IsLinkable) := by
  cases installs with
  | kept first installed =>
      refine ⟨first, rfl, .inr ?_,
        iff_of_true installed (RecursiveMap.isLinkable_of_isInstalled installed)⟩
      simp only [RecursiveMap.isInstalled, Bool.and_eq_true, beq_iff_eq] at installed
      exact installed.2
  | written first inside absent memory source =>
      refine ⟨first, ?_, .inl absent, RecursiveMap.isLinkable_of_isInstalled, fun linkable => ?_⟩
      · rw [source]
      · rw [memory]
        exact RecursiveMap.isInstalled_install inside linkable

theorem of_refused {cause : Refusal} (installs : Installs root before (.refused cause) after) :
    after = before := by
  cases installs <;> rfl

end Installs

/-! ## Calls out of turn -/

def Refusal.IsOutOfTurn : Refusal → Prop
  | .wrongStage .. => True
  | _ => False

abbrev Refusal.IsInTurn (cause : Refusal) : Prop :=
  ¬ cause.IsOutOfTurn

theorem refusesOnly_current {ε : Type} {allowed : ε → Prop} :
    (current : Operation (Paged FrameManager) ε FrameManager).RefusesOnly allowed :=
  .bind .state fun _ => .pure

theorem refusesOnly_locate {page : Frame} : (locate page).RefusesOnly Refusal.IsInTurn := by
  refine .bind refusesOnly_current fun _ => .bind Paged.refusesOnly_inspect fun place => ?_
  cases place with
  | outside => exact .refuse id
  | unavailable => exact .refuse id
  | bit descriptor index => exact .pure

theorem refusesOnly_setBit {ε : Type} {allowed : ε → Prop} {descriptor : Descriptor} {index : Nat}
    {busy : Bool} : (setBit (ε := ε) descriptor index busy).RefusesOnly allowed :=
  .bind refusesOnly_current fun _ =>
    .bind (.bind refusesOnly_current fun _ => Paged.refusesOnly_inspect) fun _ =>
      Paged.refusesOnly_changeMemory

theorem refusesOnly_setBusy {page : Frame} {busy : Bool} :
    (setBusy page busy).RefusesOnly Refusal.IsInTurn :=
  .bind refusesOnly_locate fun _ => refusesOnly_setBit

theorem refusesOnly_change {ε : Type} {allowed : ε → Prop} {change : FrameManager → FrameManager} :
    (FrameManager.change change : Operation (Paged FrameManager) ε Unit).RefusesOnly allowed :=
  Paged.refusesOnly_onSource .update

theorem refusesOnly_openLedger {address : VirtualAddress} {host : PhysicalAddress}
    {layout : Ledger.Layout} {regions : List Region} {allowed : Refusal → Prop} :
    (openLedger address host layout regions).RefusesOnly allowed :=
  .bind refusesOnly_current fun _ => .bind .check fun _ => .bind Paged.refusesOnly_inspect fun _ =>
    .bind Paged.refusesOnly_changeMemory fun _ => .bind refusesOnly_change fun _ =>
    .bind .report fun _ => Paged.refusesOnly_alter

theorem refusesOnly_markPages {first : Frame} {index count : Nat} :
    (markPages first index count).RefusesOnly Refusal.IsInTurn := by
  induction count generalizing index with
  | zero => exact .pure
  | succ count induction =>
      exact .bind .check fun _ => .bind refusesOnly_setBusy fun _ => induction

theorem refusesOnly_markAllocated {regions : List Region} :
    (markAllocated regions).RefusesOnly Refusal.IsInTurn := by
  induction regions with
  | nil => exact .pure
  | cons region rest induction =>
      rw [markAllocated]
      split
      · exact .bind refusesOnly_markPages fun _ => induction
      · exact induction

theorem refusesOnly_mapPages {F : Type} [FrameSource F] {space : AddressSpace}
    {base : PhysicalAddress} {start : VirtualAddress} {rights : Rights} {index count : Nat} :
    (mapPages space base start rights index count :
      Operation (Paged (FrameManager × F)) Refusal Unit).RefusesOnly Refusal.IsInTurn := by
  induction count generalizing index with
  | zero => exact .pure
  | succ count induction =>
      exact .bind .check fun _ => .bind .check fun _ => .bind .check fun _ =>
        .bind (Paged.refusesOnly_onSecond (.mapRefusal fun _ => id)) fun _ => .bind .check fun _ =>
        .bind (Paged.refusesOnly_onSource .update) fun _ => induction

theorem spares_mapBeyond {F : Type} [FrameSource F] {base : PhysicalAddress} {count : Nat}
    {rights : Rights} :
    (mapBeyond base count rights :
      Operation (Paged (FrameManager × F)) Refusal VirtualAddress).Spares Refusal.IsOutOfTurn :=
  .bind_reading (fun _ => .state) fun _ => .bind_reading (fun _ => maintains_space) fun _ =>
    .of_refusesOnly (.bind refusesOnly_mapPages fun _ => .bind .report fun _ => .pure)

theorem spares_adopt {regions : List Region} :
    (adopt regions).Spares Refusal.IsOutOfTurn := by
  refine .bind_reading (fun _ => maintains_current) fun _ =>
    .bind_reading (fun _ => maintains_requireStage) fun _ =>
    .bind_reading (fun _ => maintains_reportUnknown) fun _ =>
    .bind_reading (fun _ => .check) fun layout => .bind_reading (fun _ => .check) fun bytes => ?_
  cases regions.find? (canHost bytes) with
  | none => exact .of_refusesOnly (.bind .report fun _ => .refuse id)
  | some region =>
      exact .bind_reading (fun _ => .check) fun strip =>
        .bind_refusing (Paged.spares_lending spares_mapBeyond) fun _ =>
        .bind refusesOnly_openLedger fun _ => .bind refusesOnly_markAllocated fun _ =>
        .bind .check fun _ => .bind .check fun _ => .bind refusesOnly_markPages fun _ =>
        .bind refusesOnly_change fun _ => .bind .state fun _ => .bind .check fun _ => .report

theorem spares_mapOwn {target : PhysicalAddress} {address : VirtualAddress} {rights : Rights} :
    (FrameManager.map target address rights).Spares Refusal.IsOutOfTurn :=
  .bind_reading (fun _ => maintains_requireReady) fun _ =>
    .bind_reading (fun _ => maintains_current) fun _ =>
    .bind_reading (fun _ => maintains_space) fun _ => .of_refusesOnly (.mapRefusal fun _ => id)

theorem refusesOnly_allocateFrom {ε : Type} {allowed : ε → Prop} {tracked : List Descriptor} :
    (allocateFrom (ε := ε) tracked).RefusesOnly allowed := by
  induction tracked with
  | nil => exact .bind .report fun _ => .pure
  | cons descriptor rest induction =>
      refine .bind (.bind refusesOnly_current fun _ => Paged.refusesOnly_inspect) fun found => ?_
      cases found with
      | none => exact induction
      | some index =>
          exact .bind refusesOnly_setBit fun _ => .bind .check fun _ => .bind .report fun _ => .pure

theorem Request.spares {α : Type} {request : Request α} :
    request.operation.Spares Refusal.IsOutOfTurn := by
  cases request with
  | markBusy page =>
      exact .bind_reading (fun _ => maintains_requireReady) fun _ =>
        .of_refusesOnly (.bind (.reportRefusal refusesOnly_setBusy) fun _ => .report)
  | free page =>
      exact .bind_reading (fun _ => maintains_requireReady) fun _ =>
        .of_refusesOnly (.bind (.reportRefusal refusesOnly_setBusy) fun _ => .report)
  | isBusy page =>
      exact .bind_reading (fun _ => maintains_requireReady) fun _ =>
        .of_refusesOnly (.bind refusesOnly_locate fun _ =>
          .bind refusesOnly_current fun _ => Paged.refusesOnly_inspect)
  | allocate =>
      refine .bind_reading (fun _ => maintains_current) fun manager => .of_refusesOnly ?_
      split
      · exact .bind Paged.refusesOnly_inspect fun _ => refusesOnly_allocateFrom
      · exact .pure
  | freePageCount => exact .of_refusesOnly (.bind .state fun _ => .check)

theorem run_allocate_of_not_ready {ε : Type} {before : Paged FrameManager}
    (early : before.source.stage ≠ .ready) :
    (allocate : Operation (Paged FrameManager) ε (Option Frame)).run before =
      (.done none, before) := by
  rw [allocate, run_bind_of_done (run_current before), if_neg early, run_pure]

end FrameManager

end EarlyMemory
