import EarlyMemory.Proofs.FrameManager.Mapping
import EarlyMemory.Proofs.FrameManager.Pages
import EarlyMemory.Proofs.Paging.SelfMap

/-!
# Runs of the kernel

Once its manager is up, the kernel allocates pages, marks pages as busy, frees pages it
holds and maps pages outside the recursive slot. Throughout, the manager stays ready, what
it offers was usable from the start, and it offers no page that is held or marked.
-/

namespace EarlyMemory.Kernel

open Operation
open FrameManager (HandsOut Marks Supplies allocate allocate_spec marks_of_setBusy setBusy
  spaceBelow)
open Memory (AgreesOutside)

variable {root page frame : Frame} {manager : FrameManager} {keeps usable : Frame → Prop}
  {held busy : List Frame} {start before after : Paged FrameManager}
  {target : PhysicalAddress} {address : VirtualAddress} {rights : Rights}

/-- Where the kernel gets from a manager that is up, with the pages it holds and the pages
it marked as busy and did not free since. -/
inductive Reaches (start : Paged FrameManager) :
    List Frame → List Frame → Paged FrameManager → Prop
  | start : Reaches start [] [] start
  | allocated {held busy : List Frame} {before after : Paged FrameManager} {page : Frame}
      (earlier : Reaches start held busy before)
      (ran : (allocate : Operation _ FrameManager.Refusal _).run before =
        (.done (some page), after)) : Reaches start (page :: held) busy after
  | refused {held busy : List Frame} {before after : Paged FrameManager}
      {outcome : Outcome FrameManager.Refusal (Option Frame)}
      (earlier : Reaches start held busy before)
      (ran : allocate.run before = (outcome, after))
      (nothing : ∀ page, outcome ≠ .done (some page)) : Reaches start held busy after
  | marked {held busy : List Frame} {before after : Paged FrameManager} {page : Frame}
      (earlier : Reaches start held busy before)
      (ran : (FrameManager.markBusy page).run before = (.done (), after)) :
      Reaches start held (page :: busy) after
  | unmarked {held busy : List Frame} {before after : Paged FrameManager} {page : Frame}
      {outcome : Outcome FrameManager.Refusal Unit} (earlier : Reaches start held busy before)
      (ran : (FrameManager.markBusy page).run before = (outcome, after))
      (fails : outcome ≠ .done ()) : Reaches start held busy after
  | freed {held busy : List Frame} {before after : Paged FrameManager} {page : Frame}
      (earlier : Reaches start held busy before) (isHeld : page ∈ held)
      (ran : (FrameManager.free page).run before = (.done (), after)) :
      Reaches start (held.filter (· ≠ page)) (busy.filter (· ≠ page)) after
  | unfreed {held busy : List Frame} {before after : Paged FrameManager} {page : Frame}
      {outcome : Outcome FrameManager.Refusal Unit} (earlier : Reaches start held busy before)
      (isHeld : page ∈ held) (ran : (FrameManager.free page).run before = (outcome, after))
      (fails : outcome ≠ .done ()) : Reaches start held busy after
  | mapped {held busy : List Frame} {before after : Paged FrameManager}
      {target : PhysicalAddress} {address : VirtualAddress} {rights : Rights}
      {outcome : Outcome FrameManager.Refusal Unit} (earlier : Reaches start held busy before)
      (clear : Level.pml4.index address ≠ RecursiveMap.slot)
      (ran : (FrameManager.map target address rights).run before = (outcome, after)) :
      Reaches start held busy after

/-! ## What holds throughout -/

structure IsSpare (root : Frame) (memory : Memory) (keeps : Frame → Prop) (frame : Frame) :
    Prop where
  inside : memory.HasFrame frame
  linkable : frame.IsLinkable
  unused : ¬ (spaceBelow root).hierarchy.IsTable memory frame
  unkept : ¬ keeps frame

structure IsSafe (root : Frame) (manager : FrameManager) (keeps usable : Frame → Prop)
    (held busy : List Frame) (paged : Paged FrameManager) : Prop where
  active : manager.active = root
  owner : manager.root = some root
  ready : (spaceBelow root).Ready (FrameManager.supply manager) paged
    (manager.ledger.Offers paged.memory) keeps
  offered : ∀ frame, manager.ledger.Offers paged.memory frame → usable frame
  held : ∀ frame ∈ held, usable frame ∧ IsSpare root paged.memory keeps frame ∧
    ¬ manager.ledger.Offers paged.memory frame
  busy : ∀ frame ∈ busy, ¬ manager.ledger.Offers paged.memory frame

namespace IsSafe

theorem source (safe : IsSafe root manager keeps usable held busy before) :
    before.source = manager :=
  safe.ready.supplied.1

theorem supplies (safe : IsSafe root manager keeps usable held busy before) :
    Supplies before.memory before.source (manager.ledger.Offers before.memory) keeps :=
  safe.ready.supplied.2

theorem orderly (safe : IsSafe root manager keeps usable held busy before) :
    manager.ledger.IsOrderly before.memory keeps := by
  have orderly := safe.supplies.orderly
  rwa [safe.source] at orderly

theorem isSpare (safe : IsSafe root manager keeps usable held busy before)
    (offered : manager.ledger.Offers before.memory frame) :
    IsSpare root before.memory keeps frame := by
  rcases safe.ready.offered frame offered with ⟨inside, linkable, unused, unkept⟩
  exact ⟨inside, linkable, unused, unkept⟩

/-- Whatever changes only the ledger leaves the kernel safe, as long as what the ledger
offers then is usable and neither held nor busy. -/
theorem of_records {heldAfter busyAfter : List Frame}
    (safe : IsSafe root manager keeps usable held busy before)
    (agrees : AgreesOutside keeps before.memory after.memory)
    (source : after.source = before.source)
    (orderly : manager.ledger.IsOrderly after.memory keeps)
    (offered : ∀ frame, manager.ledger.Offers after.memory frame →
      usable frame ∧ IsSpare root before.memory keeps frame)
    (heldSafe : ∀ frame ∈ heldAfter, usable frame ∧ IsSpare root before.memory keeps frame ∧
      ¬ manager.ledger.Offers after.memory frame)
    (busySafe : ∀ frame ∈ busyAfter, ¬ manager.ledger.Offers after.memory frame) :
    IsSafe root manager keeps usable heldAfter busyAfter after := by
  have sourceAfter : after.source = manager := source.trans safe.source
  have supplied : (FrameManager.supply manager).Holds after.memory after.source
      (manager.ledger.Offers after.memory) keeps := by
    refine ⟨sourceAfter, ?_, ?_, ?_⟩
    · rw [source]
      exact safe.supplies.ready
    · rwa [sourceAfter]
    · intro frame
      rw [sourceAfter]
  rcases safe.ready.of_records agrees supplied fun frame left =>
      ⟨(offered frame left).2.inside, (offered frame left).2.linkable,
        (offered frame left).2.unused, (offered frame left).2.unkept⟩ with ⟨ready, grows⟩
  refine ⟨safe.active, safe.owner, ready, fun frame left => (offered frame left).1,
    fun frame isHeld => ?_, busySafe⟩
  rcases heldSafe frame isHeld with ⟨isUsable, spare, notOffered⟩
  refine ⟨isUsable, ⟨?_, spare.linkable, fun isTable => ?_, spare.unkept⟩, notOffered⟩
  · exact (agrees.hasFrame_iff frame).2 spare.inside
  · exact spare.unused ((grows.tables frame isTable).resolve_right id)

/-! ## Marking -/

theorem offers_of_marks {mark : Bool} (safe : IsSafe root manager keeps usable held busy before)
    (marks : Marks page mark before after (.done ())) :
    AgreesOutside keeps before.memory after.memory ∧ after.source = before.source ∧
      manager.ledger.IsOrderly after.memory keeps ∧
      ∀ frame, manager.ledger.Offers after.memory frame ↔
        lowMemoryEnd.value ≤ frame.number * 4096 ∧
          if frame = page then mark = false else manager.ledger.IsFree before.memory frame := by
  cases marks with
  | done member tracks memory source =>
      rw [safe.source] at member memory
      have orderly := safe.orderly
      rw [memory]
      have hasBit := Ledger.hasBit_of_tracks orderly member tracks
      refine ⟨Ledger.agreesOutside_marked orderly member hasBit mark, source,
        orderly.marked member tracks mark, fun frame => ?_⟩
      rw [Ledger.Offers, Ledger.isFree_marked orderly member tracks mark]

theorem of_marks_busy (safe : IsSafe root manager keeps usable held busy before)
    (marks : Marks page true before after (.done ())) :
    IsSafe root manager keeps usable held (page :: busy) after := by
  rcases safe.offers_of_marks marks with ⟨agrees, source, orderly, offers⟩
  have fewer : ∀ frame, manager.ledger.Offers after.memory frame →
      manager.ledger.Offers before.memory frame ∧ frame ≠ page := by
    intro frame offered
    rcases (offers frame).1 offered with ⟨high, free⟩
    split at free
    next => cases free
    next elsewhere => exact ⟨⟨high, free⟩, elsewhere⟩
  apply safe.of_records agrees source orderly
  · intro frame offered
    exact ⟨safe.offered frame (fewer frame offered).1, safe.isSpare (fewer frame offered).1⟩
  · intro frame isHeld
    rcases safe.held frame isHeld with ⟨isUsable, spare, notOffered⟩
    exact ⟨isUsable, spare, fun offered => notOffered (fewer frame offered).1⟩
  · rw [List.forall_mem_cons]
    exact ⟨fun offered => (fewer page offered).2 rfl,
      fun frame isBusy offered => safe.busy frame isBusy (fewer frame offered).1⟩

theorem of_marks_free (safe : IsSafe root manager keeps usable held busy before)
    (isHeld : page ∈ held) (marks : Marks page false before after (.done ())) :
    IsSafe root manager keeps usable (held.filter (· ≠ page)) (busy.filter (· ≠ page)) after := by
  rcases safe.offers_of_marks marks with ⟨agrees, source, orderly, offers⟩
  have elsewhere : ∀ frame, manager.ledger.Offers after.memory frame → frame ≠ page →
      manager.ledger.Offers before.memory frame := by
    intro frame offered different
    rcases (offers frame).1 offered with ⟨high, free⟩
    rw [if_neg different] at free
    exact ⟨high, free⟩
  rcases safe.held page isHeld with ⟨pageUsable, pageSpare, _⟩
  apply safe.of_records agrees source orderly
  · intro frame offered
    by_cases here : frame = page
    · rw [here]
      exact ⟨pageUsable, pageSpare⟩
    · exact ⟨safe.offered frame (elsewhere frame offered here),
        safe.isSpare (elsewhere frame offered here)⟩
  · intro frame stillHeld
    rcases List.mem_filter.1 stillHeld with ⟨wasHeld, different⟩
    rcases safe.held frame wasHeld with ⟨isUsable, spare, notOffered⟩
    exact ⟨isUsable, spare,
      fun offered => notOffered (elsewhere frame offered (of_decide_eq_true different))⟩
  · intro frame stillBusy offered
    rcases List.mem_filter.1 stillBusy with ⟨wasBusy, different⟩
    exact safe.busy frame wasBusy (elsewhere frame offered (of_decide_eq_true different))

theorem stage (safe : IsSafe root manager keeps usable held busy before) :
    before.source.stage = .ready :=
  safe.supplies.ready

theorem markBusy {outcome : Outcome FrameManager.Refusal Unit}
    (safe : IsSafe root manager keeps usable held busy before)
    (ran : (FrameManager.markBusy page).run before = (outcome, after)) :
    (outcome = .done () → IsSafe root manager keeps usable held (page :: busy) after) ∧
      (outcome ≠ .done () → IsSafe root manager keeps usable held busy after) := by
  rw [FrameManager.run_markBusy safe.stage] at ran
  have marks := marks_of_setBusy safe.supplies.orderly ran
  refine ⟨fun isDone => ?_, fun fails => ?_⟩
  · rw [isDone] at marks
    exact safe.of_marks_busy marks
  · cases marks with
    | done => exact absurd rfl fails
    | outside _ same => rwa [same]
    | unavailable _ same => rwa [same]

theorem free {outcome : Outcome FrameManager.Refusal Unit}
    (safe : IsSafe root manager keeps usable held busy before) (isHeld : page ∈ held)
    (ran : (FrameManager.free page).run before = (outcome, after)) :
    (outcome = .done () → IsSafe root manager keeps usable (held.filter (· ≠ page))
        (busy.filter (· ≠ page)) after) ∧
      (outcome ≠ .done () → IsSafe root manager keeps usable held busy after) := by
  rw [FrameManager.run_free safe.stage] at ran
  have marks := marks_of_setBusy safe.supplies.orderly ran
  refine ⟨fun isDone => ?_, fun fails => ?_⟩
  · rw [isDone] at marks
    exact safe.of_marks_free isHeld marks
  · cases marks with
    | done => exact absurd rfl fails
    | outside _ same => rwa [same]
    | unavailable _ same => rwa [same]

/-! ## Allocating -/

theorem allocate {outcome : Outcome FrameManager.Refusal (Option Frame)}
    (safe : IsSafe root manager keeps usable held busy before)
    (ran : FrameManager.allocate.run before = (outcome, after)) :
    (∃ page, outcome = .done (some page) ∧ manager.ledger.Offers before.memory page ∧
        IsSafe root manager keeps usable (page :: held) busy after) ∨
      (outcome = .done none ∧ IsSafe root manager keeps usable held busy after) := by
  rcases allocate_spec (ε := FrameManager.Refusal) safe.stage safe.supplies.orderly with
    ⟨_, _, same, handsOut⟩
  rw [ran] at same
  cases same
  cases handsOut with
  | dry same =>
      rw [same]
      exact .inr ⟨rfl, safe⟩
  | @page descriptor index page member tracks offered lowest memory source =>
      rw [safe.source] at member memory offered
      have orderly := safe.orderly
      have offers : ∀ frame, manager.ledger.Offers after.memory frame ↔
          manager.ledger.Offers before.memory frame ∧ frame ≠ page := by
        intro frame
        rw [memory]
        exact FrameManager.offers_marked orderly member tracks
      refine .inl ⟨page, rfl, offered, safe.of_records ?_ source ?_ ?_ ?_ ?_⟩
      · rw [memory]
        exact Ledger.agreesOutside_marked orderly member
          (Ledger.hasBit_of_tracks orderly member tracks) true
      · rw [memory]
        exact orderly.marked member tracks true
      · intro frame left
        have was := ((offers frame).1 left).1
        exact ⟨safe.offered frame was, safe.isSpare was⟩
      · rw [List.forall_mem_cons]
        refine ⟨⟨safe.offered page offered, safe.isSpare offered,
          fun left => ((offers page).1 left).2 rfl⟩, fun frame isHeld => ?_⟩
        rcases safe.held frame isHeld with ⟨isUsable, spare, notOffered⟩
        exact ⟨isUsable, spare, fun left => notOffered ((offers frame).1 left).1⟩
      · exact fun frame isBusy left => safe.busy frame isBusy ((offers frame).1 left).1

/-! ## Mapping -/

theorem map {outcome : Outcome FrameManager.Refusal Unit}
    (safe : IsSafe root manager keeps usable held busy before)
    (clear : Level.pml4.index address ≠ RecursiveMap.slot)
    (ran : (FrameManager.map target address rights).run before = (outcome, after)) :
    IsSafe root manager keeps usable held busy after ∧
      (spaceBelow root).hierarchy.Extends (manager.ledger.Offers before.memory)
        before.memory after.memory := by
  have leads : (spaceBelow root).hierarchy.Leads address :=
    Hierarchy.leads_without.2 clear
  rcases AddressSpace.map_spec target rights safe.ready leads with
    ⟨ending, reached, rest, mapped, advances, _⟩
  have same : after = reached := by
    rw [FrameManager.run_map target address rights safe.stage
      (safe.source.symm ▸ safe.active) (safe.source.symm ▸ safe.owner), run_mapRefusal,
      mapped] at ran
    cases ending <;> exact (congrArg Prod.snd ran).symm
  subst same
  rcases advances.ready.supplied with ⟨source, supplies⟩
  have offers : rest = manager.ledger.Offers after.memory := by
    funext frame
    rw [← source]
    exact propext (supplies.offers frame)
  subst offers
  refine ⟨⟨safe.active, safe.owner, advances.ready, ?_, ?_, ?_⟩, ?_⟩
  · exact fun frame left => safe.offered frame (advances.fewer frame left)
  · intro frame isHeld
    rcases safe.held frame isHeld with ⟨isUsable, spare, notOffered⟩
    refine ⟨isUsable, ⟨?_, spare.linkable, fun isTable => ?_, spare.unkept⟩, ?_⟩
    · exact (advances.agrees.hasFrame_iff frame).2 spare.inside
    · rcases advances.widened.tables frame isTable with old | fresh
      · exact spare.unused old
      · exact notOffered fresh.1
    · exact fun left => notOffered (advances.fewer frame left)
  · exact fun frame isBusy left => safe.busy frame isBusy (advances.fewer frame left)
  · exact advances.widened.mono fun _ fresh => fresh.1

end IsSafe

/-- Wherever the kernel gets, it is safe there if it was when its manager came up. -/
theorem Reaches.isSafe (reaches : Reaches start held busy after)
    (safe : IsSafe root manager keeps usable [] [] start) :
    IsSafe root manager keeps usable held busy after := by
  induction reaches with
  | start => exact safe
  | allocated earlier ran induction =>
      rcases induction.allocate ran with ⟨page, answer, _, safeAfter⟩ | ⟨answer, _⟩
      · cases answer
        exact safeAfter
      · cases answer
  | refused earlier ran nothing induction =>
      rcases induction.allocate ran with ⟨page, answer, _⟩ | ⟨_, safeAfter⟩
      · exact absurd answer (nothing page)
      · exact safeAfter
  | marked earlier ran induction => exact (induction.markBusy ran).1 rfl
  | unmarked earlier ran fails induction => exact (induction.markBusy ran).2 fails
  | freed earlier isHeld ran induction => exact (induction.free isHeld ran).1 rfl
  | unfreed earlier isHeld ran fails induction => exact (induction.free isHeld ran).2 fails
  | mapped earlier clear ran induction => exact (induction.map clear ran).1

end EarlyMemory.Kernel
