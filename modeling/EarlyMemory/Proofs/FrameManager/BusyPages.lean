import EarlyMemory.Proofs.FrameManager.Pages
import EarlyMemory.Proofs.Ledger.Counting

/-!
# Busy pages

To whoever asks for single pages a manager that is ready is a set of busy pages. A page is
marked, freed and told to be busy just in case it is managed; a request takes the lowest
page that is managed, not busy and outside low memory; and the count of free pages is the
number of managed pages that are not busy.
-/

namespace EarlyMemory.FrameManager

open Operation

variable {managed : Set Frame} {keeps : Frame → Prop} {before after : Paged FrameManager}
  {descriptor : Descriptor} {index : Nat} {page : Frame} {busy : Bool}

def busyPages (paged : Paged FrameManager) : Set Frame :=
  {page | ((isBusy page).run paged).1 = .done true}

/-- A manager that is ready, and whose ledger tracks the managed pages run after run. -/
structure AccountsFor (managed : Set Frame) (keeps : Frame → Prop) (paged : Paged FrameManager) :
    Prop where
  ready : paged.source.stage = .ready
  orderly : paged.source.ledger.IsOrderly paged.memory keeps
  sorted : (paged.source.ledger.descriptors paged.memory).Pairwise Descriptor.Precedes
  tracked : ∀ page, page ∈ managed ↔
    ∃ descriptor ∈ paged.source.ledger.descriptors paged.memory,
      ∃ index, descriptor.Tracks index page

/-! ## Looking a page up -/

/-- Why a manager refuses to look at a page. -/
def Refuses (page : Frame) (cause : Refusal) : Prop :=
  cause = .outOfRange page.base ∨ cause = .notAvailable page.base

/-- How a managed page is found, and any other one is not. -/
inductive LooksUp (managed : Set Frame) (paged : Paged FrameManager) (page : Frame) : Prop
  | found {descriptor : Descriptor} {index : Nat} (isManaged : page ∈ managed)
      (member : descriptor ∈ paged.source.ledger.descriptors paged.memory)
      (tracks : descriptor.Tracks index page)
      (located : paged.source.ledger.locate paged.memory page = .ok (.bit descriptor index))
  | missed {place : Ledger.Place} {cause : Refusal} (unmanaged : page ∉ managed)
      (located : paged.source.ledger.locate paged.memory page = .ok place)
      (answer : answerAt page place = .refused cause) (refuses : Refuses page cause)

namespace AccountsFor

variable (accounts : AccountsFor managed keeps before)

include accounts

theorem looksUp (page : Frame) : LooksUp managed before page := by
  rcases Ledger.locate_spec accounts.orderly.wellFormed accounts.sorted page with
    ⟨place, located, records⟩
  cases records with
  | bit member tracks =>
      exact .found ((accounts.tracked page).2 ⟨_, member, _, tracks⟩) member tracks located
  | outside missed =>
      refine .missed (fun isManaged => ?_) located rfl (.inl rfl)
      rcases (accounts.tracked page).1 isManaged with ⟨descriptor, member, index, tracks⟩
      exact missed descriptor member tracks.holdsPage
  | unavailable member holds other =>
      refine .missed (fun isManaged => ?_) located rfl (.inr rfl)
      rcases (accounts.tracked page).1 isManaged with ⟨descriptor, isMember, index, tracks⟩
      cases Ledger.eq_of_holdsPage accounts.sorted isMember tracks.holdsPage member holds
      exact other tracks.available

theorem not_mem_of_refused {place : Ledger.Place} {cause : Refusal}
    (located : before.source.ledger.locate before.memory page = .ok place)
    (answer : answerAt page place = .refused cause) : page ∉ managed := by
  intro isManaged
  cases accounts.looksUp page with
  | found _ _ _ found =>
      cases located.symm.trans found
      cases answer
  | missed unmanaged => exact unmanaged isManaged

theorem run_isBusy (member : descriptor ∈ before.source.ledger.descriptors before.memory)
    (tracks : descriptor.Tracks index page)
    (located : before.source.ledger.locate before.memory page = .ok (.bit descriptor index)) :
    (isBusy page).run before =
      (.done ((before.source.ledger.view before.memory descriptor).isSet index), before) := by
  have within := Ledger.index_div_lt accounts.orderly member tracks
  have read : (before.source.ledger.view before.memory descriptor).get index =
      .ok ((before.source.ledger.view before.memory descriptor).isSet index) := if_pos within
  rw [isBusy, run_bind_of_done (run_requireReady accounts.ready),
    run_bind_of_done (run_locate located),
    run_readBitmap (·.get index) accounts.orderly member tracks.available]
  simp only [read]

theorem run_isBusy_of_missed {place : Ledger.Place} {cause : Refusal}
    (located : before.source.ledger.locate before.memory page = .ok place)
    (answer : answerAt page place = .refused cause) :
    (isBusy page).run before = (.refused cause, before) := by
  rw [isBusy, run_bind_of_done (run_requireReady accounts.ready), run_bind, run_locate located,
    answer]

theorem mem_busyPages_iff : page ∈ busyPages before ↔
    page ∈ managed ∧ ¬ before.source.ledger.IsFree before.memory page := by
  change ((isBusy page).run before).1 = .done true ↔ _
  cases accounts.looksUp page with
  | found isManaged member tracks located =>
      rw [accounts.run_isBusy member tracks located,
        Ledger.isFree_iff_of_tracks accounts.orderly member tracks]
      simp [isManaged]
  | missed unmanaged located answer =>
      rw [accounts.run_isBusy_of_missed located answer]
      simp [unmanaged]

theorem isFree_iff : before.source.ledger.IsFree before.memory page ↔
    page ∈ managed \ busyPages before := by
  rw [Set.mem_sdiff, accounts.mem_busyPages_iff, accounts.tracked]
  constructor
  · intro free
    rcases free with ⟨descriptor, member, index, tracks, clear⟩
    exact ⟨⟨descriptor, member, index, tracks⟩,
      fun isBusy => isBusy.2 ⟨descriptor, member, index, tracks, clear⟩⟩
  · rintro ⟨isManaged, notBusy⟩
    exact Classical.byContradiction fun taken => notBusy ⟨isManaged, taken⟩

theorem run_isBusy_eq_false_iff : ((isBusy page).run before).1 = .done false ↔
    before.source.ledger.IsFree before.memory page := by
  cases accounts.looksUp page with
  | found isManaged member tracks located =>
      rw [accounts.run_isBusy member tracks located,
        Ledger.isFree_iff_of_tracks accounts.orderly member tracks, Outcome.done.injEq]
  | missed unmanaged located answer =>
      rw [accounts.run_isBusy_of_missed located answer, accounts.isFree_iff]
      simp [unmanaged]

theorem run_isBusy_eq_notAvailable_iff :
    ((isBusy page).run before).1 = .refused (.notAvailable page.base) ↔
      ∃ descriptor ∈ before.source.ledger.descriptors before.memory,
        descriptor.kind ≠ .available ∧ descriptor.HoldsPage page := by
  rcases Ledger.locate_spec accounts.orderly.wellFormed accounts.sorted page with
    ⟨place, located, records⟩
  cases records with
  | outside missed =>
      rw [accounts.run_isBusy_of_missed located rfl]
      refine iff_of_false (by simp) ?_
      rintro ⟨descriptor, member, _, holds⟩
      exact missed descriptor member holds
  | unavailable member holds other =>
      rw [accounts.run_isBusy_of_missed located rfl]
      exact iff_of_true rfl ⟨_, member, other, holds⟩
  | bit member tracks =>
      rw [accounts.run_isBusy member tracks located]
      refine iff_of_false (by simp) ?_
      rintro ⟨descriptor, isMember, other, holds⟩
      cases Ledger.eq_of_holdsPage accounts.sorted member tracks.holdsPage isMember holds
      exact other tracks.available

theorem run_isBusy_eq_outOfRange_iff :
    ((isBusy page).run before).1 = .refused (.outOfRange page.base) ↔
      ¬ ∃ descriptor ∈ before.source.ledger.descriptors before.memory,
        descriptor.HoldsPage page := by
  rcases Ledger.locate_spec accounts.orderly.wellFormed accounts.sorted page with
    ⟨place, located, records⟩
  cases records with
  | outside missed =>
      rw [accounts.run_isBusy_of_missed located rfl]
      exact iff_of_true rfl fun ⟨descriptor, member, holds⟩ => missed descriptor member holds
  | unavailable member holds =>
      rw [accounts.run_isBusy_of_missed located rfl]
      exact iff_of_false (by simp) (not_not_intro ⟨_, member, holds⟩)
  | bit member tracks =>
      rw [accounts.run_isBusy member tracks located]
      exact iff_of_false (by simp) (not_not_intro ⟨_, member, tracks.holdsPage⟩)

/-! ## Changing a page -/

theorem marked (member : descriptor ∈ before.source.ledger.descriptors before.memory)
    (tracks : descriptor.Tracks index page)
    (memory : after.memory = before.source.ledger.marked before.memory descriptor index busy)
    (source : after.source = before.source) : AccountsFor managed keeps after where
  ready := by
    rw [source]
    exact accounts.ready
  orderly := by
    rw [source, memory]
    exact accounts.orderly.marked member tracks busy
  sorted := by
    rw [source, memory, Ledger.descriptors_marked accounts.orderly member
      (Ledger.hasBit_of_tracks accounts.orderly member tracks) busy]
    exact accounts.sorted
  tracked := by
    rw [source, memory, Ledger.descriptors_marked accounts.orderly member
      (Ledger.hasBit_of_tracks accounts.orderly member tracks) busy]
    exact accounts.tracked

theorem of_agrees {touched : Frame → Prop}
    (agrees : Memory.AgreesOutside touched before.memory after.memory)
    (missed : ∀ frame, keeps frame → ¬ touched frame) (source : after.source = before.source) :
    AccountsFor managed keeps after where
  ready := by
    rw [source]
    exact accounts.ready
  orderly := by
    rw [source]
    exact (accounts.orderly.of_agrees agrees missed).1
  sorted := by
    rw [source, accounts.orderly.descriptors_eq agrees missed]
    exact accounts.sorted
  tracked := by
    rw [source, accounts.orderly.descriptors_eq agrees missed]
    exact accounts.tracked

theorem mem_busyPages_marked {other : Frame}
    (member : descriptor ∈ before.source.ledger.descriptors before.memory)
    (tracks : descriptor.Tracks index page)
    (memory : after.memory = before.source.ledger.marked before.memory descriptor index busy)
    (source : after.source = before.source) :
    other ∈ busyPages after ↔ if other = page then busy = true else other ∈ busyPages before := by
  have isManaged := (accounts.tracked page).2 ⟨descriptor, member, index, tracks⟩
  rw [(accounts.marked member tracks memory source).mem_busyPages_iff, source, memory,
    Ledger.isFree_marked accounts.orderly member tracks busy, accounts.mem_busyPages_iff]
  by_cases same : other = page
  · simp [same, isManaged]
  · simp [same]

end AccountsFor

/-! ## Requests -/

/-- A request to a manager, by what it is answered with. -/
inductive Request : Type → Type where
  | markBusy (page : Frame) : Request Unit
  | free (page : Frame) : Request Unit
  | isBusy (page : Frame) : Request Bool
  | allocate : Request (Option Frame)
  | freePageCount : Request Nat

namespace Request

variable {α : Type}

def operation : Request α → Operation (Paged FrameManager) Refusal α
  | .markBusy page => FrameManager.markBusy page
  | .free page => FrameManager.free page
  | .isBusy page => FrameManager.isBusy page
  | .allocate => FrameManager.allocate
  | .freePageCount => do
      let paged ← state
      check (FrameManager.freePageCount paged)

def page? : Request α → Option Frame
  | .markBusy page | .free page | .isBusy page => some page
  | .allocate | .freePageCount => none

end Request

/-- Whether a page lies outside the memory that is left to firmware. -/
def IsHigh (page : Frame) : Prop :=
  lowMemoryEnd.value ≤ page.number * 4096

/-- What a set of busy pages answers to a request, and the busy pages from then on. -/
inductive Allows (managed busy : Set Frame) :
    {α : Type} → Request α → Outcome Refusal α → Set Frame → Prop
  | marked {page : Frame} (isManaged : page ∈ managed) :
      Allows managed busy (.markBusy page) (.done ()) (insert page busy)
  | freed {page : Frame} (isManaged : page ∈ managed) :
      Allows managed busy (.free page) (.done ()) (busy \ {page})
  | told {page : Frame} {answer : Bool} (isManaged : page ∈ managed)
      (right : answer = true ↔ page ∈ busy) :
      Allows managed busy (.isBusy page) (.done answer) busy
  | refused {α : Type} {request : Request α} {page : Frame} {cause : Refusal}
      (names : request.page? = some page) (unmanaged : page ∉ managed)
      (refuses : Refuses page cause) : Allows managed busy request (.refused cause) busy
  | handed {page : Frame} (free : page ∈ managed \ busy) (high : IsHigh page)
      (lowest : ∀ other ∈ managed \ busy, IsHigh other → page.number ≤ other.number) :
      Allows managed busy .allocate (.done (some page)) (insert page busy)
  | exhausted (nothing : ∀ page ∈ managed \ busy, ¬ IsHigh page) :
      Allows managed busy .allocate (.done none) busy
  | counted : Allows managed busy .freePageCount (.done (managed \ busy).ncard) busy

namespace AccountsFor

variable (accounts : AccountsFor managed keeps before)

include accounts

theorem setBusy {outcome : Outcome Refusal Unit}
    (ran : (FrameManager.setBusy page busy).run before = (outcome, after)) :
    AccountsFor managed keeps after ∧
      ((page ∈ managed ∧ outcome = .done () ∧ ∀ other, other ∈ busyPages after ↔
          if other = page then busy = true else other ∈ busyPages before) ∨
        (page ∉ managed ∧ (∃ cause, outcome = .refused cause ∧ Refuses page cause) ∧
          after = before)) := by
  cases marks_of_setBusy accounts.orderly ran with
  | done member tracks memory source =>
      exact ⟨accounts.marked member tracks memory source,
        .inl ⟨(accounts.tracked page).2 ⟨_, member, _, tracks⟩, rfl,
          fun other => accounts.mem_busyPages_marked member tracks memory source⟩⟩
  | outside located unchanged =>
      subst unchanged
      exact ⟨accounts, .inr ⟨accounts.not_mem_of_refused located rfl, ⟨_, rfl, .inl rfl⟩, rfl⟩⟩
  | unavailable located unchanged =>
      subst unchanged
      exact ⟨accounts, .inr ⟨accounts.not_mem_of_refused located rfl, ⟨_, rfl, .inr rfl⟩, rfl⟩⟩

theorem markBusy {outcome : Outcome Refusal Unit}
    (ran : (FrameManager.markBusy page).run before = (outcome, after)) :
    AccountsFor managed keeps after ∧
      Allows managed (busyPages before) (.markBusy page) outcome (busyPages after) := by
  rw [run_markBusy accounts.ready] at ran
  rcases accounts.setBusy ran with
    ⟨kept, ⟨isManaged, rfl, busyAfter⟩ | ⟨unmanaged, ⟨cause, rfl, refuses⟩, rfl⟩⟩
  · have inserted : busyPages after = insert page (busyPages before) := by
      ext other
      rw [busyAfter, Set.mem_insert_iff]
      by_cases same : other = page <;> simp [same]
    rw [inserted]
    exact ⟨kept, .marked isManaged⟩
  · exact ⟨kept, .refused rfl unmanaged refuses⟩

theorem free {outcome : Outcome Refusal Unit}
    (ran : (FrameManager.free page).run before = (outcome, after)) :
    AccountsFor managed keeps after ∧
      Allows managed (busyPages before) (.free page) outcome (busyPages after) := by
  rw [run_free accounts.ready] at ran
  rcases accounts.setBusy ran with
    ⟨kept, ⟨isManaged, rfl, busyAfter⟩ | ⟨unmanaged, ⟨cause, rfl, refuses⟩, rfl⟩⟩
  · have removed : busyPages after = busyPages before \ {page} := by
      ext other
      rw [busyAfter, Set.mem_sdiff, Set.mem_singleton_iff]
      by_cases same : other = page <;> simp [same]
    rw [removed]
    exact ⟨kept, .freed isManaged⟩
  · exact ⟨kept, .refused rfl unmanaged refuses⟩

theorem isBusy {outcome : Outcome Refusal Bool}
    (ran : (FrameManager.isBusy page).run before = (outcome, after)) :
    after = before ∧
      Allows managed (busyPages before) (.isBusy page) outcome (busyPages before) := by
  cases accounts.looksUp page with
  | found isManaged member tracks located =>
      have answer := accounts.run_isBusy member tracks located
      rw [ran] at answer
      cases answer
      refine ⟨rfl, .told isManaged ?_⟩
      change _ ↔ ((FrameManager.isBusy page).run before).1 = .done true
      rw [ran, Outcome.done.injEq]
  | missed unmanaged located answer refuses =>
      rw [accounts.run_isBusy_of_missed located answer] at ran
      cases ran
      exact ⟨rfl, .refused rfl unmanaged refuses⟩

theorem allocate {outcome : Outcome Refusal (Option Frame)}
    (ran : FrameManager.allocate.run before = (outcome, after)) :
    AccountsFor managed keeps after ∧
      Allows managed (busyPages before) .allocate outcome (busyPages after) := by
  rcases allocate_spec (ε := Refusal) accounts.ready accounts.orderly with
    ⟨_, _, same, handsOut⟩
  rw [ran] at same
  cases same
  have offers : ∀ other, before.source.ledger.Offers before.memory other ↔
      IsHigh other ∧ other ∈ managed \ busyPages before :=
    fun other => and_congr_right' accounts.isFree_iff
  cases handsOut with
  | dry unchanged nothing =>
      subst unchanged
      exact ⟨accounts, .exhausted fun other free high => nothing other
        ((offers other).2 ⟨high, free⟩)⟩
  | @page descriptor index page member tracks offered lowest memory source =>
      rcases (offers page).1 offered with ⟨high, free⟩
      have inserted : busyPages after = insert page (busyPages before) := by
        ext other
        rw [accounts.mem_busyPages_marked member tracks memory source, Set.mem_insert_iff]
        by_cases same : other = page <;> simp [same]
      rw [inserted]
      exact ⟨accounts.marked member tracks memory source, .handed free high
        fun other isFree isHigh =>
          lowest accounts.sorted other ((offers other).2 ⟨isHigh, isFree⟩)⟩

theorem freePageCount_eq : FrameManager.freePageCount before =
    .ok (managed \ busyPages before).ncard := by
  have free : before.source.ledger.freePages before.memory = managed \ busyPages before := by
    ext page
    exact accounts.isFree_iff
  rw [FrameManager.freePageCount, Ledger.freePageCount_eq_ok accounts.orderly, free]

/-- Every request is answered as the set of busy pages has it. -/
theorem serve {α : Type} {request : Request α} {answer : Outcome Refusal α}
    (ran : request.operation.run before = (answer, after)) :
    AccountsFor managed keeps after ∧
      Allows managed (busyPages before) request answer (busyPages after) := by
  cases request with
  | markBusy page => exact accounts.markBusy ran
  | free page => exact accounts.free ran
  | isBusy page =>
      rcases accounts.isBusy ran with ⟨rfl, allows⟩
      exact ⟨accounts, allows⟩
  | allocate => exact accounts.allocate ran
  | freePageCount =>
      rw [Request.operation, run_bind_of_done (run_state _), accounts.freePageCount_eq,
        run_check_ok] at ran
      cases ran
      exact ⟨accounts, .counted⟩

theorem eq_of_refused {α : Type} {request : Request α} {cause : Refusal}
    (ran : request.operation.run before = (.refused cause, after)) : after = before := by
  have unchanged : ∀ page busy,
      (FrameManager.setBusy page busy).run before = (.refused cause, after) → after = before := by
    intro page busy changing
    rcases accounts.setBusy changing with ⟨_, ⟨_, done, _⟩ | ⟨_, _, same⟩⟩
    · cases done
    · exact same
  cases request with
  | markBusy page =>
      rw [Request.operation, run_markBusy accounts.ready] at ran
      exact unchanged page true ran
  | free page =>
      rw [Request.operation, run_free accounts.ready] at ran
      exact unchanged page false ran
  | isBusy page => exact (accounts.isBusy ran).1
  | allocate =>
      rcases allocate_spec (ε := Refusal) accounts.ready accounts.orderly with ⟨_, _, same, _⟩
      cases same.symm.trans ran
  | freePageCount =>
      rw [Request.operation, run_bind_of_done (run_state _), accounts.freePageCount_eq,
        run_check_ok] at ran
      cases ran

end AccountsFor

end EarlyMemory.FrameManager
