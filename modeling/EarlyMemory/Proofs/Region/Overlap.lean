import EarlyMemory.Proofs.Endings
import EarlyMemory.Proofs.Region.Coverage
import EarlyMemory.Proofs.Region.Tracing

/-!
# Overlapping regions

A table that was given disjoint ranges of bytes is not always free of overlaps: two hazards
that meet inside a page are both rounded outward, so both of their regions hold that page.
Nothing else brings an overlap about, since requests other than those that record a range
do not change how many regions hold an address.
-/

namespace EarlyMemory

/-- No address passes twice exactly if no two members of a list pass it. -/
theorem countP_le_one_iff_pairwise {α : Type} {holds : α → Nat → Prop}
    [∀ member address, Decidable (holds member address)] {list : List α} :
    (∀ address, list.countP (fun member => decide (holds member address)) ≤ 1) ↔
      list.Pairwise fun left right => ∀ address, holds left address → ¬ holds right address := by
  induction list with
  | nil => simp
  | cons head tail induction =>
      rw [List.pairwise_cons, ← induction]
      simp only [List.countP_cons, decide_eq_true_eq]
      constructor
      · intro once
        constructor
        · intro other isOther address first second
          have counted : 0 < tail.countP fun member => decide (holds member address) :=
            List.countP_pos_iff.2 ⟨other, isOther, decide_eq_true second⟩
          have both := once address
          rw [if_pos first] at both
          omega
        · intro address
          exact Nat.le_trans (Nat.le_add_right ..) (once address)
      · rintro ⟨beside, once⟩ address
        by_cases first : holds head address
        · have none : (tail.countP fun member => decide (holds member address)) = 0 := by
            apply List.countP_eq_zero.2
            intro other isOther second
            exact beside other isOther address first (of_decide_eq_true second)
          simp [first, none]
        · rw [if_neg first]
          exact once address

namespace RegionTable

variable {capacity : Nat} {sorting : Region.Sorting} {ε : Type}
  {table before after : RegionTable capacity sorting}

/-! ## Ranges of bytes -/

structure Range where
  kind : RegionKind
  start : PhysicalAddress
  stop : PhysicalAddress

namespace Range

variable {range left right : Range} {address : Nat}

def bytes (range : Range) : Region :=
  .of range.kind range.start range.stop

/-- The pages that the range is recorded as. -/
def pages (range : Range) : Region :=
  .of range.kind (rounded range.kind range.start range.stop).1
    (rounded range.kind range.start range.stop).2

theorem covers_pages_of_available (available : range.kind = .available) :
    range.pages.Covers address ↔ address < physicalLimit.value ∧
      ∀ byte, byte / 4096 = address / 4096 → range.bytes.Covers byte := by
  have inward : range.kind.roundsInward = true := by
    rw [available]
    rfl
  have spans := rounded_of_inward inward range.start range.stop
  have limit : physicalLimit.value = 0x10000000000000 := rfl
  simp only [pages, bytes, Region.of, Region.covers_iff, spans]
  constructor
  · intro covered
    exact ⟨by omega, fun byte samePage => by omega⟩
  · rintro ⟨low, whole⟩
    have first := whole (address / 4096 * 4096) (by omega)
    have last := whole (address / 4096 * 4096 + 4095) (by omega)
    omega

theorem covers_pages_of_hazard (hazard : range.kind ≠ .available)
    (proper : range.bytes.IsProper) :
    range.pages.Covers address ↔ address < physicalLimit.value ∧
      ∃ byte, byte / 4096 = address / 4096 ∧ range.bytes.Covers byte := by
  have outward : range.kind.roundsInward = false := by
    cases kind : range.kind <;> first | rfl | exact absurd kind hazard
  have spans := rounded_of_outward outward range.start range.stop
  have limit : physicalLimit.value = 0x10000000000000 := rfl
  constructor
  · intro covered
    refine ⟨?_, exists_byte_of_covers_rounded hazard proper covered⟩
    simp only [pages, Region.of, Region.covers_iff, spans] at covered
    omega
  · rintro ⟨low, byte, samePage, covered⟩
    simp only [pages, bytes, Region.of, Region.covers_iff, spans] at covered ⊢
    omega

/-- Whether a page of physical memory holds bytes of both ranges. -/
def SharesPage (left right : Range) : Prop :=
  ∃ first second, left.bytes.Covers first ∧ right.bytes.Covers second ∧
    first / 4096 = second / 4096 ∧ first < physicalLimit.value

theorem exists_byte_of_covers_pages (proper : range.bytes.IsProper)
    (covered : range.pages.Covers address) :
    ∃ byte, byte / 4096 = address / 4096 ∧ range.bytes.Covers byte := by
  by_cases available : range.kind = .available
  · exact ⟨address, rfl, ((covers_pages_of_available available).1 covered).2 address rfl⟩
  · exact ((covers_pages_of_hazard available proper).1 covered).2

theorem not_covers_pages_of_available (available : left.kind = .available)
    (proper : right.bytes.IsProper) (apart : left.bytes.Apart right.bytes)
    (covered : left.pages.Covers address) : ¬ right.pages.Covers address := by
  intro alsoCovered
  rcases exists_byte_of_covers_pages proper alsoCovered with ⟨byte, samePage, inRight⟩
  have inLeft := ((covers_pages_of_available available).1 covered).2 byte samePage
  simp only [Region.Apart, Region.covers_iff] at apart inLeft inRight
  omega

/-- The pages of two disjoint ranges meet only where two hazards share a page. -/
theorem pages_meet_iff (leftProper : left.bytes.IsProper) (rightProper : right.bytes.IsProper)
    (apart : left.bytes.Apart right.bytes) :
    (∀ address, left.pages.Covers address → ¬ right.pages.Covers address) ↔
      (left.kind ≠ .available → right.kind ≠ .available → ¬ left.SharesPage right) := by
  constructor
  · rintro disjoint leftHazard rightHazard ⟨first, second, inLeft, inRight, samePage, low⟩
    apply disjoint first
    · exact (covers_pages_of_hazard leftHazard leftProper).2 ⟨low, first, rfl, inLeft⟩
    · exact (covers_pages_of_hazard rightHazard rightProper).2 ⟨low, second, samePage.symm, inRight⟩
  · intro noShare address inLeft inRight
    by_cases leftAvailable : left.kind = .available
    · exact not_covers_pages_of_available leftAvailable rightProper apart inLeft inRight
    by_cases rightAvailable : right.kind = .available
    · exact not_covers_pages_of_available rightAvailable leftProper apart.symm inRight inLeft
    rcases (covers_pages_of_hazard leftAvailable leftProper).1 inLeft with
      ⟨low, first, firstPage, firstCovered⟩
    rcases (covers_pages_of_hazard rightAvailable rightProper).1 inRight with
      ⟨_, second, secondPage, secondCovered⟩
    have limit : physicalLimit.value = 0x10000000000000 := rfl
    exact noShare leftAvailable rightAvailable
      ⟨first, second, firstCovered, secondCovered, by omega, by omega⟩

end Range

/-! ## Ranges of a run -/

def Request.range? : Request → Option Range
  | .add kind start stop => some ⟨kind, start, stop⟩
  | _ => none

/-- The range that an exchange left recorded. -/
def Exchange.recorded? (exchange : Exchange) : Option Range :=
  match exchange.answer with
  | .ok _ => exchange.request.range?
  | .error _ => none

def givenRanges (requests : List Request) : List Range :=
  requests.filterMap Request.range?

def recordedRanges (exchanges : List Exchange) : List Range :=
  exchanges.filterMap Exchange.recorded?

theorem recordedRanges_sublist (exchanges : List Exchange) :
    (recordedRanges exchanges).Sublist (givenRanges (exchanges.map Exchange.request)) := by
  induction exchanges with
  | nil => exact .slnil
  | cons exchange rest induction =>
      rcases exchange with ⟨request, cause | answer⟩
      · cases request
        case add => exact induction.cons _
        all_goals exact induction
      · cases request
        case add => exact induction.cons_cons _
        all_goals exact induction

theorem Serves.depth {request : Request} {answer : Answer}
    (serves : Serves before request answer after)
    (proper : ∀ region ∈ before.regions, region.IsProper) (address : Nat) :
    after.depth address = before.depth address +
      (recordedRanges [⟨request, answer⟩]).countP fun range =>
        decide (range.pages.Covers address) := by
  cases request with
  | add kind start stop =>
      cases serves with
      | refused => rfl
      | added records =>
          have counted := records.total (.holding address)
          have newest : recordedRanges [⟨.add kind start stop, .ok none⟩] = [⟨kind, start, stop⟩] :=
            rfl
          rw [total_holding, total_holding] at counted
          simp only [newest, List.countP_singleton, decide_eq_true_eq]
          exact counted
      | granted asks => cases asks
  | reserve | allocate | allocateAs | allocateFrame | free | coalesce =>
      have same := serves.total proper (Region.Measure.isUniform_holding address)
        (by intro _ _ _ equal; cases equal)
      rw [total_holding, total_holding] at same
      cases answer <;> exact same

/-- After any run an address is covered as often as it lies in pages of recorded ranges. -/
theorem depth_serveAll {requests : List Request} {exchanges : List Exchange} (built : before.Built)
    (ran : (serveAll requests : Operation (RegionTable capacity sorting) ε _).run before =
      (.done exchanges, after)) (address : Nat) :
    after.depth address = before.depth address +
      (recordedRanges exchanges).countP fun range => decide (range.pages.Covers address) := by
  induction requests generalizing before exchanges with
  | nil =>
      rcases Operation.of_run_pure ran with ⟨rfl, rfl⟩
      rfl
  | cons request rest induction =>
      rcases Operation.of_run_bind ran with ⟨answer, between, first, remaining⟩
      rcases Operation.of_run_bind remaining with ⟨further, last, later, ending⟩
      rcases Operation.of_run_pure ending with ⟨rfl, rfl⟩
      rcases built.serve (ε := ε) request with ⟨_, _, same, builtBetween, serves⟩
      rw [first] at same
      cases same
      have proper := fun region member => (built.isWellFormed region member).1
      have split : recordedRanges (⟨request, answer⟩ :: further) =
          recordedRanges [⟨request, answer⟩] ++ recordedRanges further :=
        List.filterMap_append (l := [_])
      rw [induction builtBetween later, serves.depth proper, split, List.countP_append,
        Nat.add_assoc]

/-! ## Overlaps -/

theorem pairwise_apart_iff_depth_le_one (proper : ∀ region ∈ table.regions, region.IsProper) :
    table.regions.Pairwise Region.Apart ↔ ∀ address, table.depth address ≤ 1 := by
  unfold depth
  rw [countP_le_one_iff_pairwise]
  constructor
  · intro apart
    exact apart.imp_of_mem fun left right isApart =>
      (Region.apart_iff_not_covers (proper _ left) (proper _ right)).1 isApart
  · intro disjoint
    exact disjoint.imp_of_mem fun left right isDisjoint =>
      (Region.apart_iff_not_covers (proper _ left) (proper _ right)).2 isDisjoint

/-- After a run whose ranges are disjoint no two regions overlap, unless the table recorded
two hazards that share a page. -/
theorem pairwise_apart_iff_no_shared_page {requests : List Request} {exchanges : List Exchange}
    (proper : ∀ range ∈ givenRanges requests, range.bytes.IsProper)
    (apart : (givenRanges requests).Pairwise fun left right => left.bytes.Apart right.bytes)
    (ran : (serveAll requests : Operation (RegionTable capacity sorting) ε _).run .empty =
      (.done exchanges, table)) :
    table.regions.Pairwise Region.Apart ↔
      (recordedRanges exchanges).Pairwise fun left right =>
        left.kind ≠ .available → right.kind ≠ .available → ¬ left.SharesPage right := by
  rcases Built.empty.serveAll (ε := ε) requests with ⟨_, _, same, asked, built⟩
  rw [ran] at same
  cases same
  have sublist := recordedRanges_sublist exchanges
  rw [asked] at sublist
  have properRegions := fun region member => (built.isWellFormed region member).1
  have counted : ∀ address, table.depth address =
      (recordedRanges exchanges).countP fun range => decide (range.pages.Covers address) := by
    intro address
    rw [depth_serveAll .empty ran address]
    exact Nat.zero_add _
  have meets : ∀ left ∈ recordedRanges exchanges, ∀ right ∈ recordedRanges exchanges,
      left.bytes.Apart right.bytes →
      ((∀ address, left.pages.Covers address → ¬ right.pages.Covers address) ↔
        (left.kind ≠ .available → right.kind ≠ .available → ¬ left.SharesPage right)) :=
    fun left isLeft right isRight isApart => Range.pages_meet_iff
      (proper left (sublist.subset isLeft)) (proper right (sublist.subset isRight)) isApart
  have disjoint := apart.sublist sublist
  rw [pairwise_apart_iff_depth_le_one properRegions]
  simp only [counted]
  rw [countP_le_one_iff_pairwise]
  constructor
  · intro once
    exact (disjoint.and once).imp_of_mem fun left right related =>
      (meets _ left _ right related.1).1 related.2
  · intro noShare
    exact (disjoint.and noShare).imp_of_mem fun left right related =>
      (meets _ left _ right related.1).2 related.2

/-- A hazard behind available memory, which is reserved, given out and given back. -/
def tidyRun : List Request :=
  [.add .available (.ofNat 0x100000) (.ofNat 0x104800),
    .add .nonVolatile (.ofNat 0x104800) (.ofNat 0x106000),
    .reserve (.ofNat 0x102000) (.ofNat 0x102001),
    .allocateAs 2 .allocated,
    .free (.ofNat 0x102abc)]

def tidyTable : RegionTable 8 :=
  ⟨[.of .allocated (.ofNat 0x100000) (.ofNat 0x102000),
    .of .available (.ofNat 0x102000) (.ofNat 0x104000),
    .of .nonVolatile (.ofNat 0x104000) (.ofNat 0x106000)]⟩

def tidyExchanges : List Exchange :=
  [⟨.add .available (.ofNat 0x100000) (.ofNat 0x104800), .ok none⟩,
    ⟨.add .nonVolatile (.ofNat 0x104800) (.ofNat 0x106000), .ok none⟩,
    ⟨.reserve (.ofNat 0x102000) (.ofNat 0x102001), .ok none⟩,
    ⟨.allocateAs 2 .allocated, .ok (some (.ofNat 0x100000))⟩,
    ⟨.free (.ofNat 0x102abc), .ok none⟩]

theorem run_tidyRun :
    (serveAll tidyRun : Operation (RegionTable 8) Empty _).run .empty =
      (.done tidyExchanges, tidyTable) := by
  decide +kernel

theorem tidy_run_has_no_overlap :
    tidyTable.regions.Pairwise Region.Apart ↔
      (recordedRanges tidyExchanges).Pairwise fun left right =>
        left.kind ≠ .available → right.kind ≠ .available → ¬ left.SharesPage right :=
  pairwise_apart_iff_no_shared_page (by decide) (by decide) run_tidyRun

def meetingHazards : List Request :=
  [.add .reserved (.ofNat 0x1000) (.ofNat 0x1800),
    .add .reserved (.ofNat 0x1800) (.ofNat 0x3000)]

theorem meeting_hazards_overlap :
    (∀ range ∈ givenRanges meetingHazards, range.bytes.IsProper) ∧
      ((givenRanges meetingHazards).Pairwise fun left right => left.bytes.Apart right.bytes) ∧
      ((serveAll meetingHazards : Operation (RegionTable 4) Empty _).run .empty).2 = overlapping ∧
      ¬ overlapping.regions.Pairwise Region.Apart := by
  refine ⟨by decide, by decide, by decide +kernel, by decide⟩

end RegionTable

end EarlyMemory
