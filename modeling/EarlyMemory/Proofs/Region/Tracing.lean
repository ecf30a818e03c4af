import EarlyMemory.Proofs.Region.Building

/-!
# Where the regions of a table come from

Hazards are rounded outward, so their regions may overlap each other, but no page of such
a region lies in available memory alone. Every other region goes back to available memory,
and no two of those overlap, whatever was cut out, given back and merged in between.
-/

namespace EarlyMemory

theorem RegionKind.code_eq_iff {left right : RegionKind} :
    left.code = right.code ↔ left = right := by
  constructor
  · intro same
    have known := congrArg RegionKind.ofCode? same
    rw [RegionKind.ofCode?_code, RegionKind.ofCode?_code] at known
    exact Option.some.inj known
  · exact congrArg _

namespace Region

theorem apart_iff_not_covers {left right : Region} (leftProper : left.IsProper)
    (rightProper : right.IsProper) :
    left.Apart right ↔ ∀ address, left.Covers address → ¬ right.Covers address := by
  unfold IsProper at leftProper rightProper
  constructor
  · intro apart address inLeft inRight
    unfold Covers at inLeft inRight
    unfold Apart at apart
    omega
  · intro disjoint
    refine Classical.byContradiction fun overlap => ?_
    unfold Apart at overlap
    refine disjoint (max left.start.value right.start.value) ?_ ?_ <;> unfold Covers <;> omega

end Region

namespace RegionTable

structure Grant extends Extent where
  kind : RegionKind

def Grant.region (grant : Grant) : Region :=
  .of grant.kind grant.base (grant.base.pageAfter grant.pages)

/-- What the callers of a table know: the byte ranges they gave it and the ones it
recorded, the page-rounded ranges it reserved, and the grants not taken back. -/
structure Dealings where
  given : List Region
  recorded : List Region
  reserved : List Region
  live : List Grant

namespace Dealings

def afterAdd (dealings : Dealings) (range : Region) :
    Outcome RegionTableError Unit → Dealings
  | .done () => { dealings with
      given := range :: dealings.given
      recorded := range :: dealings.recorded }
  | _ => { dealings with given := range :: dealings.given }

def afterReserve (dealings : Dealings) (range : Region) :
    Outcome RegionTableError Unit → Dealings
  | .done () => { dealings with reserved := range :: dealings.reserved }
  | _ => dealings

def afterGrant (dealings : Dealings) (pages : Nat) (kind : RegionKind) :
    Option PhysicalAddress → Dealings
  | some base => { dealings with live := ⟨⟨base, pages⟩, kind⟩ :: dealings.live }
  | none => dealings

/-- One grant is given back if the table agrees; `rest` are the others. -/
def afterFree (dealings : Dealings) (rest : List Grant) :
    Outcome RegionTableError Unit → Dealings
  | .done () => { dealings with live := rest }
  | _ => dealings

end Dealings

variable {capacity : Nat} {sorting : Region.Sorting}
  {table before after : RegionTable capacity sorting} {dealings : Dealings}

/-! ## Where regions come from -/

namespace Dealings

/-- Whether every byte of the region was recorded as available. -/
def Supplies (dealings : Dealings) (region : Region) : Prop :=
  ∀ address, region.Covers address →
    ∃ range ∈ dealings.recorded, range.code = RegionKind.available.code ∧ range.Covers address

/-- Whether every page of the region holds a byte that was recorded otherwise. -/
def Taints (dealings : Dealings) (region : Region) : Prop :=
  ∀ address, region.Covers address →
    ∃ range ∈ dealings.recorded, range.code ≠ RegionKind.available.code ∧
      ∃ byte, byte / 4096 = address / 4096 ∧ range.Covers byte

def Separates (dealings : Dealings) (left right : Region) : Prop :=
  dealings.Supplies left → dealings.Supplies right → left.Apart right

/-- The ranges of a run are disjoint, and only what was given was recorded. -/
structure IsConsistent (dealings : Dealings) : Prop where
  apart : ∀ left ∈ dealings.given, ∀ right ∈ dealings.given, left ≠ right → left.Apart right
  recorded : ∀ range ∈ dealings.recorded, range ∈ dealings.given

variable {region left right : Region} {later : Dealings}

theorem Supplies.mono (supplies : dealings.Supplies region)
    (more : ∀ range ∈ dealings.recorded, range ∈ later.recorded) : later.Supplies region := by
  intro address covered
  rcases supplies address covered with ⟨range, member, available, covers⟩
  exact ⟨range, more range member, available, covers⟩

theorem Supplies.within (supplies : dealings.Supplies region)
    (within : ∀ address, left.Covers address → region.Covers address) : dealings.Supplies left :=
  fun address covered => supplies address (within address covered)

theorem Taints.mono (taints : dealings.Taints region)
    (more : ∀ range ∈ dealings.recorded, range ∈ later.recorded) : later.Taints region := by
  intro address covered
  rcases taints address covered with ⟨range, member, other, byte⟩
  exact ⟨range, more range member, other, byte⟩

theorem Separates.symm (separates : dealings.Separates left right) :
    dealings.Separates right left :=
  fun supplied alsoSupplied => (separates alsoSupplied supplied).symm

/-- A supplied region is whole, so it would hold the recorded byte of a shared page. -/
theorem IsConsistent.apart_of_taints (consistent : dealings.IsConsistent)
    (leftFormed : left.IsWellFormed) (rightFormed : right.IsWellFormed)
    (supplies : dealings.Supplies left) (taints : dealings.Taints right) : left.Apart right := by
  rw [Region.apart_iff_not_covers leftFormed.1 rightFormed.1]
  intro address inLeft inRight
  rcases taints address inRight with ⟨hazard, isHazard, other, byte, samePage, covered⟩
  have inside : left.Covers byte := by
    have := leftFormed.2.start
    have := leftFormed.2.stop
    unfold Region.Covers at inLeft ⊢
    omega
  rcases supplies byte inside with ⟨range, isRange, available, alsoCovered⟩
  have different : hazard ≠ range := by
    rintro rfl
    exact other available
  have apart := consistent.apart hazard (consistent.recorded hazard isHazard) range
    (consistent.recorded range isRange) different
  unfold Region.Apart at apart
  unfold Region.Covers at covered alsoCovered
  omega

theorem IsConsistent.not_taints (consistent : dealings.IsConsistent)
    (wellFormed : region.IsWellFormed) (supplies : dealings.Supplies region) :
    ¬ dealings.Taints region := by
  intro taints
  have proper := wellFormed.1
  have apart := consistent.apart_of_taints wellFormed wellFormed supplies taints
  unfold Region.IsProper at proper
  unfold Region.Apart at apart
  omega

end Dealings

/-! ## Traced tables -/

/-- A region goes back to what was recorded. What is available is supplied. -/
structure Dealings.Traces (dealings : Dealings) (region : Region) : Prop where
  wellFormed : region.IsWellFormed
  origin : dealings.Supplies region ∨
    dealings.Taints region ∧ region.code ≠ RegionKind.available.code

structure IsTraced (table : RegionTable capacity sorting) (dealings : Dealings) : Prop where
  traces : ∀ region ∈ table.regions, dealings.Traces region
  separate : table.regions.Pairwise dealings.Separates

variable {taken host region left right : Region} {others : List Region}

theorem Dealings.Traces.supplies_of_available (traces : dealings.Traces region)
    (available : region.code = RegionKind.available.code) : dealings.Supplies region :=
  traces.origin.resolve_right fun tainted => tainted.2 available

theorem Dealings.supplies_joined_iff (leftProper : left.IsProper) (rightProper : right.IsProper)
    (touching : left.touches right = true) :
    dealings.Supplies (left.joined right) ↔ dealings.Supplies left ∧ dealings.Supplies right := by
  have covers : ∀ address, (left.joined right).Covers address ↔
      left.Covers address ∨ right.Covers address :=
    fun _ => Region.covers_joined_iff touching leftProper rightProper
  constructor
  · intro supplies
    exact ⟨supplies.within fun address inside => (covers address).2 (.inl inside),
      supplies.within fun address inside => (covers address).2 (.inr inside)⟩
  · rintro ⟨left, right⟩ address covered
    rcases (covers address).1 covered with inside | inside
    · exact left address inside
    · exact right address inside

theorem Dealings.Traces.joined (leftTraces : dealings.Traces left)
    (rightTraces : dealings.Traces right) (touching : left.touches right = true) :
    dealings.Traces (left.joined right) := by
  rcases Region.of_touches touching with ⟨leftAvailable, rightAvailable, _⟩
  refine ⟨leftTraces.wellFormed.joined rightTraces.wellFormed touching, .inl ?_⟩
  rw [supplies_joined_iff leftTraces.wellFormed.1 rightTraces.wellFormed.1 touching]
  exact ⟨leftTraces.supplies_of_available leftAvailable,
    rightTraces.supplies_of_available rightAvailable⟩

theorem Dealings.Separates.joined {other : Region} (leftTraces : dealings.Traces left)
    (rightTraces : dealings.Traces right) (otherTraces : dealings.Traces other)
    (touching : left.touches right = true) (besideLeft : dealings.Separates left other)
    (besideRight : dealings.Separates right other) :
    dealings.Separates (left.joined right) other := by
  intro supplies otherSupplied
  have leftProper := leftTraces.wellFormed.1
  have rightProper := rightTraces.wellFormed.1
  have otherProper := otherTraces.wellFormed.1
  rcases (supplies_joined_iff leftProper rightProper touching).1 supplies with
    ⟨suppliesLeft, suppliesRight⟩
  have apartLeft := besideLeft suppliesLeft otherSupplied
  have apartRight := besideRight suppliesRight otherSupplied
  rw [Region.apart_iff_not_covers leftProper otherProper] at apartLeft
  rw [Region.apart_iff_not_covers rightProper otherProper] at apartRight
  rw [Region.apart_iff_not_covers (leftTraces.joined rightTraces touching).wellFormed.1 otherProper]
  intro address covered
  rcases (Region.covers_joined_iff touching leftProper rightProper).1 covered with inside | inside
  · exact apartLeft address inside
  · exact apartRight address inside

namespace IsTraced

theorem apart_of_supplies (traced : table.IsTraced dealings) (consistent : dealings.IsConsistent)
    (hosted : table.regions.Perm (host :: others)) (isOther : region ∈ others)
    (supplies : dealings.Supplies region) : region.Apart host := by
  have hostTraces := traced.traces host (hosted.mem_iff.2 List.mem_cons_self)
  have traces := traced.traces region (hosted.mem_iff.2 (List.mem_cons_of_mem _ isOther))
  rcases hostTraces.origin with hostSupplied | ⟨tainted, _⟩
  · have separate := (hosted.pairwise_iff Dealings.Separates.symm).1 traced.separate
    exact ((List.pairwise_cons.1 separate).1 region isOther hostSupplied supplies).symm
  · exact consistent.apart_of_taints traces.wellFormed hostTraces.wellFormed supplies tainted

theorem eq_of_start_eq (traced : table.IsTraced dealings) (consistent : dealings.IsConsistent)
    (hosted : table.regions.Perm (host :: others)) (member : region ∈ table.regions)
    (supplies : dealings.Supplies region) (same : host.start = region.start) : region = host := by
  rcases List.mem_cons.1 (hosted.mem_iff.1 member) with isHost | isOther
  · exact isHost
  · have proper := (traced.traces region member).wellFormed.1
    have hostProper := (traced.traces host (hosted.mem_iff.2 List.mem_cons_self)).wellFormed.1
    have apart := traced.apart_of_supplies consistent hosted isOther supplies
    unfold Region.IsProper at proper hostProper
    unfold Region.Apart at apart
    rw [same] at apart hostProper
    omega

theorem supplies_of_carves (traced : before.IsTraced dealings)
    (carves : Carves before after taken host others) (above : host.start.value ≤ region.start.value)
    (below : region.stop.value ≤ host.stop.value) : dealings.Supplies region := by
  have hostTraces := traced.traces host (carves.mem_before.2 (.inl rfl))
  refine (hostTraces.supplies_of_available carves.available).within fun address covered => ?_
  unfold Region.Covers at covered ⊢
  omega

theorem carve (traced : before.IsTraced dealings) (carves : Carves before after taken host others)
    (whole : taken.IsWhole) : after.IsTraced dealings := by
  have start := carves.start
  have stop := carves.stop
  have proper := carves.proper
  unfold Region.IsProper at proper
  have wellFormed := carves.isWellFormed
    (fun region member => (traced.traces region member).wellFormed) whole
  refine ⟨fun region member => ⟨wellFormed region member, ?_⟩,
    carves.pairwise (fun _ _ => Dealings.Separates.symm) (fun _ _ apart _ _ => apart)
      (fun region isOther => ?_) traced.separate⟩
  · rcases (carves.mem_after.1 member).1 with rfl | rfl | rfl | isOther
    · exact .inl (traced.supplies_of_carves carves start stop)
    · refine .inl (traced.supplies_of_carves carves (Nat.le_refl _) ?_)
      change taken.start.value ≤ host.stop.value
      omega
    · refine .inl (traced.supplies_of_carves carves ?_ (Nat.le_refl _))
      change host.start.value ≤ taken.stop.value
      omega
    · exact (traced.traces region (carves.mem_before.2 (.inr isOther))).origin
  · by_cases supplied : dealings.Supplies region
    · have separate := (carves.hosted.pairwise_iff Dealings.Separates.symm).1 traced.separate
      exact .inl ((List.pairwise_cons.1 separate).1 region isOther
        (traced.supplies_of_carves carves (Nat.le_refl _) (Nat.le_refl _)) supplied)
    · exact .inr fun _ _ impossible => absurd impossible supplied

theorem isProper (traced : table.IsTraced dealings) :
    ∀ region ∈ table.regions, region.IsProper :=
  fun region member => (traced.traces region member).wellFormed.1

theorem coalesce (traced : table.IsTraced dealings) : table.coalesce.IsTraced dealings := by
  have merged := coalesce_perm traced.isProper
  constructor
  · intro region member
    exact Region.forall_mem_mergeTouching (fun _ _ => .joined) traced.traces region
      (merged.mem_iff.1 member)
  · rw [merged.pairwise_iff Dealings.Separates.symm]
    exact Region.pairwise_mergeTouching (fun _ _ => Dealings.Separates.symm) (fun _ _ => .joined)
      (fun _ _ _ => .joined) traced.traces traced.separate

theorem retype (traced : table.IsTraced dealings) {changed : Region}
    (hosted : table.regions.Perm (host :: others)) (supplies : dealings.Supplies host)
    (start : changed.start = host.start) (stop : changed.stop = host.stop)
    (perm : after.regions.Perm (changed :: others)) : after.IsTraced dealings := by
  have same : ∀ address, changed.Covers address ↔ host.Covers address := by
    intro address
    rw [Region.Covers, Region.Covers, start, stop]
  have hostFormed := (traced.traces host (hosted.mem_iff.2 List.mem_cons_self)).wellFormed
  refine ⟨fun region member => ?_, ?_⟩
  · rcases List.mem_cons.1 (perm.mem_iff.1 member) with rfl | isOther
    · refine ⟨⟨?_, ?_, ?_, ?_⟩, .inl (supplies.within fun address => (same address).1)⟩
      · rw [Region.IsProper, start, stop]
        exact hostFormed.1
      · rw [start]
        exact hostFormed.2.start
      · rw [stop]
        exact hostFormed.2.stop
      · rw [stop]
        exact hostFormed.2.within
    · exact traced.traces region (hosted.mem_iff.2 (List.mem_cons_of_mem _ isOther))
  · rw [perm.pairwise_iff Dealings.Separates.symm, List.pairwise_cons]
    have separate := (hosted.pairwise_iff Dealings.Separates.symm).1 traced.separate
    rw [List.pairwise_cons] at separate
    refine ⟨fun region isOther _ alsoSupplied => ?_, separate.2⟩
    have apart := separate.1 region isOther supplies alsoSupplied
    rwa [Region.Apart, start, stop]

/-! ### Recording -/

/-- Once more is recorded the regions are traced as before, and no more of them are
supplied. -/
theorem supplies_of_later {later : Dealings} (traced : table.IsTraced dealings)
    (consistent : later.IsConsistent) (more : ∀ range ∈ dealings.recorded, range ∈ later.recorded)
    (member : region ∈ table.regions) (supplies : later.Supplies region) :
    dealings.Supplies region := by
  have traces := traced.traces region member
  refine traces.origin.resolve_right fun tainted => ?_
  exact consistent.not_taints traces.wellFormed supplies (tainted.1.mono more)

theorem mono {later : Dealings} (traced : table.IsTraced dealings)
    (consistent : later.IsConsistent)
    (more : ∀ range ∈ dealings.recorded, range ∈ later.recorded) : table.IsTraced later where
  traces region member := by
    have traces := traced.traces region member
    exact ⟨traces.wellFormed, traces.origin.imp (·.mono more)
      fun tainted => ⟨tainted.1.mono more, tainted.2⟩⟩
  separate := traced.separate.imp_of_mem fun left right separates supplies alsoSupplied =>
    separates (traced.supplies_of_later consistent more left supplies)
      (traced.supplies_of_later consistent more right alsoSupplied)

end IsTraced

theorem covers_of_covers_rounded {start stop : PhysicalAddress} {address : Nat}
    (covered : (Region.of .available (rounded .available start stop).1
      (rounded .available start stop).2).Covers address) :
    (Region.of .available start stop).Covers address := by
  rcases rounded_of_inward (show RegionKind.available.roundsInward = true from rfl) start stop with
    ⟨first, last⟩
  unfold Region.Covers at covered ⊢
  simp only [Region.of, first, last] at covered ⊢
  omega

theorem exists_byte_of_covers_rounded {kind : RegionKind} {start stop : PhysicalAddress}
    {address : Nat} (other : kind ≠ .available) (proper : (Region.of kind start stop).IsProper)
    (covered : (Region.of kind (rounded kind start stop).1
      (rounded kind start stop).2).Covers address) :
    ∃ byte, byte / 4096 = address / 4096 ∧ (Region.of kind start stop).Covers byte := by
  have outward : kind.roundsInward = false := by
    cases kind <;> first | rfl | exact absurd rfl other
  rcases rounded_of_outward outward start stop with ⟨first, last⟩
  have limit : physicalLimit.value = 0x10000000000000 := rfl
  unfold Region.Covers Region.IsProper at *
  simp only [Region.of, first, last] at covered proper ⊢
  refine ⟨max (address / 4096 * 4096) start.value, ?_⟩
  omega

namespace Dealings

theorem IsConsistent.afterAdd {range : Region} (consistent : dealings.IsConsistent)
    (apart : ∀ other ∈ dealings.given, range.Apart other)
    (outcome : Outcome RegionTableError Unit) : (dealings.afterAdd range outcome).IsConsistent := by
  have given : (dealings.afterAdd range outcome).given = range :: dealings.given := by
    cases outcome <;> rfl
  constructor
  · rw [given]
    simp only [List.mem_cons]
    rintro left (rfl | leftGiven) right (rfl | rightGiven) different
    · exact absurd rfl different
    · exact apart right rightGiven
    · exact (apart left leftGiven).symm
    · exact consistent.apart left leftGiven right rightGiven different
  · rw [given]
    intro other member
    cases outcome with
    | done nothing =>
        rcases List.mem_cons.1 member with rfl | old
        · exact List.mem_cons_self
        · exact List.mem_cons_of_mem _ (consistent.recorded other old)
    | refused | fault => exact List.mem_cons_of_mem _ (consistent.recorded other member)

theorem mem_recorded_afterAdd {range other : Region} (outcome : Outcome RegionTableError Unit)
    (member : other ∈ dealings.recorded) : other ∈ (dealings.afterAdd range outcome).recorded := by
  cases outcome with
  | done nothing => exact List.mem_cons_of_mem _ member
  | refused | fault => exact member

end Dealings

theorem IsTraced.record {kind : RegionKind} {start stop : PhysicalAddress}
    (traced : before.IsTraced dealings) (consistent : dealings.IsConsistent)
    (proper : (Region.of kind start stop).IsProper)
    (apart : ∀ range ∈ dealings.given, (Region.of kind start stop).Apart range)
    (rounds : (Region.of kind (rounded kind start stop).1 (rounded kind start stop).2).IsProper)
    (perm : after.regions.Perm ((Region.of kind (rounded kind start stop).1
      (rounded kind start stop).2 :: before.regions).filter fun region => decide region.IsProper)) :
    after.IsTraced (dealings.afterAdd (.of kind start stop) (.done ())) := by
  have later := consistent.afterAdd apart (.done ())
  have more : ∀ range ∈ dealings.recorded,
      range ∈ (dealings.afterAdd (.of kind start stop) (.done ())).recorded :=
    fun range => Dealings.mem_recorded_afterAdd (.done ())
  have old := traced.mono later more
  have newest : Region.of kind start stop ∈
      (dealings.afterAdd (.of kind start stop) (.done ())).recorded := List.mem_cons_self
  have formed : (Region.of kind (rounded kind start stop).1
      (rounded kind start stop).2).IsWellFormed := ⟨rounds, isWhole_rounded kind start stop⟩
  have beside : ∀ region ∈ before.regions,
      (dealings.afterAdd (.of kind start stop) (.done ())).Separates
        (.of kind (rounded kind start stop).1 (rounded kind start stop).2) region := by
    intro region member supplies alsoSupplied
    by_cases available : kind = .available
    · subst available
      have traces := traced.traces region member
      have earlier := traced.supplies_of_later later more member alsoSupplied
      rw [Region.apart_iff_not_covers rounds traces.wellFormed.1]
      intro address covered alsoCovered
      rcases earlier address alsoCovered with ⟨range, isRange, _, inRange⟩
      have separate := apart range (consistent.recorded range isRange)
      have inNewest := covers_of_covers_rounded covered
      unfold Region.Apart at separate
      unfold Region.Covers at inRange inNewest
      omega
    · refine absurd (fun address covered => ?_) (later.not_taints formed supplies)
      exact ⟨_, newest, available ∘ RegionKind.code_eq_iff.1,
        exists_byte_of_covers_rounded available proper covered⟩
  constructor
  · intro region member
    rcases List.mem_cons.1 (List.mem_filter.1 (perm.mem_iff.1 member)).1 with rfl | isOld
    · refine ⟨formed, ?_⟩
      by_cases available : kind = .available
      · subst available
        exact .inl fun address covered => ⟨_, newest, rfl, covers_of_covers_rounded covered⟩
      · have other : (Region.of kind start stop).code ≠ RegionKind.available.code :=
          available ∘ RegionKind.code_eq_iff.1
        exact .inr ⟨fun address covered => ⟨_, newest, other,
          exists_byte_of_covers_rounded available proper covered⟩, other⟩
    · exact old.traces region isOld
  · rw [perm.pairwise_iff Dealings.Separates.symm]
    exact (List.pairwise_cons.2 ⟨beside, old.separate⟩).filter _

end RegionTable

end EarlyMemory
