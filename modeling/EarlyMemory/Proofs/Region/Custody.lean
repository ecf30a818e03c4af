import EarlyMemory.Proofs.Endings
import EarlyMemory.Proofs.Region.Tracing

/-!
# What a table has given out

Firmware ranges of any kind are recorded, parts of them are reserved, and pages are given
out and taken back, in any order. Each grant and each reservation stays a region of the
table until its holder gives it back, and it lies apart from every other one.
-/

namespace EarlyMemory.RegionTable

variable {capacity : Nat} {sorting : Region.Sorting}
  {table before after : RegionTable capacity sorting} {dealings : Dealings} {taken host : Region}
  {others : List Region}

/-- The requests of a run on an empty table. Ranges are nonempty and disjoint from all that
were given before, no pages are given out as available, and only what was given out is
given back. -/
inductive Deals : RegionTable capacity sorting → Dealings → Prop
  | empty : Deals .empty ⟨[], [], [], []⟩
  | added {before after : RegionTable capacity sorting} {dealings : Dealings} {kind : RegionKind}
      {start stop : PhysicalAddress} {outcome : Outcome RegionTableError Unit}
      (earlier : Deals before dealings) (proper : (Region.of kind start stop).IsProper)
      (apart : ∀ range ∈ dealings.given, (Region.of kind start stop).Apart range)
      (ran : (add kind start stop).run before = (outcome, after)) :
      Deals after (dealings.afterAdd (.of kind start stop) outcome)
  | reserved {before after : RegionTable capacity sorting} {dealings : Dealings}
      {start stop : PhysicalAddress} {outcome : Outcome RegionTableError Unit}
      (earlier : Deals before dealings)
      (ran : (reserve start stop).run before = (outcome, after)) :
      Deals after (dealings.afterReserve
        (.of .reserved (start.alignDown .small) (stop.alignUp .small)) outcome)
  | granted {before after : RegionTable capacity sorting} {dealings : Dealings} {ε : Type}
      {pages : Nat} {kind : RegionKind} {answer : Option PhysicalAddress}
      (earlier : Deals before dealings)
      (other : kind ≠ .available)
      (ran : (allocateAs pages kind : Operation (RegionTable capacity sorting) ε _).run before =
        (.done answer, after)) :
      Deals after (dealings.afterGrant pages kind answer)
  | frame {before after : RegionTable capacity sorting} {dealings : Dealings} {ε : Type}
      {answer : Option Frame} (earlier : Deals before dealings)
      (ran : (allocateFrame : Operation (RegionTable capacity sorting) ε _).run before =
        (.done answer, after)) :
      Deals after (dealings.afterGrant 1 .reserved (answer.map Page.base))
  | coalesced {before : RegionTable capacity sorting} {dealings : Dealings}
      (earlier : Deals before dealings) : Deals before.coalesce dealings
  | freed {before after : RegionTable capacity sorting} {dealings : Dealings} {grant : Grant}
      {rest : List Grant} {outcome : Outcome RegionTableError Unit}
      (earlier : Deals before dealings) (held : dealings.live.Perm (grant :: rest))
      (ran : (free grant.base).run before = (outcome, after)) :
      Deals after (dealings.afterFree rest outcome)

def Dealings.claims (dealings : Dealings) : List Region :=
  dealings.live.map Grant.region ++ dealings.reserved.filter fun range => decide range.IsProper

/-! ## Honoring what was given out -/

/-- A region the callers know of is in the table, out of what is available. -/
structure Dealings.IsHeld (dealings : Dealings) (table : RegionTable capacity sorting)
    (claim : Region) : Prop where
  member : claim ∈ table.regions
  other : claim.code ≠ RegionKind.available.code
  supplies : dealings.Supplies claim

structure Honors (table : RegionTable capacity sorting) (dealings : Dealings) : Prop where
  consistent : dealings.IsConsistent
  traced : table.IsTraced dealings
  held : ∀ claim ∈ dealings.claims, dealings.IsHeld table claim
  apart : dealings.claims.Pairwise Region.Apart
  high : ∀ grant ∈ dealings.live, lowMemoryEnd.value ≤ grant.base.value
  extent : ∀ grant ∈ dealings.live,
    grant.region.stop.value = grant.base.value + grant.pages * 4096

namespace Honors

theorem carve (honors : before.Honors dealings) (carves : Carves before after taken host others)
    (whole : taken.IsWhole) (other : taken.code ≠ RegionKind.available.code) :
    after.IsTraced dealings ∧ dealings.IsHeld after taken ∧
      (∀ claim ∈ dealings.claims, dealings.IsHeld after claim ∧ taken.Apart claim) := by
  refine ⟨honors.traced.carve carves whole, ⟨carves.taken_mem, other,
    honors.traced.supplies_of_carves carves carves.start carves.stop⟩, fun claim isClaim => ?_⟩
  have held := honors.held claim isClaim
  have isOther : claim ∈ others := by
    rcases carves.mem_before.1 held.member with rfl | isOther
    · exact absurd carves.available held.other
    · exact isOther
  have apart := honors.traced.apart_of_supplies honors.consistent carves.hosted isOther
    held.supplies
  have proper := (honors.traced.traces claim held.member).wellFormed.1
  refine ⟨⟨carves.mem_after.2 ⟨.inr (.inr (.inr isOther)), proper⟩, held.other, held.supplies⟩, ?_⟩
  have start := carves.start
  have stop := carves.stop
  unfold Region.Apart at apart ⊢
  omega

theorem claim {later : Dealings} (honors : before.Honors dealings)
    (carves : Carves before after taken host others) (whole : taken.IsWhole)
    (other : taken.code ≠ RegionKind.available.code)
    (given : later.given = dealings.given) (recorded : later.recorded = dealings.recorded)
    (claims : later.claims.Perm (taken :: dealings.claims))
    (high : ∀ grant ∈ later.live, lowMemoryEnd.value ≤ grant.base.value)
    (extent : ∀ grant ∈ later.live,
      grant.region.stop.value = grant.base.value + grant.pages * 4096) : after.Honors later := by
  have consistent : later.IsConsistent := by
    constructor
    · rw [given]
      exact honors.consistent.apart
    · rw [given, recorded]
      exact honors.consistent.recorded
  have more : ∀ range ∈ dealings.recorded, range ∈ later.recorded := by
    rw [recorded]
    exact fun _ => id
  rcases honors.carve carves whole other with ⟨traced, held, kept⟩
  refine ⟨consistent, traced.mono consistent more, fun claim isClaim => ?_, ?_, high, extent⟩
  · have heldNow : dealings.IsHeld after claim := by
      rcases List.mem_cons.1 (claims.mem_iff.1 isClaim) with rfl | isOld
      · exact held
      · exact (kept claim isOld).1
    exact ⟨heldNow.member, heldNow.other, heldNow.supplies.mono more⟩
  · rw [claims.pairwise_iff Region.Apart.symm, List.pairwise_cons]
    exact ⟨fun claim isOld => (kept claim isOld).2, honors.apart⟩

theorem settle {later : Dealings} (honors : before.Honors dealings) (dropped : List Region)
    (consistent : later.IsConsistent) (traced : after.IsTraced later)
    (more : ∀ range ∈ dealings.recorded, range ∈ later.recorded)
    (claims : dealings.claims.Perm (dropped ++ later.claims))
    (kept : ∀ claim ∈ later.claims, claim ∈ after.regions)
    (live : ∀ grant ∈ later.live, grant ∈ dealings.live) : after.Honors later where
  consistent := consistent
  traced := traced
  held claim isClaim := by
    have held := honors.held claim (claims.mem_iff.2 (List.mem_append_right _ isClaim))
    exact ⟨kept claim isClaim, held.other, held.supplies.mono more⟩
  apart := by
    have apart := (claims.pairwise_iff Region.Apart.symm).1 honors.apart
    exact (List.pairwise_append.1 apart).2.1
  high grant isLive := honors.high grant (live grant isLive)
  extent grant isLive := honors.extent grant (live grant isLive)

/-! ### Each request -/

theorem add {kind : RegionKind} {start stop : PhysicalAddress}
    {outcome : Outcome RegionTableError Unit} (honors : before.Honors dealings)
    (proper : (Region.of kind start stop).IsProper)
    (apart : ∀ range ∈ dealings.given, (Region.of kind start stop).Apart range)
    (ran : (RegionTable.add kind start stop).run before = (outcome, after)) :
    after.Honors (dealings.afterAdd (.of kind start stop) outcome) := by
  have records := records_of_add ran
  have consistent := honors.consistent.afterAdd apart outcome
  have more : ∀ range ∈ dealings.recorded,
      range ∈ (dealings.afterAdd (.of kind start stop) outcome).recorded :=
    fun range => Dealings.mem_recorded_afterAdd outcome
  have claims : (dealings.afterAdd (.of kind start stop) outcome).claims = dealings.claims := by
    cases outcome <;> rfl
  have live : (dealings.afterAdd (.of kind start stop) outcome).live = dealings.live := by
    cases outcome <;> rfl
  have settled : ∀ reached : RegionTable capacity sorting,
      reached.IsTraced (dealings.afterAdd (.of kind start stop) outcome) →
      (∀ claim ∈ before.regions, claim ∈ reached.regions) →
      reached.Honors (dealings.afterAdd (.of kind start stop) outcome) := by
    intro reached traced kept
    refine honors.settle [] consistent traced more ?_ ?_ ?_
    · rw [claims]
      exact .refl _
    · rw [claims]
      exact fun claim isClaim => kept claim (honors.held claim isClaim).member
    · rw [live]
      exact fun _ => id
  cases records with
  | ignored => exact settled before (honors.traced.mono consistent more) fun _ => id
  | full => exact settled before (honors.traced.mono consistent more) fun _ => id
  | recorded rounds perm =>
      refine settled after (honors.traced.record honors.consistent proper apart rounds perm) ?_
      intro claim member
      have properClaim := (honors.traced.traces claim member).wellFormed.1
      exact perm.mem_iff.2 (List.mem_filter.2
        ⟨List.mem_cons_of_mem _ member, decide_eq_true properClaim⟩)

theorem reserve {start stop : PhysicalAddress} {outcome : Outcome RegionTableError Unit}
    (honors : before.Honors dealings)
    (ran : (RegionTable.reserve start stop).run before = (outcome, after)) :
    after.Honors (dealings.afterReserve
      (.of .reserved (start.alignDown .small) (stop.alignUp .small)) outcome) := by
  cases reserves_of_reserve ran with
  | notContained => exact honors
  | full => exact honors
  | empty nothing =>
      have improper : ¬ (Region.of .reserved (start.alignDown .small)
        (stop.alignUp .small)).IsProper := Nat.not_lt_of_le nothing
      have claims : (dealings.afterReserve (.of .reserved (start.alignDown .small)
          (stop.alignUp .small)) (.done ())).claims = dealings.claims := by
        simp [Dealings.claims, Dealings.afterReserve, improper]
      refine honors.settle [] ⟨honors.consistent.apart, honors.consistent.recorded⟩
        (honors.traced.mono ⟨honors.consistent.apart, honors.consistent.recorded⟩ fun _ => id)
        (fun _ => id) ?_ ?_ fun _ => id
      · rw [claims]
        exact .refl _
      · rw [claims]
        exact fun claim isClaim => (honors.held claim isClaim).member
  | carved host others nonempty carves =>
      have hostWhole := (honors.traced.traces host (carves.mem_before.2 (.inl rfl))).wellFormed.2
      refine honors.claim carves ⟨Nat.mul_mod_left .., Address.value_alignUp_mod stop,
        Nat.le_trans carves.stop hostWhole.within⟩
        (show RegionKind.reserved.code ≠ RegionKind.available.code by decide) rfl rfl ?_
        honors.high honors.extent
      have proper : decide (Region.of .reserved (start.alignDown .small)
        (stop.alignUp .small)).IsProper = true := decide_eq_true nonempty
      simp only [Dealings.claims, Dealings.afterReserve, List.filter_cons, proper, if_true]
      exact List.perm_middle

theorem grant {ε : Type} {pages : Nat} {kind : RegionKind} {answer : Option PhysicalAddress}
    (honors : before.Honors dealings) (other : kind ≠ .available)
    (ran : (allocateAs pages kind : Operation (RegionTable capacity sorting) ε _).run before =
      (.done answer, after)) : after.Honors (dealings.afterGrant pages kind answer) := by
  rcases allocates_of_allocateAs ran with ⟨_, ⟨⟩, allocates⟩
  cases allocates with
  | none => exact honors
  | carved base stop host others atStart extent high carves =>
      have hostWhole := (honors.traced.traces host (carves.mem_before.2 (.inl rfl))).wellFormed.2
      have end_ : base.pageAfter pages = stop := by
        refine Address.ext ?_
        have bound := stop.isLt
        change (base.value + pages * 4096) % 1 <<< 64 = stop.value
        rw [← extent, Nat.mod_eq_of_lt bound]
      have region : Grant.region ⟨⟨base, pages⟩, kind⟩ = .of kind base stop := by
        rw [Grant.region, end_]
      refine honors.claim carves (isWhole_of_allocates kind hostWhole atStart extent carves.stop)
        (other ∘ RegionKind.code_eq_iff.1) rfl rfl ?_ ?_ ?_
      · simp only [Dealings.claims, Dealings.afterGrant, List.map_cons, region, List.cons_append]
        exact .refl _
      · exact List.forall_mem_cons.2 ⟨high, honors.high⟩
      · refine List.forall_mem_cons.2 ⟨?_, honors.extent⟩
        rw [region]
        exact extent

theorem coalesce (honors : table.Honors dealings) : table.coalesce.Honors dealings :=
  honors.settle [] honors.consistent honors.traced.coalesce (fun _ => id) (.refl _)
    (fun claim isClaim => mem_coalesce_of_other honors.traced.isProper
      (honors.held claim isClaim).other (honors.held claim isClaim).member) fun _ => id

theorem frame {ε : Type} {answer : Option Frame} (honors : before.Honors dealings)
    (ran : (allocateFrame : Operation (RegionTable capacity sorting) ε _).run before =
      (.done answer, after)) :
    after.Honors (dealings.afterGrant 1 .reserved (answer.map Page.base)) := by
  rw [allocateFrame] at ran
  rcases Operation.of_run_bind ran with ⟨base, between, allocated, rest⟩
  rcases Operation.of_run_pure rest with ⟨rfl, rfl⟩
  have granted := honors.grant (by decide) allocated
  have same : (base.map fun address => address.page .small).map Page.base = base := by
    cases base with
    | none => rfl
    | some address =>
        have held := granted.held _ (List.mem_cons_self)
        have aligned : address.value % 4096 = 0 :=
          (granted.traced.traces _ held.member).wellFormed.2.start
        refine congrArg some (Address.ext ?_)
        change address.value / 4096 * 4096 = address.value
        omega
  rwa [same]

/-- Only the grant's own region starts at its base, so no other claim is touched. -/
theorem free {grant : Grant} {rest : List Grant} {outcome : Outcome RegionTableError Unit}
    (honors : before.Honors dealings) (live : dealings.live.Perm (grant :: rest))
    (ran : (RegionTable.free grant.base).run before = (outcome, after)) :
    after.Honors (dealings.afterFree rest outcome) := by
  cases frees_of_free ran with
  | unknown => exact honors
  | freed retyped host others hosted reserved start changed =>
      have claims : dealings.claims.Perm
          ([grant.region] ++ (dealings.afterFree rest (.done ())).claims) :=
        (live.map Grant.region).append_right _
      have held := honors.held grant.region (claims.mem_iff.2 List.mem_cons_self)
      have aligned : grant.base.value % 4096 = 0 :=
        (honors.traced.traces _ held.member).wellFormed.2.start
      have isHost : grant.region = host := by
        refine honors.traced.eq_of_start_eq honors.consistent hosted held.member held.supplies ?_
        rw [start]
        refine Address.ext ?_
        rw [Address.value_alignDown]
        change grant.base.value / 4096 * 4096 = grant.base.value
        omega
      have traced : retyped.IsTraced dealings := by
        refine honors.traced.retype hosted (isHost ▸ held.supplies) ?_ ?_ changed <;> rfl
      have consistent : (dealings.afterFree rest (.done ())).IsConsistent :=
        ⟨honors.consistent.apart, honors.consistent.recorded⟩
      refine honors.settle [grant.region] consistent
        (traced.coalesce.mono consistent fun _ => id) (fun _ => id) claims ?_ ?_
      · intro claim isClaim
        have claimHeld := honors.held claim (claims.mem_iff.2 (List.mem_cons_of_mem _ isClaim))
        refine mem_coalesce_of_other traced.isProper claimHeld.other ?_
        rw [changed.mem_iff]
        refine List.mem_cons_of_mem _ ?_
        rcases List.mem_cons.1 (hosted.mem_iff.1 claimHeld.member) with rfl | isOther
        · have apart := (claims.pairwise_iff Region.Apart.symm).1 honors.apart
          have beside := (List.pairwise_cons.1 apart).1 claim isClaim
          have proper := (honors.traced.traces claim claimHeld.member).wellFormed.1
          rw [isHost] at beside
          unfold Region.Apart at beside
          unfold Region.IsProper at proper
          omega
        · exact isOther
      · exact fun other isLive => live.mem_iff.2 (List.mem_cons_of_mem _ isLive)

end Honors

/-- Every run keeps the claims of its callers. -/
theorem Deals.honors (deals : Deals table dealings) : table.Honors dealings := by
  induction deals with
  | empty =>
      refine ⟨⟨?_, ?_⟩, ⟨?_, .nil⟩, ?_, .nil, ?_, ?_⟩ <;> intro _ impossible <;> cases impossible
  | added earlier proper apart ran induction => exact induction.add proper apart ran
  | reserved earlier ran induction => exact induction.reserve ran
  | granted earlier other ran induction => exact induction.grant other ran
  | frame earlier ran induction => exact induction.frame ran
  | coalesced earlier induction => exact induction.coalesce
  | freed earlier live ran induction => exact induction.free live ran

theorem Honors.covers_region (honors : table.Honors dealings) {grant : Grant}
    (live : grant ∈ dealings.live) {address : Nat} (covered : grant.Covers address) :
    grant.region.Covers address := by
  have stop := honors.extent grant live
  unfold Extent.Covers at covered
  refine ⟨covered.1, ?_⟩
  rw [stop]
  exact covered.2

/-- After any run, the pages given out and not taken back are whole pages outside low
memory. Their bytes were recorded as available, and none of them was given to the table
as anything else, lies in a reserved range or was given out twice. -/
theorem live_grants_are_exclusive (deals : Deals table dealings) :
    (∀ grant ∈ dealings.live,
      grant.base.value % 4096 = 0 ∧ lowMemoryEnd.value ≤ grant.base.value ∧
      ∀ address, grant.Covers address →
        (∃ range ∈ dealings.recorded, range.code = RegionKind.available.code ∧
          range.Covers address) ∧
        (∀ range ∈ dealings.given, range.code ≠ RegionKind.available.code →
          ¬ range.Covers address) ∧
        ∀ range ∈ dealings.reserved, ¬ range.Covers address) ∧
    dealings.live.Pairwise fun left right =>
      ∀ address, left.Covers address → ¬ right.Covers address := by
  have honors := deals.honors
  have apart := List.pairwise_append.1 honors.apart
  refine ⟨fun grant isLive => ?_, ?_⟩
  · have isClaim : grant.region ∈ dealings.claims :=
      List.mem_append_left _ (List.mem_map_of_mem isLive)
    have held := honors.held grant.region isClaim
    have formed := (honors.traced.traces _ held.member).wellFormed
    refine ⟨formed.2.start, honors.high grant isLive, fun address covered => ?_⟩
    have inside := honors.covers_region isLive covered
    rcases held.supplies address inside with ⟨source, isSource, available, inSource⟩
    refine ⟨⟨source, isSource, available, inSource⟩, fun range isRange other inRange => ?_,
      fun range isRange inRange => ?_⟩
    · have different : source ≠ range := by
        rintro rfl
        exact other available
      have separate := honors.consistent.apart source
        (honors.consistent.recorded source isSource) range isRange different
      unfold Region.Apart at separate
      unfold Region.Covers at inSource inRange
      omega
    · have proper : range.IsProper := Nat.lt_of_le_of_lt inRange.1 inRange.2
      have separate := apart.2.2 grant.region (List.mem_map_of_mem isLive) range
        (List.mem_filter.2 ⟨isRange, decide_eq_true proper⟩)
      unfold Region.Apart at separate
      unfold Region.Covers at inside inRange
      omega
  · refine (List.pairwise_map.1 apart.1).imp_of_mem fun leftLive rightLive separate address
      inLeft inRight => ?_
    have leftCovers := honors.covers_region leftLive inLeft
    have rightCovers := honors.covers_region rightLive inRight
    unfold Region.Apart at separate
    unfold Region.Covers at leftCovers rightCovers
    omega

/-- A hazard shares its page with the available range behind it; one page is reserved, one
given out and taken back, and two stay with their holder. -/
theorem mixed_run_keeps_pages_apart :
    ∃ (table : RegionTable 8) (dealings : Dealings), Deals table dealings ∧
      dealings.live = [⟨⟨.ofNat 0x102000, 2⟩, .allocated⟩] ∧
      ∀ grant ∈ dealings.live,
        grant.base.value % 4096 = 0 ∧ lowMemoryEnd.value ≤ grant.base.value ∧
        ∀ address, grant.Covers address →
          (∃ range ∈ dealings.recorded, range.code = RegionKind.available.code ∧
            range.Covers address) ∧
          (∀ range ∈ dealings.given, range.code ≠ RegionKind.available.code →
            ¬ range.Covers address) ∧
          ∀ range ∈ dealings.reserved, ¬ range.Covers address := by
  have start : Deals (.empty : RegionTable 8) ⟨[], [], [], []⟩ := .empty
  have memory := start.added
    (show (Region.of .available (.ofNat 0x100000) (.ofNat 0x108000)).IsProper by decide)
    (by decide) (Operation.run_eq_of_outcome (show _ = Outcome.done () by decide))
  have hazard := memory.added
    (show (Region.of .nonVolatile (.ofNat 0x108800) (.ofNat 0x108900)).IsProper by decide)
    (by decide) (Operation.run_eq_of_outcome (show _ = Outcome.done () by decide))
  have behind := hazard.added
    (show (Region.of .available (.ofNat 0x108900) (.ofNat 0x10a000)).IsProper by decide)
    (by decide) (Operation.run_eq_of_outcome (show _ = Outcome.done () by decide))
  have reserved := behind.reserved (Operation.run_eq_of_outcome
    (show ((RegionTable.reserve (.ofNat 0x100800) (.ofNat 0x100900)).run _).1 = .done () by
      decide))
  have first := reserved.granted (show RegionKind.reserved ≠ .available by decide)
    (Operation.run_eq_of_outcome
      (show ((allocateAs 1 .reserved : Operation (RegionTable 8) Empty _).run _).1 =
        .done (some (.ofNat 0x101000)) by decide +kernel))
  have second := first.granted (show RegionKind.allocated ≠ .available by decide)
    (Operation.run_eq_of_outcome
      (show ((allocateAs 2 .allocated : Operation (RegionTable 8) Empty _).run _).1 =
        .done (some (.ofNat 0x102000)) by decide))
  have back := second.freed (List.Perm.swap ..) (Operation.run_eq_of_outcome
    (show ((RegionTable.free (.ofNat 0x101000)).run _).1 = .done () by decide))
  exact ⟨_, _, back, rfl, (live_grants_are_exclusive back).1⟩

end EarlyMemory.RegionTable
