import EarlyMemory.Proofs.Ledger.Sizing
import EarlyMemory.Proofs.Region.Canonical
import EarlyMemory.Proofs.Region.Overlap

/-!
# Maximal runs

The runs of regions that follow each other are maximal: where one ends, none of its kind
begins. Maximal runs are known by which addresses they hold for which kind, so it makes no
difference to the runs how memory was cut into regions. Merging regions and giving out pages
for an image do nothing else, as far as the kernel can tell.
-/

namespace EarlyMemory

namespace Region

variable {regions : List Region} {left right : Region} {kind : KernelKind} {address : Nat}

/-- Whether an address lies in a region that the kernel takes for a kind. -/
def HoldAs (regions : List Region) (kind : KernelKind) (address : Nat) : Prop :=
  ∃ region ∈ regions, region.kernelKind = kind ∧ region.Covers address

theorem kernelKind_congr (same : left.code = right.code) : left.kernelKind = right.kernelKind := by
  rw [kernelKind, kernelKind, kernelKind?, kernelKind?, kind?, kind?, same]

/-- A region without any address precedes every other one and is preceded by it. -/
theorem precedes_iff : left.Precedes right ↔
    (left.IsProper → right.IsProper → left.stop.value ≤ right.start.value) := by
  constructor
  · exact Precedes.stop_le
  · intro follows lower higher low high
    have behind := follows (Nat.lt_of_le_of_lt low.1 low.2) (Nat.lt_of_le_of_lt high.1 high.2)
    exact precedes_of_stop_le behind lower higher low high

theorem IsSequential.pairwise_precedes (sequential : IsSequential regions) :
    regions.Pairwise Precedes :=
  sequential.imp precedes_of_stop_le

theorem isSequential_of_precedes (sorted : regions.Pairwise Precedes) :
    IsSequential (regions.filter fun region => !region.isEmpty) :=
  (sorted.filter _).imp_of_mem fun isLeft isRight precedes =>
    precedes.stop_le (Run.isProper_of_mem_filter isLeft) (Run.isProper_of_mem_filter isRight)

end Region

namespace Run

variable {run left right : Run} {runs others : List Run} {regions : List Region}
  {kind : KernelKind} {address first last : Nat}

/-! ## Lists of maximal runs -/

def Holds (run : Run) (address : Nat) : Prop :=
  run.base.value ≤ address ∧ address < run.stop.value

def HoldAs (runs : List Run) (kind : KernelKind) (address : Nat) : Prop :=
  ∃ run ∈ runs, run.kind = kind ∧ run.Holds address

/-- Whether one run ends before another one begins, and is of another kind if it ends right
there. -/
structure BreaksBefore (left right : Run) : Prop where
  precedes : left.Precedes right
  kind : left.stop = right.base → left.kind ≠ right.kind

/-- Whether nonempty runs stand one after the other and none goes on in the next one. -/
structure AreMaximal (runs : List Run) : Prop where
  proper : ∀ run ∈ runs, run.base.value < run.stop.value
  breaks : runs.Pairwise BreaksBefore

namespace AreMaximal

theorem breaks_or (maximal : AreMaximal runs) (isLeft : left ∈ runs) (isRight : right ∈ runs)
    (different : left ≠ right) : left.BreaksBefore right ∨ right.BreaksBefore left := by
  have symmetric : Std.Symm fun left right : Run =>
      left.BreaksBefore right ∨ right.BreaksBefore left := ⟨fun _ _ => Or.symm⟩
  have related : runs.Pairwise fun left right =>
      left.BreaksBefore right ∨ right.BreaksBefore left := maximal.breaks.imp .inl
  exact related.forall isLeft isRight different

theorem eq_of_holds (maximal : AreMaximal runs) (isLeft : left ∈ runs) (isRight : right ∈ runs)
    (leftHolds : left.Holds address) (rightHolds : right.Holds address) : left = right := by
  apply Decidable.byContradiction
  intro different
  unfold Holds at leftHolds rightHolds
  rcases maximal.breaks_or isLeft isRight different with breaks | breaks
  all_goals
    have precedes := breaks.precedes
    unfold Precedes at precedes
    omega

/-- Addresses that follow each other and are held for one kind lie in one run. -/
theorem exists_run (maximal : AreMaximal runs) (nonempty : first < last)
    (held : ∀ address, first ≤ address → address < last → HoldAs runs kind address) :
    ∃ run ∈ runs, run.kind = kind ∧ run.base.value ≤ first ∧ last ≤ run.stop.value := by
  rcases held first (Nat.le_refl _) nonempty with ⟨run, member, isKind, holds⟩
  refine ⟨run, member, isKind, holds.1, Nat.le_of_not_lt fun short => ?_⟩
  -- Otherwise a run of the same kind holds the address where this one ends.
  rcases held run.stop.value (Nat.le_of_lt holds.2) short with ⟨next, isNext, nextKind, nextHolds⟩
  have different : run ≠ next := by
    rintro rfl
    exact Nat.lt_irrefl _ nextHolds.2
  rcases maximal.breaks_or member isNext different with ahead | behind
  · have meet : run.stop = next.base := Address.ext (Nat.le_antisymm ahead.precedes nextHolds.1)
    exact ahead.kind meet (isKind.trans nextKind.symm)
  · have precedes := behind.precedes
    have proper := maximal.proper run member
    unfold Precedes at precedes
    unfold Holds at nextHolds
    omega

theorem mem_of_holdAs_iff (maximal : AreMaximal runs) (otherMaximal : AreMaximal others)
    (same : ∀ kind address, HoldAs runs kind address ↔ HoldAs others kind address)
    (member : run ∈ runs) : run ∈ others := by
  have proper := maximal.proper run member
  have heldByOthers : ∀ address, run.base.value ≤ address → address < run.stop.value →
      HoldAs others run.kind address :=
    fun address above below => (same _ _).1 ⟨run, member, rfl, above, below⟩
  rcases otherMaximal.exists_run proper heldByOthers with ⟨other, isOther, isKind, start, stop⟩
  have held : ∀ address, other.base.value ≤ address → address < other.stop.value →
      HoldAs runs run.kind address :=
    fun address above below => (same _ _).2 ⟨other, isOther, isKind, above, below⟩
  rcases maximal.exists_run (otherMaximal.proper other isOther) held with
    ⟨again, isAgain, _, againStart, againStop⟩
  -- The run lies in the other one, which lies in a run that shares an address with the first.
  have itself : run = again :=
    maximal.eq_of_holds member isAgain ⟨Nat.le_refl _, proper⟩ ⟨by omega, by omega⟩
  subst itself
  have equal : run = other := by
    rw [Run.mk.injEq]
    exact ⟨Address.ext (by omega), Address.ext (by omega), isKind.symm⟩
  exact equal ▸ isOther

theorem nodup (maximal : AreMaximal runs) : runs.Nodup := by
  refine maximal.breaks.imp_of_mem ?_
  rintro left _ isLeft _ breaks rfl
  have proper := maximal.proper left isLeft
  have precedes := breaks.precedes
  unfold Precedes at precedes
  omega

/-- Maximal runs that hold the same addresses for the same kinds are the same runs. -/
theorem eq_of_holdAs_iff (maximal : AreMaximal runs) (otherMaximal : AreMaximal others)
    (same : ∀ kind address, HoldAs runs kind address ↔ HoldAs others kind address) :
    runs = others := by
  have perm : runs.Perm others := (List.perm_ext_iff_of_nodup maximal.nodup otherMaximal.nodup).2
    fun run => ⟨maximal.mem_of_holdAs_iff otherMaximal same,
      otherMaximal.mem_of_holdAs_iff maximal fun kind address => (same kind address).symm⟩
  refine perm.eq_of_pairwise ?_ maximal.breaks otherMaximal.breaks
  intro left right isLeft isRight ahead behind
  have leftProper := maximal.proper left isLeft
  have rightProper := otherMaximal.proper right isRight
  have precedes := ahead.precedes
  have follows := behind.precedes
  unfold Precedes at precedes follows
  omega

end AreMaximal

/-! ## The runs of regions -/

theorem pairwise_breaks_extend (proper : ∀ region ∈ regions, region.IsProper)
    (sequential : Region.IsSequential regions)
    (ahead : ∀ region ∈ regions, run.stop.value ≤ region.start.value) :
    (run.extend regions).Pairwise BreaksBefore := by
  induction regions generalizing run with
  | nil => exact List.pairwise_singleton ..
  | cons next rest induction =>
      have parts := List.pairwise_cons.1 sequential
      rw [List.forall_mem_cons] at proper ahead
      have properNext := proper.1
      unfold Region.IsProper at properNext
      unfold extend
      split
      next => exact induction proper.2 parts.2 parts.1
      next breaks =>
        refine List.pairwise_cons.2 ⟨?_, induction proper.2 parts.2 parts.1⟩
        -- Only the next region can begin where the run ends.
        apply forall_mem_extend
        · refine ⟨ahead.1, fun meet same => breaks ?_⟩
          exact continuesInto_iff.2 ⟨meet.symm, same.symm⟩
        · intro region isLater
          have later := parts.1 region isLater
          refine ⟨ahead.2 region isLater, fun meet => ?_⟩
          have meet : run.stop.value = region.start.value := congrArg Address.value meet
          omega
        · exact fun _ _ _ breaksBefore _ => ⟨breaksBefore.precedes, breaksBefore.kind⟩

theorem areMaximal_ofRegions (sorted : regions.Pairwise Region.Precedes) :
    AreMaximal (ofRegions regions) where
  proper := by
    refine forall_mem_ofRegions (fun run => run.base.value < run.stop.value) ?_ ?_
    · exact fun region _ proper => proper
    · intro _ region _ properRegion proper continues
      unfold Region.IsProper at properRegion
      rw [(continuesInto_iff.1 continues).1] at properRegion
      exact Nat.lt_trans proper properRegion
  breaks := by
    have sequential := Region.isSequential_of_precedes sorted
    have proper : ∀ region ∈ regions.filter (fun region => !region.isEmpty), region.IsProper :=
      fun _ => isProper_of_mem_filter
    unfold ofRegions
    cases list : regions.filter fun region => !region.isEmpty with
    | nil => exact .nil
    | cons first rest =>
        rw [list] at sequential proper
        have parts := List.pairwise_cons.1 sequential
        exact pairwise_breaks_extend (List.forall_mem_cons.1 proper).2 parts.2 parts.1

theorem holdAs_ofRegions_iff :
    HoldAs (ofRegions regions) kind address ↔ Region.HoldAs regions kind address := by
  constructor
  · rintro ⟨run, member, rfl, holds⟩
    revert run member address
    suffices held : ∀ run ∈ ofRegions regions, ∀ address, run.Holds address →
        Region.HoldAs regions run.kind address from
      fun {address} run member holds => held run member address holds
    apply forall_mem_ofRegions
    · exact fun region member _ address holds => ⟨region, member, rfl, holds⟩
    · intro run region member _ held continues address holds
      rcases continuesInto_iff.1 continues with ⟨touching, sameKind⟩
      have boundary : region.start.value = run.stop.value := congrArg Address.value touching
      by_cases early : address < run.stop.value
      · exact held address ⟨holds.1, early⟩
      · exact ⟨region, member, sameKind, by omega, holds.2⟩
  · rintro ⟨region, member, rfl, covers⟩
    have proper : region.IsProper := Nat.lt_of_le_of_lt covers.1 covers.2
    rcases exists_mem_ofRegions member proper with ⟨run, isRun, holds⟩
    exact ⟨run, isRun, holds.kind, Nat.le_trans holds.base covers.1,
      Nat.lt_of_lt_of_le covers.2 holds.stop⟩

/-- It makes no difference to the runs how memory was cut into regions. -/
theorem ofRegions_eq_of_holdAs_iff {left right : List Region}
    (leftSorted : left.Pairwise Region.Precedes) (rightSorted : right.Pairwise Region.Precedes)
    (same : ∀ kind address, Region.HoldAs left kind address ↔ Region.HoldAs right kind address) :
    ofRegions left = ofRegions right :=
  (areMaximal_ofRegions leftSorted).eq_of_holdAs_iff (areMaximal_ofRegions rightSorted)
    fun kind address => holdAs_ofRegions_iff.trans ((same kind address).trans
      holdAs_ofRegions_iff.symm)

theorem isWellFormed_of_mem_ofRegions
    (aligned : ∀ region ∈ regions, region.IsProper → region.IsPageAligned)
    (member : run ∈ ofRegions regions) : run.IsWellFormed := by
  have same : ofRegions (regions.filter fun region => !region.isEmpty) = ofRegions regions := by
    simp only [ofRegions, List.filter_filter, Bool.and_self]
  rw [← same] at member
  refine (mem_ofRegions (fun region kept => ?_) member).1
  exact aligned region (List.mem_filter.1 kept).1 (isProper_of_mem_filter kept)

theorem sum_pageCount_ofRegions
    (aligned : ∀ region ∈ regions, region.IsProper → region.IsPageAligned) :
    ((ofRegions regions).map pageCount).sum =
      (regions.map fun region => region.length / 4096).sum := by
  have wholeRuns : (ofRegions regions).map length =
      (ofRegions regions).map fun run => run.pageCount * 4096 :=
    List.map_congr_left fun run member => (isWellFormed_of_mem_ofRegions aligned member).length_eq
  have wholeRegions : regions.map Region.Measure.bytes.of =
      regions.map fun region => region.length / 4096 * 4096 := by
    refine List.map_congr_left fun region member => ?_
    change region.stop.value - region.start.value = _
    unfold Region.length
    by_cases proper : region.IsProper
    · have start := (aligned region member proper).start
      have stop := (aligned region member proper).stop
      omega
    · unfold Region.IsProper at proper
      omega
  have lengths := totalLength_ofRegions regions
  rw [totalLength, Region.Measure.total, wholeRuns, wholeRegions, List.sum_map_mul_right,
    List.sum_map_mul_right] at lengths
  exact Nat.eq_of_mul_eq_mul_right (by decide) lengths

/-- What is expected of the runs of regions. -/
structure Represent (runs : List Run) (regions : List Region) : Prop where
  maximal : AreMaximal runs
  holdAs : ∀ kind address, HoldAs runs kind address ↔ Region.HoldAs regions kind address
  pages : ∃ counts, runs.mapM pages = .ok counts ∧
    counts.sum = (regions.map fun region => region.length / 4096).sum

theorem represent_ofRegions (sorted : regions.Pairwise Region.Precedes)
    (aligned : ∀ region ∈ regions, region.IsProper → region.IsPageAligned) :
    Represent (ofRegions regions) regions where
  maximal := areMaximal_ofRegions sorted
  holdAs _ _ := holdAs_ofRegions_iff
  pages := ⟨_, mapM_eq_ok fun _ member =>
    pages_eq_ok (isWellFormed_of_mem_ofRegions aligned member).proper,
    sum_pageCount_ofRegions aligned⟩

end Run

/-! ## Runs of a table -/

namespace RegionTable

variable {capacity : Nat} {sorting : Region.Sorting} {ε : Type}
  {table before after : RegionTable capacity sorting} {source target : RegionKind}
  {kind : KernelKind} {address first last : Nat}

theorem coverage_pos_iff {code : UInt32} : 0 < table.coverage code address ↔
    ∃ region ∈ table.regions, region.code = code ∧ region.Covers address := by
  simp only [coverage, List.countP_pos_iff, decide_eq_true_iff]

/-- For which kinds a table holds an address can be read off its coverage. -/
theorem holdAs_iff_coverage_pos : Region.HoldAs table.regions kind address ↔
    ∃ region : Region, region.kernelKind = kind ∧ 0 < table.coverage region.code address := by
  simp only [coverage_pos_iff]
  constructor
  · rintro ⟨region, member, isKind, covers⟩
    exact ⟨region, isKind, region, member, rfl, covers⟩
  · rintro ⟨region, isKind, other, member, sameCode, covers⟩
    exact ⟨other, member, (Region.kernelKind_congr sameCode).trans isKind, covers⟩

/-- What moves between kinds that the kernel takes for the same one is still held for it. -/
theorem holdAs_of_moves (moves : before.Moves after source target first last)
    (different : source ≠ target)
    (same : KernelKind.ofRegionKind source = KernelKind.ofRegionKind target)
    (held : Region.HoldAs before.regions kind address) :
    Region.HoldAs after.regions kind address := by
  rcases holdAs_iff_coverage_pos.1 held with ⟨region, isKind, counted⟩
  refine holdAs_iff_coverage_pos.2 ?_
  by_cases moved : region.code = source.code ∧ first ≤ address ∧ address < last
  · have gains := moves target.code address
    rw [if_neg (by simp [RegionKind.code_eq_iff, different.symm]),
      if_pos ⟨rfl, moved.2⟩] at gains
    have gained : 0 < after.coverage target.code address := by omega
    refine ⟨{ region with code := target.code }, ?_, gained⟩
    rw [Region.kernelKind_of_code rfl, ← same, ← Region.kernelKind_of_code moved.1, isKind]
  · have stays := moves region.code address
    rw [if_neg moved] at stays
    exact ⟨region, isKind, by omega⟩

theorem Moves.symm (moves : before.Moves after source target first last) :
    after.Moves before target source first last :=
  fun code address => (moves code address).symm

/-- The requests that change nothing for the kernel. -/
inductive Request.KeepsKinds : Request → Prop
  | coalesce : KeepsKinds .coalesce
  | allocateAs (pages : Nat) : KeepsKinds (.allocateAs pages .allocated)

theorem Serves.holdAs_iff {request : Request} {answer : Answer}
    (serves : Serves before request answer after) (keeps : request.KeepsKinds)
    (proper : ∀ region ∈ before.regions, region.IsProper) :
    Region.HoldAs after.regions kind address ↔ Region.HoldAs before.regions kind address := by
  have affects := serves.affects proper
  have differ : RegionKind.available ≠ .allocated := by decide
  cases keeps with
  | coalesce =>
      rcases answer with cause | base
      · cases affects
        exact Iff.rfl
      · have same := fun code => affects code address
        simp only [holdAs_iff_coverage_pos, same]
  | allocateAs pages =>
      rcases answer with cause | base | base
      · cases affects
        exact Iff.rfl
      · cases affects
        exact Iff.rfl
      · exact ⟨holdAs_of_moves affects.symm differ.symm rfl, holdAs_of_moves affects differ rfl⟩

structure IsTidy (table : RegionTable capacity sorting) : Prop where
  built : table.Built
  apart : table.regions.Pairwise Region.Apart

namespace IsTidy

theorem isProper (tidy : table.IsTidy) : ∀ region ∈ table.regions, region.IsProper :=
  fun region member => (tidy.built.isWellFormed region member).1

theorem precedes (tidy : table.IsTidy) : table.regions.Pairwise Region.Precedes :=
  (tidy.built.isSequential tidy.apart).pairwise_precedes

theorem serve (tidy : before.IsTidy) {request : Request} {answer : Answer}
    (serves : Serves before request answer after) (built : after.Built)
    (other : ∀ kind start stop, request ≠ .add kind start stop) : after.IsTidy where
  built := built
  apart := by
    have once := (pairwise_apart_iff_depth_le_one tidy.isProper).1 tidy.apart
    refine (pairwise_apart_iff_depth_le_one fun region member =>
      (built.isWellFormed region member).1).2 fun address => ?_
    have same := serves.total tidy.isProper (Region.Measure.isUniform_holding address) other
    rw [total_holding, total_holding] at same
    exact same ▸ once address

theorem serve_keepsKinds (tidy : table.IsTidy) {request : Request}
    (keeps : request.KeepsKinds) :
    ∃ answer after, (request.serve : Operation (RegionTable capacity sorting) ε Answer).run table =
        (.done answer, after) ∧ after.IsTidy ∧
      Run.ofRegions after.regions = Run.ofRegions table.regions := by
  rcases tidy.built.serve (ε := ε) request with ⟨answer, after, ran, built, serves⟩
  have tidyAfter : after.IsTidy := by
    refine tidy.serve serves built ?_
    rintro kind start stop rfl
    cases keeps
  exact ⟨answer, after, ran, tidyAfter, Run.ofRegions_eq_of_holdAs_iff tidyAfter.precedes
    tidy.precedes fun kind address => serves.holdAs_iff keeps tidy.isProper⟩

/-- However often a table is merged and gives out pages for an image, its runs stay. -/
theorem serveAll_keepsKinds (tidy : table.IsTidy) {requests : List Request}
    (keep : ∀ request ∈ requests, request.KeepsKinds) :
    ∃ exchanges after,
      (serveAll requests : Operation (RegionTable capacity sorting) ε _).run table =
        (.done exchanges, after) ∧ after.IsTidy ∧
      Run.ofRegions after.regions = Run.ofRegions table.regions := by
  induction requests generalizing table with
  | nil => exact ⟨[], table, rfl, tidy, rfl⟩
  | cons request rest induction =>
      have keeps := List.forall_mem_cons.1 keep
      rcases tidy.serve_keepsKinds (ε := ε) keeps.1 with ⟨answer, between, first, tidyBetween, once⟩
      rcases induction tidyBetween keeps.2 with ⟨further, after, later, tidyAfter, same⟩
      refine ⟨⟨request, answer⟩ :: further, after, ?_, tidyAfter, same.trans once⟩
      rw [serveAll, Operation.run_bind_of_done first, Operation.run_bind_of_done later,
        Operation.run_pure]

end IsTidy

/-- The runs of regions are the only maximal ones that hold what the regions hold, page by
page. A table whose regions do not overlap keeps them while it is merged and gives out pages
for an image. -/
theorem runs_do_not_depend_on_the_cut :
    (∀ regions : List Region, regions.Pairwise Region.Precedes →
      (∀ region ∈ regions, region.IsProper → region.IsPageAligned) →
      Run.Represent (Run.ofRegions regions) regions ∧
        ∀ runs, Run.AreMaximal runs →
          (∀ kind address, Run.HoldAs runs kind address ↔ Region.HoldAs regions kind address) →
          runs = Run.ofRegions regions) ∧
    ∀ (capacity : Nat) (sorting : Region.Sorting) (table : RegionTable capacity sorting),
      table.Built →
      table.regions.Pairwise Region.Apart →
      ∀ requests : List Request, (∀ request ∈ requests, request.KeepsKinds) →
        ∃ exchanges after,
          (serveAll requests : Operation (RegionTable capacity sorting) Empty _).run table =
            (.done exchanges, after) ∧
          Run.ofRegions after.regions = Run.ofRegions table.regions := by
  constructor
  · intro regions sorted aligned
    refine ⟨Run.represent_ofRegions sorted aligned, fun runs maximal same => ?_⟩
    exact maximal.eq_of_holdAs_iff (Run.areMaximal_ofRegions sorted)
      fun kind address => (same kind address).trans Run.holdAs_ofRegions_iff.symm
  · intro capacity sorting table built apart requests keep
    rcases IsTidy.serveAll_keepsKinds (ε := Empty) ⟨built, apart⟩ keep with
      ⟨exchanges, after, ran, _, same⟩
    exact ⟨exchanges, after, ran, same⟩

/-- Memory for an image next to available memory, then two regions of codes that mean
reserved and that mean nothing, with an entry in between that was never filled in. -/
def patchwork : List Region :=
  [.of .allocated (.ofNat 0x1000) (.ofNat 0x3000), .of .available (.ofNat 0x3000) (.ofNat 0x4000),
    .of .available (.ofNat 0) (.ofNat 0), .of .kernel (.ofNat 0x4000) (.ofNat 0x5000),
    { Region.of .available (.ofNat 0x5000) (.ofNat 0x6000) with code := 99 }]

theorem patchwork_has_two_runs :
    Run.Represent [⟨.ofNat 0x1000, .ofNat 0x4000, .available⟩,
      ⟨.ofNat 0x4000, .ofNat 0x6000, .reserved⟩] patchwork ∧
    ∃ exchanges after,
      (serveAll [.allocateAs 1 .allocated, .coalesce] : Operation (RegionTable 8) Empty _).run
        tidyTable = (.done exchanges, after) ∧
      exchanges.map Exchange.answer = [.ok (some (.ofNat 0x102000)), .ok none] ∧
      Run.ofRegions after.regions = [⟨.ofNat 0x100000, .ofNat 0x104000, .available⟩,
        ⟨.ofNat 0x104000, .ofNat 0x106000, .nonVolatile⟩] := by
  have sorted : patchwork.Pairwise Region.Precedes := by
    have follows : patchwork.Pairwise fun left right =>
        left.IsProper → right.IsProper → left.stop.value ≤ right.start.value := by decide
    exact follows.imp Region.precedes_iff.2
  have aligned : ∀ region ∈ patchwork, region.IsProper → region.IsPageAligned := by
    have whole : ∀ region ∈ patchwork,
        region.start.value % 4096 = 0 ∧ region.stop.value % 4096 = 0 := by decide
    exact fun region member _ => ⟨(whole region member).1, (whole region member).2⟩
  have built : tidyTable.Built := by
    rcases Built.empty.serveAll (ε := Empty) tidyRun with ⟨_, _, ran, _, built⟩
    rw [run_tidyRun] at ran
    cases ran
    exact built
  have keep : ∀ request ∈ [Request.allocateAs 1 .allocated, .coalesce], request.KeepsKinds :=
    List.forall_mem_cons.2 ⟨.allocateAs 1, List.forall_mem_singleton.2 .coalesce⟩
  have answers : ((serveAll [.allocateAs 1 .allocated, .coalesce] :
      Operation (RegionTable 8) Empty _).run tidyTable).1 =
        .done [⟨.allocateAs 1 .allocated, .ok (some (.ofNat 0x102000))⟩,
          ⟨.coalesce, .ok none⟩] := by
    decide +kernel
  have runs := runs_do_not_depend_on_the_cut
  rcases runs.2 8 _ tidyTable built (by decide) _ keep with ⟨exchanges, after, ran, same⟩
  rw [ran] at answers
  cases answers
  exact ⟨(runs.1 patchwork sorted aligned).1, _, after, ran, rfl, same.trans (by decide)⟩

end RegionTable

end EarlyMemory
