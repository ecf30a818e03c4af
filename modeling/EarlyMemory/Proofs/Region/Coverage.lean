import EarlyMemory.Proofs.Region.Serving

/-!
# Coverage

A table says of each address how many regions of each kind hold it. Recording adds a range
to that. Reserving, giving out and taking back move a range from one kind to another, and
merging changes nothing. This is so whether or not regions overlap, since it is so of every
quantity that adds up when a region is cut: of how many regions hold an address, and of how
long they are together.
-/

namespace EarlyMemory

/-! ## Quantities that add up -/

namespace Region

variable {region : Region} {address : Nat}

theorem covers_iff :
    region.Covers address ↔ region.start.value ≤ address ∧ address < region.stop.value :=
  Iff.rfl

theorem not_covers_of_not_isProper (improper : ¬ region.IsProper) : ¬ region.Covers address := by
  rw [covers_iff]
  unfold IsProper at improper
  omega

theorem ite_covers_of_cut {middle : PhysicalAddress} (above : region.start.value ≤ middle.value)
    (below : middle.value ≤ region.stop.value) : (if region.Covers address then 1 else 0) =
      (if { region with stop := middle }.Covers address then 1 else 0) +
        if { region with start := middle }.Covers address then 1 else 0 := by
  simp only [covers_iff]
  split <;> split <;> split <;> omega

/-- A quantity that is zero without any address and adds up when a region is cut. -/
structure Measure where
  of : Region → Nat
  vanishes : ∀ region : Region, ¬ region.IsProper → of region = 0
  splits : ∀ (region : Region) (middle : PhysicalAddress), region.start.value ≤ middle.value →
    middle.value ≤ region.stop.value →
    of region = of { region with stop := middle } + of { region with start := middle }

namespace Measure

variable {measure : Measure} {left right regions rest : List Region} {current region : Region}

def total (measure : Measure) (regions : List Region) : Nat :=
  (regions.map measure.of).sum

@[simp] theorem total_cons :
    measure.total (region :: regions) = measure.of region + measure.total regions := by
  simp [total]

theorem total_perm (perm : left.Perm right) : measure.total left = measure.total right :=
  (perm.map measure.of).sum_nat

theorem total_filter_isProper :
    measure.total (regions.filter fun region => decide region.IsProper) =
      measure.total regions := by
  induction regions with
  | nil => rfl
  | cons head tail induction =>
      by_cases proper : head.IsProper
      · simp [proper, induction]
      · simp [proper, induction, measure.vanishes head proper]

theorem of_joined {left right : Region} (leftProper : left.IsProper)
    (rightProper : right.IsProper) (touching : left.touches right = true) :
    measure.of (left.joined right) = measure.of left + measure.of right := by
  rcases of_touches touching with ⟨leftAvailable, rightAvailable, meet⟩
  have before : left.start.value ≤ right.start.value := by
    rw [← meet]
    exact Nat.le_of_lt leftProper
  have cut := measure.splits (left.joined right) right.start before (Nat.le_of_lt rightProper)
  have leftPart : { left.joined right with stop := right.start } = left := by
    rw [← meet, joined, rightAvailable, ← leftAvailable]
  rwa [leftPart] at cut

theorem total_mergeInto (proper : ∀ region ∈ current :: rest, region.IsProper) :
    measure.total (current.mergeInto rest) = measure.total (current :: rest) := by
  induction rest generalizing current with
  | nil => rfl
  | cons next rest induction =>
      simp only [List.forall_mem_cons] at proper
      rcases proper with ⟨first, second, others⟩
      unfold mergeInto
      split
      next touching =>
        have together := first.joined second touching
        rw [induction (List.forall_mem_cons.2 ⟨together, others⟩)]
        simp only [total_cons, of_joined first second touching, Nat.add_assoc]
      next => simp only [total_cons, induction (List.forall_mem_cons.2 ⟨second, others⟩)]

theorem total_mergeTouching (proper : ∀ region ∈ regions, region.IsProper) :
    measure.total (mergeTouching regions) = measure.total regions := by
  cases regions with
  | nil => rfl
  | cons head tail => exact total_mergeInto proper

/-- Whether a quantity is the same for all kinds of regions. -/
def IsUniform (measure : Measure) : Prop :=
  ∀ (region : Region) (code : UInt32), measure.of { region with code := code } = measure.of region

/-- The quantity as far as it is found in regions with one code. -/
def restrict (measure : Measure) (code : UInt32) : Measure where
  of region := if region.code = code then measure.of region else 0
  vanishes region improper := by simp [measure.vanishes region improper]
  splits region middle above below := by
    by_cases same : region.code = code
    · simp [same, measure.splits region middle above below]
    · simp [same]

/-- One for a region that holds the address. -/
def holding (address : Nat) : Measure where
  of region := if region.Covers address then 1 else 0
  vanishes _ improper := if_neg (not_covers_of_not_isProper improper)
  splits _ _ above below := ite_covers_of_cut above below

theorem isUniform_holding (address : Nat) : (holding address).IsUniform :=
  fun _ _ => rfl

def bytes : Measure where
  of := Region.length
  vanishes region improper := by
    unfold IsProper at improper
    unfold Region.length
    omega
  splits region middle above below := by
    unfold Region.length
    dsimp only
    omega

theorem isUniform_bytes : bytes.IsUniform :=
  fun _ _ => rfl

end Measure

end Region

namespace RegionTable

open Region (Measure)

variable {capacity : Nat} {sorting : Region.Sorting}
  {table before after : RegionTable capacity sorting} {measure : Measure}

/-! ## What requests do to a quantity -/

/-- The taken part counts as what it is taken for, and no longer as a part of its host. -/
theorem Carves.total {taken host : Region} {others : List Region}
    (carves : Carves before after taken host others) (measure : Measure) :
    measure.total after.regions + measure.of (taken.withKind .available) =
      measure.total before.regions + measure.of taken := by
  have inside := carves.proper
  have start := carves.start
  have stop := carves.stop
  unfold Region.IsProper at inside
  -- The host is cut twice, and what lies between the cuts is what was taken.
  have lower := measure.splits host taken.start start (by omega)
  have upper := measure.splits { host with start := taken.start } taken.stop
    (Nat.le_of_lt inside) stop
  have middle : { host with start := taken.start, stop := taken.stop } =
      taken.withKind .available := by
    rw [Region.withKind, ← carves.available]
  dsimp only at upper
  rw [middle] at upper
  rw [Measure.total_perm carves.carved, Measure.total_filter_isProper,
    Measure.total_perm carves.hosted]
  simp only [Measure.total_cons]
  omega

/-- Whatever a part is taken for, all kinds together have what they had. -/
theorem Carves.total_eq {taken host : Region} {others : List Region}
    (carves : Carves before after taken host others) (uniform : measure.IsUniform) :
    measure.total after.regions = measure.total before.regions := by
  have counted := carves.total measure
  have same : measure.of (taken.withKind .available) = measure.of taken := uniform taken _
  omega

theorem Records.total {region : Region} (records : Records before region (.done ()) after)
    (measure : Measure) :
    measure.total after.regions = measure.total before.regions + measure.of region := by
  cases records with
  | ignored vanishes => rw [measure.vanishes region vanishes, Nat.add_zero]
  | recorded _ perm =>
      rw [Measure.total_perm perm, Measure.total_filter_isProper, Measure.total_cons, Nat.add_comm]

theorem total_coalesce (proper : ∀ region ∈ table.regions, region.IsProper) (measure : Measure) :
    measure.total table.coalesce.regions = measure.total table.regions :=
  (Measure.total_perm (coalesce_perm proper)).trans (Measure.total_mergeTouching proper)

theorem Frees.total {address : PhysicalAddress} (frees : Frees before address (.done ()) after)
    (proper : ∀ region ∈ before.regions, region.IsProper) :
    ∃ host ∈ before.regions, host.code = RegionKind.reserved.code ∧
      host.start = address.alignDown .small ∧
      ∀ measure : Measure, measure.total after.regions + measure.of host =
        measure.total before.regions + measure.of (host.withKind .available) := by
  cases frees with
  | freed retyped host others hosted reserved start changed =>
      have member := hosted.mem_iff.2 List.mem_cons_self
      have properAfter : ∀ region ∈ retyped.regions, region.IsProper := by
        simp only [changed.mem_iff, List.forall_mem_cons]
        exact ⟨proper host member, fun region isOther =>
          proper region (hosted.mem_iff.2 (List.mem_cons_of_mem _ isOther))⟩
      refine ⟨host, member, reserved, start, fun measure => ?_⟩
      rw [total_coalesce properAfter, Measure.total_perm changed, Measure.total_perm hosted]
      simp only [Measure.total_cons]
      omega

theorem Serves.total {request : Request} {answer : Answer}
    (serves : Serves before request answer after)
    (proper : ∀ region ∈ before.regions, region.IsProper) (uniform : measure.IsUniform)
    (other : ∀ kind start stop, request ≠ .add kind start stop) :
    measure.total after.regions = measure.total before.regions := by
  cases serves with
  | refused => rfl
  | added => exact absurd rfl (other _ _ _)
  | reserved reserves =>
      cases reserves with
      | empty => rfl
      | carved host others nonempty carves => exact carves.total_eq uniform
  | granted asks allocates =>
      cases allocates with
      | none => rfl
      | carved base stop host others atStart extent high carves => exact carves.total_eq uniform
  | freed frees =>
      rcases frees.total proper with ⟨host, _, _, _, counted⟩
      have counted := counted measure
      have same : measure.of (host.withKind .available) = measure.of host := uniform host _
      omega
  | coalesced => exact total_coalesce proper measure

theorem total_of_reserve {start stop : PhysicalAddress} {outcome : Outcome RegionTableError Unit}
    (uniform : measure.IsUniform)
    (ran : (reserve start stop).run before = (outcome, after)) :
    measure.total after.regions = measure.total before.regions := by
  rcases reserve_spec before start stop with ⟨_, _, reserving, reserves⟩
  rw [ran] at reserving
  cases reserving
  cases reserves with
  | empty => rfl
  | carved host others nonempty carves => exact carves.total_eq uniform
  | notContained => rfl
  | full => rfl

theorem total_of_allocateAs {ε : Type} {pages : Nat} {kind : RegionKind}
    {outcome : Outcome ε (Option PhysicalAddress)} (uniform : measure.IsUniform)
    (ran : (allocateAs pages kind).run before = (outcome, after)) :
    measure.total after.regions = measure.total before.regions := by
  rcases allocateAs_spec before pages kind with ⟨_, _, allocating, allocates⟩
  rw [ran] at allocating
  cases allocating
  cases allocates with
  | none => rfl
  | carved base stop host others atStart extent high carves => exact carves.total_eq uniform

/-! ## Coverage -/

/-- The number of regions with a code that hold an address. -/
def coverage (table : RegionTable capacity sorting) (code : UInt32) (address : Nat) : Nat :=
  table.regions.countP fun region => decide (region.code = code ∧ region.Covers address)

/-- The number of regions of any kind that hold an address. -/
def depth (table : RegionTable capacity sorting) (address : Nat) : Nat :=
  table.regions.countP fun region => decide (region.Covers address)

def coveredBytes (table : RegionTable capacity sorting) : Nat :=
  (table.regions.map Region.length).sum

theorem total_eq_countP {test : Region → Bool} {regions : List Region}
    (counts : ∀ region, measure.of region = if test region then 1 else 0) :
    measure.total regions = regions.countP test := by
  induction regions with
  | nil => rfl
  | cons head tail induction =>
      rw [Measure.total_cons, induction, counts, List.countP_cons, Nat.add_comm]

theorem of_restrict_holding (code : UInt32) (address : Nat) (region : Region) :
    ((Measure.holding address).restrict code).of region =
      if code = region.code ∧ region.start.value ≤ address ∧ address < region.stop.value
      then 1 else 0 := by
  simp only [Measure.restrict, Measure.holding, Region.covers_iff]
  by_cases same : region.code = code
  · simp [same]
  · simp [same, Ne.symm same]

theorem total_restrict_holding (code : UInt32) (address : Nat) :
    ((Measure.holding address).restrict code).total table.regions =
      table.coverage code address := by
  apply total_eq_countP
  intro region
  simp only [of_restrict_holding, decide_eq_true_eq, Region.covers_iff, eq_comm (a := code)]

theorem total_holding (address : Nat) :
    (Measure.holding address).total table.regions = table.depth address := by
  apply total_eq_countP
  intro region
  simp only [Measure.holding, decide_eq_true_eq]

/-- The addresses from `first` up to `last` lie in one more region of a kind, and nothing
else changes. -/
def Gains (before after : RegionTable capacity sorting) (kind : RegionKind) (first last : Nat) :
    Prop :=
  ∀ code address, after.coverage code address = before.coverage code address +
    if code = kind.code ∧ first ≤ address ∧ address < last then 1 else 0

/-- The addresses from `first` up to `last` lie in one region of the source kind less and in
one more of the target kind, and nothing else changes. -/
def Moves (before after : RegionTable capacity sorting) (source target : RegionKind)
    (first last : Nat) : Prop :=
  ∀ code address,
    (after.coverage code address +
      if code = source.code ∧ first ≤ address ∧ address < last then 1 else 0) =
    before.coverage code address +
      if code = target.code ∧ first ≤ address ∧ address < last then 1 else 0

theorem moves_of_empty {source target : RegionKind} {first last : Nat} (empty : last ≤ first) :
    table.Moves table source target first last := by
  intro code address
  rw [if_neg (by omega), if_neg (by omega)]

theorem Carves.moves {kind : RegionKind} {start stop : PhysicalAddress} {host : Region}
    {others : List Region} (carves : Carves before after (Region.of kind start stop) host others) :
    before.Moves after .available kind start.value stop.value := by
  intro code address
  have counted := carves.total ((Measure.holding address).restrict code)
  simpa only [total_restrict_holding, of_restrict_holding, Region.of, Region.withKind] using counted

/-- A range clipped to physical memory and rounded to whole pages. -/
def pageSpan (kind : RegionKind) (start stop : Nat) : Nat × Nat :=
  let first := min start physicalLimit.value
  let last := min stop physicalLimit.value
  if kind = .available then
    ((first + 4095) / 4096 * 4096, last / 4096 * 4096)
  else
    (first / 4096 * 4096, (last + 4095) / 4096 * 4096)

theorem pageSpan_eq (kind : RegionKind) (start stop : PhysicalAddress) :
    pageSpan kind start.value stop.value =
      ((rounded kind start stop).1.value, (rounded kind start stop).2.value) := by
  unfold pageSpan
  by_cases available : kind = .available
  · have inward : kind.roundsInward = true := by
      rw [available]
      rfl
    have spans := rounded_of_inward inward start stop
    rw [if_pos available, spans.1, spans.2]
  · have outward : kind.roundsInward = false := by
      cases kind <;> first | rfl | exact absurd rfl available
    have spans := rounded_of_outward outward start stop
    rw [if_neg available, spans.1, spans.2]

/-- What a request does to the coverage, by how it was answered. -/
def Affects (before after : RegionTable capacity sorting) : Request → Answer → Prop
  | .add kind start stop, .ok _ =>
      before.Gains after kind (pageSpan kind start.value stop.value).1
        (pageSpan kind start.value stop.value).2
  | .reserve start stop, .ok _ =>
      before.Moves after .available .reserved (start.alignDown .small).value
        (stop.alignUp .small).value
  | .allocate pages, .ok (some base) =>
      before.Moves after .available .reserved base.value (base.value + pages * 4096)
  | .allocateAs pages kind, .ok (some base) =>
      before.Moves after .available kind base.value (base.value + pages * 4096)
  | .allocateFrame, .ok (some base) =>
      before.Moves after .available .reserved base.value (base.value + 4096)
  | .free address, .ok _ =>
      ∃ region ∈ before.regions, region.code = RegionKind.reserved.code ∧
        region.start = address.alignDown .small ∧
        before.Moves after .reserved .available region.start.value region.stop.value
  | .coalesce, .ok _ =>
      ∀ code address, after.coverage code address = before.coverage code address
  | _, _ => after = before

theorem Serves.affects {request : Request} {answer : Answer}
    (serves : Serves before request answer after)
    (proper : ∀ region ∈ before.regions, region.IsProper) :
    before.Affects after request answer := by
  cases serves with
  | refused cause => cases request <;> rfl
  | added records =>
      intro code address
      have counted := records.total ((Measure.holding address).restrict code)
      simpa only [total_restrict_holding, of_restrict_holding, pageSpan_eq, Region.of] using counted
  | reserved reserves =>
      cases reserves with
      | empty nothing => exact moves_of_empty nothing
      | carved host others nonempty carves => exact carves.moves
  | granted asks allocates =>
      cases allocates with
      | none => cases asks <;> rfl
      | carved base stop host others atStart extent high carves =>
          have moves := carves.moves
          rw [extent] at moves
          cases asks <;> exact moves
  | freed frees =>
      rcases frees.total proper with ⟨host, member, reserved, start, counted⟩
      refine ⟨host, member, reserved, start, fun code address => ?_⟩
      have moved := counted ((Measure.holding address).restrict code)
      simpa only [total_restrict_holding, of_restrict_holding, reserved, Region.withKind]
        using moved
  | coalesced =>
      intro code address
      rw [← total_restrict_holding, total_coalesce proper, total_restrict_holding]

/-- Each request changes the coverage of a table by the range it is about and in no other
way. Only the recording of ranges changes how often an address is covered at all, and the
number of bytes that are covered. -/
theorem requests_account_for_coverage {ε : Type} {request : Request} {answer : Answer}
    (built : table.Built)
    (ran : (request.serve : Operation (RegionTable capacity sorting) ε Answer).run table =
      (.done answer, after)) :
    table.Affects after request answer ∧
      ((∀ kind start stop, request ≠ .add kind start stop) →
        (∀ address, after.depth address = table.depth address) ∧
          after.coveredBytes = table.coveredBytes) := by
  rcases built.serve (ε := ε) request with ⟨_, _, same, _, serves⟩
  rw [ran] at same
  cases same
  have proper := fun region member => (built.isWellFormed region member).1
  refine ⟨serves.affects proper, fun other => ⟨fun address => ?_, ?_⟩⟩
  · rw [← total_holding, serves.total proper (Measure.isUniform_holding address) other,
      total_holding]
  · exact serves.total proper Measure.isUniform_bytes other

def overlapping : RegionTable 4 :=
  ⟨[.of .reserved ⟨0x1000, by decide⟩ ⟨0x2000, by decide⟩,
    .of .reserved ⟨0x1000, by decide⟩ ⟨0x3000, by decide⟩]⟩

def uncovered : RegionTable 4 :=
  ⟨[.of .available ⟨0x1000, by decide⟩ ⟨0x2000, by decide⟩,
    .of .reserved ⟨0x1000, by decide⟩ ⟨0x3000, by decide⟩]⟩

theorem built_overlapping : overlapping.Built := by
  have first : (add .reserved ⟨0x1000, by decide⟩ ⟨0x1800, by decide⟩).run
      (empty : RegionTable 4) =
        (.done (), ⟨[.of .reserved ⟨0x1000, by decide⟩ ⟨0x2000, by decide⟩]⟩) := by
    decide +kernel
  have second : (add .reserved ⟨0x1800, by decide⟩ ⟨0x3000, by decide⟩).run
      (⟨[.of .reserved ⟨0x1000, by decide⟩ ⟨0x2000, by decide⟩]⟩ : RegionTable 4) =
        (.done (), overlapping) := by
    decide +kernel
  exact (Built.empty.added first).added second

theorem overlapping_regions_account_for_coverage :
    overlapping.Affects uncovered (.free ⟨0x1234, by decide⟩) (.ok none) ∧
      (∀ address, uncovered.depth address = overlapping.depth address) ∧
      uncovered.coveredBytes = overlapping.coveredBytes := by
  have ran : (free ⟨0x1234, by decide⟩).run overlapping = (.done (), uncovered) := by
    decide +kernel
  have accounted := requests_account_for_coverage built_overlapping
    (run_serve_of_done (ε := Empty) (.free _) (Operation.run_bind_of_done ran))
  exact ⟨accounted.1, accounted.2 (by simp)⟩

end RegionTable

end EarlyMemory
