import EarlyMemory.Proofs.Region.Arrangement

/-!
# Sound tables

Every region of a sound table is a nonempty run of whole pages in physical memory, and
memory that the kernel may come to manage lies in one region only. Hazards may overlap
each other, since they are rounded outward. Carving keeps a table sound, and takes away
from the available memory exactly what it carves out.
-/

namespace EarlyMemory

namespace Region

/-- Whether no address lies in both regions. -/
def Apart (left right : Region) : Prop :=
  left.stop.value ≤ right.start.value ∨ right.stop.value ≤ left.start.value

instance (left right : Region) : Decidable (left.Apart right) :=
  inferInstanceAs (Decidable (_ ∨ _))

theorem Apart.symm {left right : Region} (apart : left.Apart right) : right.Apart left :=
  Or.symm apart

structure IsWhole (region : Region) : Prop where
  start : region.start.value % 4096 = 0
  stop : region.stop.value % 4096 = 0
  within : region.stop.value ≤ physicalLimit.value

theorem hasKind_iff {region : Region} {kind : RegionKind} :
    region.hasKind kind = true ↔ region.code = kind.code := by
  simp [hasKind]

theorem kernelKind_of_code {region : Region} {kind : RegionKind}
    (same : region.code = kind.code) : region.kernelKind = KernelKind.ofRegionKind kind := by
  simp [kernelKind, kernelKind?, kind?, same, RegionKind.ofCode?_code]

/-- Whether the kernel may come to manage the region. -/
def IsManaged (region : Region) : Prop :=
  region.kernelKind = .available

theorem isManaged_of_available {region : Region}
    (available : region.code = RegionKind.available.code) : region.IsManaged :=
  kernelKind_of_code available

theorem isManaged_iff {region : Region} : region.IsManaged ↔
    region.code = RegionKind.available.code ∨ region.code = RegionKind.allocated.code := by
  constructor
  · intro managed
    unfold IsManaged kernelKind kernelKind? kind? at managed
    cases found : RegionKind.ofCode? region.code with
    | none =>
        rw [found] at managed
        cases managed
    | some kind =>
        rw [found] at managed
        have same : kind.code = region.code := by simpa using List.find?_some found
        rw [← same]
        cases kind <;> simp [KernelKind.ofRegionKind] at managed ⊢
  · rintro (available | allocated)
    · exact kernelKind_of_code available
    · exact kernelKind_of_code allocated

/-- Regions that can stand in one table. -/
def Separate (left right : Region) : Prop :=
  left.IsManaged ∨ right.IsManaged → left.Apart right

theorem Separate.symm {left right : Region} (separate : left.Separate right) :
    right.Separate left :=
  fun managed => (separate managed.symm).symm

end Region

namespace RegionTable

variable {capacity : Nat} {sorting : Region.Sorting}
  {before after table : RegionTable capacity sorting} {taken host region : Region}
  {others : List Region} {low first last : Nat}

structure IsSound (table : RegionTable capacity sorting) : Prop where
  proper : ∀ region ∈ table.regions, region.IsProper
  whole : ∀ region ∈ table.regions, region.IsWhole
  separate : table.regions.Pairwise Region.Separate

/-- Whether one available region from `low` on holds all addresses from `first` up to
`last`. -/
def Offers (table : RegionTable capacity sorting) (low first last : Nat) : Prop :=
  ∃ region ∈ table.regions, region.code = RegionKind.available.code ∧
    low ≤ region.start.value ∧ region.start.value ≤ first ∧ last ≤ region.stop.value

theorem Offers.mono (offers : table.Offers low first last) {lower inner outer : Nat}
    (below : lower ≤ low) (first_le : first ≤ inner) (le_last : outer ≤ last) :
    table.Offers lower inner outer := by
  rcases offers with ⟨region, member, available, high, start, stop⟩
  exact ⟨region, member, available, by omega, by omega, by omega⟩

/-- One available region is cut: a part of it is taken and the remainders stay. -/
structure Carves (before after : RegionTable capacity sorting) (taken host : Region)
    (others : List Region) : Prop where
  hosted : before.regions.Perm (host :: others)
  available : host.code = RegionKind.available.code
  start : host.start.value ≤ taken.start.value
  stop : taken.stop.value ≤ host.stop.value
  proper : taken.IsProper
  carved : after.regions.Perm ((taken :: { host with stop := taken.start } ::
    { host with start := taken.stop } :: others).filter fun region => decide region.IsProper)

namespace Carves

variable (carves : Carves before after taken host others)

include carves

theorem mem_before : region ∈ before.regions ↔ region = host ∨ region ∈ others := by
  rw [carves.hosted.mem_iff, List.mem_cons]

theorem mem_after : region ∈ after.regions ↔
    (region = taken ∨ region = { host with stop := taken.start } ∨
      region = { host with start := taken.stop } ∨ region ∈ others) ∧ region.IsProper := by
  rw [carves.carved.mem_iff, List.mem_filter, decide_eq_true_iff]
  simp only [List.mem_cons]

theorem taken_mem : taken ∈ after.regions :=
  carves.mem_after.2 ⟨.inl rfl, carves.proper⟩

theorem mem_of_other (sound : before.IsSound) (member : region ∈ before.regions)
    (other : region.code ≠ RegionKind.available.code) : region ∈ after.regions := by
  rcases carves.mem_before.1 member with rfl | isOther
  · exact absurd carves.available other
  · exact carves.mem_after.2 ⟨.inr (.inr (.inr isOther)), sound.proper region member⟩

theorem apart_of_other (sound : before.IsSound) (isOther : region ∈ others) :
    host.Apart region := by
  have separate := (carves.hosted.pairwise_iff Region.Separate.symm).1 sound.separate
  rw [List.pairwise_cons] at separate
  exact separate.1 region isOther (.inl (Region.isManaged_of_available carves.available))

theorem isWhole_of_mem (wholeBefore : ∀ region ∈ before.regions, region.IsWhole)
    (whole : taken.IsWhole) (member : region ∈ after.regions) : region.IsWhole := by
  have hostWhole := wholeBefore host (carves.mem_before.2 (.inl rfl))
  rcases (carves.mem_after.1 member).1 with rfl | rfl | rfl | isOther
  · exact whole
  · refine ⟨hostWhole.start, whole.start, ?_⟩
    have := carves.stop
    have := carves.proper
    have := hostWhole.within
    unfold Region.IsProper at *
    change taken.start.value ≤ physicalLimit.value
    omega
  · exact ⟨whole.stop, hostWhole.stop, hostWhole.within⟩
  · exact wholeBefore region (carves.mem_before.2 (.inr isOther))

theorem pairwise {relation : Region → Region → Prop}
    (symm : ∀ left right, relation left right → relation right left)
    (ofApart : ∀ left right : Region, left.Apart right → relation left right)
    (beside : ∀ region ∈ others, host.Apart region ∨ ∀ piece, relation piece region)
    (related : before.regions.Pairwise relation) : after.regions.Pairwise relation := by
  rw [carves.hosted.pairwise_iff (symm _ _), List.pairwise_cons] at related
  rw [carves.carved.pairwise_iff (symm _ _)]
  apply List.Pairwise.filter _
  have start := carves.start
  have stop := carves.stop
  have proper := carves.proper
  unfold Region.IsProper at proper
  have piece : ∀ part region : Region, host.start.value ≤ part.start.value →
      part.stop.value ≤ host.stop.value → region ∈ others → relation part region := by
    intro part region above below isOther
    rcases beside region isOther with apart | vacuous
    · apply ofApart
      unfold Region.Apart at apart ⊢
      omega
    · exact vacuous part
  simp only [List.pairwise_cons, List.mem_cons, forall_eq_or_imp]
  refine ⟨⟨ofApart _ _ (.inr (Nat.le_refl _)), ofApart _ _ (.inl (Nat.le_refl _)), ?_⟩,
    ⟨ofApart _ _ (.inl ?_), ?_⟩, ?_, related.2⟩
  · exact fun region isOther => piece _ region start stop isOther
  · exact Nat.le_of_lt proper
  · intro region isOther
    refine piece _ region (Nat.le_refl _) ?_ isOther
    change taken.start.value ≤ host.stop.value
    omega
  · intro region isOther
    refine piece _ region ?_ (Nat.le_refl _) isOther
    change host.start.value ≤ taken.stop.value
    omega

theorem isSound (sound : before.IsSound) (whole : taken.IsWhole) : after.IsSound where
  proper _ member := (carves.mem_after.1 member).2
  whole _ member := carves.isWhole_of_mem sound.whole whole member
  separate := carves.pairwise (fun _ _ => Region.Separate.symm) (fun _ _ apart _ => apart)
    (fun _ isOther => .inl (carves.apart_of_other sound isOther)) sound.separate

/-- Whatever the taken part is for, no memory becomes available. -/
theorem offers_of_offers (offered : after.Offers 0 first last) : before.Offers 0 first last := by
  have start := carves.start
  have stop := carves.stop
  have proper := carves.proper
  unfold Region.IsProper at proper
  rcases offered with ⟨region, member, available, _, above, below⟩
  rcases (carves.mem_after.1 member).1 with rfl | rfl | rfl | isOther
  · exact ⟨host, carves.mem_before.2 (.inl rfl), carves.available, Nat.zero_le _, by omega,
      by omega⟩
  · simp only at above below
    exact ⟨host, carves.mem_before.2 (.inl rfl), carves.available, Nat.zero_le _, above, by omega⟩
  · simp only at above below
    exact ⟨host, carves.mem_before.2 (.inl rfl), carves.available, Nat.zero_le _, by omega, below⟩
  · exact ⟨region, carves.mem_before.2 (.inr isOther), available, Nat.zero_le _, above, below⟩

theorem offers_iff (sound : before.IsSound) (other : taken.code ≠ RegionKind.available.code)
    (high : low ≤ host.start.value) (nonempty : first < last) :
    after.Offers low first last ↔
      before.Offers low first last ∧
        (last ≤ taken.start.value ∨ taken.stop.value ≤ first) := by
  have start := carves.start
  have stop := carves.stop
  have proper := carves.proper
  unfold Region.IsProper at proper
  constructor
  · rintro ⟨region, member, available, isHigh, above, below⟩
    rcases (carves.mem_after.1 member).1 with rfl | rfl | rfl | isOther
    · exact absurd available other
    · simp only at isHigh above below
      exact ⟨⟨host, carves.mem_before.2 (.inl rfl), carves.available, high, above, by omega⟩,
        .inl below⟩
    · simp only at isHigh above below
      exact ⟨⟨host, carves.mem_before.2 (.inl rfl), carves.available, high, by omega, below⟩,
        .inr above⟩
    · have apart := carves.apart_of_other sound isOther
      unfold Region.Apart at apart
      exact ⟨⟨region, carves.mem_before.2 (.inr isOther), available, isHigh, above, below⟩,
        by omega⟩
  · rintro ⟨⟨region, member, available, isHigh, above, below⟩, apart⟩
    rcases carves.mem_before.1 member with rfl | isOther
    · rcases apart with left | right
      · refine ⟨_, carves.mem_after.2 ⟨.inr (.inl rfl), ?_⟩, available, isHigh, above, left⟩
        unfold Region.IsProper
        change region.start.value < taken.start.value
        omega
      · refine ⟨_, carves.mem_after.2 ⟨.inr (.inr (.inl rfl)), ?_⟩, available, ?_, right, below⟩
        · unfold Region.IsProper
          change taken.stop.value < region.stop.value
          omega
        · change low ≤ taken.stop.value
          omega
    · exact ⟨region, carves.mem_after.2 ⟨.inr (.inr (.inr isOther)), sound.proper region member⟩,
        available, isHigh, above, below⟩

end Carves

end RegionTable

end EarlyMemory
