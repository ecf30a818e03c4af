import EarlyMemory.Proofs.Firmware.RecordedMap

/-!
# What fencing keeps

A range is fenced off if, rounded to whole pages, it lies in one available range of the
firmware and clear of every range fenced off before it. A range that shares a page with
an earlier one, or that runs from one available range into the next, stays as it is.
The available memory of the finished table is the firmware's without the pages of the
fenced ranges, and no allocation ever adds to it.
-/

namespace EarlyMemory

open Operation

/-- A range of bytes that the loader must not hand out. -/
structure KeptRange where
  start : PhysicalAddress
  stop : PhysicalAddress
deriving DecidableEq

namespace KeptRange

def Covers (range : KeptRange) (address : Nat) : Prop :=
  range.start.value ≤ address ∧ address < range.stop.value

def first (range : KeptRange) : Nat :=
  (range.start.alignDown .small).value

def last (range : KeptRange) : Nat :=
  (range.stop.alignUp .small).value

def Misses (range : KeptRange) (first last : Nat) : Prop :=
  last ≤ range.first ∨ range.last ≤ first

instance (range : KeptRange) (first last : Nat) : Decidable (range.Misses first last) :=
  inferInstanceAs (Decidable (_ ∨ _))

/-- Whether the pages of the range lie in one available range. -/
def IsHeld (range : KeptRange) (map : List ReportedRange) : Prop :=
  range.first < range.last ∧ ∃ reported ∈ map, reported.Holds range.first range.last

instance (range : KeptRange) (map : List ReportedRange) : Decidable (range.IsHeld map) :=
  inferInstanceAs (Decidable (_ ∧ _))

/-- Whether a range is fenced off after others were. -/
def Fits (range : KeptRange) (map : List ReportedRange) (earlier : List KeptRange) : Prop :=
  range.IsHeld map ∧ ∀ other ∈ earlier, other.Misses range.first range.last

instance (range : KeptRange) (map : List ReportedRange) (earlier : List KeptRange) :
    Decidable (range.Fits map earlier) :=
  inferInstanceAs (Decidable (_ ∧ _))

/-- The ranges that are fenced off, after those that already are. -/
def fenced (map : List ReportedRange) (earlier : List KeptRange) : List KeptRange → List KeptRange
  | [] => earlier
  | range :: rest =>
      if range.Fits map earlier then fenced map (range :: earlier) rest
      else fenced map earlier rest

theorem fenced_cons (map : List ReportedRange) (earlier : List KeptRange) (range : KeptRange)
    (rest : List KeptRange) :
    fenced map earlier (range :: rest) =
      fenced map (if range.Fits map earlier then range :: earlier else earlier) rest := by
  rw [fenced]
  split <;> rfl

theorem first_mod (range : KeptRange) : range.first % 4096 = 0 := by
  rw [first, Address.value_alignDown]
  exact Nat.mul_mod_left ..

theorem last_mod (range : KeptRange) : range.last % 4096 = 0 :=
  Address.value_alignUp_mod range.stop

end KeptRange

namespace MemoryMap

variable {capacity : Nat} {sorting : Region.Sorting}
  {recorded before table after : RegionTable capacity sorting} {map : List ReportedRange}
  {earlier : List KeptRange}

/-- A table whose offers are those of the firmware without the fenced ranges. -/
structure IsFenced (map : List ReportedRange) (earlier : List KeptRange)
    (table : RegionTable capacity sorting) : Prop where
  sound : table.IsSound
  offers : ∀ first last, first < last →
    (table.Offers 0 first last ↔ (∃ range ∈ map, range.Holds first last) ∧
      ∀ range ∈ earlier, range.Misses first last)

theorem IsFenced.carve (fenced : IsFenced map earlier table) {range : KeptRange} {host : Region}
    {others : List Region}
    (carves : RegionTable.Carves table after
      (Region.of .reserved (range.start.alignDown .small) (range.stop.alignUp .small)) host
      others) : IsFenced map (range :: earlier) after where
  sound := by
    have hostWhole := fenced.sound.whole host (carves.mem_before.2 (.inl rfl))
    refine carves.isSound fenced.sound ⟨range.first_mod, range.last_mod, ?_⟩
    exact Nat.le_trans carves.stop hostWhole.within
  offers first last nonempty := by
    have other : RegionKind.reserved.code ≠ RegionKind.available.code := by decide
    rw [carves.offers_iff fenced.sound other (Nat.zero_le _) nonempty,
      fenced.offers first last nonempty]
    simp only [List.mem_cons, forall_eq_or_imp]
    constructor
    · rintro ⟨⟨held, missed⟩, misses⟩
      exact ⟨held, misses, missed⟩
    · rintro ⟨held, misses, missed⟩
      exact ⟨⟨held, missed⟩, misses⟩

theorem IsFenced.fence (fenced : IsFenced map earlier table) {what : String} (range : KeptRange)
    (done : (fence what range.start range.stop).run table = (.done (), after)) :
    IsFenced map (if range.Fits map earlier then range :: earlier else earlier) after := by
  rcases RegionTable.reserve_spec table range.start range.stop with
    ⟨outcome, between, ran, reserves⟩
  unfold MemoryMap.fence at done
  simp only [run_bind, run_attempt, ran] at done
  cases reserves with
  | empty nothing =>
      cases done
      have fails : ¬ range.Fits map earlier :=
        fun fits => Nat.not_lt_of_le nothing fits.1.1
      rwa [if_neg fails]
  | carved host others nonempty carves =>
      cases done
      have offered : table.Offers 0 range.first range.last :=
        ⟨host, carves.mem_before.2 (.inl rfl), carves.available, Nat.zero_le _, carves.start,
          carves.stop⟩
      rcases (fenced.offers _ _ nonempty).1 offered with ⟨held, missed⟩
      rw [if_pos ⟨⟨nonempty, held⟩, missed⟩]
      exact fenced.carve carves
  | notContained nonempty missing =>
      cases done
      have fails : ¬ range.Fits map earlier :=
        fun fits => missing ((fenced.offers _ _ nonempty).2 ⟨fits.1.2, fits.2⟩)
      rwa [if_neg fails]
  | full offers => cases done

theorem of_run_fenceModules_cons {first : Except Fault BootModule}
    {rest : List (Except Fault BootModule)}
    (done : (fenceModules (first :: rest)).run table = (.done (), after)) :
    ∃ bootModule between, first = .ok bootModule ∧
      (fence "module" bootModule.start bootModule.stop).run table = (.done (), between) ∧
      (fenceModules rest).run between = (.done (), after) := by
  rw [fenceModules] at done
  rcases of_run_bind done with ⟨bootModule, _, checked, done⟩
  rcases of_run_check checked with ⟨isModule, rfl⟩
  rcases of_run_bind done with ⟨_, _, reported, done⟩
  cases reported
  rcases of_run_bind done with ⟨_, between, fenced, done⟩
  exact ⟨bootModule, between, isModule, fenced, done⟩

theorem IsFenced.fenceModules (fenced : IsFenced map earlier table)
    {modules : List (Except Fault BootModule)}
    (done : (fenceModules modules).run table = (.done (), after)) :
    ∃ bootModules : List BootModule, modules = bootModules.map .ok ∧
      IsFenced map (KeptRange.fenced map earlier
        (bootModules.map fun bootModule => ⟨bootModule.start, bootModule.stop⟩)) after := by
  induction modules generalizing table earlier with
  | nil =>
      cases done
      exact ⟨[], rfl, fenced⟩
  | cons first rest induction =>
      rcases of_run_fenceModules_cons done with ⟨bootModule, between, rfl, fencedOne, done⟩
      have step := fenced.fence ⟨bootModule.start, bootModule.stop⟩ fencedOne
      rcases induction step done with ⟨bootModules, rfl, finished⟩
      refine ⟨bootModule :: bootModules, rfl, ?_⟩
      rwa [List.map_cons, KeptRange.fenced_cons]

/-- What the loader must keep: its own image, the boot information and every module, in
the order they are fenced off. -/
def keptRanges (information : BootInformation) (address imageStart imageStop : PhysicalAddress) :
    Except Fault (List KeptRange) := do
  let stop ← address.add information.totalSize
  let bootModules ← information.modules.mapM id
  return ⟨imageStart, imageStop⟩ :: ⟨address, stop⟩ ::
    bootModules.map fun bootModule => ⟨bootModule.start, bootModule.stop⟩

theorem mapM_ok {values : List BootModule} :
    (values.map Except.ok : List (Except Fault BootModule)).mapM id = .ok values := by
  induction values with
  | nil => rfl
  | cons first rest induction =>
      simp [List.mapM_cons, induction, bind, Except.bind, pure, Except.pure]

theorem run_reportRegions {ε : Type} (regions : List Region)
    (table : RegionTable capacity sorting) :
    (reportRegions regions : Operation (RegionTable capacity sorting) ε Unit).run table =
      (.done (), table) := by
  induction regions with
  | nil => rfl
  | cons first rest induction =>
      rw [reportRegions, run_bind_of_done (run_report ..), induction]

theorem run_reportTable {ε : Type} (table : RegionTable capacity sorting) :
    (reportTable : Operation (RegionTable capacity sorting) ε Unit).run table =
      (.done (), table) := by
  rw [reportTable, run_bind_of_done (run_report ..), run_bind_of_done (run_state table),
    run_reportRegions]

theorem of_run_build {information : BootInformation}
    {address imageStart imageStop : PhysicalAddress}
    (built : (build information address imageStart imageStop).run before = (.done (), table)) :
    ∃ map stop, ∃ recorded fencedImage fencedInfo : RegionTable capacity sorting,
      information.ranges = .ok map ∧
      (recordRanges map).run before = (.done (), recorded) ∧
      (fence "loader image" imageStart imageStop).run recorded = (.done (), fencedImage) ∧
      address.add information.totalSize = .ok stop ∧
      (fence "boot information" address stop).run fencedImage = (.done (), fencedInfo) ∧
      (fenceModules information.modules).run fencedInfo = (.done (), table) := by
  rcases of_run_bind built with ⟨map, _, checked, built⟩
  rcases of_run_check checked with ⟨reported, rfl⟩
  rcases of_run_bind built with ⟨_, recorded, ingesting, built⟩
  have ingested := of_run_mapRefusal ingesting
  rw [ingest_eq] at ingested
  rcases of_run_bind ingested with ⟨_, _, recording, counting⟩
  cases counting
  rcases of_run_bind built with ⟨_, _, noted, built⟩
  cases noted
  rcases of_run_bind built with ⟨_, _, looked, built⟩
  cases looked
  cases empty : recorded.regions.isEmpty with
  | true =>
      simp only [empty, if_true, run_bind, run_report, run_refuse] at built
      cases built
  | false =>
      simp only [empty, Bool.false_eq_true, if_false] at built
      rcases of_run_bind built with ⟨_, fencedAll, fencing, built⟩
      rcases of_run_bind (of_run_mapRefusal fencing) with ⟨_, fencedImage, fencingImage, fencing⟩
      rcases of_run_bind fencing with ⟨stop, _, checked, fencing⟩
      rcases of_run_check checked with ⟨added, rfl⟩
      rcases of_run_bind fencing with ⟨_, fencedInfo, fencingInfo, fencingModules⟩
      rw [run_reportTable] at built
      cases built
      exact ⟨map, stop, recorded, fencedImage, fencedInfo, reported, recording, fencingImage,
        added, fencingInfo, fencingModules⟩

theorem isFenced_of_build {information : BootInformation}
    {address imageStart imageStop : PhysicalAddress} (reported : information.ranges = .ok map)
    (apart : map.Pairwise ReportedRange.Apart)
    (built : (build information address imageStart imageStop).run RegionTable.empty =
      (.done (), table)) :
    ∃ kept, keptRanges information address imageStart imageStop = .ok kept ∧
      IsFenced map (KeptRange.fenced map [] kept) table := by
  rcases of_run_build built with ⟨_, stop, recorded, fencedImage, fencedInfo, sameMap, recording,
    fencingImage, added, fencingInfo, fencingModules⟩
  rw [reported] at sameMap
  cases sameMap
  have start : IsFenced map [] recorded :=
    ⟨isSound_of_recordRanges apart recording, fun first last nonempty => by
      rw [offers_recordRanges recording nonempty]
      simp⟩
  have image := start.fence ⟨imageStart, imageStop⟩ fencingImage
  have info := image.fence ⟨address, stop⟩ fencingInfo
  rcases info.fenceModules fencingModules with ⟨bootModules, modules, finished⟩
  refine ⟨⟨imageStart, imageStop⟩ :: ⟨address, stop⟩ ::
    bootModules.map fun bootModule => ⟨bootModule.start, bootModule.stop⟩, ?_, ?_⟩
  · rw [keptRanges, added, modules, mapM_ok]
    rfl
  · rwa [KeptRange.fenced_cons, KeptRange.fenced_cons]

/-- Whether no available region of a table meets a range. -/
def IsClearOf (table : RegionTable capacity sorting) (range : KeptRange) : Prop :=
  ∀ region ∈ table.regions, region.code = RegionKind.available.code →
    ∀ address, region.Covers address → ¬ range.Covers address

theorem isClearOf_iff {range : KeptRange} :
    IsClearOf table range ↔
      ∀ address, range.Covers address → ¬ table.Offers 0 address (address + 1) := by
  constructor
  · rintro clear address covered ⟨region, member, available, _, above, below⟩
    exact clear region member available address ⟨above, below⟩ covered
  · intro clear region member available address inside covered
    exact clear address covered ⟨region, member, available, Nat.zero_le _, inside.1, inside.2⟩

/-- A kept range is clear of the available memory of a built table exactly if those of its
bytes that the firmware has available lie in the pages of ranges that could be fenced off
one after another. What is clear stays clear whatever is allocated. -/
theorem build_isClearOf_iff {information : BootInformation}
    {address imageStart imageStop : PhysicalAddress} {map : List ReportedRange}
    {table : RegionTable capacity sorting} (reported : information.ranges = .ok map)
    (apart : map.Pairwise ReportedRange.Apart)
    (built : (build information address imageStart imageStop).run RegionTable.empty =
      (.done (), table)) :
    ∃ kept, keptRanges information address imageStart imageStop = .ok kept ∧
      ∀ range ∈ kept,
        (IsClearOf table range ↔
          ∀ byte, range.Covers byte → (∃ reported ∈ map, reported.Holds byte (byte + 1)) →
            ∃ other ∈ KeptRange.fenced map [] kept, other.first ≤ byte ∧ byte < other.last) ∧
        (IsClearOf table range → ∀ given after, RegionTable.GivesOut table given after →
          ∀ extent ∈ given, ∀ byte, extent.Covers byte → ¬ range.Covers byte) := by
  rcases isFenced_of_build reported apart built with ⟨kept, listed, fenced⟩
  refine ⟨kept, listed, fun range _ => ⟨?_, ?_⟩⟩
  · rw [isClearOf_iff]
    refine forall_congr' fun byte => forall_congr' fun covered => ?_
    rw [fenced.offers byte (byte + 1) (Nat.lt_succ_self byte)]
    constructor
    · intro clear held
      apply Classical.byContradiction
      intro unfenced
      refine clear ⟨held, fun other member => ?_⟩
      have outside : ¬ (other.first ≤ byte ∧ byte < other.last) :=
        fun inside => unfenced ⟨other, member, inside⟩
      unfold KeptRange.Misses
      omega
    · rintro covers ⟨held, misses⟩
      rcases covers held with ⟨other, member, above, below⟩
      have := misses other member
      unfold KeptRange.Misses at this
      omega
  · intro clear given after givesOut extent member byte inside covered
    have offered := (givesOut.offers fenced.sound).2.2 extent member
    refine isClearOf_iff.1 clear byte covered (offered.mono (Nat.le_refl _) inside.1 ?_)
    exact inside.2

open LittleEndian in
def plainInformation : BootInformation :=
  ⟨bytes 4 6 ++ bytes 4 40 ++ bytes 4 24 ++ bytes 4 0 ++
    (bytes 8 0x100000 ++ bytes 8 0x700000 ++ bytes 4 1 ++ bytes 4 0) ++
    (bytes 4 3 ++ bytes 4 17 ++ bytes 4 0x400000 ++ bytes 4 0x401800 ++ bytes 8 0) ++
    BootInformation.endTag⟩

def plainTable : RegionTable 16 :=
  ⟨[.of .available (.ofNat 0x100000) (.ofNat 0x200000),
    .of .reserved (.ofNat 0x200000) (.ofNat 0x208000),
    .of .available (.ofNat 0x208000) (.ofNat 0x300000),
    .of .reserved (.ofNat 0x300000) (.ofNat 0x301000),
    .of .available (.ofNat 0x301000) (.ofNat 0x400000),
    .of .reserved (.ofNat 0x400000) (.ofNat 0x402000),
    .of .available (.ofNat 0x402000) (.ofNat 0x800000)]⟩

def plainModule : KeptRange :=
  ⟨.ofNat 0x400000, .ofNat 0x401800⟩

theorem plainModule_is_kept :
    IsClearOf plainTable plainModule ∧
      ∀ given after, RegionTable.GivesOut plainTable given after →
        ∀ extent ∈ given, ∀ byte, extent.Covers byte → ¬ plainModule.Covers byte := by
  have listed : keptRanges plainInformation ⟨0x300000, by decide⟩ ⟨0x200000, by decide⟩
      ⟨0x208000, by decide⟩ = .ok [⟨⟨0x200000, by decide⟩, ⟨0x208000, by decide⟩⟩,
        ⟨⟨0x300000, by decide⟩, ⟨0x300050, by decide⟩⟩, plainModule] :=
    ok_of_toOption (by decide +kernel)
  have reported : plainInformation.ranges = .ok [⟨⟨0x100000, by decide⟩, 0x700000, 1⟩] :=
    ok_of_toOption (by decide +kernel)
  have built : (build plainInformation ⟨0x300000, by decide⟩ ⟨0x200000, by decide⟩
      ⟨0x208000, by decide⟩).run RegionTable.empty = (.done (), plainTable) := by
    decide +kernel
  rcases build_isClearOf_iff reported (by decide) built with ⟨kept, sameList, clear⟩
  rw [listed] at sameList
  cases sameList
  rcases clear plainModule (by simp) with ⟨clearIff, clearForever⟩
  have isClear : IsClearOf plainTable plainModule := by
    refine clearIff.2 fun byte covered _ => ⟨plainModule, by decide, ?_, ?_⟩
    · exact Nat.le_trans (by decide) covered.1
    · exact Nat.lt_of_lt_of_le covered.2 (by decide)
  exact ⟨isClear, clearForever isClear⟩

/-! ## A module that runs on into the next range -/

open LittleEndian in
/-- Two available ranges that touch at `0x102000`, and a module in `[0x100000, 0x103000)`. -/
def straddlingInformation : BootInformation :=
  ⟨bytes 4 6 ++ bytes 4 64 ++ bytes 4 24 ++ bytes 4 0 ++
    (bytes 8 0x100000 ++ bytes 8 0x2000 ++ bytes 4 1 ++ bytes 4 0) ++
    (bytes 8 0x102000 ++ bytes 8 0x700000 ++ bytes 4 1 ++ bytes 4 0) ++
    (bytes 4 3 ++ bytes 4 17 ++ bytes 4 0x100000 ++ bytes 4 0x103000 ++ bytes 8 0) ++
    BootInformation.endTag⟩

def straddlingTable : RegionTable 16 :=
  ⟨[.of .available (.ofNat 0x100000) (.ofNat 0x102000),
    .of .available (.ofNat 0x102000) (.ofNat 0x200000),
    .of .reserved (.ofNat 0x200000) (.ofNat 0x208000),
    .of .available (.ofNat 0x208000) (.ofNat 0x300000),
    .of .reserved (.ofNat 0x300000) (.ofNat 0x301000),
    .of .available (.ofNat 0x301000) (.ofNat 0x802000)]⟩

/-- The first page that is given out is the first page of the module. -/
theorem straddling_module_is_given_out :
    ¬ ∀ (information : BootInformation) (address imageStart imageStop : PhysicalAddress)
      (map : List ReportedRange) (table : RegionTable 16) (kept : List KeptRange),
      information.ranges = .ok map → (∀ range ∈ map, 0 < range.length) →
      map.Pairwise ReportedRange.Apart →
      (build information address imageStart imageStop).run RegionTable.empty =
        (.done (), table) →
      keptRanges information address imageStart imageStop = .ok kept →
      ∀ range ∈ kept, IsClearOf table range ∧
        ∀ base, ((RegionTable.allocate 1 : Operation (RegionTable 16) Empty _).run table).1 =
          .done (some base) → ¬ range.Covers base.value := by
  intro claim
  have found := claim straddlingInformation ⟨0x300000, by decide⟩ ⟨0x200000, by decide⟩
    ⟨0x208000, by decide⟩
    [⟨⟨0x100000, by decide⟩, 0x2000, 1⟩, ⟨⟨0x102000, by decide⟩, 0x700000, 1⟩] straddlingTable
    [⟨⟨0x200000, by decide⟩, ⟨0x208000, by decide⟩⟩,
      ⟨⟨0x300000, by decide⟩, ⟨0x300068, by decide⟩⟩,
      ⟨⟨0x100000, by decide⟩, ⟨0x103000, by decide⟩⟩]
    (ok_of_toOption (by decide +kernel)) (by decide) (by decide) (by decide +kernel)
    (ok_of_toOption (by decide +kernel))
    ⟨⟨0x100000, by decide⟩, ⟨0x103000, by decide⟩⟩ (by simp)
  exact found.2 ⟨0x100000, by decide⟩ (by decide) ⟨by decide, by decide⟩

end MemoryMap

end EarlyMemory
