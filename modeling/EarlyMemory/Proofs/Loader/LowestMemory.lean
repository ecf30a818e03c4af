import EarlyMemory.Proofs.Loader.Exactness

/-!
# The lowest two mebibytes

The tables that the loader starts with translate an address whose bits from 21 to 47 are
clear to its low 21 bits, and translate no other. This holds whatever the four frames of the
tables held before, and for any region table that the frames came from: the two need to
agree on nothing but that the frames are in the memory.
-/

namespace EarlyMemory.Loader

open Operation
open Memory (AgreesOutside)

variable {capacity : Nat} {sorting : Region.Sorting} {root last : Frame}
  {start : Paged (RegionTable capacity sorting)} {memory : Memory}

/-- Whether bits 21 to 47 of an address are clear; the walk does not read the ones above. -/
def InLowest (address : VirtualAddress) : Prop :=
  ∀ bit, 21 ≤ bit → bit < 48 → address.value.testBit bit = false

theorem inLowest_iff (address : VirtualAddress) : InLowest address ↔ address.pageKey.val < 512 := by
  have key : address.pageKey.val = address.value / 4096 % 0x1000000000 := rfl
  have bits : ∀ bit, (address.value / 2 ^ 21 % 2 ^ 27).testBit bit =
      (decide (bit < 27) && address.value.testBit (bit + 21)) := by
    intro bit
    rw [Nat.testBit_mod_two_pow, Nat.testBit_div_two_pow]
  have clear : InLowest address ↔ address.value / 2 ^ 21 % 2 ^ 27 = 0 := by
    constructor
    · intro inLowest
      refine Nat.eq_of_testBit_eq fun bit => ?_
      rw [bits, Nat.zero_testBit]
      by_cases below : bit < 27
      · rw [inLowest (bit + 21) (by omega) (by omega), Bool.and_false]
      · rw [decide_eq_false below, Bool.false_and]
    · intro none bit above below
      have read := bits (bit - 21)
      rw [none, Nat.zero_testBit, decide_eq_true (by omega), Bool.true_and,
        Nat.sub_add_cancel above] at read
      exact read.symm
  rw [clear, key]
  omega

theorem exists_frame_of_lowest {key : PageKey} (below : key.val < 512) :
    ∃ frame : Frame, identityPages 512 key = some (.leaf frame .all) ∧
      frame.number = key.val ∧ frame.IsLinkable := by
  have number : ((Address.ofNat (key.val * 4096) : PhysicalAddress).page .small).number =
      key.val := by
    simp only [Address.page, Address.ofNat, PageSize.bytes, Nat.reduceShiftLeft]
    omega
  refine ⟨_, if_pos below, number, ?_⟩
  unfold Page.IsLinkable
  omega

theorem value_join_lowest {address : VirtualAddress} {frame : Frame} (low : InLowest address)
    (number : frame.number = address.pageKey.val) :
    (frame.join (address.offset .small)).value = address.value % (1 <<< 21) := by
  have below := (inLowest_iff address).1 low
  have key : address.pageKey.val = address.value / 4096 % 0x1000000000 := rfl
  have width : (1 : Nat) <<< 21 = 0x200000 := rfl
  simp only [Page.join, PageSize.bytes, Address.offset, number, width]
  omega

/-- What the tables translate: the lowest two mebibytes to themselves, with all rights, for
the loader's own reading and for the walk of the hardware alike. -/
structure TranslatesLowest (root : Frame) (memory : Memory) : Prop where
  low : ∀ address, InLowest address → ∃ leaf target,
    (BootTables.space root).query memory address = .ok (some leaf) ∧ leaf.present = true ∧
    leaf.flag .writable = true ∧ leaf.flag .noExecute = false ∧
    (BootTables.space root).translate memory address = .ok (some target) ∧
    target.value = address.value % (1 <<< 21)
  other : ∀ address, ¬ InLowest address →
    (BootTables.space root).query memory address = .ok none ∧
    (BootTables.space root).translate memory address = .ok none
  walk : ∀ address, memory.translate root address =
    (BootTables.space root).translate memory address

theorem MapsLowest.translatesLowest (maps : MapsLowest root last 512 memory) :
    TranslatesLowest root memory := by
  have standing := fun address => maps.spine.tree.hasTables (leads_tables address) .pt
  have served : (BootTables.space root).IsServed memory := True.intro
  have entry : ∀ address : VirtualAddress, (tables root).entryAt memory address.leafPath =
      identityPages 512 address.pageKey := by
    intro address
    rw [← maps.pages, AddressSpace.pages_pageKey]
  have queried : ∀ address, (BootTables.space root).query memory address =
      .ok (identityPages 512 address.pageKey) := by
    intro address
    rw [AddressSpace.query_eq maps.addressable served (standing address), ← entry]
  have translated : ∀ address, (BootTables.space root).translate memory address =
      .ok ((identityPages 512 address.pageKey).map fun leaf =>
        leaf.frame.join (address.offset .small)) := by
    intro address
    rw [AddressSpace.translate, queried]
    rfl
  refine ⟨fun address low => ?_, fun address high => ?_, fun address => ?_⟩
  · rcases exists_frame_of_lowest ((inLowest_iff address).1 low) with
      ⟨frame, found, number, linkable⟩
    refine ⟨_, _, (queried address).trans (congrArg _ found), PageEntry.present_leaf ..,
      PageEntry.writable_leaf .., PageEntry.noExecute_leaf ..,
      (translated address).trans (congrArg _ (congrArg _ found)), ?_⟩
    change ((PageEntry.leaf frame .all).frame.join (address.offset .small)).value = _
    rw [PageEntry.frame_leaf linkable]
    exact value_join_lowest low number
  · have unmapped : identityPages 512 address.pageKey = none :=
      if_neg (high ∘ (inLowest_iff address).2)
    rw [queried, translated, unmapped]
    exact ⟨rfl, rfl⟩
  · have walked := Hierarchy.walk_eq maps.addressable (standing address)
    rw [entry] at walked
    exact (Memory.translate_of_walk walked).trans (translated address).symm

theorem run_create_of_none
    (allocated : (RegionTable.allocateAs 4 .reserved :
      Operation (RegionTable capacity sorting) BootTables.Refusal _).run start.source =
      (.done none, start.source)) :
    (BootTables.create .long64).run start = (.refused .outOfMemory, start) := by
  rw [BootTables.create, run_bind_of_done (run_allocateTables allocated)]
  exact (run_bind_of_done (run_report ..)).trans (run_refuse ..)

/-- The four frames that the table hands out become tables that translate the lowest two
mebibytes and nothing else, and no further frame is asked for. If there are no four frames in
a row, or for 32-bit paging, nothing changes. -/
theorem create_translates_the_lowest_only (start : Paged (RegionTable capacity sorting))
    (built : start.source.Built) :
    (∃ answer table, (RegionTable.allocate 4 :
        Operation (RegionTable capacity sorting) BootTables.Refusal _).run start.source =
        (.done answer, table) ∧
      (answer = none → (BootTables.create .long64).run start = (.refused .outOfMemory, start)) ∧
      ∀ base : PhysicalAddress, answer = some base →
        (∀ frame, IsTableFrame (base.page .small) frame →
          start.memory.requireFrame frame = .ok ()) →
        ∃ after, (BootTables.create .long64).run start = (.done (base.page .small), after) ∧
          (base.page .small).base = base ∧ after.source = table ∧
          TranslatesLowest (base.page .small) after.memory ∧
          AgreesOutside (IsTableFrame (base.page .small)) start.memory after.memory) ∧
    (BootTables.create .legacy32).run start = (.refused .unsupportedMode, start) := by
  refine ⟨?_, rfl⟩
  rcases RegionTable.allocateAs_spec (ε := BootTables.Refusal) start.source 4 .reserved with
    ⟨answer, table, allocated, allocates⟩
  refine ⟨answer, table, allocated, ?_, ?_⟩
  · rintro rfl
    cases allocates
    exact run_create_of_none allocated
  · rintro base rfl present
    have whole : ∀ region ∈ start.source.regions, region.IsWhole :=
      fun region member => (built.isWellFormed region member).2
    have isRoot : IsTableFrame (base.page .small) (base.page .small) :=
      ⟨Nat.le_refl _, by omega⟩
    have addressable := (Memory.of_requireInside (present _ isRoot)).1
    rcases create_of_frames addressable allocated fun frame between =>
      ⟨Memory.hasFrame_of_requireFrame (present frame between),
        isLinkable_of_allocates whole allocates frame between⟩ with
      ⟨after, last, ran, source, creates⟩
    refine ⟨after, ran, ?_, source, creates.maps.translatesLowest, creates.agrees⟩
    cases allocates with
    | carved _ stop host others atStart extent high carves =>
        have aligned := (whole host (carves.mem_before.2 (.inl rfl))).start
        rw [← atStart] at aligned
        refine Address.ext ?_
        simp only [Page.base, Address.page, PageSize.bytes]
        omega

theorem smallStart_translates_the_lowest_only : ∃ created,
    (BootTables.create .long64).run smallStart = (.done smallRoot, created) ∧
    created.source = smallTables ∧ TranslatesLowest smallRoot created.memory := by
  rcases create_translates_the_lowest_only smallStart built_smallStart with
    ⟨⟨answer, table, allocated, _, created⟩, _⟩
  have found : (RegionTable.allocate 4 : Operation (RegionTable 8) BootTables.Refusal _).run
      smallStart.source = (.done (some lowMemoryEnd), smallTables) := by
    decide
  have present : ∀ frame, IsTableFrame smallRoot frame →
      smallStart.memory.requireFrame frame = .ok () := by
    intro frame between
    refine Memory.requireFrame_eq_ok (by decide) ?_
    unfold IsTableFrame Page.Between at between
    change 0x100 ≤ frame.number ∧ frame.number < 0x100 + 4 at between
    change 0x100 ≤ frame.number ∧ frame.number < 0x100 + 16
    omega
  rw [found] at allocated
  cases allocated
  rcases created lowMemoryEnd rfl present with ⟨after, ran, _, source, translates, _⟩
  exact ⟨after, ran, source, translates⟩

end EarlyMemory.Loader
