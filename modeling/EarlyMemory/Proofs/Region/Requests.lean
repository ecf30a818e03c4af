import EarlyMemory.Proofs.Frames.Supply
import EarlyMemory.Proofs.Region.Soundness

/-!
# Requests to a table

A reservation and an allocation each carve one region or leave the table as it is. An
allocation never faults. What an allocation gives out it takes from the memory on offer,
so the table is a supply of frames.
-/

namespace EarlyMemory

namespace Address

variable {space : Space}

theorem value_alignDown (address : Address space) :
    (address.alignDown .small).value = address.value / 4096 * 4096 :=
  rfl

theorem value_alignUp {address : Address space} (room : address.value + 4095 < 1 <<< 64) :
    (address.alignUp .small).value = (address.value + 4095) / 4096 * 4096 := by
  have fits : address.value + (PageSize.small.bytes - 1) < 1 <<< 64 := room
  rw [alignUp, dif_pos fits]
  rfl

theorem value_alignUp_of_last {address : Address space} (last : ¬ address.value + 4095 < 1 <<< 64) :
    (address.alignUp .small).value = address.value / 4096 * 4096 := by
  have passes : ¬ address.value + (PageSize.small.bytes - 1) < 1 <<< 64 := last
  rw [alignUp, dif_neg passes]
  rfl

theorem value_alignUp_mod (address : Address space) :
    (address.alignUp .small).value % 4096 = 0 := by
  by_cases room : address.value + 4095 < 1 <<< 64
  · rw [value_alignUp room, Nat.mul_mod_left]
  · rw [value_alignUp_of_last room, Nat.mul_mod_left]

theorem add_eq_ok {address : Address space} {distance : Nat}
    (room : address.value + distance < 1 <<< 64) :
    address.add distance = .ok ⟨address.value + distance, room⟩ :=
  dif_pos room

theorem value_of_add {address sum : Address space} {distance : Nat}
    (added : address.add distance = .ok sum) : sum.value = address.value + distance := by
  unfold Address.add at added
  split at added
  next =>
    cases added
    rfl
  next => cases added

/-- The address a number of pages further on. -/
def pageAfter (address : Address space) (index : Nat) : Address space :=
  .ofNat (address.value + index * 4096)

@[simp] theorem pageAfter_zero (address : Address space) : address.pageAfter 0 = address :=
  Address.ext (Nat.mod_eq_of_lt address.isLt)

theorem join_page_of_aligned {otherSpace : Space} {address : Address space}
    {other : Address otherSpace} (aligned : address.value % 4096 = 0)
    (whole : other.value % 4096 = 0) :
    (address.page .small).join (other.offset .small) = address := by
  apply Address.ext
  simp only [Address.page, Page.join, Address.offset, PageSize.bytes]
  omega

theorem value_pageAfter {address : Address space} {index : Nat}
    (room : address.value + index * 4096 < 1 <<< 64) :
    (address.pageAfter index).value = address.value + index * 4096 :=
  Nat.mod_eq_of_lt room

theorem pageAfter_mod {address : Address space} {index : Nat}
    (aligned : address.value % 4096 = 0) : (address.pageAfter index).value % 4096 = 0 := by
  change (address.value + index * 4096) % 18446744073709551616 % 4096 = 0
  omega

theorem add_eq_pageAfter {address : Address space} {index : Nat}
    (room : address.value + index * 4096 < 1 <<< 64) :
    address.add (index * 4096) = .ok (address.pageAfter index) := by
  rw [add_eq_ok room]
  exact congrArg _ (ext (value_pageAfter room).symm)

theorem pageAfter_add {address : Address space} {index : Nat}
    (room : address.value + (index + 1) * 4096 < 1 <<< 64) :
    (address.pageAfter index).add 4096 = .ok (address.pageAfter (index + 1)) := by
  have below : address.value + index * 4096 < 1 <<< 64 := Nat.lt_of_le_of_lt (by omega) room
  have here := value_pageAfter below
  have fits : (address.pageAfter index).value + 4096 < 1 <<< 64 := by
    rw [here]
    exact Nat.lt_of_le_of_lt (by omega) room
  rw [add_eq_ok fits]
  refine congrArg _ (ext ?_)
  change (address.pageAfter index).value + 4096 = _
  rw [here, value_pageAfter room]
  omega

theorem pageAfter_eq {address page : Address space} {index offset : Nat}
    (product : Word.multiply index PageSize.small.bytes = .ok offset)
    (sum : address.add offset = .ok page) :
    page = address.pageAfter index ∧ address.value + index * 4096 < 1 <<< 64 := by
  unfold Word.multiply at product
  split at product
  · cases product
    unfold Address.add at sum
    split at sum
    next room =>
      cases sum
      simp only [PageSize.bytes] at room
      refine ⟨Address.ext ?_, room⟩
      exact (Nat.mod_eq_of_lt room).symm
    next => cases sum
  · cases product

end Address

namespace RegionTable

variable {capacity : Nat} {sorting : Region.Sorting} {table : RegionTable capacity sorting}

theorem run_requireRoom_of_full {extra : Nat}
    (full : capacity < table.regions.length + extra) :
    (requireRoom extra).run table = (.refused (.full capacity), table) := by
  rw [requireRoom, Operation.run_bind_of_done (Operation.run_state table), if_pos full]
  rfl

theorem run_requireRoom {extra : Nat} (room : ¬ capacity < table.regions.length + extra) :
    (requireRoom extra).run table = (.done (), table) := by
  rw [requireRoom, Operation.run_bind_of_done (Operation.run_state table), if_neg room]
  rfl

theorem length_carve_of_findFirst? {test : Region → Bool} {found : Region.Found}
    (kind : RegionKind) (start stop : PhysicalAddress)
    (search : Region.findFirst? test table.regions = some found) :
    (found.carve kind start stop).length =
      table.regions.length + found.slotsToCarve start stop := by
  rw [Region.Found.length_carve, (Region.findFirst?_eq_some search).1, List.length_append,
    List.length_cons]
  omega

theorem carves_of_findFirst? {test : Region → Bool} {found : Region.Found} (kind : RegionKind)
    (start stop : PhysicalAddress)
    (search : Region.findFirst? test table.regions = some found)
    (available : found.host.code = RegionKind.available.code)
    (above : found.host.start.value ≤ start.value) (below : stop.value ≤ found.host.stop.value)
    (proper : start.value < stop.value) :
    Carves table (arrange (found.carve kind start stop)) (Region.of kind start stop) found.host
      found.others where
  hosted := Region.Found.perm_of_findFirst? search
  available := available
  start := above
  stop := below
  proper := proper
  carved := arrange_carve_perm kind start stop available

/-! ## Searching for a host -/

def hostOfRange? (table : RegionTable capacity sorting) (first last : PhysicalAddress) :
    Option Region.Found :=
  Region.findFirst? (fun region => region.hasKind .available && region.containsRange first last)
    table.regions

def hostOfPages? (table : RegionTable capacity sorting) (pages : Nat) : Option Region.Found :=
  Region.findFirst? (fun region => region.hasKind .available &&
    decide (lowMemoryEnd.value ≤ region.start.value) && decide (pages * 4096 ≤ region.length))
    table.regions

section

variable {first last : PhysicalAddress} {pages : Nat} {found : Region.Found}

theorem hostOfRange?_eq_none :
    table.hostOfRange? first last = none ↔ ¬ table.Offers 0 first.value last.value := by
  rw [hostOfRange?, Region.findFirst?_eq_none]
  simp [Offers, Region.hasKind, Region.containsRange]

theorem carves_of_hostOfRange? (search : table.hostOfRange? first last = some found)
    (nonempty : first.value < last.value) :
    Carves table (arrange (found.carve .reserved first last)) (Region.of .reserved first last)
      found.host found.others := by
  have passes := (Region.findFirst?_eq_some search).2
  simp only [Bool.and_eq_true, Region.hasKind_iff, Region.containsRange,
    decide_eq_true_eq] at passes
  rcases passes with ⟨available, above, below⟩
  exact carves_of_findFirst? .reserved first last search available above below nonempty

theorem hostOfPages?_eq_none : table.hostOfPages? pages = none ↔
    ∀ region ∈ table.regions, region.code = RegionKind.available.code →
      lowMemoryEnd.value ≤ region.start.value → ¬ pages * 4096 ≤ region.length := by
  rw [hostOfPages?, Region.findFirst?_eq_none]
  simp [Region.hasKind]

theorem of_hostOfPages? (search : table.hostOfPages? pages = some found) :
    found.host.code = RegionKind.available.code ∧
      lowMemoryEnd.value ≤ found.host.start.value ∧ pages * 4096 ≤ found.host.length := by
  have passes := (Region.findFirst?_eq_some search).2
  simp only [Bool.and_eq_true, Region.hasKind_iff, decide_eq_true_eq] at passes
  exact ⟨passes.1.1, passes.1.2, passes.2⟩

theorem room_of_hostOfPages? (search : table.hostOfPages? pages = some found) :
    found.host.start.value + pages * 4096 < 1 <<< 64 := by
  have enough := (of_hostOfPages? search).2.2
  have startBelow := found.host.start.isLt
  have stopBelow := found.host.stop.isLt
  rw [Region.length] at enough
  omega

theorem carves_of_hostOfPages? (kind : RegionKind) (positive : 0 < pages)
    (search : table.hostOfPages? pages = some found) :
    Carves table (arrange (found.carve kind found.host.start (found.host.start.pageAfter pages)))
      (Region.of kind found.host.start (found.host.start.pageAfter pages)) found.host
      found.others := by
  rcases of_hostOfPages? search with ⟨available, _, enough⟩
  have extent := Address.value_pageAfter (room_of_hostOfPages? search)
  rw [Region.length] at enough
  exact carves_of_findFirst? kind _ _ search available (Nat.le_refl _) (by omega) (by omega)

theorem slotsToCarve_start (found : Region.Found) (stop : PhysicalAddress) :
    found.slotsToCarve found.host.start stop = 1 :=
  if_pos (.inl rfl)

theorem length_carve_of_hostOfPages? (kind : RegionKind)
    (search : table.hostOfPages? pages = some found) :
    (found.carve kind found.host.start (found.host.start.pageAfter pages)).length =
      table.regions.length + 1 := by
  rw [length_carve_of_findFirst? _ _ _ search, slotsToCarve_start]

end

/-! ## Running a request -/

section

variable {ε : Type} {start stop : PhysicalAddress} {pages : Nat} {kind : RegionKind}
  {found : Region.Found}

theorem run_reserve_of_empty
    (nothing : (stop.alignUp .small).value ≤ (start.alignDown .small).value) :
    (reserve start stop).run table = (.done (), table) := by
  simp only [reserve, if_pos nothing, Operation.run_pure]

theorem run_reserve_of_missing
    (nonempty : (start.alignDown .small).value < (stop.alignUp .small).value)
    (search : table.hostOfRange? (start.alignDown .small) (stop.alignUp .small) = none) :
    (reserve start stop).run table =
      (.refused (.notContained (start.alignDown .small) (stop.alignUp .small)), table) := by
  rw [hostOfRange?] at search
  simp only [reserve, if_neg (Nat.not_le_of_lt nonempty), Operation.run_bind, Operation.run_state,
    search, Operation.run_refuse]

theorem run_reserve_of_found
    (nonempty : (start.alignDown .small).value < (stop.alignUp .small).value)
    (search : table.hostOfRange? (start.alignDown .small) (stop.alignUp .small) = some found) :
    (reserve start stop).run table =
      if capacity < table.regions.length +
          found.slotsToCarve (start.alignDown .small) (stop.alignUp .small) then
        (.refused (.full capacity), table)
      else
        (.done (), arrange (found.carve .reserved (start.alignDown .small)
          (stop.alignUp .small))) := by
  have size := length_carve_of_findFirst? .reserved (start.alignDown .small)
    (stop.alignUp .small) search
  rw [hostOfRange?] at search
  simp only [reserve, if_neg (Nat.not_le_of_lt nonempty)]
  rw [Operation.run_bind_of_done (Operation.run_state table)]
  simp only [search]
  rw [← size]
  by_cases full : capacity < (found.carve .reserved (start.alignDown .small)
    (stop.alignUp .small)).length
  · rw [if_pos full, Operation.run_bind_of_refused (run_requireRoom_of_full (size ▸ full))]
  · rw [if_neg full, Operation.run_bind_of_done (run_requireRoom (size ▸ full)),
      Operation.run_bind_of_done (run_store (Nat.le_of_not_lt full) table), Operation.run_report]

theorem run_allocateAs_of_trivial (trivial : pages = 0 ∨ 1 <<< 64 ≤ pages * 4096) :
    (allocateAs pages kind : Operation (RegionTable capacity sorting) ε _).run table =
      (.done none, table) := by
  have isTrivial : pages = 0 ∨ 1 <<< 64 ≤ pages * PageSize.small.bytes := trivial
  simp only [allocateAs, if_pos isTrivial, Operation.run_pure]

theorem run_allocateAs_of_missing (regular : ¬ (pages = 0 ∨ 1 <<< 64 ≤ pages * 4096))
    (search : table.hostOfPages? pages = none) :
    (allocateAs pages kind : Operation (RegionTable capacity sorting) ε _).run table =
      (.done none, table) := by
  have isRegular : ¬ (pages = 0 ∨ 1 <<< 64 ≤ pages * PageSize.small.bytes) := regular
  rw [hostOfPages?] at search
  simp only [allocateAs, if_neg isRegular]
  rw [Operation.run_bind_of_done (Operation.run_state table)]
  simp only [show PageSize.small.bytes = 4096 from rfl, search, Operation.run_pure]

theorem run_allocateAs_of_found (kind : RegionKind)
    (regular : ¬ (pages = 0 ∨ 1 <<< 64 ≤ pages * 4096))
    (search : table.hostOfPages? pages = some found) :
    (allocateAs pages kind : Operation (RegionTable capacity sorting) ε _).run table =
      if capacity < table.regions.length + 1 then
        (.done none, table)
      else
        (.done (some found.host.start),
          arrange (found.carve kind found.host.start (found.host.start.pageAfter pages))) := by
  have isRegular : ¬ (pages = 0 ∨ 1 <<< 64 ≤ pages * PageSize.small.bytes) := regular
  have added := Address.add_eq_pageAfter (room_of_hostOfPages? search)
  have size := length_carve_of_hostOfPages? kind search
  rw [hostOfPages?] at search
  simp only [allocateAs, if_neg isRegular]
  rw [Operation.run_bind_of_done (Operation.run_state table)]
  simp only [show PageSize.small.bytes = 4096 from rfl, search, Operation.run_bind,
    Operation.run_attempt]
  by_cases full : capacity < table.regions.length + 1
  · rw [if_pos full, run_requireRoom_of_full full]
    rfl
  · have slots : (found.carve kind found.host.start
        (found.host.start.pageAfter pages)).length ≤ capacity :=
      size ▸ Nat.le_of_not_lt full
    rw [if_neg full, run_requireRoom full]
    simp only [Operation.run_bind, added, Operation.run_check_ok, run_store slots]
    rfl

end

/-! ## Reserving -/

inductive Reserves (table : RegionTable capacity sorting) (start stop : PhysicalAddress) :
    Outcome RegionTableError Unit → RegionTable capacity sorting → Prop
  | empty (nothing : (stop.alignUp .small).value ≤ (start.alignDown .small).value) :
      Reserves table start stop (.done ()) table
  | carved {after : RegionTable capacity sorting} (host : Region) (others : List Region)
      (nonempty : (start.alignDown .small).value < (stop.alignUp .small).value)
      (carves : Carves table after
        (Region.of .reserved (start.alignDown .small) (stop.alignUp .small)) host others)
      (arranged : after.IsArranged) :
      Reserves table start stop (.done ()) after
  | notContained
      (nonempty : (start.alignDown .small).value < (stop.alignUp .small).value)
      (missing : ¬ table.Offers 0 (start.alignDown .small).value (stop.alignUp .small).value) :
      Reserves table start stop
        (.refused (.notContained (start.alignDown .small) (stop.alignUp .small))) table
  | full
      (offers : table.Offers 0 (start.alignDown .small).value (stop.alignUp .small).value) :
      Reserves table start stop (.refused (.full capacity)) table

theorem reserve_spec (table : RegionTable capacity sorting) (start stop : PhysicalAddress) :
    ∃ outcome after, (reserve start stop).run table = (outcome, after) ∧
      Reserves table start stop outcome after := by
  by_cases nothing : (stop.alignUp .small).value ≤ (start.alignDown .small).value
  · exact ⟨_, _, run_reserve_of_empty nothing, .empty nothing⟩
  · have nonempty := Nat.lt_of_not_le nothing
    cases search : table.hostOfRange? (start.alignDown .small) (stop.alignUp .small) with
    | none =>
        exact ⟨_, _, run_reserve_of_missing nonempty search,
          .notContained nonempty (hostOfRange?_eq_none.1 search)⟩
    | some found =>
        have carves := carves_of_hostOfRange? search nonempty
        have ran := run_reserve_of_found nonempty search
        rw [← length_carve_of_findFirst? .reserved _ _ search] at ran
        split at ran
        next =>
          exact ⟨_, _, ran, .full ⟨found.host, carves.mem_before.2 (.inl rfl), carves.available,
            Nat.zero_le _, carves.start, carves.stop⟩⟩
        next room =>
          exact ⟨_, _, ran, .carved _ _ nonempty carves
            (isArranged_arrange (Nat.le_of_not_lt room))⟩

theorem reserves_of_reserve {after : RegionTable capacity sorting} {start stop : PhysicalAddress}
    {outcome : Outcome RegionTableError Unit}
    (ran : (reserve start stop).run table = (outcome, after)) :
    Reserves table start stop outcome after := by
  rcases reserve_spec table start stop with ⟨_, _, same, reserves⟩
  cases ran.symm.trans same
  exact reserves

/-! ## Allocating -/

inductive Allocates (table : RegionTable capacity sorting) (pages : Nat) (kind : RegionKind) :
    Option PhysicalAddress → RegionTable capacity sorting → Prop
  | none : Allocates table pages kind none table
  | carved {after : RegionTable capacity sorting} (base stop : PhysicalAddress) (host : Region)
      (others : List Region) (atStart : base = host.start)
      (extent : stop.value = base.value + pages * 4096)
      (high : lowMemoryEnd.value ≤ base.value)
      (carves : Carves table after (Region.of kind base stop) host others)
      (arranged : after.IsArranged)
      (lowest : table.IsArranged → ∀ region ∈ table.regions,
        region.code = RegionKind.available.code → lowMemoryEnd.value ≤ region.start.value →
        pages * 4096 ≤ region.length → base.value ≤ region.start.value) :
      Allocates table pages kind (some base) after

theorem allocateAs_spec {ε : Type} (table : RegionTable capacity sorting) (pages : Nat)
    (kind : RegionKind) :
    ∃ answer after,
      (allocateAs pages kind : Operation (RegionTable capacity sorting) ε _).run table =
        (.done answer, after) ∧ Allocates table pages kind answer after := by
  by_cases trivial : pages = 0 ∨ 1 <<< 64 ≤ pages * 4096
  · exact ⟨_, _, run_allocateAs_of_trivial trivial, .none⟩
  · cases search : table.hostOfPages? pages with
    | none => exact ⟨_, _, run_allocateAs_of_missing trivial search, .none⟩
    | some found =>
        have ran := run_allocateAs_of_found (ε := ε) kind trivial search
        split at ran
        next => exact ⟨_, _, ran, .none⟩
        next free =>
          have positive := Nat.pos_of_ne_zero (not_or.1 trivial).1
          have carves := carves_of_hostOfPages? kind positive search
          have extent := Address.value_pageAfter (room_of_hostOfPages? search)
          have slots : (found.carve kind found.host.start
              (found.host.start.pageAfter pages)).length ≤ capacity := by
            rw [length_carve_of_hostOfPages? kind search]
            exact Nat.le_of_not_lt free
          refine ⟨_, _, ran, .carved _ _ _ _ rfl extent (of_hostOfPages? search).2.1 carves
            (isArranged_arrange slots) ?_⟩
          intro arranged region member isAvailable isHigh isEnough
          apply Region.start_le_of_findFirst? search arranged.ordered member
          simp [Region.hasKind, isAvailable, isHigh, isEnough]

theorem allocates_of_allocateAs {ε : Type} {after : RegionTable capacity sorting} {pages : Nat}
    {kind : RegionKind} {outcome : Outcome ε (Option PhysicalAddress)}
    (ran : (allocateAs pages kind).run table = (outcome, after)) :
    ∃ answer, outcome = .done answer ∧ Allocates table pages kind answer after := by
  rcases allocateAs_spec (ε := ε) table pages kind with ⟨answer, _, same, allocates⟩
  cases ran.symm.trans same
  exact ⟨answer, rfl, allocates⟩

theorem isWhole_of_allocates {host : Region} (kind : RegionKind) {base stop : PhysicalAddress}
    {pages : Nat} (whole : host.IsWhole) (atStart : base = host.start)
    (extent : stop.value = base.value + pages * 4096) (below : stop.value ≤ host.stop.value) :
    (Region.of kind base stop).IsWhole := by
  have aligned := whole.start
  have within := whole.within
  subst atStart
  refine ⟨aligned, ?_, ?_⟩
  · change stop.value % 4096 = 0
    omega
  · change stop.value ≤ physicalLimit.value
    omega

/-- What an allocation gives out was on offer, and nothing is on offer that was not. -/
theorem Allocates.offers {after : RegionTable capacity sorting} {pages : Nat} {kind : RegionKind}
    {answer : Option PhysicalAddress} (allocates : Allocates table pages kind answer after) :
    (∀ first last, after.Offers 0 first last → table.Offers 0 first last) ∧
      ∀ base, answer = some base →
        table.Offers 0 base.value (base.value + pages * 4096) := by
  cases allocates with
  | none => exact ⟨fun _ _ offered => offered, by simp⟩
  | carved base stop host others atStart extent high carves =>
      refine ⟨fun first last offered => carves.offers_of_offers offered, ?_⟩
      rintro _ ⟨⟩
      refine ⟨host, carves.mem_before.2 (.inl rfl), carves.available, Nat.zero_le _,
        carves.start, ?_⟩
      rw [← extent]
      exact carves.stop

theorem Allocates.isSound {after : RegionTable capacity sorting} {pages : Nat} {kind : RegionKind}
    {answer : Option PhysicalAddress} (allocates : Allocates table pages kind answer after)
    (sound : table.IsSound) : after.IsSound := by
  cases allocates with
  | none => exact sound
  | carved base stop host others atStart extent high carves =>
      refine carves.isSound sound (isWhole_of_allocates kind ?_ atStart extent carves.stop)
      exact sound.whole host (carves.mem_before.2 (.inl rfl))

/-! ## A supply of frames -/

def OffersFrame (table : RegionTable capacity sorting) (frame : Frame) : Prop :=
  table.Offers lowMemoryEnd.value (frame.number * 4096) (frame.number * 4096 + 4096)

inductive HandsOut (table : RegionTable capacity sorting) :
    Option Frame → RegionTable capacity sorting → Prop
  | none : HandsOut table none table
  | frame {after : RegionTable capacity sorting} (frame : Frame) (taken host : Region)
      (others : List Region) (start : taken.start.value = frame.number * 4096)
      (stop : taken.stop.value = frame.number * 4096 + 4096)
      (code : taken.code = RegionKind.reserved.code) (high : lowMemoryEnd.value ≤ host.start.value)
      (whole : taken.IsWhole) (carves : Carves table after taken host others) :
      HandsOut table (some frame) after

theorem allocateFrame_spec {ε : Type} (sound : table.IsSound) :
    ∃ answer after, (allocateFrame : Operation (RegionTable capacity sorting) ε _).run table =
        (.done answer, after) ∧ HandsOut table answer after := by
  rcases allocateAs_spec (ε := ε) table 1 .reserved with ⟨answer, after, ran, allocates⟩
  refine ⟨answer.map fun address => address.page .small, after, ?_, ?_⟩
  · rw [allocateFrame, allocate, Operation.run_bind_of_done ran, Operation.run_pure]
  · cases allocates with
    | none => exact .none
    | carved base stop host others atStart extent high carves =>
        have hostWhole := sound.whole host (carves.mem_before.2 (.inl rfl))
        have whole := isWhole_of_allocates .reserved hostWhole atStart extent carves.stop
        have aligned := whole.start
        have number : (base.page .small).number = base.value / 4096 := rfl
        have start : base.value = (base.page .small).number * 4096 := by
          have : base.value % 4096 = 0 := aligned
          omega
        refine .frame (base.page .small) _ host others start ?_ rfl (atStart ▸ high) whole carves
        change stop.value = (base.page .small).number * 4096 + 4096
        omega

theorem HandsOut.isSound {answer : Option Frame} {after : RegionTable capacity sorting}
    (handsOut : HandsOut table answer after) (sound : table.IsSound) : after.IsSound := by
  cases handsOut with
  | none => exact sound
  | frame _ _ _ _ _ _ _ _ whole carves => exact carves.isSound sound whole

theorem HandsOut.offersFrame {answer : Option Frame} {after : RegionTable capacity sorting}
    (handsOut : HandsOut table answer after) (sound : table.IsSound) :
    (∀ frame, after.OffersFrame frame → table.OffersFrame frame) ∧
      ∀ frame, answer = some frame → table.OffersFrame frame ∧ ¬ after.OffersFrame frame := by
  cases handsOut with
  | none => exact ⟨fun _ offered => offered, by simp⟩
  | frame frame taken host others start stop code high whole carves =>
      have other : taken.code ≠ RegionKind.available.code := by
        rw [code]
        decide
      have changed : ∀ page : Frame, after.OffersFrame page ↔ table.OffersFrame page ∧
          (page.number * 4096 + 4096 ≤ taken.start.value ∨
            taken.stop.value ≤ page.number * 4096) :=
        fun page => carves.offers_iff sound other high (by omega)
      refine ⟨fun page offered => ((changed page).1 offered).1, ?_⟩
      rintro page ⟨⟩
      refine ⟨⟨host, carves.mem_before.2 (.inl rfl), carves.available, high, ?_, ?_⟩, ?_⟩
      · rw [← start]
        exact carves.start
      · rw [← stop]
        exact carves.stop
      · intro offered
        have apart := ((changed frame).1 offered).2
        omega

/-- What is known of a table besides its soundness and survives the handing out of
frames. -/
structure Invariant (capacity : Nat) (sorting : Region.Sorting) where
  Holds (table : RegionTable capacity sorting) : Prop
  handOut {before after : RegionTable capacity sorting} {answer : Option Frame} :
    before.IsSound → Holds before → HandsOut before answer after → Holds after

def records (invariant : Invariant capacity sorting) :
    OwnRecords (RegionTable capacity sorting) where
  Orderly table := table.IsSound ∧ invariant.Holds table
  Offers := OffersFrame
  take {ε} machine table orderly := by
    rcases orderly with ⟨sound, holds⟩
    rcases allocateFrame_spec (ε := ε) sound with ⟨answer, after, ran, handsOut⟩
    rcases handsOut.offersFrame sound with ⟨fewer, handed⟩
    refine ⟨answer, after, ?_, ⟨handsOut.isSound sound, invariant.handOut sound holds handsOut⟩,
      fewer, handed⟩
    exact (Paged.run_onSource ..).trans (by rw [ran])

/-! ## Runs of allocations -/

structure Extent where
  base : PhysicalAddress
  pages : Nat

def Extent.Covers (extent : Extent) (address : Nat) : Prop :=
  extent.base.value ≤ address ∧ address < extent.base.value + extent.pages * 4096

/-- Allocations of pages for any use and of single frames, in any order, with what they
gave out. -/
inductive GivesOut :
    RegionTable capacity sorting → List Extent → RegionTable capacity sorting → Prop
  | nil {table : RegionTable capacity sorting} : GivesOut table [] table
  | pages {table before after : RegionTable capacity sorting} {given : List Extent} {ε : Type}
      {pages : Nat} {kind : RegionKind} {answer : Option PhysicalAddress}
      (earlier : GivesOut table given before)
      (ran : (allocateAs pages kind : Operation (RegionTable capacity sorting) ε _).run before =
        (.done answer, after)) :
      GivesOut table (given ++ answer.toList.map fun base => ⟨base, pages⟩) after
  | frame {table before after : RegionTable capacity sorting} {given : List Extent} {ε : Type}
      {answer : Option Frame} (earlier : GivesOut table given before)
      (ran : (allocateFrame : Operation (RegionTable capacity sorting) ε _).run before =
        (.done answer, after)) :
      GivesOut table (given ++ answer.toList.map fun frame => ⟨frame.base, 1⟩) after

/-- Everything that is ever given out was available in the first place. -/
theorem GivesOut.offers {after : RegionTable capacity sorting} {given : List Extent}
    (givesOut : GivesOut table given after) (sound : table.IsSound) :
    after.IsSound ∧ (∀ first last, after.Offers 0 first last → table.Offers 0 first last) ∧
      ∀ extent ∈ given,
        table.Offers 0 extent.base.value (extent.base.value + extent.pages * 4096) := by
  induction givesOut with
  | nil => exact ⟨sound, fun _ _ offered => offered, by simp⟩
  | pages earlier ran induction =>
      rcases induction with ⟨soundBefore, fewer, old⟩
      rcases allocates_of_allocateAs ran with ⟨_, ⟨⟩, allocates⟩
      rcases allocates.offers with ⟨fewerStill, new⟩
      refine ⟨allocates.isSound soundBefore, fun first last offered =>
        fewer first last (fewerStill first last offered), ?_⟩
      intro extent member
      rcases List.mem_append.1 member with isOld | isNew
      · exact old extent isOld
      · rcases List.mem_map.1 isNew with ⟨base, isAnswer, rfl⟩
        exact fewer _ _ (new base (Option.mem_toList.1 isAnswer))
  | frame earlier ran induction =>
      rcases induction with ⟨soundBefore, fewer, old⟩
      rcases allocateFrame_spec soundBefore with ⟨_, _, same, handsOut⟩
      rw [ran] at same
      cases same
      refine ⟨handsOut.isSound soundBefore, ?_, ?_⟩
      · cases handsOut with
        | none => exact fewer
        | frame _ _ _ _ _ _ _ _ _ carves =>
            exact fun first last offered => fewer first last (carves.offers_of_offers offered)
      · intro extent member
        rcases List.mem_append.1 member with isOld | isNew
        · exact old extent isOld
        · rcases List.mem_map.1 isNew with ⟨frame, isAnswer, rfl⟩
          have offered := ((handsOut.offersFrame soundBefore).2 frame
            (Option.mem_toList.1 isAnswer)).1
          refine fewer _ _ (offered.mono (Nat.zero_le _) (Nat.le_refl _) ?_)
          exact Nat.le_of_eq (by rw [Nat.one_mul]; rfl)

end RegionTable

end EarlyMemory
