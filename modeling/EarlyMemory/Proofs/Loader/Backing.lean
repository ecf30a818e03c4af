import EarlyMemory.Proofs.Loader.Evolution

/-!
# Backing a segment

The pages that back a segment come from the frames on offer, settle at once and stay in
an allocated region. If all of them could be mapped, none of the segment's pages was
mapped before, and each has its leaf afterwards.
-/

namespace EarlyMemory.Loader

open Operation

variable {capacity : Nat} {sorting : Region.Sorting} {root : Frame}
  {before middle after paged : Paged (RegionTable capacity sorting)} {ε δ α β : Type}

/-! ## Operations that keep the machine sound -/

/-- However the operation ends, a sound machine only loads by it. -/
def Keeps (root : Frame) (operation : Operation (Paged (RegionTable capacity sorting)) ε α) :
    Prop :=
  ∀ before outcome after, IsSound root before → operation.run before = (outcome, after) →
    Loads root before after

namespace Keeps

theorem of_run_eq {operation : Operation (Paged (RegionTable capacity sorting)) ε α}
    (same : ∀ paged, (operation.run paged).2 = paged) : Keeps root operation := by
  intro before outcome after sound ran
  have unchanged := same before
  rw [ran] at unchanged
  cases unchanged
  exact .refl sound

theorem check {computed : Except Fault α} :
    Keeps root (check computed : Operation (Paged (RegionTable capacity sorting)) ε α) := by
  apply of_run_eq
  intro paged
  cases computed <;> rfl

theorem bind_of_done {first : Operation (Paged (RegionTable capacity sorting)) ε α}
    {next : α → Operation (Paged (RegionTable capacity sorting)) ε β}
    (keepsFirst : Keeps root first)
    (keepsNext : ∀ value before between, first.run before = (.done value, between) →
      Keeps root (next value)) : Keeps root (first >>= next) := by
  intro before outcome after sound ran
  rw [run_bind] at ran
  rcases ending : first.run before with ⟨value | cause | cause, between⟩
  · rw [ending] at ran
    have early := keepsFirst before _ between sound ending
    exact early.trans (keepsNext value before between ending between outcome after early.sound ran)
  · rw [ending] at ran
    cases ran
    exact keepsFirst before _ _ sound ending
  · rw [ending] at ran
    cases ran
    exact keepsFirst before _ _ sound ending

theorem bind {first : Operation (Paged (RegionTable capacity sorting)) ε α}
    {next : α → Operation (Paged (RegionTable capacity sorting)) ε β}
    (keepsFirst : Keeps root first) (keepsNext : ∀ value, Keeps root (next value)) :
    Keeps root (first >>= next) :=
  bind_of_done keepsFirst fun value _ _ _ => keepsNext value

theorem reportRefusal {severity : Severity} {component : Component} {message : ε → String}
    {operation : Operation (Paged (RegionTable capacity sorting)) ε α}
    (keeps : Keeps root operation) :
    Keeps root (reportRefusal severity component message operation) := by
  intro before outcome after sound ran
  rw [run_reportRefusal] at ran
  exact keeps before outcome after sound ran

end Keeps

/-! ## Pages of a segment -/

theorem Evolves.absent (evolves : Evolves root before after) {path : TablePath}
    (long : path.length = 4) (absent : (tables root).entryAt after.memory path = none) :
    (tables root).entryAt before.memory path = none := by
  cases found : (tables root).entryAt before.memory path with
  | none => rfl
  | some leaf =>
      rw [evolves.leaves path leaf long found] at absent
      cases absent

structure BacksPage (root : Frame) (backing : PhysicalAddress) (address : VirtualAddress)
    (rights : Rights) (index : Nat) (before after : Memory) : Prop where
  room : address.value + index * 4096 < 1 <<< 64
  absent : (tables root).entryAt before (address.pageAfter index).leafPath = none
  leaf : (tables root).entryAt after (address.pageAfter index).leafPath =
    some (.leaf ((backing.pageAfter index).page .small) rights)

theorem number_pageAfter {backing : PhysicalAddress} {pages index : Nat}
    (within : backing.value + pages * 4096 ≤ physicalLimit.value) (below : index < pages) :
    ((backing.pageAfter index).page .small).number = (backing.value + index * 4096) / 4096 := by
  have limit : physicalLimit.value = 0x10000000000000 := rfl
  have value : (backing.pageAfter index).value = backing.value + index * 4096 :=
    Nat.mod_eq_of_lt (by omega)
  exact congrArg (· / 4096) value

theorem within_pageAfter {backing : PhysicalAddress} {pages index : Nat}
    (within : backing.value + pages * 4096 ≤ physicalLimit.value)
    (aligned : backing.value % 4096 = 0) (below : index < pages) :
    ((backing.pageAfter index).page .small).Within backing.value
      (backing.value + pages * 4096) := by
  unfold Page.Within
  rw [number_pageAfter within below]
  omega

theorem run_mapSegment_succ {backing : PhysicalAddress} {address : VirtualAddress} {rights : Rights}
    {index remaining : Nat} (backed : backing.value + index * 4096 < 1 <<< 64)
    (room : address.value + index * 4096 < 1 <<< 64) :
    (mapSegment root backing address rights index (remaining + 1)).run before =
      (do BootTables.map root (backing.pageAfter index) (address.pageAfter index) rights
          mapSegment root backing address rights (index + 1) remaining :
        Operation (Paged (RegionTable capacity sorting)) _ _).run before := by
  have offset : Word.multiply index PageSize.small.bytes = .ok (index * 4096) :=
    if_pos (Nat.lt_of_le_of_lt (Nat.le_add_left ..) room)
  rw [mapSegment, offset, run_bind_of_done (run_check_ok ..), Address.add_eq_pageAfter backed,
    run_bind_of_done (run_check_ok ..), Address.add_eq_pageAfter room,
    run_bind_of_done (run_check_ok ..), run_bind, run_reportRefusal, ← run_bind]

/-- However far mapping pages of a segment gets, all that it maps are those pages. -/
structure MapsSegment (root : Frame) (backing : PhysicalAddress) (address : VirtualAddress)
    (rights : Rights) (index count : Nat) (before after : Paged (RegionTable capacity sorting)) :
    Prop extends Evolves root before after where
  targets : ∀ path : TablePath, ∀ leaf, path.length = 4 →
    (tables root).entryAt after.memory path = some leaf →
    (tables root).entryAt before.memory path = some leaf ∨
      ∃ position, index ≤ position ∧ position < index + count ∧
        path = (address.pageAfter position).leafPath ∧
        leaf = .leaf ((backing.pageAfter position).page .small) rights

namespace MapsSegment

variable {backing : PhysicalAddress} {address : VirtualAddress} {rights : Rights}
  {index count remaining : Nat}

theorem refl (sound : IsSound root before) :
    MapsSegment root backing address rights index count before before :=
  ⟨.refl sound, fun _ _ _ found => .inl found⟩

theorem trans (first : MapsSegment root backing address rights index 1 before middle)
    (rest : MapsSegment root backing address rights (index + 1) remaining middle after) :
    MapsSegment root backing address rights index (remaining + 1) before after where
  toEvolves := first.toEvolves.trans rest.toEvolves
  targets path leaf long found := by
    rcases rest.targets path leaf long found with early | ⟨position, above, below, here⟩
    · refine (first.targets path leaf long early).imp_right ?_
      rintro ⟨position, above, below, here⟩
      exact ⟨position, above, by omega, here⟩
    · exact .inr ⟨position, by omega, by omega, here⟩

theorem weaken (first : MapsSegment root backing address rights index 1 before after) :
    MapsSegment root backing address rights index (remaining + 1) before after :=
  first.trans (.refl first.sound)

theorem of_check {computed : Except Fault α}
    {next : α → Operation (Paged (RegionTable capacity sorting)) ε β} {outcome : Outcome ε β}
    (sound : IsSound root before)
    (ran : (check computed >>= next).run before = (outcome, after))
    (maps : ∀ value, computed = .ok value → (next value).run before = (outcome, after) →
      MapsSegment root backing address rights index count before after) :
    MapsSegment root backing address rights index count before after := by
  cases computed with
  | error cause =>
      cases ran
      exact .refl sound
  | ok value => exact maps value rfl ran

theorem of_run {outcome : Outcome BootTables.Refusal Unit} (sound : IsSound root before)
    (ran : (mapSegment root backing address rights index remaining).run before =
      (outcome, after)) :
    MapsSegment root backing address rights index remaining before after := by
  induction remaining generalizing index before with
  | zero =>
      cases ran
      exact .refl sound
  | succ remaining induction =>
      rw [mapSegment] at ran
      apply of_check sound ran
      intro offset product ran
      apply of_check sound ran
      intro target targetSum ran
      apply of_check sound ran
      intro page pageSum ran
      rcases Address.pageAfter_eq product targetSum with ⟨rfl, _⟩
      rcases Address.pageAfter_eq product pageSum with ⟨rfl, _⟩
      rw [run_bind, run_reportRefusal] at ran
      rcases mapped : (BootTables.map root (backing.pageAfter index) (address.pageAfter index)
        rights).run before with ⟨ending, middle⟩
      rcases evolves_of_map sound mapped with ⟨evolves, targets, _⟩
      have first : MapsSegment root backing address rights index 1 before middle :=
        ⟨evolves, fun path leaf long found => (targets path leaf long found).imp_right
          fun here => ⟨index, Nat.le_refl _, Nat.lt_succ_self _, here⟩⟩
      rw [mapped] at ran
      cases ending with
      | done => exact first.trans (induction evolves.sound ran)
      | refused cause =>
          cases ran
          exact first.weaken
      | fault cause =>
          cases ran
          exact first.weaken

end MapsSegment

theorem of_run_mapSegment_succ {backing : PhysicalAddress} {address : VirtualAddress}
    {rights : Rights} {index remaining : Nat}
    (ran : (mapSegment root backing address rights index (remaining + 1)).run before =
      (.done (), after)) :
    address.value + index * 4096 < 1 <<< 64 ∧ ∃ middle,
      (BootTables.map root (backing.pageAfter index) (address.pageAfter index) rights).run before =
        (.done (), middle) ∧
      (mapSegment root backing address rights (index + 1) remaining).run middle =
        (.done (), after) := by
  rw [mapSegment] at ran
  rcases of_run_bind ran with ⟨offset, _, multiplied, ran⟩
  rcases of_run_check multiplied with ⟨product, rfl⟩
  rcases of_run_bind ran with ⟨target, _, added, ran⟩
  rcases of_run_check added with ⟨targetSum, rfl⟩
  rcases of_run_bind ran with ⟨page, _, added, ran⟩
  rcases of_run_check added with ⟨pageSum, rfl⟩
  rcases of_run_bind ran with ⟨_, middle, mapped, continued⟩
  rw [run_reportRefusal] at mapped
  rcases Address.pageAfter_eq product targetSum with ⟨rfl, _⟩
  rcases Address.pageAfter_eq product pageSum with ⟨rfl, room⟩
  exact ⟨room, middle, mapped, continued⟩

theorem backsPage_of_mapSegment {backing : PhysicalAddress} {address : VirtualAddress}
    {rights : Rights} {index remaining : Nat} (sound : IsSound root before)
    (ran : (mapSegment root backing address rights index remaining).run before =
      (.done (), after)) :
    ∀ position, index ≤ position → position < index + remaining →
      BacksPage root backing address rights position before.memory after.memory := by
  induction remaining generalizing index before with
  | zero =>
      intro position above below
      omega
  | succ remaining induction =>
      rcases of_run_mapSegment_succ ran with ⟨room, middle, mapped, continued⟩
      rcases evolves_of_map sound mapped with ⟨first, _, fills⟩
      have filled := fills rfl
      have rest := MapsSegment.of_run first.sound continued
      intro position above below
      by_cases here : position = index
      · subst here
        refine ⟨room, filled.absent, ?_⟩
        apply rest.leaves _ _ (Address.length_leafPath _)
        rw [filled.leaves _ (Address.length_leafPath _), if_pos rfl]
      · have further := induction first.sound continued position (by omega) (by omega)
        exact ⟨further.room, first.absent (Address.length_leafPath _) further.absent,
          further.leaf⟩

/-! ## Frames of a segment -/

structure Backing (root : Frame) (backing : PhysicalAddress) (pages : Nat)
    (before after : Paged (RegionTable capacity sorting)) : Prop where
  aligned : backing.value % 4096 = 0
  within : backing.value + pages * 4096 ≤ physicalLimit.value
  offered : ∀ frame : Frame, frame.Within backing.value (backing.value + pages * 4096) →
    before.source.OffersFrame frame ∧ Settled root after frame
  allocated : ∃ region ∈ after.source.regions, region.code = RegionKind.allocated.code ∧
    region.start.value ≤ backing.value ∧ backing.value + pages * 4096 ≤ region.stop.value

theorem Backing.evolves {backing : PhysicalAddress} {pages : Nat}
    (backed : Backing root backing pages before middle) (evolves : Evolves root middle after) :
    Backing root backing pages before after where
  aligned := backed.aligned
  within := backed.within
  offered frame within := by
    rcases backed.offered frame within with ⟨offered, settled⟩
    exact ⟨offered, settled.evolves evolves⟩
  allocated := by
    rcases backed.allocated with ⟨region, member, allocated, above, below⟩
    refine ⟨region, evolves.table.regions region member ?_, allocated, above, below⟩
    rw [allocated]
    decide

theorem Backing.backsImage {backing : PhysicalAddress} {pages index : Nat}
    (backed : Backing root backing pages before after) (below : index < pages) :
    after.source.BacksImage ((backing.pageAfter index).page .small) := by
  rcases backed.allocated with ⟨region, member, allocated, start, stop⟩
  have within := within_pageAfter backed.within backed.aligned below
  exact ⟨region, member, allocated, Nat.le_trans start within.1, Nat.le_trans within.2 stop⟩

theorem evolves_of_allocateAs {pages : Nat} {answer : Option PhysicalAddress}
    (sound : IsSound root before)
    (ran : (Paged.onSource (RegionTable.allocateAs pages .allocated) :
      Operation (Paged (RegionTable capacity sorting)) ε _).run before = (.done answer, after)) :
    Evolves root before after ∧ after.memory = before.memory ∧
      ∀ backing, answer = some backing → Backing root backing pages before after := by
  rcases RegionTable.allocateAs_spec (ε := ε) before.source pages .allocated with
    ⟨given, table, allocated, allocates⟩
  rw [Paged.run_onSource, allocated] at ran
  cases ran
  cases allocates with
  | none => exact ⟨.refl sound, rfl, by simp⟩
  | carved base stop host others atStart extent high carves =>
      have hostWhole := sound.table.whole host (carves.mem_before.2 (.inl rfl))
      have whole := RegionTable.isWhole_of_allocates .allocated hostWhole atStart extent
        carves.stop
      have other : RegionKind.allocated.code ≠ RegionKind.available.code := by decide
      have precedes := carves.precedes sound.table other (atStart ▸ high)
      refine ⟨⟨⟨sound.addressable, sound.tree, carves.isSound sound.table whole,
            fun frame offered => sound.inside frame (precedes.offers frame offered),
            fun frame isTable => precedes.isReserved (sound.reserved frame isTable)⟩,
          .refl sound.tree, fun _ _ _ found => found, .refl _, precedes⟩, rfl, ?_⟩
      rintro _ ⟨⟩
      refine ⟨whole.start, ?_, ?_, ?_⟩
      · rw [← extent]
        exact whole.within
      · rintro frame ⟨above, below⟩
        have offered : before.source.OffersFrame frame :=
          ⟨host, carves.mem_before.2 (.inl rfl), carves.available, atStart ▸ high,
            Nat.le_trans carves.start above,
            Nat.le_trans below (extent ▸ carves.stop)⟩
        refine ⟨offered, fun isTable => ?_, fun still => ?_⟩
        · exact sound.unmanaged frame isTable offered.manages
        · have apart := ((carves.offers_iff sound.table other (atStart ▸ high) (by omega)).1
            still).2
          simp only [Region.of] at apart
          omega
      · exact ⟨_, carves.taken_mem, rfl, Nat.le_refl _, Nat.le_of_eq extent.symm⟩

theorem Backing.loads {backing : PhysicalAddress} {address : VirtualAddress} {rights : Rights}
    {pages : Nat} (backed : Backing root backing pages before middle)
    (allocated : Evolves root before middle) (memory : middle.memory = before.memory)
    (maps : MapsSegment root backing address rights 0 pages middle after) :
    Loads root before after := by
  have aligned := backed.aligned
  have frames := backed.evolves maps.toEvolves
  have isLinkable : ∀ position < pages, ((backing.pageAfter position).page .small).IsLinkable :=
    fun position below => (frames.backsImage below).manages.isLinkable_number maps.sound.table
  refine ⟨allocated.trans maps.toEvolves, ?_, ?_⟩
  · intro path leaf long found
    rcases maps.targets path leaf long found with early | ⟨position, _, below, rfl, rfl⟩
    · exact .inl (memory ▸ early)
    · have below : position < pages := by omega
      rw [PageEntry.frame_leaf (isLinkable position below)]
      exact .inr ⟨(backed.offered _ (within_pageAfter backed.within aligned below)).1,
        frames.backsImage below⟩
  · intro path other leaf otherLeaf long otherLong found otherFound same
    rcases maps.targets path leaf long found with early | ⟨position, _, below, rfl, rfl⟩
    · exact .inr (.inl (memory ▸ early))
    rcases maps.targets other otherLeaf otherLong otherFound with
      early | ⟨further, _, furtherBelow, rfl, rfl⟩
    · exact .inr (.inr (memory ▸ early))
    have below : position < pages := by omega
    have furtherBelow : further < pages := by omega
    rw [PageEntry.frame_leaf (isLinkable position below),
      PageEntry.frame_leaf (isLinkable further furtherBelow)] at same
    have number := congrArg Page.number same
    rw [number_pageAfter backed.within below, number_pageAfter backed.within furtherBelow] at number
    have equal : position = further := by omega
    exact .inl (by rw [equal])

structure Backs (root : Frame) (backing : PhysicalAddress) (address : VirtualAddress)
    (pages : Nat) (rights : Rights) (before after : Paged (RegionTable capacity sorting)) :
    Prop where
  frames : Backing root backing pages before after
  pages : ∀ index < pages,
    BacksPage root backing address rights index before.memory after.memory

theorem add_zero {space : Space} (address : Address space) : address.add 0 = .ok address :=
  dif_pos address.isLt

theorem run_mapSegment_one {backing : PhysicalAddress} {address : VirtualAddress} {rights : Rights}
    (mapped : (BootTables.map root backing address rights).run before = (.done (), after)) :
    (mapSegment root backing address rights 0 1).run before = (.done (), after) := by
  have product : Word.multiply 0 PageSize.small.bytes = .ok 0 := rfl
  simp only [mapSegment, product, add_zero, run_bind, run_check_ok, run_reportRefusal, mapped,
    run_pure]

theorem run_loadSegment {address : VirtualAddress} {pages : Nat} {rights : Rights}
    {backing : PhysicalAddress}
    (allocated : (Paged.onSource (RegionTable.allocateAs pages .allocated) :
      Operation (Paged (RegionTable capacity sorting)) BootTables.Refusal _).run before =
      (.done (some backing), middle))
    (mapped : (mapSegment root backing address rights 0 pages).run middle = (.done (), after)) :
    (loadSegment root address pages rights).run before = (.done backing, after) := by
  rw [loadSegment, run_bind_of_done allocated]
  exact (run_bind_of_done mapped).trans (run_bind_of_done (run_report ..))

theorem loadSegment_spec {address : VirtualAddress} {pages : Nat} {rights : Rights}
    {outcome : Outcome BootTables.Refusal PhysicalAddress} (sound : IsSound root before)
    (ran : (loadSegment root address pages rights).run before = (outcome, after)) :
    Loads root before after ∧
      ∀ backing, outcome = .done backing →
        Backs root backing address pages rights before after := by
  obtain ⟨answer, middle, allocated⟩ : ∃ answer middle,
      (Paged.onSource (RegionTable.allocateAs pages .allocated) :
        Operation (Paged (RegionTable capacity sorting)) BootTables.Refusal _).run before =
      (.done answer, middle) := by
    rcases RegionTable.allocateAs_spec (ε := BootTables.Refusal)
      before.source pages .allocated with ⟨answer, table, ended, _⟩
    exact ⟨answer, ⟨before.machine, table⟩, Paged.run_onSource_of_run ended⟩
  rcases evolves_of_allocateAs sound allocated with ⟨first, memory, backed⟩
  rw [loadSegment, run_bind_of_done allocated] at ran
  cases answer with
  | none =>
      simp only [run_bind, run_report, run_refuse] at ran
      cases ran
      exact ⟨.of_evolves first fun _ _ _ found => memory ▸ found, by simp⟩
  | some backing =>
      have frames := backed backing rfl
      simp only [run_bind, run_report, run_pure] at ran
      rcases mapped : (mapSegment root backing address rights 0 pages).run middle with
        ⟨done | cause | cause, reached⟩
      all_goals
        have second := MapsSegment.of_run first.sound mapped
        rw [mapped] at ran
        cases ran
        refine ⟨frames.loads first memory second, ?_⟩
      · rintro _ ⟨⟩
        refine ⟨frames.evolves second.toEvolves, fun index below => ?_⟩
        have page := backsPage_of_mapSegment first.sound mapped index (Nat.zero_le _)
          (by omega)
        rwa [memory] at page
      · simp
      · simp

end EarlyMemory.Loader
