import EarlyMemory.Proofs.Region.Building
import EarlyMemory.Proofs.Words

/-!
# Serving requests

A table that was built answers or refuses every request, whatever its arguments are, and
never faults. However many requests an empty table has served, its regions fit its
capacity, come in the order of their starts, and are nonempty runs of whole pages in
physical memory.
-/

namespace EarlyMemory.RegionTable

variable {capacity : Nat} {sorting : Region.Sorting} {ε : Type}
  {table before after : RegionTable capacity sorting}

open Operation (update attempt)

inductive Request where
  | add (kind : RegionKind) (start stop : PhysicalAddress)
  | reserve (start stop : PhysicalAddress)
  | allocate (pages : Nat)
  | allocateAs (pages : Nat) (kind : RegionKind)
  | allocateFrame
  | free (address : PhysicalAddress)
  | coalesce
deriving DecidableEq

deriving instance DecidableEq for Except

/-- The base of what a request gives out, if it gives out anything, or why it is refused. -/
abbrev Answer :=
  Except RegionTableError (Option PhysicalAddress)

def Request.perform :
    Request → Operation (RegionTable capacity sorting) RegionTableError (Option PhysicalAddress)
  | .add kind start stop => do
      RegionTable.add kind start stop
      return none
  | .reserve start stop => do
      RegionTable.reserve start stop
      return none
  | .allocate pages => RegionTable.allocate pages
  | .allocateAs pages kind => RegionTable.allocateAs pages kind
  | .allocateFrame => do
      let frame ← RegionTable.allocateFrame
      return frame.map Page.base
  | .free address => do
      RegionTable.free address
      return none
  | .coalesce => do
      update RegionTable.coalesce
      return none

/-- Performs a request. A refusal is an answer too. -/
def Request.serve (request : Request) : Operation (RegionTable capacity sorting) ε Answer :=
  attempt request.perform

structure Exchange where
  request : Request
  answer : Answer
deriving DecidableEq

def serveAll : List Request → Operation (RegionTable capacity sorting) ε (List Exchange)
  | [] => return []
  | request :: rest => do
      let answer ← request.serve
      let further ← serveAll rest
      return ⟨request, answer⟩ :: further

/-! ## One request -/

inductive Request.Asks : Request → Nat → RegionKind → Prop
  | allocate (pages : Nat) : Asks (.allocate pages) pages .reserved
  | allocateAs (pages : Nat) (kind : RegionKind) : Asks (.allocateAs pages kind) pages kind
  | allocateFrame : Asks .allocateFrame 1 .reserved

inductive Serves (table : RegionTable capacity sorting) :
    Request → Answer → RegionTable capacity sorting → Prop
  | refused (request : Request) (cause : RegionTableError) :
      Serves table request (.error cause) table
  | added {kind : RegionKind} {start stop : PhysicalAddress} {after : RegionTable capacity sorting}
      (records : Records table
        (Region.of kind (rounded kind start stop).1 (rounded kind start stop).2) (.done ()) after) :
      Serves table (.add kind start stop) (.ok none) after
  | reserved {start stop : PhysicalAddress} {after : RegionTable capacity sorting}
      (reserves : Reserves table start stop (.done ()) after) :
      Serves table (.reserve start stop) (.ok none) after
  | granted {request : Request} {pages : Nat} {kind : RegionKind}
      {answer : Option PhysicalAddress} {after : RegionTable capacity sorting}
      (asks : request.Asks pages kind) (allocates : Allocates table pages kind answer after) :
      Serves table request (.ok answer) after
  | freed {address : PhysicalAddress} {after : RegionTable capacity sorting}
      (frees : Frees table address (.done ()) after) :
      Serves table (.free address) (.ok none) after
  | coalesced : Serves table .coalesce (.ok none) table.coalesce

theorem run_serve_of_done (request : Request) {answer : Option PhysicalAddress}
    (done : request.perform.run before = (.done answer, after)) :
    (request.serve : Operation (RegionTable capacity sorting) ε Answer).run before =
      (.done (.ok answer), after) := by
  rw [Request.serve, Operation.run_attempt, done]

theorem run_serve_of_refused (request : Request) {cause : RegionTableError}
    (refused : request.perform.run before = (.refused cause, after)) :
    (request.serve : Operation (RegionTable capacity sorting) ε Answer).run before =
      (.done (.error cause), after) := by
  rw [Request.serve, Operation.run_attempt, refused]

/-- The frames that a table of whole pages gives out begin where its regions do. -/
theorem exists_run_allocateFrame (wellFormed : ∀ region ∈ before.regions, region.IsWellFormed) :
    ∃ answer after, Request.allocateFrame.perform.run before = (.done answer, after) ∧
      Allocates before 1 .reserved answer after ∧
      (allocateAs 1 .reserved : Operation (RegionTable capacity sorting) RegionTableError _).run
        before = (.done answer, after) := by
  rcases allocateAs_spec (ε := RegionTableError) before 1 .reserved with
    ⟨answer, after, ran, allocates⟩
  refine ⟨answer, after, ?_, allocates, ran⟩
  have same : (answer.map fun base => base.page .small).map Page.base = answer := by
    cases allocates with
    | none => rfl
    | carved base stop host others atStart _ _ carves =>
        have whole := (wellFormed host (carves.mem_before.2 (.inl rfl))).2
        have aligned := whole.start
        rw [← atStart] at aligned
        apply congrArg some
        apply Address.ext
        change base.value / 4096 * 4096 = base.value
        omega
  rw [Request.perform, allocateFrame, allocate, bind_assoc, Operation.run_bind_of_done ran]
  simp only [pure_bind, Operation.run_pure, same]

theorem Built.serve (built : before.Built) (request : Request) :
    ∃ answer after, (request.serve : Operation (RegionTable capacity sorting) ε Answer).run before =
        (.done answer, after) ∧ after.Built ∧ Serves before request answer after := by
  cases request with
  | add kind start stop =>
      rcases add_spec before kind start stop with ⟨outcome, after, ran, records⟩
      cases outcome with
      | done nothing =>
          have done := run_serve_of_done (ε := ε) (.add kind start stop)
            (Operation.run_bind_of_done ran)
          exact ⟨_, _, done, built.added ran, .added records⟩
      | refused cause =>
          have refused := run_serve_of_refused (ε := ε) (.add kind start stop)
            (Operation.run_bind_of_refused ran)
          cases records
          exact ⟨_, _, refused, built, .refused ..⟩
      | fault cause => cases records
  | reserve start stop =>
      rcases reserve_spec before start stop with ⟨outcome, after, ran, reserves⟩
      cases outcome with
      | done nothing =>
          have done := run_serve_of_done (ε := ε) (.reserve start stop)
            (Operation.run_bind_of_done ran)
          exact ⟨_, _, done, built.reserved ran, .reserved reserves⟩
      | refused cause =>
          have refused := run_serve_of_refused (ε := ε) (.reserve start stop)
            (Operation.run_bind_of_refused ran)
          have kept : after = before := by cases reserves <;> rfl
          subst kept
          exact ⟨_, _, refused, built, .refused ..⟩
      | fault cause => cases reserves
  | allocate pages =>
      rcases allocateAs_spec (ε := RegionTableError) before pages .reserved with
        ⟨answer, after, ran, allocates⟩
      exact ⟨_, _, run_serve_of_done (.allocate pages) ran, built.allocated ran,
        .granted (.allocate pages) allocates⟩
  | allocateAs pages kind =>
      rcases allocateAs_spec (ε := RegionTableError) before pages kind with
        ⟨answer, after, ran, allocates⟩
      exact ⟨_, _, run_serve_of_done (.allocateAs pages kind) ran, built.allocated ran,
        .granted (.allocateAs pages kind) allocates⟩
  | allocateFrame =>
      rcases exists_run_allocateFrame built.isWellFormed with
        ⟨answer, after, performed, allocates, ran⟩
      exact ⟨_, _, run_serve_of_done _ performed, built.allocated ran,
        .granted .allocateFrame allocates⟩
  | free address =>
      rcases free_spec before address with ⟨outcome, after, ran, frees⟩
      cases outcome with
      | done nothing =>
          have done := run_serve_of_done (ε := ε) (.free address)
            (Operation.run_bind_of_done ran)
          exact ⟨_, _, done, built.freed ran, .freed frees⟩
      | refused cause =>
          have refused := run_serve_of_refused (ε := ε) (.free address)
            (Operation.run_bind_of_refused ran)
          cases frees
          exact ⟨_, _, refused, built, .refused ..⟩
      | fault cause => cases frees
  | coalesce =>
      have performed : Request.coalesce.perform.run before = (.done none, before.coalesce) :=
        Operation.run_bind_of_done (Operation.run_update _ _)
      exact ⟨_, _, run_serve_of_done _ performed, built.coalesced, .coalesced⟩

/-! ## Many requests -/

theorem Built.serveAll (built : before.Built) (requests : List Request) :
    ∃ exchanges after,
      (RegionTable.serveAll requests : Operation (RegionTable capacity sorting) ε _).run before =
        (.done exchanges, after) ∧
      exchanges.map Exchange.request = requests ∧ after.Built := by
  induction requests generalizing before with
  | nil => exact ⟨[], before, rfl, rfl, built⟩
  | cons request rest induction =>
      rcases built.serve request with ⟨answer, between, first, stillBuilt, _⟩
      rcases induction stillBuilt with ⟨further, after, later, asked, builtAfter⟩
      refine ⟨⟨request, answer⟩ :: further, after, ?_, ?_, builtAfter⟩
      · rw [RegionTable.serveAll, Operation.run_bind_of_done first,
          Operation.run_bind_of_done later, Operation.run_pure]
      · rw [List.map_cons, asked]

/-! ## Totals -/

def bytesOf (table : RegionTable capacity sorting) (kind : RegionKind) : Nat :=
  ((table.regions.filter fun region => region.hasKind kind).map Region.length).sum

/-- No more than 4095 regions of physical memory are counted without leaving 64 bits. -/
theorem Built.totalBytes_eq_ok (built : table.Built) (small : capacity ≤ 4095)
    (kind : RegionKind) : table.totalBytes kind = .ok (table.bytesOf kind) := by
  apply Word.sum_eq_ok
  let counted := table.regions.filter fun region => region.hasKind kind
  have few : counted.length ≤ 4095 := calc
    counted.length ≤ table.regions.length := List.length_filter_le ..
    _ ≤ capacity := built.isArranged.length_le
    _ ≤ 4095 := small
  have short : ∀ bytes ∈ counted.map Region.length, bytes ≤ physicalLimit.value := by
    simp only [List.forall_mem_map]
    intro region member
    have whole := (built.isWellFormed region (List.mem_filter.1 member).1).2
    exact Nat.le_trans (Nat.sub_le ..) whole.within
  have bound := Word.sum_le short
  rw [List.length_map] at bound
  have limit : physicalLimit.value = 0x10000000000000 := rfl
  change (counted.map Region.length).sum < 1 <<< 64
  rw [limit] at bound
  omega

/-- Whatever an empty table is asked for, it answers every request, and its regions end up
few enough, in order and well-formed. -/
theorem serveAll_never_faults (capacity : Nat) (requests : List Request) :
    ∃ exchanges, ∃ table : RegionTable capacity sorting,
      (RegionTable.serveAll requests : Operation (RegionTable capacity sorting) ε _).run .empty =
        (.done exchanges, table) ∧
      exchanges.map Exchange.request = requests ∧
      table.regions.length ≤ capacity ∧
      (table.regions.Pairwise fun left right => left.start.value ≤ right.start.value) ∧
      (∀ region ∈ table.regions, region.start.value < region.stop.value ∧
        region.stop.value ≤ physicalLimit.value ∧
        region.start.value % 4096 = 0 ∧ region.stop.value % 4096 = 0) ∧
      (capacity ≤ 4095 → ∀ kind, table.totalBytes kind = .ok (table.bytesOf kind)) := by
  rcases Built.empty.serveAll requests with ⟨exchanges, table, ran, asked, built⟩
  refine ⟨exchanges, table, ran, asked, built.isArranged.length_le, built.isArranged.ordered,
    ?_, built.totalBytes_eq_ok⟩
  intro region member
  rcases built.isWellFormed region member with ⟨proper, whole⟩
  exact ⟨proper, whole.within, whole.start, whole.stop⟩

end EarlyMemory.RegionTable
