import EarlyMemory.Proofs.Paging.Mapping

/-!
# Address spaces as finite maps

Twelve offset bits and everything above bit 47 aside, an address is its page key. A
space over tables at their frames refines a map from keys to leaves in which a
request inserts its leaf if the key has none. A supply that runs dry shows as a
request that changes nothing.
-/

namespace EarlyMemory

/-- The bits of an address that select its leaf. -/
abbrev PageKey := Fin (1 <<< 36)

namespace Address

def pageKey (address : VirtualAddress) : PageKey :=
  ⟨address.value / 4096 % (1 <<< 36), Nat.mod_lt _ (by decide)⟩

def ofPageKey (key : PageKey) : VirtualAddress :=
  ⟨key.val * 4096, by
    have := key.isLt
    omega⟩

theorem pageKey_ofPageKey (key : PageKey) : (ofPageKey key).pageKey = key := by
  apply Fin.ext
  have := key.isLt
  simp only [pageKey, ofPageKey, Nat.reduceShiftLeft] at this ⊢
  omega

theorem leafPath_eq_iff {left right : VirtualAddress} :
    left.leafPath = right.leafPath ↔ left.pageKey = right.pageKey := by
  simp only [leafPath, Level.path, List.cons.injEq, and_true, Fin.ext_iff, Level.val_index,
    Level.shift, pageKey, Nat.reduceShiftLeft]
  omega

end Address

/-! ## The specification -/

abbrev PageMap := PageKey → Option PageEntry

structure MapRequest where
  target : PhysicalAddress
  address : VirtualAddress
  rights : Rights

structure MapCall where
  request : MapRequest
  outcome : Outcome MapError Unit

namespace PageMap

def insert (pages : PageMap) (key : PageKey) (leaf : PageEntry) : PageMap :=
  fun other => if other = key then some leaf else pages other

/-- The calls that a map of pages allows, and what is mapped after each. -/
inductive Allows : PageMap → MapCall → PageMap → Prop
  | inserted {pages : PageMap} {request : MapRequest}
      (free : pages request.address.pageKey = none)
      (frame : (PageEntry.leaf (request.target.page .small) request.rights).frame =
        request.target.page .small) :
      Allows pages ⟨request, .done ()⟩
        (pages.insert request.address.pageKey
          (.leaf (request.target.page .small) request.rights))
  | present {pages : PageMap} {request : MapRequest} {leaf : PageEntry}
      (existing : pages request.address.pageKey = some leaf) :
      Allows pages ⟨request, .refused (.alreadyMapped request.address leaf.frame.base)⟩ pages
  | exhausted {pages : PageMap} {request : MapRequest} {missing : Level}
      (free : pages request.address.pageKey = none) :
      Allows pages ⟨request, .refused (.outOfMemory missing)⟩ pages

inductive Runs : PageMap → List MapCall → PageMap → Prop
  | nil {pages : PageMap} : Runs pages [] pages
  | snoc {start pages after : PageMap} {calls : List MapCall} {call : MapCall}
      (earlier : Runs start calls pages) (allowed : Allows pages call after) :
      Runs start (calls ++ [call]) after

end PageMap

namespace AddressSpace

variable {F : Type} [FrameSource F] {space : AddressSpace} {supply : Supply F}
  {start before after : Paged F} {offers keeps : Frame → Prop}

inductive Runs (space : AddressSpace) : Paged F → List MapCall → Paged F → Prop
  | nil {paged : Paged F} : Runs space paged [] paged
  | snoc {start before after : Paged F} {calls : List MapCall} {request : MapRequest}
      {outcome : Outcome MapError Unit} (earlier : Runs space start calls before)
      (ran : (space.map request.target request.address request.rights).run before =
        (outcome, after)) :
      Runs space start (calls ++ [⟨request, outcome⟩]) after

def pages (space : AddressSpace) (memory : Memory) : PageMap :=
  fun key => space.hierarchy.entryAt memory (Address.ofPageKey key).leafPath

/-- Reading every address of the memory gives what the map of pages says. -/
def Denotes (space : AddressSpace) (memory : Memory) (pages : PageMap) : Prop :=
  ∀ address : VirtualAddress,
    space.query memory address = .ok (pages address.pageKey) ∧
    space.translate memory address =
      .ok ((pages address.pageKey).map fun leaf => leaf.frame.join (address.offset .small))

theorem pages_pageKey (memory : Memory) (address : VirtualAddress) :
    space.pages memory address.pageKey = space.hierarchy.entryAt memory address.leafPath := by
  rw [pages, Address.leafPath_eq_iff.2 (Address.pageKey_ofPageKey address.pageKey)]

theorem leads_of_direct (direct : space.access = .direct) (address : VirtualAddress) :
    space.hierarchy.Leads address := by
  intro hidden
  rw [hierarchy, direct] at hidden
  cases hidden

theorem Ready.denotes (ready : space.Ready supply before offers keeps)
    (direct : space.access = .direct) :
    space.Denotes before.memory (space.pages before.memory) := by
  intro address
  have tables := ready.tree.hasTables (leads_of_direct direct address) .pt
  rw [pages_pageKey]
  exact ⟨query_eq ready.addressable ready.served tables,
    translate_eq ready.addressable ready.served tables⟩

/-- One call is one that the pages before it allow. -/
theorem Maps.allows {request : MapRequest} {outcome : Outcome MapError Unit}
    (maps : space.Maps request.target request.address request.rights before after outcome)
    (direct : space.access = .direct) (low : request.target.value < 1 <<< 52) :
    (space.pages before.memory).Allows ⟨request, outcome⟩ (space.pages after.memory) := by
  have unchanged : space.SameLeaves before.memory after.memory →
      space.pages after.memory = space.pages before.memory := by
    intro same
    funext key
    exact same _ (Address.length_leafPath _) (leads_of_direct direct _).owns_leafPath
  cases maps with
  | placed absent leaves =>
      have linkable : (request.target.page .small).IsLinkable := by
        simp only [Page.IsLinkable, Address.page, PageSize.bytes]
        omega
      have inserted : space.pages after.memory =
          (space.pages before.memory).insert request.address.pageKey
            (.leaf (request.target.page .small) request.rights) := by
        funext key
        rw [pages, leaves _ (Address.length_leafPath _)
          (leads_of_direct direct _).owns_leafPath]
        simp only [Address.leafPath_eq_iff, Address.pageKey_ofPageKey]
        rfl
      rw [inserted]
      refine .inserted ?_ (PageEntry.frame_leaf linkable _)
      rw [pages_pageKey, absent]
  | present existing same =>
      rw [unchanged same]
      exact .present ((pages_pageKey ..).trans existing)
  | exhausted dry absent same =>
      rw [unchanged same]
      exact .exhausted ((pages_pageKey ..).trans absent)

/-- A run of calls keeps a space ready, and its pages run alongside. -/
theorem Ready.runs {calls : List MapCall} (ready : space.Ready supply start offers keeps)
    (direct : space.access = .direct) (runs : space.Runs start calls after)
    (low : ∀ call ∈ calls, call.request.target.value < 1 <<< 52) :
    (∃ rest, space.Ready supply after rest keeps) ∧
      (space.pages start.memory).Runs calls (space.pages after.memory) := by
  induction runs with
  | nil => exact ⟨⟨offers, ready⟩, .nil⟩
  | snoc earlier ran induction =>
      rcases induction fun call member =>
        low call (List.mem_append_left _ member) with ⟨⟨between, current⟩, early⟩
      rcases map_spec _ _ current (leads_of_direct direct _) with
        ⟨outcome, middle, rest, mapped, advances, maps⟩
      rw [ran] at mapped
      cases mapped
      refine ⟨⟨rest, advances.ready⟩, .snoc early (maps.allows direct ?_)⟩
      exact low _ (List.mem_append_right _ (List.mem_singleton_self _))

/-- Over any memory whose tables form a tree, with any supply of further frames, the
calls on a space are the calls on a map of pages. A call runs out of memory only if the
supply has just run dry. -/
theorem map_refines_pageMap (space : AddressSpace) (direct : space.access = .direct)
    (supply : Supply F) (start : Paged F) (offers keeps : Frame → Prop)
    (fits : start.memory.base.number + start.memory.frames ≤ 1 <<< 40)
    (tree : space.hierarchy.IsTree start.memory)
    (supplied : supply.Holds start.memory start.source offers keeps)
    (offered : ∀ frame, offers frame → start.memory.HasFrame frame ∧
      ¬ space.hierarchy.IsTable start.memory frame ∧ ¬ keeps frame)
    (kept : ∀ frame, keeps frame → ¬ space.hierarchy.IsTable start.memory frame) :
    ∃ pages, space.Denotes start.memory pages ∧
      ∀ calls reached, space.Runs start calls reached →
        (∀ call ∈ calls, call.request.target.value < 1 <<< 52) →
        ∃ mapped, pages.Runs calls mapped ∧ space.Denotes reached.memory mapped ∧
          space.hierarchy.IsTree reached.memory ∧
          ∀ (request : MapRequest) (missing : Level) (after : Paged F),
            (space.map request.target request.address request.rights).run reached =
              (.refused (.outOfMemory missing), after) →
            ∃ asked, (FrameSource.take : Operation (Paged F) MapError (Option Frame)).run asked =
              (.done none, after) := by
  have ready : space.Ready supply start offers keeps := by
    refine ⟨?_, tree, ?_, supplied, ?_, kept⟩
    · simp only [Memory.IsAddressable, Nat.reduceShiftLeft] at fits ⊢
      omega
    · rw [IsServed, direct]
      trivial
    · intro frame isOffered
      rcases offered frame isOffered with ⟨inside, notTable, notKept⟩
      have below := inside.2
      refine ⟨inside, ?_, notTable, notKept⟩
      unfold Page.IsLinkable
      omega
  refine ⟨_, ready.denotes direct, fun calls reached runs low => ?_⟩
  rcases ready.runs direct runs low with ⟨⟨rest, current⟩, allowed⟩
  refine ⟨_, allowed, current.denotes direct, current.tree, ?_⟩
  intro request missing after ran
  rcases map_spec request.target request.rights current (leads_of_direct direct request.address)
      with ⟨outcome, ended, _, mapped, _, maps⟩
  rw [ran] at mapped
  cases mapped
  cases maps with
  | exhausted dry _ _ => exact ⟨_, dry⟩

/-- A machine of sixteen cleared frames: the first is the root and the rest are in a pool. -/
def freshMachine : Paged FramePool :=
  ⟨⟨Memory.zeroed ⟨0x100, by decide⟩ 16, []⟩, ⟨⟨0x101, by decide⟩, 15, 0⟩⟩

def freshSpace : AddressSpace :=
  ⟨⟨0x100, by decide⟩, .direct⟩

theorem isTable_freshMachine {frame : Frame}
    (isTable : freshSpace.hierarchy.IsTable freshMachine.memory frame) :
    frame = freshSpace.root := by
  refine Hierarchy.isTable_of_emptyRoot (fun index _ => ?_) isTable
  rw [freshMachine, Paged.memory,
    Memory.entry_of_byteAt_eq_zero fun _ _ => Memory.byteAt_zeroed ..]
  exact PageEntry.present_zero

theorem isTree_freshMachine : freshSpace.hierarchy.IsTree freshMachine.memory := by
  apply Hierarchy.isTree_of_emptyRoot ⟨by decide, by decide⟩
  intro index _
  rw [freshMachine, Paged.memory,
    Memory.entry_of_byteAt_eq_zero fun _ _ => Memory.byteAt_zeroed ..]
  exact PageEntry.present_zero

theorem freshMachine_refines_pageMap :
    ∃ pages, freshSpace.Denotes freshMachine.memory pages ∧
      ∀ calls reached, freshSpace.Runs freshMachine calls reached →
        (∀ call ∈ calls, call.request.target.value < 1 <<< 52) →
        ∃ mapped, pages.Runs calls mapped ∧ freshSpace.Denotes reached.memory mapped ∧
          freshSpace.hierarchy.IsTree reached.memory ∧
          ∀ (request : MapRequest) (missing : Level) (after : Paged FramePool),
            (freshSpace.map request.target request.address request.rights).run reached =
              (.refused (.outOfMemory missing), after) →
            ∃ asked, (FrameSource.take : Operation (Paged FramePool) MapError
              (Option Frame)).run asked = (.done none, after) := by
  refine map_refines_pageMap freshSpace rfl FramePool.records.supply freshMachine
    freshMachine.source.Offers (fun _ => False) (by decide) isTree_freshMachine
    ⟨show 0x101 + 15 < 1 <<< 52 by decide, fun _ => Iff.rfl, fun _ => id⟩ ?_
    (fun _ impossible => impossible.elim)
  intro frame offered
  rcases offered with ⟨above, below⟩
  simp only [freshMachine] at above below
  refine ⟨⟨?_, ?_⟩, fun isTable => ?_, id⟩
  · change 0x100 ≤ frame.number
    omega
  · change frame.number < 0x100 + 16
    omega
  · rw [isTable_freshMachine isTable] at above
    exact absurd above (by decide)

end AddressSpace

end EarlyMemory
