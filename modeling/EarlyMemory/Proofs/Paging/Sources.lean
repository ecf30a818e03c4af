import EarlyMemory.Paging.AddressSpace
import EarlyMemory.Proofs.Maintenance

/-!
# Mapping and its source

Mapping does nothing to the source of its frames but take frames from it. So it maintains
whatever taking a frame maintains.
-/

namespace EarlyMemory.AddressSpace

open Operation (Maintains)
open Paged (AtSource)

variable {F : Type} {holds : F → Prop}

theorem maintains_reachTable {space : AddressSpace} {level : Level} {address : VirtualAddress}
    {frame : Frame} :
    (reachTable space level address frame : Operation (Paged F) MapError Frame).Maintains
      (AtSource holds) :=
  Paged.maintains_inspect

section

variable [FrameSource F]
  (takes : (FrameSource.take : Operation (Paged F) MapError (Option Frame)).Maintains
    (AtSource holds))

include takes

theorem maintains_ensureChild {space : AddressSpace} {table : Frame} {index : TableIndex}
    {child : Level} {address : VirtualAddress} :
    (ensureChild space table index child address :
      Operation (Paged F) MapError Frame).Maintains (AtSource holds) := by
  refine .bind Paged.maintains_inspect fun entry => ?_
  split
  · exact .pure
  · refine .bind takes fun taken => ?_
    cases taken with
    | none => exact .refuse
    | some frame =>
        exact .bind (Paged.maintains_changeMemory (Paged.standsWrites_atSource holds)) fun _ =>
          .bind Paged.maintains_flush fun _ =>
          .bind maintains_reachTable fun _ =>
          .bind (Paged.maintains_changeMemory (Paged.standsWrites_atSource holds)) fun _ =>
          .bind .report fun _ => .pure

theorem maintains_descend {space : AddressSpace} {address : VirtualAddress} {level : Level}
    {frame : Frame} {below : List Level} :
    (descend space address level frame below : Operation (Paged F) MapError Frame).Maintains
      (AtSource holds) := by
  induction below generalizing level frame with
  | nil => exact .pure
  | cons child rest induction =>
      exact .bind maintains_reachTable fun table =>
        .bind (maintains_ensureChild takes) fun _ => induction

theorem maintains_map {space : AddressSpace} {target : PhysicalAddress}
    {address : VirtualAddress} {rights : Rights} :
    (map space target address rights : Operation (Paged F) MapError Unit).Maintains
      (AtSource holds) := by
  refine .bind (maintains_descend takes) fun last => .bind maintains_reachTable fun table =>
    .bind Paged.maintains_inspect fun existing => ?_
  split
  · exact .refuse
  · exact .bind (Paged.maintains_changeMemory (Paged.standsWrites_atSource holds)) fun _ =>
      .bind Paged.maintains_flush fun _ => .report

end

end EarlyMemory.AddressSpace
