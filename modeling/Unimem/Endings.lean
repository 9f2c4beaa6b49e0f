import Unimem.UniAllocator

/-!
More fuel never changes how Alloc or Free ended. A program built from programs
without loops and from smaller ones with this property has it.
-/

namespace Unimem

open Fuelled WordArith MallocState

/-- The outcome does not depend on the fuel, once there is enough. -/
abbrev Steady {α : Type} (program : Nat → Prog α) : Prop := Monotone Stop.fuel program

theorem descend_steady (X S : Nat) (node : Nat × Nat) :
    Steady fun fuel => insertLargeChunk.descend X S fuel node := by
  intro fuel
  induction fuel generalizing node with
  | zero => exact Extends.of_throw _
  | succ fuel ih =>
      refine Extends.bind (Extends.refl _) fun size => Extends.ite ?_ (Extends.refl _)
      exact Extends.bind (Extends.refl _) fun C => Extends.ite (ih _) (Extends.refl _)

theorem insertLargeChunk_steady (X S : Nat) : Steady fun fuel => insertLargeChunk fuel X S := by
  intro fuel
  refine Extends.bind (Extends.refl _) fun _ => Extends.bind (Extends.refl _) fun _ =>
    Extends.bind (Extends.refl _) fun _ => Extends.bind (Extends.refl _) fun marked =>
      Extends.ite (Extends.refl _) ?_
  exact Extends.bind (Extends.refl _) fun root => descend_steady X S _ fuel

theorem insertChunk_steady (P S : Nat) : Steady fun fuel => insertChunk fuel P S := fun fuel =>
  Extends.ite (Extends.refl _) (insertLargeChunk_steady P S fuel)

theorem leaf_steady (node : Nat × Nat) : Steady fun fuel => unlinkLargeChunk.leaf fuel node := by
  intro fuel
  induction fuel generalizing node with
  | zero => exact Extends.of_throw _
  | succ fuel ih =>
      refine Extends.bind (Extends.refl _) fun C1 => Extends.ite (ih _) ?_
      exact Extends.bind (Extends.refl _) fun C0 => Extends.ite (ih _) (Extends.refl _)

theorem replacement_steady (X : Nat) :
    Steady fun fuel => unlinkLargeChunk.replacement fuel X := by
  intro fuel
  refine Extends.bind (Extends.refl _) fun B => Extends.ite (Extends.refl _) ?_
  refine Extends.bind (Extends.refl _) fun C1 => Extends.bind (Extends.refl _) fun C0 => ?_
  exact Extends.ite (Extends.bind (leaf_steady _ fuel) fun _ => Extends.refl _) (Extends.refl _)

theorem unlinkLargeChunk_steady (X : Nat) : Steady fun fuel => unlinkLargeChunk fuel X :=
  fun fuel => Extends.bind (Extends.refl _) fun _ =>
    Extends.bind (replacement_steady X fuel) fun _ => Extends.refl _

theorem unlinkChunk_steady (P S : Nat) : Steady fun fuel => unlinkChunk fuel P S := fun fuel =>
  Extends.ite (Extends.refl _) (unlinkLargeChunk_steady P fuel)

theorem leastOfPath_steady (nb : Nat) (node : Nat × Nat × Nat) :
    Steady fun fuel => leastOfPath nb fuel node := by
  intro fuel
  induction fuel generalizing node with
  | zero => exact Extends.of_throw _
  | succ fuel ih =>
      refine Extends.ite (Extends.refl _) (Extends.bind (Extends.refl _) fun size => ?_)
      exact Extends.bind (Extends.refl _) fun next => ih _

theorem splitTree_steady (nb v rsize : Nat) {keep : Nat → Nat → Nat → Prog Unit}
    (kept : ∀ r rsize, Steady fun fuel => keep fuel r rsize) :
    Steady fun fuel => splitTree fuel nb v rsize (keep fuel) := by
  intro fuel
  refine Extends.bind (Extends.refl _) fun ok => Extends.ite ?_ (Extends.refl _)
  refine Extends.ite ?_ (Extends.refl _)
  refine Extends.bind (unlinkLargeChunk_steady v fuel) fun _ => Extends.ite (Extends.refl _) ?_
  refine Extends.bind (Extends.refl _) fun _ => Extends.bind (Extends.refl _) fun _ => ?_
  exact Extends.bind (kept _ _ fuel) fun _ => Extends.refl _

theorem tmallocSmall_steady (nb : Nat) : Steady fun fuel => tmallocSmall fuel nb := by
  intro fuel
  refine Extends.bind (Extends.refl _) fun _ => Extends.bind (Extends.refl _) fun t => ?_
  refine Extends.bind (Extends.refl _) fun size => Extends.bind (Extends.refl _) fun next => ?_
  refine Extends.bind (leastOfPath_steady nb _ fuel) fun best => ?_
  exact splitTree_steady nb _ _ (fun r rsize _ => Extends.refl (replaceDv r rsize)) fuel

theorem walk_steady (nb : Nat) (w : Walk) : Steady fun fuel => tmallocLarge.walk nb fuel w := by
  intro fuel
  induction fuel generalizing w with
  | zero => exact Extends.of_throw _
  | succ fuel ih =>
      refine Extends.bind (Extends.refl _) fun size => Extends.ite (Extends.refl _) ?_
      refine Extends.bind (Extends.refl _) fun rt => Extends.bind (Extends.refl _) fun t => ?_
      exact Extends.ite (Extends.refl _) (ih _)

theorem tmallocLarge_steady (nb : Nat) : Steady fun fuel => tmallocLarge fuel nb := by
  intro fuel
  refine Extends.bind (Extends.refl _) fun root => ?_
  refine Extends.bind (Extends.ite (walk_steady nb _ fuel) (Extends.refl _)) fun w => ?_
  refine Extends.bind (Extends.refl _) fun t => ?_
  refine Extends.bind (leastOfPath_steady nb _ fuel) fun best => ?_
  refine Extends.bind (Extends.refl _) fun _ => Extends.ite ?_ (Extends.refl _)
  exact splitTree_steady nb _ _ insertChunk_steady fuel

theorem tryAlloc_steady (bytes : Nat) : Steady fun fuel => tryAlloc fuel bytes := by
  intro fuel
  refine Extends.ite ?_ (Extends.ite (Extends.refl _) ?_)
  · refine Extends.bind (Extends.refl _) fun g => Extends.ite (Extends.refl _) ?_
    refine Extends.bind (Extends.refl _) fun g => Extends.ite ?_ (Extends.refl _)
    refine Extends.ite (Extends.refl _) (Extends.bind (Extends.refl _) fun g => ?_)
    refine Extends.ite (Extends.bind (tmallocSmall_steady _ fuel) fun mem => ?_) (Extends.refl _)
    exact Extends.refl _
  · refine Extends.bind (Extends.refl _) fun g => Extends.ite ?_ (Extends.refl _)
    exact Extends.bind (tmallocLarge_steady _ fuel) fun mem => Extends.refl _

theorem alloc_steady (bytes : Nat) : Steady fun fuel => alloc fuel bytes := by
  intro fuel
  induction fuel with
  | zero => exact Extends.of_throw _
  | succ fuel ih =>
      refine Extends.bind (tryAlloc_steady bytes fuel) fun found => ?_
      cases found with
      | some mem => exact Extends.refl _
      | none => exact Extends.bind (Extends.refl _) fun _ => ih

theorem freeForward_steady (p psize next : Nat) :
    Steady fun fuel => freeForward fuel p psize next := by
  intro fuel
  have filed : ∀ size, Extends Stop.fuel (freeInsert fuel p size) (freeInsert (fuel + 1) p size) :=
    fun size => Extends.ite (Extends.refl _) (insertLargeChunk_steady p size fuel)
  refine Extends.bind (Extends.refl _) fun ok => Extends.ite ?_ (Extends.refl _)
  refine Extends.bind (Extends.refl _) fun used => Extends.ite ?_ ?_
  · refine Extends.bind (Extends.refl _) fun g => Extends.ite (Extends.refl _) ?_
    refine Extends.bind (Extends.refl _) fun g => Extends.ite (Extends.refl _) ?_
    refine Extends.bind (Extends.refl _) fun nsize => ?_
    refine Extends.bind (unlinkChunk_steady next nsize fuel) fun _ => ?_
    refine Extends.bind (Extends.refl _) fun _ => Extends.bind (Extends.refl _) fun g => ?_
    exact Extends.ite (Extends.refl _) (filed _)
  · exact Extends.bind (Extends.refl _) fun _ => filed _

theorem free_steady (mem : Nat) : Steady fun fuel => free fuel mem := by
  intro fuel
  refine Extends.ite ?_ (Extends.refl _)
  refine Extends.bind (Extends.refl _) fun ok => Extends.ite ?_ (Extends.refl _)
  refine Extends.bind (Extends.refl _) fun psize => Extends.bind (Extends.refl _) fun flag => ?_
  refine Extends.ite ?_ (freeForward_steady _ _ _ fuel)
  refine Extends.bind (Extends.refl _) fun prevsize => Extends.bind (Extends.refl _) fun ok => ?_
  refine Extends.ite (Extends.bind (Extends.refl _) fun g => Extends.ite ?_ ?_) (Extends.refl _)
  · exact Extends.bind (unlinkChunk_steady _ _ fuel) fun _ => freeForward_steady _ _ _ fuel
  · refine Extends.bind (Extends.refl _) fun head => Extends.ite (Extends.refl _) ?_
    exact freeForward_steady _ _ _ fuel

end Unimem
