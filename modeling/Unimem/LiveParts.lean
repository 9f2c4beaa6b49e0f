import Unimem.BuddyCalls

/-!
The live parts of a heap: a call of `Alloc` that succeeds adds one that has
room for the request, `Free` takes one away, and nothing else happens to them.
-/

namespace Buddy

open Tiling Coalescing OrderedSets WordArith

namespace Heap

variable {h : Heap} {left right : List Region} {region : Region} {below above : List Part}
  {part : Part} {wanted max : Nat} {reply : Nat × Nat}

def liveParts (h : Heap) : List Part := h.parts.filter Part.live

theorem mem_liveParts : part ∈ h.liveParts ↔ part ∈ h.parts ∧ part.live = true :=
  List.mem_filter

/-- The part that a request is served with, when it is cut from another. -/
def served (part : Part) (wanted : Nat) : Part :=
  ⟨part.start, if part.total - wanted ≤ sizeofDesc then part.total else wanted, true⟩

theorem filter_cut : (part.cut wanted).filter Part.live = [served part wanted] := by
  unfold Part.cut served Part.marked
  split <;> rfl

theorem served_total (covers : wanted ≤ part.total) :
    wanted ≤ (served part wanted).total ∧ (served part wanted).total ≤ wanted + sizeofDesc := by
  unfold served
  split
  · exact ⟨covers, by simp only; omega⟩
  · exact ⟨Nat.le_refl _, Nat.le_add_right _ _⟩

theorem parts_split (regions : h.regions = left ++ region :: right) :
    h.parts = left.flatMap Region.parts ++ (region.parts ++ right.flatMap Region.parts) := by
  rw [parts, regions, List.flatMap_append, List.flatMap_cons]

theorem liveParts_carve (laid : h.Laid) (place : h.Place left region right below part above)
    (free : part.live = false) :
    (h.carve part.start wanted).liveParts.Perm (served part wanted :: h.liveParts) := by
  unfold liveParts
  rw [parts_split (place.carve_regions laid), parts_split place.regions, place.parts]
  simp only [List.filter_append, filter_cut, List.filter_cons, free, Bool.false_eq_true, if_false,
    List.append_assoc, List.singleton_append]
  rw [← List.append_assoc, ← List.append_assoc]
  exact List.perm_middle

theorem liveParts_adopt {base size index : Nat} {huge : Bool} :
    (h.adopt (Region.fresh base size index huge)).liveParts =
      if huge then ⟨base, size, true⟩ :: h.liveParts else h.liveParts := by
  cases huge <;> rfl

theorem filter_others {start : Nat} {others : List Part}
    (absent : ∀ other ∈ others, other.start ≠ start) :
    ((others.filter Part.live).filter fun other => other.start ≠ start) =
      others.filter Part.live :=
  List.filter_eq_self.mpr fun other member => by
    simpa using absent other (List.mem_filter.mp member).1

theorem absent_flatMap (laid : h.Laid) (place : h.Place left region right below part above)
    {regions : List Region} (others : ∀ other ∈ regions, other ∈ left ++ right) :
    ∀ next ∈ regions.flatMap Region.parts, next.start ≠ part.start := by
  intro next member
  obtain ⟨other, inRegions, inside⟩ := List.mem_flatMap.mp member
  exact place.start_ne_region laid (others other inRegions) inside

theorem Place.absent_left (laid : h.Laid) (place : h.Place left region right below part above) :
    ∀ next ∈ left.flatMap Region.parts, next.start ≠ part.start :=
  absent_flatMap laid place fun _ member => List.mem_append_left _ member

theorem Place.absent_right (laid : h.Laid) (place : h.Place left region right below part above) :
    ∀ next ∈ right.flatMap Region.parts, next.start ≠ part.start :=
  absent_flatMap laid place fun _ member => List.mem_append_right _ member

theorem liveParts_release (wellFormed : h.WellFormed max)
    (place : h.Place left region right below part above) :
    (h.release part.start).liveParts =
      h.liveParts.filter fun other => other.start ≠ part.start := by
  have laid := wellFormed.toLaid
  have lefts := filter_others (place.absent_left laid)
  have rights := filter_others (place.absent_right laid)
  have lower := filter_others (place.start_ne_below laid)
  have upper := filter_others (place.start_ne_above laid)
  have here : (([part].filter Part.live).filter fun other => other.start ≠ part.start) = [] := by
    refine List.filter_eq_nil_iff.mpr fun other member => ?_
    obtain rfl := List.mem_singleton.mp (List.mem_filter.mp member).1
    simp
  have marked : [part.marked false].filter Part.live = [] := rfl
  have joinedFree : ∀ b c : Part, b.live = false → (b.join c).live = false := fun _ _ free => free
  unfold liveParts
  rw [parts_split (place.release_regions wellFormed), parts_split place.regions, place.parts,
    ← List.singleton_append, ← @List.singleton_append _ part]
  simp only [List.filter_append, filter_coalesce joinedFree, lefts, rights, lower, upper, here,
    marked, List.nil_append]

theorem liveParts_dismiss (laid : h.Laid) (regions : h.regions = left ++ region :: right)
    (huge : region.huge = true) : (h.dismiss region.base).liveParts =
      h.liveParts.filter fun other => other.start ≠ region.base := by
  have whole := (laid.laid region (by simp [regions])).whole huge
  have place : h.Place left region right [] ⟨region.base, region.size, true⟩ [] :=
    ⟨regions, whole⟩
  have lefts := filter_others (place.absent_left laid)
  have rights := filter_others (place.absent_right laid)
  unfold liveParts parts
  rw [dismiss_regions laid regions, regions, List.flatMap_append, List.flatMap_append,
    List.flatMap_cons, whole]
  simp only [List.filter_append, lefts, rights]
  simp

/-- `Free` of a live part takes exactly that part away. -/
theorem liveParts_free (wellFormed : h.WellFormed max) (member : part ∈ h.liveParts) :
    (h.free (part.start + sizeofDesc)).liveParts =
      h.liveParts.filter fun other => other.start ≠ part.start := by
  obtain ⟨inHeap, live⟩ := mem_liveParts.mp member
  obtain ⟨region, inRegions, inside⟩ := mem_parts.mp inHeap
  obtain ⟨left, right, below, above, place⟩ := exists_place inRegions inside
  have laid := wellFormed.toLaid
  rw [free, Nat.add_sub_cancel, place.isHuge laid]
  cases huge : region.huge with
  | false => exact liveParts_release wellFormed place
  | true =>
      have single : part.start = region.base := by
        rw [(laid.laid region inRegions).whole huge] at inside
        rw [List.mem_singleton.mp inside]
      rw [if_pos rfl, single]
      exact liveParts_dismiss laid place.regions huge

/-- `Alloc` either fails, or adds a part of the size asked for and at most a descriptor more. -/
theorem liveParts_alloc (wellFormed : h.WellFormed max) (least : sizeofDesc ≤ wanted)
    (fresh : h.Asks max wanted → reply.1 ≠ 0 → h.Fresh reply (request max wanted)) :
    ((h.alloc max wanted reply).1 = 0 ∧ (h.alloc max wanted reply).2 = h) ∨
      ∃ new : Part, (h.alloc max wanted reply).1 = new.start + sizeofDesc ∧ new.live = true ∧
        wanted ≤ new.total ∧ new.total ≤ wanted + sizeofDesc ∧
        (h.alloc max wanted reply).2.liveParts.Perm (new :: h.liveParts) := by
  unfold alloc
  split
  · split
    · exact Or.inl ⟨rfl, rfl⟩
    · exact Or.inr ⟨⟨reply.1, wanted, true⟩, rfl, rfl, Nat.le_refl _, Nat.le_add_right _ _,
        by rw [liveParts_adopt, if_pos rfl]⟩
  · rename_i small
    cases found : h.fit wanted with
    | some item =>
        obtain ⟨member, covers⟩ := Finset.mem_filter.mp (first_eq_some.mp found).1
        obtain ⟨region, inHeap, part, inside, free, rfl⟩ := mem_poolOf.mp member
        obtain ⟨left, right, below, above, place⟩ := exists_place inHeap inside
        obtain ⟨large, most⟩ := served_total covers
        exact Or.inr ⟨served part wanted, rfl, rfl, large, most,
          liveParts_carve wellFormed.toLaid place free⟩
    | none =>
        simp only
        split
        · exact Or.inl ⟨rfl, rfl⟩
        · rename_i there
          have covers : wanted ≤ max := Nat.le_of_not_lt small
          have isFresh := fresh (Or.inr (first_eq_none.mp found)) there
          rw [request, if_neg small] at isFresh
          have adopted : (h.adopt (Region.fresh reply.1 max reply.2 false)).WellFormed max :=
            isFresh.adopt_wellFormed wellFormed there (Nat.le_trans least covers) (by simp)
          have refilled : (h.refill reply max).WellFormed max := adopted.of_regions rfl
          have place : (h.refill reply max).Place [] (Region.fresh reply.1 max reply.2 false)
              h.regions [] ⟨reply.1, max, false⟩ [] := ⟨rfl, rfl⟩
          obtain ⟨large, most⟩ := @served_total ⟨reply.1, max, false⟩ _ covers
          exact Or.inr ⟨served ⟨reply.1, max, false⟩ wanted, rfl, rfl, large, most,
            liveParts_carve refilled.toLaid place rfl⟩

end Heap

end Buddy
