import Unimem.Regions

/-!
Well-formed heaps. The parts of a region tile it, regions do not overlap, and
no two neighbours are free. Every change of the heap replaces some neighbouring
parts of one region by others that tile the same addresses.
-/

namespace Buddy

open Tiling Coalescing OrderedSets WordArith

structure Region.Laid (region : Region) : Prop where
  tiles : Tiles Part.start Part.total region.base region.parts region.stop
  room : ∀ part ∈ region.parts, sizeofDesc ≤ part.total
  wide : sizeofDesc ≤ region.size
  base_pos : 0 < region.base
  fits : region.stop < 2 ^ 64
  indexFits : region.index < 2 ^ 64
  whole : region.huge = true → region.parts = [⟨region.base, region.size, true⟩]

structure Heap.Laid (h : Heap) : Prop where
  laid : ∀ region ∈ h.regions, region.Laid
  apart : h.regions.Pairwise Region.Separate

structure Heap.WellFormed (max : Nat) (h : Heap) : Prop extends h.Laid where
  sparse : ∀ region ∈ h.regions, Sparse Part.live region.parts
  sized : ∀ region ∈ h.regions, if region.huge then max < region.size else region.size = max

theorem Part.Separate.symm {part other : Part} (separate : part.Separate other) :
    other.Separate part := Or.symm separate

theorem Region.Separate.symm {region other : Region} (separate : region.Separate other) :
    other.Separate region := Or.symm separate

instance : Std.Symm Region.Separate := ⟨fun _ _ => Region.Separate.symm⟩

namespace Region.Laid

variable {region other : Region} {part next : Part} {below above middle : List Part}

theorem bounds (laid : region.Laid) (member : part ∈ region.parts) :
    region.base ≤ part.start ∧ part.stop ≤ region.stop :=
  tiles_bounds laid.tiles member

theorem separate (laid : region.Laid) (shape : region.parts = below ++ part :: above) :
    (∀ other ∈ below, other.stop ≤ part.start) ∧ ∀ other ∈ above, part.stop ≤ other.start := by
  have tiles := laid.tiles
  rw [shape] at tiles
  obtain ⟨lower, upper⟩ := tiles_split tiles
  exact ⟨fun other member => (tiles_bounds lower member).2,
    fun other member => (tiles_bounds upper member).1⟩

theorem start_ne (laid : region.Laid) (shape : region.parts = below ++ part :: above) :
    (∀ other ∈ below, other.start ≠ part.start) ∧ ∀ other ∈ above, other.start ≠ part.start := by
  obtain ⟨lower, upper⟩ := laid.separate shape
  have wide := laid.room part (by simp [shape])
  unfold Part.stop at lower upper
  unfold sizeofDesc at wide
  refine ⟨fun other member => ?_, fun other member => ?_⟩
  · have before := lower other member
    have wide' := laid.room other (by simp [shape, member])
    unfold sizeofDesc at wide'
    omega
  · have behind := upper other member
    omega

theorem within_start (laid : region.Laid) (member : part ∈ region.parts) :
    region.Within part.start := by
  have bounds := laid.bounds member
  have wide := laid.room part member
  unfold Part.stop at bounds
  unfold sizeofDesc at wide
  exact ⟨bounds.1, by omega⟩

/-- Neighbouring parts replaced by parts that tile the same addresses. -/
theorem replace (middle' : List Part) (laid : region.Laid)
    (shape : region.parts = below ++ middle ++ above) (ordinary : region.huge = false)
    (tiled : ∀ low high, Tiles Part.start Part.total low middle high →
      Tiles Part.start Part.total low middle' high)
    (room : ∀ part ∈ middle', sizeofDesc ≤ part.total) :
    Region.Laid { region with parts := below ++ middle' ++ above } := by
  obtain ⟨tiles, roomy, wide, base_pos, fits, indexFits, -⟩ := laid
  refine ⟨?_, ?_, wide, base_pos, fits, indexFits, fun huge => ?_⟩
  · rw [shape] at tiles
    obtain ⟨low, lower, upper⟩ := tiles_append.mp tiles
    obtain ⟨high, lowest, inner⟩ := tiles_append.mp lower
    exact tiles_append.mpr ⟨low, tiles_append.mpr ⟨high, lowest, tiled _ _ inner⟩, upper⟩
  · intro part member
    simp only [List.mem_append] at member
    rcases member with (inBelow | inMiddle) | inAbove
    · exact roomy part (by simp [shape, inBelow])
    · exact room part inMiddle
    · exact roomy part (by simp [shape, inAbove])
  · rw [ordinary] at huge
    cases huge

theorem fresh {base size index : Nat} {huge : Bool} (base_pos : 0 < base)
    (fits : base + size < 2 ^ 64) (indexFits : index < 2 ^ 64) (wide : sizeofDesc ≤ size) :
    (Region.fresh base size index huge).Laid where
  tiles := ⟨rfl, rfl⟩
  room := by simpa [Region.fresh] using wide
  wide := wide
  base_pos := base_pos
  fits := fits
  indexFits := indexFits
  whole := fun isHuge => by
    change huge = true at isHuge
    rw [isHuge]
    rfl

/-- Parts of regions that do not overlap do not overlap. -/
theorem parts_separate (laid : region.Laid) (laid' : other.Laid)
    (apart : region.Separate other) (member : part ∈ region.parts) (member' : next ∈ other.parts) :
    part.Separate next := by
  have inside := laid.bounds member
  have inside' := laid'.bounds member'
  rcases apart with before | behind
  · exact Or.inl (by omega)
  · exact Or.inr (by omega)

end Region.Laid

section Cutting

variable {part : Part} {wanted low high : Nat}

theorem Part.tiles_halves {live : Bool} (covers : wanted ≤ part.total)
    (tiles : Tiles Part.start Part.total low [part] high) :
    Tiles Part.start Part.total low [⟨part.start, wanted, live⟩,
      ⟨part.start + wanted, part.total - wanted, false⟩] high := by
  obtain ⟨here, ends⟩ := tiles
  have finish : low + part.total = high := ends
  refine ⟨here, ?_, ?_⟩
  · change part.start + wanted = low + wanted
    omega
  · change low + wanted + (part.total - wanted) = high
    omega

theorem Part.tiles_cut (covers : wanted ≤ part.total)
    (tiles : Tiles Part.start Part.total low [part] high) :
    Tiles Part.start Part.total low (part.cut wanted) high := by
  unfold cut
  split
  · exact tiles
  · exact tiles_halves covers tiles

theorem Part.cut_room (covers : wanted ≤ part.total) (least : sizeofDesc ≤ wanted) :
    ∀ piece ∈ part.cut wanted, sizeofDesc ≤ piece.total := by
  intro piece member
  unfold cut at member
  split at member
  · obtain rfl := List.mem_singleton.mp member
    exact Nat.le_trans least covers
  · rcases List.mem_pair.mp member with rfl | rfl
    · exact least
    · exact Nat.le_of_lt (Nat.lt_of_not_le ‹_›)

end Cutting

section Entries

variable {index : Nat} {parts below above : List Part} {part : Part} {left right : List Region}
  {region : Region} {item : IndexSizeAddress} {rest : Finset IndexSizeAddress}

theorem mem_freeEntries : item ∈ freeEntries index parts ↔
    ∃ part ∈ parts, part.live = false ∧ part.entry index = item := by
  simp [freeEntries, and_assoc]

theorem mem_poolOf {regions : List Region} : item ∈ poolOf regions ↔
    ∃ region ∈ regions, ∃ part ∈ region.parts, part.live = false ∧
      part.entry region.index = item := by
  simp [poolOf, Region.entries, mem_freeEntries]

theorem poolOf_place : poolOf (left ++ region :: right) =
    poolOf (left ++ right) ∪ (freeEntries region.index region.parts).toFinset := by
  ext item
  simp only [poolOf, List.flatMap_append, List.flatMap_cons, List.toFinset_append,
    Finset.mem_union, List.mem_toFinset, Region.entries]
  tauto

theorem freeEntries_append : freeEntries index (below ++ above) =
    freeEntries index below ++ freeEntries index above := by
  simp [freeEntries]

theorem freeEntries_live (live : part.live = true) :
    freeEntries index (below ++ part :: above) = freeEntries index (below ++ above) := by
  simp [freeEntries, live]

/-- A free part is taken out of the pool. -/
theorem erase_entry (free : part.live = false) (absent : part.entry index ∉ rest)
    (belowAbsent : ∀ other ∈ below, other.start ≠ part.start)
    (aboveAbsent : ∀ other ∈ above, other.start ≠ part.start) :
    (rest ∪ (freeEntries index (below ++ part :: above)).toFinset).erase (part.entry index) =
      rest ∪ (freeEntries index (below ++ above)).toFinset := by
  have elsewhere : ∀ other ∈ below ++ above, other.entry index ≠ part.entry index := by
    intro other member same
    have start : other.start = part.start := congrArg IndexSizeAddress.address same
    rcases List.mem_append.mp member with inBelow | inAbove
    · exact belowAbsent other inBelow start
    · exact aboveAbsent other inAbove start
  ext item
  simp only [Finset.mem_erase, Finset.mem_union, List.mem_toFinset, mem_freeEntries,
    List.mem_append, List.mem_cons]
  constructor
  · rintro ⟨other, inRest | ⟨next, (inBelow | rfl | inAbove), isFree, rfl⟩⟩
    · exact Or.inl inRest
    · exact Or.inr ⟨next, Or.inl inBelow, isFree, rfl⟩
    · exact absurd rfl other
    · exact Or.inr ⟨next, Or.inr inAbove, isFree, rfl⟩
  · rintro (inRest | ⟨next, member, isFree, rfl⟩)
    · exact ⟨fun same => absent (same ▸ inRest), Or.inl inRest⟩
    · exact ⟨elsewhere next (List.mem_append.mpr member), Or.inr ⟨next, by tauto, isFree, rfl⟩⟩

theorem insert_entry (free : part.live = false) :
    insert (part.entry index) (rest ∪ (freeEntries index (below ++ above)).toFinset) =
      rest ∪ (freeEntries index (below ++ part :: above)).toFinset := by
  ext item
  simp only [Finset.mem_insert, Finset.mem_union, List.mem_toFinset, mem_freeEntries,
    List.mem_append, List.mem_cons]
  constructor
  · rintro (rfl | inRest | ⟨next, member, isFree, rfl⟩)
    · exact Or.inr ⟨part, by simp, free, rfl⟩
    · exact Or.inl inRest
    · exact Or.inr ⟨next, by tauto, isFree, rfl⟩
  · rintro (inRest | ⟨next, (inBelow | rfl | inAbove), isFree, rfl⟩)
    · exact Or.inr (Or.inl inRest)
    · exact Or.inr (Or.inr ⟨next, Or.inl inBelow, isFree, rfl⟩)
    · exact Or.inl rfl
    · exact Or.inr (Or.inr ⟨next, Or.inr inAbove, isFree, rfl⟩)

end Entries

/-- Where a part lies in a heap: the regions before and behind, the parts below and above. -/
structure Heap.Place (h : Heap) (left : List Region) (region : Region) (right : List Region)
    (below : List Part) (part : Part) (above : List Part) : Prop where
  regions : h.regions = left ++ region :: right
  parts : region.parts = below ++ part :: above

namespace Heap

variable {h : Heap} {left right : List Region} {region other : Region} {below above : List Part}
  {part : Part} {wanted max : Nat}

theorem mem_parts : part ∈ h.parts ↔ ∃ region ∈ h.regions, part ∈ region.parts :=
  List.mem_flatMap

theorem exists_place (member : region ∈ h.regions) (inside : part ∈ region.parts) :
    ∃ left right below above, h.Place left region right below part above := by
  obtain ⟨left, right, regions⟩ := List.append_of_mem member
  obtain ⟨below, above, parts⟩ := List.append_of_mem inside
  exact ⟨left, right, below, above, regions, parts⟩

theorem Laid.region_apart (laid : h.Laid) (regions : h.regions = left ++ region :: right)
    (member : other ∈ left ++ right) : other.Separate region := by
  have apart := laid.apart
  rw [regions, List.pairwise_append, List.pairwise_cons] at apart
  obtain ⟨-, ⟨behind, -⟩, before⟩ := apart
  rcases List.mem_append.mp member with inLeft | inRight
  · exact before other inLeft region List.mem_cons_self
  · exact (behind other inRight).symm

theorem mem_of_split (regions : h.regions = left ++ region :: right)
    (member : other ∈ left ++ right) : other ∈ h.regions := by
  rw [regions]
  rcases List.mem_append.mp member with inLeft | inRight
  · exact List.mem_append_left _ inLeft
  · exact List.mem_append_right _ (List.mem_cons_of_mem _ inRight)

namespace Place

variable (place : h.Place left region right below part above)
include place

theorem mem_region : region ∈ h.regions := by simp [place.regions]

theorem mem_part : part ∈ region.parts := by simp [place.parts]

theorem region_apart (laid : h.Laid) {other : Region} (member : other ∈ left ++ right) :
    other.Separate region := laid.region_apart place.regions member

theorem mem_other {other : Region} (member : other ∈ left ++ right) : other ∈ h.regions :=
  mem_of_split place.regions member

/-- The starts of all other parts are elsewhere. -/
theorem start_ne_region (laid : h.Laid) {other : Region} (member : other ∈ left ++ right)
    {next : Part} (inside : next ∈ other.parts) : next.start ≠ part.start := by
  have otherLaid := laid.laid other (place.mem_other member)
  have hereLaid := laid.laid region place.mem_region
  have wide := otherLaid.room next inside
  have wide' := hereLaid.room part place.mem_part
  have separate := otherLaid.parts_separate hereLaid (place.region_apart laid member) inside
    place.mem_part
  unfold Part.Separate Part.stop at separate
  unfold sizeofDesc at wide wide'
  omega

theorem start_ne_below (laid : h.Laid) : ∀ next ∈ below, next.start ≠ part.start :=
  ((laid.laid region place.mem_region).start_ne place.parts).1

theorem start_ne_above (laid : h.Laid) : ∀ next ∈ above, next.start ≠ part.start :=
  ((laid.laid region place.mem_region).start_ne place.parts).2

end Place

/-- One region exchanged for another at the same addresses. -/
theorem Laid.exchange (laid : h.Laid) (regions : h.regions = left ++ region :: right)
    {region' : Region} (laid' : region'.Laid) (base : region'.base = region.base)
    (size : region'.size = region.size) {h' : Heap}
    (regions' : h'.regions = left ++ region' :: right) : h'.Laid := by
  have stop : region'.stop = region.stop := by rw [Region.stop, base, size, Region.stop]
  have apart := laid.apart
  rw [regions, List.pairwise_append, List.pairwise_cons] at apart
  obtain ⟨lefts, ⟨behind, rights⟩, before⟩ := apart
  refine ⟨fun other member => ?_, ?_⟩
  · rw [regions', List.mem_append, List.mem_cons] at member
    rcases member with inLeft | rfl | inRight
    · exact laid.laid other (by simp [regions, inLeft])
    · exact laid'
    · exact laid.laid other (by simp [regions, inRight])
  · rw [regions', List.pairwise_append, List.pairwise_cons]
    refine ⟨lefts, ⟨fun other member => ?_, rights⟩, fun other member next inside => ?_⟩
    · have separate := behind other member
      unfold Region.Separate at separate ⊢
      rwa [stop, base]
    · rcases List.mem_cons.mp inside with rfl | later
      · have separate := before other member region List.mem_cons_self
        unfold Region.Separate at separate ⊢
        rwa [stop, base]
      · exact before other member next (List.mem_cons_of_mem _ later)

theorem WellFormed.of_regions {h' : Heap} (wellFormed : h.WellFormed max)
    (same : h'.regions = h.regions) : h'.WellFormed max := by
  obtain ⟨⟨laid, apart⟩, sparse, sized⟩ := wellFormed
  rw [← same] at laid apart sparse sized
  exact ⟨⟨laid, apart⟩, sparse, sized⟩

theorem WellFormed.exchange (wellFormed : h.WellFormed max)
    (regions : h.regions = left ++ region :: right) {region' : Region} (laid' : region'.Laid)
    (base : region'.base = region.base) (size : region'.size = region.size)
    (huge : region'.huge = region.huge) (sparse : Sparse Part.live region'.parts) {h' : Heap}
    (regions' : h'.regions = left ++ region' :: right) : h'.WellFormed max := by
  have mem_regions : ∀ {other}, other ∈ h'.regions → other ∈ h.regions ∨ other = region' := by
    intro other member
    rw [regions', List.mem_append, List.mem_cons] at member
    rw [regions, List.mem_append, List.mem_cons]
    tauto
  refine ⟨wellFormed.toLaid.exchange regions laid' base size regions', ?_, ?_⟩
  · intro other member
    rcases mem_regions member with old | rfl
    · exact wellFormed.sparse other old
    · exact sparse
  · intro other member
    rcases mem_regions member with old | rfl
    · exact wellFormed.sized other old
    · rw [size, huge]
      exact wellFormed.sized region (by simp [regions])

end Heap

section Absent

variable {start wanted : Nat} {parts below above : List Part} {part : Part}

theorem carveParts_absent (absent : ∀ part ∈ parts, part.start ≠ start) :
    carveParts start wanted parts = parts := by
  induction parts with
  | nil => rfl
  | cons first rest ih =>
      have here := absent first List.mem_cons_self
      have later := ih fun part inRest => absent part (List.mem_cons_of_mem _ inRest)
      unfold carveParts at later ⊢
      rw [List.flatMap_cons, if_neg here, later]
      rfl

theorem carveParts_append : carveParts start wanted (below ++ above) =
    carveParts start wanted below ++ carveParts start wanted above := List.flatMap_append

theorem carveParts_split (belowAbsent : ∀ other ∈ below, other.start ≠ part.start)
    (aboveAbsent : ∀ other ∈ above, other.start ≠ part.start) :
    carveParts part.start wanted (below ++ part :: above) = below ++ part.cut wanted ++ above := by
  have here : carveParts part.start wanted (part :: above) = part.cut wanted ++ above := by
    have rest := @carveParts_absent _ wanted _ aboveAbsent
    unfold carveParts at rest ⊢
    rw [List.flatMap_cons, if_pos rfl, rest]
  rw [carveParts_append, carveParts_absent belowAbsent, here, List.append_assoc]

theorem mark_absent (absent : ∀ part ∈ parts, part.start ≠ start) :
    (parts.map fun part => if part.start = start then part.marked false else part) = parts := by
  rw [List.map_congr_left (fun part member => if_neg (absent part member)), List.map_id']

theorem releaseParts_absent (sparse : Sparse Part.live parts)
    (absent : ∀ part ∈ parts, part.start ≠ start) : releaseParts start parts = parts := by
  rw [releaseParts, mark_absent absent, coalesce_of_sparse sparse]

theorem releaseParts_split (belowAbsent : ∀ other ∈ below, other.start ≠ part.start)
    (aboveAbsent : ∀ other ∈ above, other.start ≠ part.start) :
    releaseParts part.start (below ++ part :: above) =
      coalesce Part.live Part.join (below ++ part.marked false :: above) := by
  rw [releaseParts, List.map_append, List.map_cons, mark_absent belowAbsent,
    mark_absent aboveAbsent, if_pos rfl]

end Absent

namespace Heap.Place

variable {h : Heap} {left right : List Region} {region : Region} {below above : List Part}
  {part : Part} {wanted max : Nat} (place : h.Place left region right below part above)
include place

theorem onParts {change : List Part → List Part}
    (others : ∀ other ∈ left ++ right, change other.parts = other.parts) :
    h.onParts change = left ++ { region with parts := change region.parts } :: right := by
  have same : ∀ other ∈ left ++ right, { other with parts := change other.parts } = other :=
    fun other member => by rw [others other member]
  have lefts := List.map_congr_left fun other inLeft => same other (List.mem_append_left _ inLeft)
  have rights := List.map_congr_left fun other inRight =>
    same other (List.mem_append_right _ inRight)
  rw [Heap.onParts, place.regions, List.map_append, List.map_cons, lefts, rights, List.map_id',
    List.map_id']

theorem carve_regions (laid : h.Laid) : (h.carve part.start wanted).regions =
    left ++ { region with parts := below ++ part.cut wanted ++ above } :: right := by
  rw [carve, place.onParts fun other member => carveParts_absent fun next inside =>
    place.start_ne_region laid member inside, place.parts,
    carveParts_split (place.start_ne_below laid) (place.start_ne_above laid)]

theorem release_regions (wellFormed : h.WellFormed max) : (h.release part.start).regions =
    left ++ { region with
      parts := coalesce Part.live Part.join (below ++ part.marked false :: above) } :: right := by
  have laid := wellFormed.toLaid
  rw [release, place.onParts fun other member => releaseParts_absent
    (wellFormed.sparse other (place.mem_other member)) fun next inside =>
      place.start_ne_region laid member inside, place.parts,
    releaseParts_split (place.start_ne_below laid) (place.start_ne_above laid)]

/-- The part of the region that is asked for is free, so it belongs to no huge request. -/
theorem ordinary (laid : h.Laid) (free : part.live = false) : region.huge = false := by
  cases huge : region.huge with
  | false => rfl
  | true =>
      have shape := (laid.laid region place.mem_region).whole huge
      have member := place.mem_part
      rw [shape] at member
      rw [List.mem_singleton.mp member] at free
      cases free

/-- The neighbour above a free part is in use. -/
theorem live_above (sparse : Sparse Part.live region.parts) (free : part.live = false) :
    ∀ next, above.head? = some next → next.live = true := by
  intro next atHead
  rw [place.parts] at sparse
  have pair : Adjacent (below ++ part :: above) part next := by
    cases above with
    | nil => simp at atHead
    | cons first rest =>
        obtain rfl : first = next := by simpa using atHead
        exact adjacent_iff.mpr ⟨below, rest, rfl⟩
  simpa [free] using sparse part next pair

theorem sparse_carve (sparse : Sparse Part.live region.parts) (free : part.live = false) :
    Sparse Part.live (below ++ part.cut wanted ++ above) := by
  have headLive := place.live_above sparse free
  rw [place.parts] at sparse
  obtain ⟨lower, upper⟩ := sparse_split sparse
  unfold Part.cut
  split
  · rw [List.append_assoc]
    exact sparse_append lower (sparse_cons upper fun _ _ => Or.inl rfl) fun _ _ => Or.inr rfl
  · rw [List.append_assoc]
    refine sparse_append lower (sparse_cons (sparse_cons upper fun next atHead =>
      Or.inr (headLive next atHead)) fun _ _ => Or.inl rfl) fun _ _ => Or.inr rfl

theorem carve_wellFormed (wellFormed : h.WellFormed max) (free : part.live = false)
    (least : sizeofDesc ≤ wanted) (covers : wanted ≤ part.total) :
    (h.carve part.start wanted).WellFormed max := by
  have laid := wellFormed.toLaid
  have laid' := (laid.laid region place.mem_region).replace (part.cut wanted)
    (show region.parts = below ++ [part] ++ above by simp [place.parts])
    (place.ordinary laid free) (fun low high => Part.tiles_cut covers)
    (Part.cut_room covers least)
  exact wellFormed.exchange place.regions laid' rfl rfl rfl
    (place.sparse_carve (wellFormed.sparse region place.mem_region) free)
    (place.carve_regions laid)

/-- The pool has no entry of another region at an address of this one. -/
theorem address_ne (laid : h.Laid) {item : IndexSizeAddress}
    (member : item ∈ poolOf (left ++ right)) : ¬ region.Within item.address := by
  obtain ⟨other, inOthers, next, inside, -, rfl⟩ := mem_poolOf.mp member
  have otherLaid := laid.laid other (place.mem_other inOthers)
  have apart := place.region_apart laid inOthers
  have bounds := otherLaid.bounds inside
  have wide := otherLaid.room next inside
  unfold Region.Within
  unfold Region.Separate at apart
  unfold Part.stop at bounds
  unfold sizeofDesc at wide
  change ¬ (region.base ≤ next.start ∧ next.start < region.stop)
  omega

theorem release_laid (laid : region.Laid) (ordinary : region.huge = false) :
    Region.Laid { region with
      parts := coalesce Part.live Part.join (below ++ part.marked false :: above) } := by
  obtain ⟨tiles, room, wide, base_pos, fits, indexFits, -⟩ := laid
  rw [place.parts] at tiles room
  refine ⟨?_, ?_, wide, base_pos, fits, indexFits, fun huge => ?_⟩
  · refine tiles_coalesce (fun _ _ => rfl) (fun _ _ => rfl) ?_
    obtain ⟨middle, lower, here, upper⟩ := tiles_append.mp tiles
    exact tiles_append.mpr ⟨middle, lower, here, upper⟩
  · refine all_coalesce (fun b c wide _ => Nat.le_trans wide (Nat.le_add_right _ _)) ?_
    intro next member
    rcases List.mem_append.mp member with inBelow | inRest
    · exact room next (List.mem_append_left _ inBelow)
    · rcases List.mem_cons.mp inRest with rfl | inAbove
      · exact room part (by simp)
      · exact room next (by simp [inAbove])
  · rw [ordinary] at huge
    cases huge

theorem release_wellFormed (wellFormed : h.WellFormed max) (ordinary : region.huge = false) :
    (h.release part.start).WellFormed max :=
  wellFormed.exchange place.regions
    (place.release_laid (wellFormed.laid region place.mem_region) ordinary) rfl rfl rfl
    sparse_coalesce (place.release_regions wellFormed)

end Heap.Place

namespace Heap

variable {h : Heap} {left right : List Region} {region other : Region} {max : Nat}

/-- Any two parts are the same or do not overlap. -/
theorem Laid.parts_apart {part next : Part} (laid : h.Laid) (member : part ∈ h.parts)
    (member' : next ∈ h.parts) : part = next ∨ part.Separate next := by
  obtain ⟨region, inHeap, inside⟩ := mem_parts.mp member
  obtain ⟨other, inHeap', inside'⟩ := mem_parts.mp member'
  by_cases same : region = other
  · subst same
    obtain ⟨below, above, shape⟩ := List.append_of_mem inside'
    obtain ⟨lower, upper⟩ := (laid.laid region inHeap).separate shape
    rw [shape, List.mem_append, List.mem_cons] at inside
    rcases inside with inBelow | here | inAbove
    · exact Or.inr (Or.inl (lower part inBelow))
    · exact Or.inl here
    · exact Or.inr (Or.inr (upper part inAbove))
  · have apart := laid.apart.forall inHeap inHeap' same
    exact Or.inr ((laid.laid region inHeap).parts_separate (laid.laid other inHeap') apart inside
      inside')

theorem Laid.part_unique {part next : Part} (laid : h.Laid) (member : part ∈ h.parts)
    (member' : next ∈ h.parts) (same : part.start = next.start) : part = next := by
  refine (laid.parts_apart member member').resolve_right fun separate => ?_
  obtain ⟨region, inHeap, inside⟩ := mem_parts.mp member
  obtain ⟨other, inHeap', inside'⟩ := mem_parts.mp member'
  have wide := (laid.laid region inHeap).room part inside
  have wide' := (laid.laid other inHeap').room next inside'
  unfold Part.Separate Part.stop at separate
  unfold sizeofDesc at wide wide'
  omega

theorem Laid.totalAt {part : Part} (laid : h.Laid) (member : part ∈ h.parts) :
    h.totalAt part.start = part.total := by
  unfold Heap.totalAt
  cases found : h.parts.find? fun other => decide (other.start = part.start) with
  | none =>
      have absent := List.find?_eq_none.mp found part member
      simp at absent
  | some other =>
      have same : other.start = part.start := by simpa using List.find?_some found
      rw [laid.part_unique (List.mem_of_find?_eq_some found) member same]
      rfl

theorem Laid.base_ne (laid : h.Laid) (regions : h.regions = left ++ region :: right)
    (member : other ∈ left ++ right) : other.base ≠ region.base := by
  have apart := laid.region_apart regions member
  have wide := (laid.laid other (mem_of_split regions member)).wide
  have wide' := (laid.laid region (by simp [regions])).wide
  unfold Region.Separate Region.stop at apart
  unfold sizeofDesc at wide wide'
  omega

theorem dismiss_regions (laid : h.Laid) (regions : h.regions = left ++ region :: right) :
    (h.dismiss region.base).regions = left ++ right := by
  have kept : ∀ other ∈ left ++ right, decide (other.base ≠ region.base) = true :=
    fun other member => by simpa using laid.base_ne regions member
  rw [dismiss, regions, List.filter_append, List.filter_cons_of_neg (by simp),
    ← List.filter_append, List.filter_eq_self.mpr kept]

theorem erase_grant (laid : h.Laid) (regions : h.regions = left ++ region :: right) :
    (h.regions.map Region.grant).erase region.grant = (left ++ right).map Region.grant := by
  have absent : region.grant ∉ left.map Region.grant := by
    intro member
    obtain ⟨other, inLeft, same⟩ := List.mem_map.mp member
    exact laid.base_ne regions (List.mem_append_left _ inLeft) (congrArg Grant.address same)
  rw [regions, List.map_append, List.map_cons, List.erase_append_right _ absent,
    List.erase_cons_head, List.map_append]

theorem dismiss_wellFormed (wellFormed : h.WellFormed max)
    (regions : h.regions = left ++ region :: right) :
    (h.dismiss region.base).WellFormed max := by
  have regions' := dismiss_regions wellFormed.toLaid regions
  have mem_regions : ∀ other ∈ (h.dismiss region.base).regions, other ∈ h.regions := by
    rw [regions']
    exact fun other member => mem_of_split regions member
  have apart := wellFormed.apart
  rw [regions] at apart
  have fewer : List.Sublist (left ++ right) (left ++ region :: right) :=
    (List.sublist_cons_self region right).append_left left
  exact ⟨⟨fun other member => wellFormed.laid other (mem_regions other member), by
    rw [regions']
    exact apart.sublist fewer⟩, fun other member => wellFormed.sparse other (mem_regions other member),
    fun other member => wellFormed.sized other (mem_regions other member)⟩

theorem adopt_wellFormed (wellFormed : h.WellFormed max) (laid : region.Laid)
    (sparse : Tiling.Sparse Part.live region.parts)
    (sized : if region.huge then max < region.size else region.size = max)
    (apart : ∀ other ∈ h.regions, region.Separate other) : (h.adopt region).WellFormed max := by
  refine ⟨⟨fun other member => ?_, List.pairwise_cons.mpr ⟨apart, wellFormed.apart⟩⟩,
    fun other member => ?_, fun other member => ?_⟩
  · rcases List.mem_cons.mp member with rfl | old
    · exact laid
    · exact wellFormed.laid other old
  · rcases List.mem_cons.mp member with rfl | old
    · exact sparse
    · exact wellFormed.sparse other old
  · rcases List.mem_cons.mp member with rfl | old
    · exact sized
    · exact wellFormed.sized other old

theorem Place.isHuge {below above : List Part} {part : Part}
    (place : h.Place left region right below part above) (laid : h.Laid) :
    h.isHuge part.start = region.huge := by
  have here := laid.laid region place.mem_region
  have within := here.within_start place.mem_part
  cases huge : region.huge with
  | true =>
      have shape := here.whole huge
      have member := place.mem_part
      rw [shape] at member
      have start : region.base = part.start := by rw [List.mem_singleton.mp member]
      exact List.any_eq_true.mpr ⟨region, place.mem_region, by simp [huge, start]⟩
  | false =>
      refine Bool.eq_false_iff.mpr fun found => ?_
      obtain ⟨other, inHeap, isHuge⟩ := List.any_eq_true.mp found
      simp only [Bool.and_eq_true, beq_iff_eq] at isHuge
      by_cases same : other = region
      · rw [same, huge] at isHuge
        cases isHuge.1
      · have apart := laid.apart.forall inHeap place.mem_region same
        have wide := (laid.laid other inHeap).wide
        unfold Region.Within at within
        unfold Region.Separate at apart
        unfold Region.stop at apart within
        unfold sizeofDesc at wide
        omega

end Heap

end Buddy
