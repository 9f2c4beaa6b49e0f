import Unimem.Blocks
import Unimem.LinkedRow
import Unimem.RegionLaws

/-!
The descriptors of a region: every part has one at its start, which names the
starts of its two neighbours. Changing the type of a block, splitting it and
merging it with its right buddy each turn the descriptors of a region into
those of the changed region, and write nothing but descriptors.
-/

namespace Buddy

open Tiling WordArith LinkedRow MetadataCache

def Region.typeOf (region : Region) (part : Part) : BlockType :=
  if region.huge then .hugeChunk else if part.live then .arenaChunk else .freeChunk

def Region.desc (region : Region) (left : Nat) (part : Part) (right : Nat) : Desc :=
  Desc.new (region.typeOf part) region.index (part.total - sizeofDesc) part.total left right

/-- The bytes of the descriptors. -/
def Region.Headers (region : Region) (x : Nat) : Prop :=
  ∃ part ∈ region.parts, Window part.start x

section Windows

variable {region : Region} {below above : List Part} {part other : Part}

theorem Region.Laid.start_lt (laid : region.Laid) (member : part ∈ region.parts) :
    0 < part.start ∧ part.stop < 2 ^ 64 ∧ part.start < 2 ^ 64 ∧ part.total < 2 ^ 64 := by
  have bounds := laid.bounds member
  have wide := laid.room part member
  have base_pos := laid.base_pos
  have fits := laid.fits
  unfold Part.stop at bounds ⊢
  unfold sizeofDesc at wide
  omega

theorem Region.Laid.apart_below (laid : region.Laid)
    (shape : region.parts = below ++ part :: above) (member : other ∈ below) :
    Apart other.start part.start := by
  have lower := (laid.separate shape).1 other member
  have wide := laid.room other (by simp [shape, member])
  unfold Part.stop at lower
  exact Or.inl (by omega)

theorem Region.Laid.apart_above (laid : region.Laid)
    (shape : region.parts = below ++ part :: above) (member : other ∈ above) :
    part.stop ≤ other.start ∧ Apart part.start other.start := by
  have upper := (laid.separate shape).2 other member
  have wide := laid.room part (by simp [shape])
  refine ⟨upper, Or.inl ?_⟩
  unfold Part.stop at upper
  omega

theorem Region.Laid.fits_desc (laid : region.Laid)
    (shape : region.parts = below ++ part :: above) :
    (region.desc (lastOr Part.start 0 below) part (firstOr Part.start above 0)).Fits := by
  have start_lt : ∀ other ∈ region.parts, other.start < 2 ^ 64 := fun other member =>
    (laid.start_lt member).2.2.1
  have total := (laid.start_lt (show part ∈ region.parts by simp [shape])).2.2.2
  refine ⟨laid.indexFits, Nat.lt_of_le_of_lt (Nat.sub_le _ _) total, total, ?_, ?_⟩
  · rcases @lastOr_cases _ _ Part.start 0 below with null | ⟨other, member, same⟩
    · change lastOr Part.start 0 below < 2 ^ 64
      rw [null]
      decide
    · change lastOr Part.start 0 below < 2 ^ 64
      rw [same]
      exact start_lt other (by simp [shape, member])
  · rcases @firstOr_cases _ _ Part.start 0 above with null | ⟨other, member, same⟩
    · change firstOr Part.start above 0 < 2 ^ 64
      rw [null]
      decide
    · change firstOr Part.start above 0 < 2 ^ 64
      rw [same]
      exact start_lt other (by simp [shape, member])

theorem Region.Laid.beyond_le (laid : region.Laid)
    (shape : region.parts = below ++ part :: above) (beyond : firstOr Part.start above 0 ≠ 0) :
    part.stop ≤ firstOr Part.start above 0 := by
  cases above with
  | nil => exact absurd rfl beyond
  | cons first rest => exact (laid.apart_above shape List.mem_cons_self).1

theorem Region.Laid.beyond_apart (laid : region.Laid)
    (shape : region.parts = below ++ part :: above) (member : other ∈ above.tail) :
    part.stop ≤ other.start ∧ Apart (firstOr Part.start above 0) other.start := by
  cases above with
  | nil => cases member
  | cons first rest =>
      have shape' : region.parts = (below ++ [part]) ++ first :: rest := by simp [shape]
      exact ⟨(laid.apart_above shape (List.mem_cons_of_mem _ member)).1,
        (laid.apart_above shape' member).2⟩

theorem Region.Laid.beyond_header (shape : region.parts = below ++ part :: above) {x : Nat}
    (beyond : firstOr Part.start above 0 ≠ 0) (inside : Window (firstOr Part.start above 0) x) :
    region.Headers x := by
  cases above with
  | nil => exact absurd rfl beyond
  | cons first rest => exact ⟨first, by simp [shape], inside⟩

end Windows

section Kinds

variable {region : Region} {part : Part}

theorem typeOf_live (ordinary : region.huge = false) (inUse : part.live = true) :
    region.typeOf part = .arenaChunk := by
  simp [Region.typeOf, ordinary, inUse]

theorem typeOf_free (ordinary : region.huge = false) (free : part.live = false) :
    region.typeOf part = .freeChunk := by
  simp [Region.typeOf, ordinary, free]

theorem start_there (laid : region.Laid) (member : part ∈ region.parts) :
    (part.start != 0) = true := by
  have positive := (laid.start_lt member).1
  simp only [bne_iff_ne]
  omega

end Kinds

variable [StdHash]

abbrev Threading (c : MetadataCache) (region : Region) : Nat → List Part → Nat → Prop :=
  Row Part.start fun left part right => c.Holds part.start (region.desc left part right)

def Threaded (c : MetadataCache) (region : Region) : Prop := Threading c region 0 region.parts 0

section Transport

variable {c c' : MetadataCache} {region : Region} {parts above : List Part} {left left' right : Nat}
  {W : Nat → Prop}

theorem Threading.keep (row : Threading c region left parts right) (keeps : Keeps W c c')
    (avoid : ∀ part ∈ parts, ∀ x, Window part.start x → ¬ W x) :
    Threading c' region left parts right :=
  row.imp fun part member _ _ held => keeps.holds held (avoid part member)

/-- The descriptor that is told of another left buddy. -/
def nextDesc (region : Region) (left : Nat) (above : List Part) : Desc :=
  match above with
  | [] => Desc.new .invalidChunk 0 0 0 0 0
  | part :: rest => region.desc left part (firstOr Part.start rest 0)

theorem Threading.relink (row : Threading c region left above 0) (keeps : Keeps W c c')
    (avoid : ∀ part ∈ above.tail, ∀ x, Window part.start x → ¬ W x)
    (linked : firstOr Part.start above 0 ≠ 0 → c'.Holds (firstOr Part.start above 0)
      { nextDesc region left above with leftBuddy := left' })
    (positive : ∀ part ∈ above, part.start ≠ 0) : Threading c' region left' above 0 := by
  refine Row.relink row (fun first rest shape _ => ?_) fun part member _ _ held =>
    keeps.holds held (avoid part member)
  subst shape
  exact linked (positive first List.mem_cons_self)

end Transport

section Steps

variable {c : MetadataCache} {region : Region} {below above : List Part} {part : Part}
  {wanted : Nat}

/-- What the descriptor of a part says. -/
theorem Threaded.holds (threaded : Threaded c region)
    (shape : region.parts = below ++ part :: above) :
    c.Holds part.start
      (region.desc (lastOr Part.start 0 below) part (firstOr Part.start above 0)) := by
  unfold Threaded Threading at threaded
  rw [shape] at threaded
  exact (row_split.mp threaded).2.1

theorem Threaded.setType (threaded : Threaded c region) (laid : region.Laid)
    (shape : region.parts = below ++ part :: above) (ordinary : region.huge = false)
    (live : Bool) :
    ∃ c', MemoryBlock.setType part.start (if live then .arenaChunk else .freeChunk) c =
        .ok () c' ∧
      Threaded c' { region with parts := below ++ part.marked live :: above } ∧
      Keeps region.Headers c c' := by
  obtain ⟨c', ran, held, keeps⟩ := MemoryBlock.setType_run (threaded.holds shape)
    (laid.fits_desc shape) (if live then .arenaChunk else .freeChunk)
  refine ⟨c', ran, ?_, keeps.mono fun x inside => ⟨part, by simp [shape], inside⟩⟩
  unfold Threaded Threading at threaded ⊢
  rw [shape] at threaded
  obtain ⟨lower, -, upper⟩ := row_split.mp threaded
  refine row_split.mpr ⟨?_, ?_, ?_⟩
  · exact Threading.keep lower keeps fun other member =>
      (laid.apart_below shape member).outside
  · have retyped : region.typeOf (part.marked live) =
        if live then .arenaChunk else .freeChunk := by
      cases live <;> simp [Region.typeOf, ordinary, Part.marked]
    change c'.Holds part.start (Desc.new (region.typeOf (part.marked live)) _ _ _ _ _)
    rw [retyped]
    exact held
  · exact Threading.keep upper keeps fun other member =>
      (laid.apart_above shape member).2.symm.outside

/-- What a split or a merge needs of the block beyond. -/
theorem Threaded.beyond (threaded : Threaded c region) (laid : region.Laid)
    (shape : region.parts = below ++ part :: above) (beyond : firstOr Part.start above 0 ≠ 0) :
    c.Holds (firstOr Part.start above 0) (nextDesc region part.start above) ∧
      (nextDesc region part.start above).Fits ∧ part.stop ≤ firstOr Part.start above 0 := by
  cases above with
  | nil => exact absurd rfl beyond
  | cons first rest =>
      have shape' : region.parts = (below ++ [part]) ++ first :: rest := by simp [shape]
      have held := threaded.holds shape'
      have fits := laid.fits_desc shape'
      rw [lastOr_concat] at held fits
      exact ⟨held, fits, (laid.apart_above shape List.mem_cons_self).1⟩

theorem Threaded.split (threaded : Threaded c region) (laid : region.Laid)
    (shape : region.parts = below ++ part :: above) (least : sizeofDesc ≤ wanted)
    (room : wanted + sizeofDesc < part.total) (writable : c.Writable (part.start + wanted))
    (ordinary : region.huge = false) (free : part.live = false) :
    ∃ c', MemoryBlock.split part.start wanted c = .ok () c' ∧
      Threaded c' { region with parts := below ++ ⟨part.start, wanted, false⟩ ::
        ⟨part.start + wanted, part.total - wanted, false⟩ :: above } ∧
      Keeps (fun x => region.Headers x ∨ Window (part.start + wanted) x) c c' := by
  obtain ⟨start_pos, stop_le, -, -⟩ := laid.start_lt (show part ∈ region.parts by simp [shape])
  unfold Part.stop at stop_le
  have kind : region.typeOf part = .freeChunk := by simp [Region.typeOf, ordinary, free]
  have held := threaded.holds shape
  have fits := laid.fits_desc shape
  unfold Region.desc at held fits
  rw [kind] at held fits
  obtain ⟨c', ran, held₁, held₂, linked, keeps⟩ := MemoryBlock.split_run held fits least room
    (Nat.le_of_lt stop_le) writable (threaded.beyond laid shape)
  have lowerApart : ∀ {other}, other ∈ below → other.stop ≤ part.start ∧
      sizeofDesc ≤ other.total := fun member =>
    ⟨(laid.separate shape).1 _ member, laid.room _ (by simp [shape, member])⟩
  have upperApart : ∀ {other}, other ∈ above → part.stop ≤ other.start := fun member =>
    (laid.separate shape).2 _ member
  unfold Part.stop at lowerApart upperApart
  unfold Threaded Threading at threaded
  rw [shape] at threaded
  obtain ⟨lower, -, upper⟩ := row_split.mp threaded
  have freeKind : ∀ start total, region.typeOf ⟨start, total, false⟩ = .freeChunk :=
    fun _ _ => by simp [Region.typeOf, ordinary]
  refine ⟨c', ran, row_split.mpr ⟨?_, ?_, ?_, ?_⟩, keeps.mono ?_⟩
  · refine Threading.keep lower keeps fun other member x inside within => ?_
    have before := lowerApart member
    have farther := laid.beyond_le shape
    unfold Part.stop at farther
    unfold Window at inside within
    rcases within with atThis | atRight | ⟨beyond, atNext⟩
    · omega
    · omega
    · have := farther beyond
      omega
  · change c'.Holds part.start (Desc.new (region.typeOf ⟨_, _, false⟩) _ _ _ _ _)
    rw [freeKind]
    exact held₁
  · change c'.Holds (part.start + wanted) (Desc.new (region.typeOf ⟨_, _, false⟩) _ _ _ _ _)
    rw [freeKind]
    exact held₂
  · refine Threading.relink upper keeps (fun other member x inside within => ?_) linked
      fun other member => ?_
    · obtain ⟨behind, apart⟩ := laid.beyond_apart shape member
      unfold Part.stop at behind
      rcases within with atThis | atRight | ⟨-, atNext⟩
      · unfold Window at inside atThis
        omega
      · unfold Window at inside atRight
        omega
      · exact apart.symm.outside x inside atNext
    · have := upperApart member
      omega
  · rintro x (atThis | atRight | ⟨beyond, atNext⟩)
    · exact Or.inl ⟨part, by simp [shape], atThis⟩
    · exact Or.inr atRight
    · exact Or.inl (Region.Laid.beyond_header shape beyond atNext)

theorem Threaded.merge {next : Part} (threaded : Threaded c region) (laid : region.Laid)
    (shape : region.parts = below ++ part :: next :: above) (ordinary : region.huge = false)
    (free : part.live = false) (freeNext : next.live = false) :
    ∃ c', MemoryBlock.merge part.start next.start c = .ok () c' ∧
      Threaded c' { region with parts := below ++ part.join next :: above } ∧
      c'.Holds next.start (Desc.new .invalidChunk 0 0 0 0 0) ∧
      Keeps region.Headers c c' := by
  have shapeNext : region.parts = (below ++ [part]) ++ next :: above := by simp [shape]
  have member : part ∈ region.parts := by simp [shape]
  have memberNext : next ∈ region.parts := by simp [shape]
  have kind : ∀ other, other.live = false → region.typeOf other = .freeChunk :=
    fun other isFree => by simp [Region.typeOf, ordinary, isFree]
  have held := threaded.holds shape
  have fits := laid.fits_desc shape
  have heldNext := threaded.holds shapeNext
  have fitsNext := laid.fits_desc shapeNext
  unfold Region.desc at held fits heldNext fitsNext
  rw [kind part free, firstOr_cons] at held fits
  rw [kind next freeNext] at heldNext fitsNext
  -- the two parts together lie in the region
  have adjacent : part.start + part.total = next.start := by
    have pair : Adjacent region.parts part next := adjacent_iff.mpr ⟨below, above, shape⟩
    exact adjacent_stop laid.tiles pair
  have bounds := laid.start_lt memberNext
  have bounds' := laid.start_lt member
  unfold Part.stop at bounds
  obtain ⟨apartPart, upperApart⟩ : Apart part.start next.start ∧
      ∀ other ∈ above, next.stop ≤ other.start ∧ Apart next.start other.start :=
    ⟨(laid.apart_above shape List.mem_cons_self).2, fun other inAbove =>
      laid.apart_above shapeNext inAbove⟩
  have beyond := fun other => threaded.beyond laid shapeNext other
  have wide := laid.room part member
  have wide' := laid.room next memberNext
  obtain ⟨c', ran, joined, invalid, linked, keeps⟩ := MemoryBlock.merge_run held fits heldNext
    fitsNext.rightBuddy wide wide' (by omega) apartPart bounds'.2.2.1 fun other =>
      ⟨(beyond other).1, (beyond other).2.1, by
        have := (beyond other).2.2
        unfold Part.stop at this
        exact Or.inl (by omega), by
        have := (beyond other).2.2
        unfold Part.stop at this
        exact Or.inl (by omega)⟩
  unfold Threaded Threading at threaded
  rw [shape] at threaded
  obtain ⟨lower, -, -, upper⟩ := row_split.mp threaded
  refine ⟨c', ran, row_split.mpr ⟨?_, ?_, ?_⟩, invalid, keeps.mono ?_⟩
  · refine Threading.keep lower keeps fun other inBelow x inside within => ?_
    have before := laid.apart_below shape inBelow
    have lowerStop := (laid.separate shape).1 other inBelow
    have least := laid.room other (by simp [shape, inBelow])
    unfold Part.stop at lowerStop
    rcases within with atThis | atNext | ⟨far, atBeyond⟩
    · exact before.outside x inside atThis
    · unfold Window at inside atNext
      omega
    · have farther := (beyond far).2.2
      unfold Part.stop at farther
      unfold Window at inside atBeyond
      omega
  · change c'.Holds part.start (Desc.new (region.typeOf (part.join next)) _ _ _ _ _)
    rw [kind (part.join next) free]
    exact joined
  · refine Threading.relink upper keeps (fun other inTail x inside within => ?_) linked
      fun other inAbove => ?_
    · obtain ⟨behind, apart⟩ := laid.beyond_apart shapeNext inTail
      unfold Part.stop at behind
      rcases within with atThis | atNext | ⟨-, atBeyond⟩
      · unfold Window at inside atThis
        omega
      · unfold Window at inside atNext
        omega
      · exact apart.symm.outside x inside atBeyond
    · have := (upperApart other inAbove).1
      unfold Part.stop at this
      omega
  · rintro x (atThis | atNext | ⟨far, atBeyond⟩)
    · exact ⟨part, member, atThis⟩
    · exact ⟨next, memberNext, atNext⟩
    · exact Region.Laid.beyond_header shapeNext far atBeyond

end Steps

end Buddy
