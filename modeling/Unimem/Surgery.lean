import Unimem.Represents

/-!
What each tag update of Alloc and Free does to a represented heap: a few
consecutive blocks give way to others over the same bytes. The blocks that go
have to be loose or in use; the free ones that come are loose afterwards.
-/

namespace Unimem

open Tiling ByteMemory Memory LinkedRing MallocState

/-- A block other than top, by its data. -/
def BlockAt (top : Nat) (blocks : List Block) (a k : Nat) (cinuse : Bool) : Prop :=
  a ≠ top ∧ ∃ c ∈ blocks, c.addr = a ∧ c.size = k ∧ c.cinuse = cinuse

namespace Layout

variable {first stop low top top' : Nat} {below mid mid' above : List Block} {n n' : Block}

/-- Where the blocks outside a replaced group lie. -/
theorem outside_group (layout : Layout first stop top (below ++ mid ++ n :: above))
    (lower : TilesBlocks first below low)
    (fresh : Replaces (TopFree stop) low top top' mid n mid' n') {c : Block}
    (member : c ∈ below ∨ c ∈ above) :
    (c.stop ≤ low ∨ (n.addr + 32 ≤ c.addr ∧ n.addr ≠ top)) ∧ (c.addr = top' ↔ c.addr = top) := by
  obtain ⟨midTiles, upper⟩ := layout.low_eq lower
  have low_le := tiles_le fresh.tiles
  have low_le_old := tiles_le midTiles
  rcases member with inBelow | inAbove
  · have fits := (tiles_bounds lower inBelow).2
    have positive := layout.nonempty c (by simp [inBelow])
    refine ⟨Or.inl fits, ?_⟩
    by_cases nTop : n.addr = top
    · have := fresh.moves nTop
      omega
    · rw [(fresh.stays nTop).2]
  · have nTop : n.addr ≠ top := by
      intro atTop
      rw [layout.above_nil atTop] at inAbove
      cases inAbove
    have fits := (tiles_bounds upper inAbove).1
    have := (layout.sized n (by simp) nTop).1
    simp only [Block.stop] at fits
    refine ⟨Or.inr ⟨by omega, nTop⟩, ?_⟩
    rw [(fresh.stays nTop).2]

theorem group_bounds (layout : Layout first stop top (below ++ mid ++ n :: above))
    (lower : TilesBlocks first below low) {c : Block} (member : c ∈ mid) :
    low ≤ c.addr ∧ c.addr < n.addr := by
  obtain ⟨midTiles, -⟩ := layout.low_eq lower
  have bounds := tiles_bounds midTiles member
  have := layout.nonempty c (by simp [member])
  omega

/-- The blocks after a replacement: the old ones outside the group, and the new. -/
theorem blockAt_replace (layout : Layout first stop top (below ++ mid ++ n :: above))
    (lower : TilesBlocks first below low)
    (fresh : Replaces (TopFree stop) low top top' mid n mid' n') (a k : Nat) (cinuse : Bool) :
    BlockAt top' (below ++ mid' ++ n' :: above) a k cinuse ↔
      (BlockAt top (below ++ mid ++ n :: above) a k cinuse ∧ ∀ b ∈ mid, b.addr ≠ a) ∨
        ∃ b ∈ mid', b.addr = a ∧ b.size = k ∧ b.cinuse = cinuse := by
  have outside := fun c => layout.outside_group (c := c) lower fresh
  have group := fun c => layout.group_bounds (c := c) lower
  have layout' := layout.replace lower fresh
  have sameNext : n.addr ≠ top → n'.addr = n.addr ∧ n'.size = n.size ∧ top' = top := by
    intro nTop
    obtain ⟨stays, sameTop⟩ := fresh.stays nTop
    have finish := fresh.stop
    simp only [Block.stop] at finish
    exact ⟨stays, by omega, sameTop⟩
  have notInGroup : ∀ c, c ∈ below ∨ c ∈ above → ∀ b ∈ mid, b.addr ≠ c.addr := by
    intro c member b inMid
    have := group b inMid
    rcases member with inBelow | inAbove
    · have := tiles_bounds lower inBelow
      have := layout.nonempty c (by simp [inBelow])
      omega
    · have := tiles_bounds (layout.low_eq lower).2 inAbove
      simp only [Block.stop] at this
      omega
  constructor
  · rintro ⟨notTop, c, member, rfl, rfl, flag⟩
    simp only [List.mem_append, List.mem_cons] at member
    -- a block outside the group is as it was
    have carry : c ∈ below ∨ c ∈ above →
        BlockAt top (below ++ mid ++ n :: above) c.addr c.size cinuse ∧ ∀ b ∈ mid, b.addr ≠ c.addr :=
      fun side => ⟨⟨fun atTop => notTop ((outside c side).2.mpr atTop), c, by
        rcases side with inBelow | inAbove
        · simp [inBelow]
        · simp [inAbove], rfl, rfl, flag⟩, notInGroup c side⟩
    rcases member with (inBelow | inMid) | rfl | inAbove
    · exact Or.inl (carry (Or.inl inBelow))
    · exact Or.inr ⟨c, inMid, rfl, rfl, flag⟩
    -- the successor moves only when it is top
    · have nTop : n.addr ≠ top := fun atTop => notTop (fresh.moves atTop)
      obtain ⟨sameAddr, sameSize, sameTop⟩ := sameNext nTop
      refine Or.inl ⟨⟨by rw [sameAddr]; exact nTop, n, by simp, sameAddr.symm, sameSize.symm,
        fresh.cinuse ▸ flag⟩, fun b inMid => ?_⟩
      have := group b inMid
      omega
    · exact Or.inl (carry (Or.inr inAbove))
  · rintro (⟨⟨notTop, c, member, rfl, rfl, flag⟩, notMid⟩ | ⟨b, inMid, rfl, rfl, flag⟩)
    · simp only [List.mem_append, List.mem_cons] at member
      rcases member with (inBelow | inMid) | rfl | inAbove
      · exact ⟨fun atTop => notTop ((outside c (Or.inl inBelow)).2.mp atTop), c, by simp [inBelow],
          rfl, rfl, flag⟩
      · exact absurd rfl (notMid c inMid)
      · obtain ⟨sameAddr, sameSize, sameTop⟩ := sameNext notTop
        exact ⟨by rw [sameTop]; exact notTop, n', by simp, sameAddr, sameSize, fresh.cinuse.trans flag⟩
      · exact ⟨fun atTop => notTop ((outside c (Or.inr inAbove)).2.mp atTop), c, by simp [inAbove],
          rfl, rfl, flag⟩
    · refine ⟨fun atTop => ?_, b, by simp [inMid], rfl, rfl, flag⟩
      have inside := tiles_bounds fresh.tiles inMid
      have positive := (fresh.sized b inMid).1
      by_cases nTop : n.addr = top
      · have := fresh.moves nTop
        omega
      · obtain ⟨sameAddr, -, sameTop⟩ := sameNext nTop
        have := layout.stop_le_top (b := n) (by simp) nTop
        simp only [Block.stop] at this
        omega

/-- The surviving blocks' bytes behind their heads lie outside the rewritten tags. -/
theorem survivor_bytes (layout : Layout first stop top (below ++ mid ++ n :: above))
    (lower : TilesBlocks first below low)
    (fresh : Replaces (TopFree stop) low top top' mid n mid' n') {a k : Nat} {cinuse : Bool}
    (block : BlockAt top (below ++ mid ++ n :: above) a k cinuse) (notMid : ∀ b ∈ mid, b.addr ≠ a) :
    a + k ≤ low ∨ n'.addr ≤ a := by
  obtain ⟨notTop, c, member, rfl, rfl, -⟩ := block
  have low_le := tiles_le fresh.tiles
  simp only [List.mem_append, List.mem_cons] at member
  have side : ∀ c, c ∈ below ∨ c ∈ above → c.addr + c.size ≤ low ∨ n'.addr ≤ c.addr := by
    intro c side
    rcases (layout.outside_group lower fresh side).1 with before | ⟨after, nTop⟩
    · exact Or.inl before
    · have := (fresh.stays nTop).1
      omega
  rcases member with (inBelow | inMid) | rfl | inAbove
  · exact side c (Or.inl inBelow)
  · exact absurd rfl (notMid c inMid)
  · exact Or.inr (Nat.le_of_eq (fresh.stays notTop).1)
  · exact side c (Or.inr inAbove)

end Layout

section Bins

variable {first stop low top top' : Nat} {below mid mid' above : List Block} {n n' : Block}
  {s : Store} {m' : Memory} {g' : MallocState}

/-- The rewritten tags lie in the segment, so the bin headers keep their links. -/
theorem window_in_segment (layout : Layout first stop top (below ++ mid ++ n :: above))
    (lower : TilesBlocks first below low)
    (fresh : Replaces (TopFree stop) low top top' mid n mid' n') :
    first ≤ low ∧ n'.addr < stop := by
  have first_le := tiles_le lower
  have inSegment := layout.bounds (b := n) (by simp)
  have finish := fresh.stop
  have := fresh.nonempty
  simp only [Block.stop] at *
  omega

theorem SmallBins.replace (layout : Layout first stop top (below ++ mid ++ n :: above))
    (placed : Placed first stop s.gm s.mem) (lower : TilesBlocks first below low)
    (fresh : Replaces (TopFree stop) low top top' mid n mid' n') {small : Nat → List Nat}
    {out : Nat → Option Nat}
    (bins : SmallBins top s.gm s.mem (below ++ mid ++ n :: above) small out)
    (agrees : AgreesOutside (fun x => low + 8 ≤ x ∧ x < n'.addr + 16) s.mem m')
    (outside : ∀ i, ∀ p ∈ small i, ∀ b ∈ mid, b.addr ≠ p)
    (sameThis : g'.this = s.gm.this) (sameMap : g'.smallmap = s.gm.smallmap) :
    SmallBins top' g' m' (below ++ mid' ++ n' :: above) small out := by
  have window := window_in_segment layout lower fresh
  have headers : ∀ i, g'.smallbinAt i = s.gm.smallbinAt i := fun i => by
    rw [smallbinAt_eq, smallbinAt_eq, sameThis]
  refine ⟨by rw [sameMap]; exact bins.bits, by rw [sameMap]; exact bins.marked,
    fun i p member => ?_, bins.nodup, fun i nonempty => ?_, fun i bound empty => ?_⟩
  · obtain ⟨bound, free⟩ := bins.member i p member
    exact ⟨bound, (layout.blockAt_replace lower fresh _ _ _).mpr
      (Or.inl ⟨free, outside i p member⟩)⟩
  all_goals
    have kept : ∀ i < 32, ∀ z ∈ s.gm.smallbinAt i :: small i, ∀ x, z + 16 ≤ x → x < z + 32 →
        ¬ (low + 8 ≤ x ∧ x < n'.addr + 16) := by
      intro i bound z member x lowerX upperX inside
      rcases List.mem_cons.mp member with rfl | inBin
      · have := header_geometry placed bound
        have := placed.apart
        omega
      · have free := (bins.member i z inBin).2
        have := free.geometry layout
        rcases layout.survivor_bytes lower fresh free (outside i z inBin) with before | after <;> omega
    have sameFd : ∀ i < 32, ∀ z ∈ s.gm.smallbinAt i :: small i, fdAt m' z = fdAt s.mem z :=
      fun i bound z member => agrees.load _ 8 fun x low high =>
        kept i bound z member x (by omega) (by omega)
    have sameBk : ∀ i < 32, ∀ z ∈ s.gm.smallbinAt i :: small i, bkAt m' z = bkAt s.mem z :=
      fun i bound z member => agrees.load _ 8 fun x low high =>
        kept i bound z member x (by omega) (by omega)
    rw [headers]
  · obtain ⟨p, member⟩ := List.exists_mem_of_ne_nil _ nonempty
    have bound := (bins.member i p member).1
    exact ring_congr (bins.ring i nonempty) (sameFd i bound) (sameBk i bound)
  · rw [sameFd i bound _ List.mem_cons_self, sameBk i bound _ List.mem_cons_self]
    exact bins.idle i bound empty

theorem TreeBins.replace (layout : Layout first stop top (below ++ mid ++ n :: above))
    (lower : TilesBlocks first below low)
    (fresh : Replaces (TopFree stop) low top top' mid n mid' n') {tree : Nat → TreeBin}
    (bins : TreeBins top s.gm s.mem (below ++ mid ++ n :: above) tree)
    (agrees : AgreesOutside (fun x => low + 8 ≤ x ∧ x < n'.addr + 16) s.mem m')
    (outside : ∀ i, ∀ p ∈ (tree i).nodes, ∀ b ∈ mid, b.addr ≠ p)
    (sameMap : g'.treemap = s.gm.treemap) (sameRoots : g'.treebins = s.gm.treebins) :
    TreeBins top' g' m' (below ++ mid' ++ n' :: above) tree := by
  refine ⟨by rw [sameMap]; exact bins.bits, by rw [sameMap]; exact bins.marked,
    by rw [sameRoots]; exact bins.root, fun i => ?_⟩
  have ring := (bins.bin i).agrees fun p member a k lowerA upperA => by
    obtain ⟨size, free, enough⟩ := (bins.bin i).large member
    refine agrees.load a k fun x lowX highX inside => ?_
    rcases layout.survivor_bytes lower fresh free (outside i p member) with before | after <;> omega
  refine ⟨fun p member => ?_, ring.sized, ring.nodup, ring.ring, ring.leaf, ring.parent⟩
  exact (layout.blockAt_replace lower fresh _ _ _).mpr
    (Or.inl ⟨ring.member p member, outside i p member⟩)

end Bins

/-- What a tag update leaves of MallocState. -/
structure SameIndex (g g' : MallocState) : Prop extends SameSettings g g' where
  smallmap : g'.smallmap = g.smallmap
  treemap : g'.treemap = g.treemap
  treebins : g'.treebins = g.treebins
  dv : g'.dv = g.dv
  dvsize : g'.dvsize = g.dvsize

namespace Represents

variable {first stop limit low top' : Nat} {s : Store} {h h' : Heap} {loose loose' : List Nat}
  {below mid mid' above : List Block} {n n' : Block} {m' : Memory} {g' : MallocState}

/-- dv and the filed blocks are none of the blocks that go. -/
theorem filed_outside (rep : Represents first stop limit s h loose)
    (shape : h.blocks = below ++ mid ++ n :: above)
    (looseMid : ∀ b ∈ mid, b.cinuse = false → b.addr ∈ loose) {q size : Nat}
    (free : FreeAt h.top h.blocks q size) (indexed : q = h.dv ∨ h.Binned q) :
    ∀ b ∈ mid, b.addr ≠ q := by
  rintro b inMid rfl
  obtain ⟨-, c, inBlocks, here, -, unused⟩ := free
  have same := rep.layout.addr_inj inBlocks (by rw [shape]; simp [inMid]) here
  have inLoose := looseMid b inMid (same ▸ unused)
  rcases indexed with isDv | inBin
  · exact rep.filed.dvOut.2 (isDv ▸ inLoose)
  · exact rep.filed.looseOut _ inLoose inBin

section Relay

variable (rep : Represents first stop limit s h loose)
  (shape : h.blocks = below ++ mid ++ n :: above) (lower : TilesBlocks first below low)
  (fresh : Replaces (TopFree stop) low h.top top' mid n mid' n')

include rep shape lower fresh

/-- dv and the bins file what they filed before; what is loose now lies in the group. -/
theorem relay_filed (looseMid : ∀ b ∈ mid, b.cinuse = false → b.addr ∈ loose)
    (looseAll : ∀ p ∈ loose, ∃ b ∈ mid, b.addr = p)
    (looseNew : ∀ p, p ∈ loose' ↔ ∃ b ∈ mid', b.addr = p ∧ b.cinuse = false) :
    Filed { h with blocks := below ++ mid' ++ n' :: above, top := top' } loose' := by
  have filed := rep.filed
  have small := rep.small
  have tree := rep.tree
  have layout := rep.layout
  have outside : ∀ q size, FreeAt h.top h.blocks q size → (q = h.dv ∨ h.Binned q) →
      ∀ b ∈ mid, b.addr ≠ q := fun q size free => rep.filed_outside shape looseMid free
  rw [shape] at layout small tree outside
  have positive := layout.positive
  have first_le := tiles_le lower
  have blocks := layout.blockAt_replace lower fresh
  have newInside : ∀ p ∈ loose', low ≤ p ∧ p < n'.addr := by
    intro p member
    obtain ⟨b, inMid, rfl, -⟩ := (looseNew p).mp member
    have := tiles_bounds fresh.tiles inMid
    have := (fresh.sized b inMid).1
    omega
  -- a filed block lies outside the group, a new loose one inside
  have notNew : ∀ q size, FreeAt h.top (below ++ mid ++ n :: above) q size →
      (q = h.dv ∨ h.Binned q) → q ∉ loose' := by
    intro q size free indexed member
    have := newInside q member
    have := free.geometry layout
    rcases layout.survivor_bytes lower fresh free (outside q size free indexed) with before | after
    · omega
    · omega
  have binnedFree : ∀ q, h.Binned q → ∃ size, FreeAt h.top (below ++ mid ++ n :: above) q size := by
    rintro q ⟨i, inSmall | inTree⟩
    · exact ⟨_, (small.member i q inSmall).2⟩
    · exact ⟨_, (tree.bin i).member q inTree⟩
  refine ⟨filed.dvNone, fun present => ?_, ⟨filed.dvOut.1, fun member => ?_⟩,
    fun p member inBin => ?_, fun p size free => ?_⟩
  · have free := filed.dvFree present
    rw [shape] at free
    exact (blocks _ _ _).mpr (Or.inl ⟨free, outside _ _ free (Or.inl rfl)⟩)
  · by_cases present : h.dv = 0
    · have inside : low ≤ h.dv ∧ h.dv < n'.addr := newInside _ member
      omega
    · have free := filed.dvFree present
      rw [shape] at free
      exact notNew _ _ free (Or.inl rfl) member
  · obtain ⟨size, free⟩ := binnedFree p inBin
    exact notNew p size free (Or.inr inBin) member
  · rcases (blocks _ _ _).mp free with ⟨old, notMid⟩ | ⟨b, inMid, here, -, unused⟩
    · rcases filed.cover p size (by rw [shape]; exact old) with isDv | inBin | inLoose
      · exact Or.inl isDv
      · exact Or.inr (Or.inl inBin)
      · obtain ⟨b, inMid, here⟩ := looseAll p inLoose
        exact absurd here (notMid b inMid)
    · exact Or.inr (Or.inr ((looseNew p).mpr ⟨b, inMid, here, unused⟩))

/-- The used blocks outside the group keep their bytes. -/
theorem relay_keeps (agrees : AgreesOutside (fun x => low + 8 ≤ x ∧ x < n'.addr + 16) s.mem m')
    (settings : SameSettings s.gm g') :
    Keeps (fun a => ∃ b ∈ mid, b.addr = a ∧ b.cinuse = true)
      (fun a k => ∃ b ∈ mid', b.addr = a ∧ b.size = k ∧ b.cinuse = true)
      h { h with blocks := below ++ mid' ++ n' :: above, top := top' } s
      { s with gm := g', mem := m' } := by
  have layout := rep.layout
  rw [shape] at layout
  have used : ∀ a k, h.Used a k ↔ BlockAt h.top (below ++ mid ++ n :: above) a k true := by
    intro a k
    rw [← shape]
    rfl
  have notMid : ∀ a k, h.Used a k → (¬ ∃ b ∈ mid, b.addr = a ∧ b.cinuse = true) →
      ∀ b ∈ mid, b.addr ≠ a := by
    rintro a k usedA kept b inMid rfl
    obtain ⟨-, c, inBlocks, here, -, flag⟩ := usedA
    have equal := rep.layout.addr_inj inBlocks (by rw [shape]; simp [inMid]) here
    exact kept ⟨b, inMid, rfl, equal ▸ flag⟩
  refine ⟨rfl, rfl, rfl, rfl, settings, agrees.mapped, fun a k => ?_, ?_⟩
  · refine (layout.blockAt_replace lower fresh a k true).trans (or_congr ?_ Iff.rfl)
    rw [used]
    constructor
    · rintro ⟨old, none⟩
      exact ⟨old, fun ⟨b, inMid, here, _⟩ => none b inMid here⟩
    · rintro ⟨old, kept⟩
      exact ⟨old, notMid a k ((used a k).mpr old) kept⟩
  · intro a k usedA kept x lowerX upperX
    have block := (used a k).mp usedA
    refine agrees.byte x fun inside => ?_
    rcases layout.survivor_bytes lower fresh block (notMid a k usedA kept) with before | after
    · omega
    · omega

end Relay

theorem relay (rep : Represents first stop limit s h loose) (g' : MallocState) (m' : Memory)
    (h' : Heap) (loose' : List Nat)
    (shape : h.blocks = below ++ mid ++ n :: above) (lower : TilesBlocks first below low)
    (fresh : Replaces (TopFree stop) low h.top top' mid n mid' n')
    (agrees : AgreesOutside (fun x => low + 8 ≤ x ∧ x < n'.addr + 16) s.mem m')
    (heads : ∀ b ∈ mid' ++ [n'], HeadWord top' b (m'.load (b.addr + 8) 8))
    (feet : ∀ b c, Adjacent (mid' ++ [n']) b c → b.cinuse = false → m'.load c.addr 8 = b.size)
    (looseMid : ∀ b ∈ mid, b.cinuse = false → b.addr ∈ loose)
    (looseAll : ∀ p ∈ loose, ∃ b ∈ mid, b.addr = p)
    (looseNew : ∀ p, p ∈ loose' ↔ ∃ b ∈ mid', b.addr = p ∧ b.cinuse = false)
    (index : SameIndex s.gm g') (top : g'.top = top') (topsize : top' + g'.topsize = stop)
    (same : h' = { h with blocks := below ++ mid' ++ n' :: above, top := top' }) :
    Represents first stop limit { s with gm := g', mem := m' } h' loose' ∧
      Keeps (fun a => ∃ b ∈ mid, b.addr = a ∧ b.cinuse = true)
        (fun a k => ∃ b ∈ mid', b.addr = a ∧ b.size = k ∧ b.cinuse = true)
        h h' s { s with gm := g', mem := m' } := by
  subst same
  refine ⟨?_, rep.relay_keeps shape lower fresh agrees index.toSameSettings⟩
  have placed := rep.placed
  have tags := rep.tags
  have small := rep.small
  have tree := rep.tree
  have outside : ∀ q size, FreeAt h.top h.blocks q size → (q = h.dv ∨ h.Binned q) →
      ∀ b ∈ mid, b.addr ≠ q := fun q size free => rep.filed_outside shape looseMid free
  rw [shape] at tags small tree outside
  have layout := tags.layout
  exact
    { tags := tags.replace lower fresh agrees heads feet
      placed := ⟨by rw [index.this]; exact placed.aligned, by rw [index.this]; exact placed.bound,
        by rw [index.this]; exact (placed.agrees agrees).mapped,
        by rw [index.this]; exact placed.apart, by rw [index.leastAddr]; exact placed.leastPos,
        by rw [index.leastAddr]; exact placed.leastLe⟩
      small := small.replace layout placed lower fresh agrees
        (fun i p member => outside p _ (small.member i p member).2
          (Or.inr ⟨i, Or.inl member⟩)) index.this index.smallmap
      tree := tree.replace layout lower fresh agrees
        (fun i p member => outside p _ ((tree.bin i).member p member)
          (Or.inr ⟨i, Or.inr member⟩)) index.treemap index.treebins
      top := top
      topsize := topsize
      dv := index.dv.trans rep.dv
      dvsize := index.dvsize.trans rep.dvsize
      filed := rep.relay_filed shape lower fresh looseMid looseAll looseNew }

end Represents

end Unimem
