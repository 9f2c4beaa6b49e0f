import Unimem.Heap

/-!
Well-formed block lists: they tile the segment, top is the last block, all other
sizes are multiples of 16 and at least 32, and the flags say no more than they
may. The flags are one-sided on purpose: where a segment's end makes top read as
in use, a free block can stay in front of it and PINUSE behind it can be stale.
Where top reads as free, PINUSE is exact and no two neighbours are free.
-/

namespace Unimem

open Tiling

abbrev TilesBlocks (low : Nat) (blocks : List Block) (high : Nat) : Prop :=
  Tiles Block.addr Block.size low blocks high

/-- Bit 1 of top's size, its CINUSE bit, comes from the segment's end. -/
def TopFree (stop : Nat) : Prop := stop / 2 % 2 = 0

structure Layout (first stop top : Nat) (blocks : List Block) : Prop where
  tiles : TilesBlocks first blocks stop
  last : ∃ below t, blocks = below ++ [t] ∧ t.addr = top
  aligned : first % 16 = 0
  positive : 0 < first
  bound : stop + 8 ≤ 2 ^ 64
  sized : ∀ b ∈ blocks, b.addr ≠ top → 32 ≤ b.size ∧ b.size % 16 = 0
  nonempty : ∀ b ∈ blocks, 0 < b.size
  pinuseFirst : ∀ b ∈ blocks.head?, b.pinuse = true
  pinuseUsed : ∀ b c, Adjacent blocks b c → b.cinuse = true → c.pinuse = true
  pinuseFree : ∀ b ∈ blocks, b.cinuse = false → b.pinuse = true
  topRead : ∀ t ∈ blocks, t.addr = top → t.cinuse = decide (stop / 2 % 2 = 1)
  coalesced : TopFree stop → ∀ b c, Adjacent blocks b c →
    c.pinuse = b.cinuse ∧ (b.cinuse = true ∨ c.cinuse = true)

namespace Layout

variable {first stop top : Nat} {blocks : List Block}

theorem bounds (layout : Layout first stop top blocks) {b : Block} (member : b ∈ blocks) :
    first ≤ b.addr ∧ b.stop ≤ stop := tiles_bounds layout.tiles member

/-- Two blocks are equal or one ends before the other starts. -/
theorem ordered (layout : Layout first stop top blocks) {b c : Block} (left : b ∈ blocks)
    (right : c ∈ blocks) : b = c ∨ b.stop ≤ c.addr ∨ c.stop ≤ b.addr := by
  obtain ⟨below, above, rfl⟩ := List.append_of_mem left
  obtain ⟨lower, upper⟩ := tiles_split layout.tiles
  rcases List.mem_append.mp right with inBelow | inAbove
  · exact Or.inr (Or.inr (tiles_bounds lower inBelow).2)
  · rcases List.mem_cons.mp inAbove with rfl | inAbove
    · exact Or.inl rfl
    · exact Or.inr (Or.inl (tiles_bounds upper inAbove).1)

theorem addr_inj (layout : Layout first stop top blocks) {b c : Block} (left : b ∈ blocks)
    (right : c ∈ blocks) (same : b.addr = c.addr) : b = c := by
  have := layout.nonempty b left
  have := layout.nonempty c right
  rcases layout.ordered left right with equal | before | after
  · exact equal
  · simp only [Block.stop] at before; omega
  · simp only [Block.stop] at after; omega

theorem topBlock (layout : Layout first stop top blocks) :
    ∃ t ∈ blocks, t.addr = top ∧ t.stop = stop := by
  obtain ⟨below, t, rfl, here⟩ := layout.last
  obtain ⟨middle, _, start, finish⟩ := tiles_append.mp layout.tiles
  refine ⟨t, by simp, here, ?_⟩
  simp only [Tiles] at finish
  simp only [Block.stop]
  omega

theorem stop_le_top (layout : Layout first stop top blocks) {b : Block} (member : b ∈ blocks)
    (notTop : b.addr ≠ top) : b.stop ≤ top := by
  obtain ⟨t, inBlocks, here, finish⟩ := layout.topBlock
  have upper := (layout.bounds member).2
  have := layout.nonempty t inBlocks
  rcases layout.ordered member inBlocks with rfl | before | after
  · exact absurd here notTop
  · omega
  · have := layout.nonempty b member
    simp only [Block.stop] at *
    omega

/-- A block in front of another one is not top. -/
theorem ne_top_of_le (layout : Layout first stop top blocks) {b n : Block} (member : b ∈ blocks)
    (other : n ∈ blocks) (before : b.addr + b.size ≤ n.addr) : b.addr ≠ top := by
  intro atTop
  obtain ⟨t, inTop, here, finish⟩ := layout.topBlock
  have same := layout.addr_inj member inTop (atTop.trans here.symm)
  have upper := (layout.bounds other).2
  have := layout.nonempty n other
  subst same
  simp only [Block.stop] at upper finish
  omega

/-- A block that is not top has a successor, and the list splits around the two. -/
theorem successor (layout : Layout first stop top blocks) {b : Block} (member : b ∈ blocks)
    (notTop : b.addr ≠ top) :
    ∃ below n above, blocks = below ++ b :: n :: above ∧ n.addr = b.stop := by
  obtain ⟨below, above, rfl⟩ := List.append_of_mem member
  obtain ⟨t, inBlocks, here, finish⟩ := layout.topBlock
  cases above with
  | nil =>
      obtain ⟨most, last, same, atTop⟩ := layout.last
      obtain ⟨-, single⟩ := List.append_inj' same rfl
      rw [(List.cons.inj single).1] at notTop
      exact absurd atTop notTop
  | cons n above =>
      exact ⟨below, n, above, rfl, (tiles_split layout.tiles).2.1⟩

theorem aligned_of_mem (layout : Layout first stop top blocks) {b : Block} (member : b ∈ blocks) :
    b.addr % 16 = 0 := by
  obtain ⟨below, above, rfl⟩ := List.append_of_mem member
  have lower := (tiles_split layout.tiles).1
  have notTop : ∀ c ∈ below, c.addr ≠ top := by
    intro c inBelow atTop
    obtain ⟨t, inBlocks, here, finish⟩ := layout.topBlock
    have inWhole : c ∈ below ++ b :: above := List.mem_append_left _ inBelow
    have same := layout.addr_inj inWhole inBlocks (atTop.trans here.symm)
    have := (tiles_bounds lower inBelow).2
    have := (layout.bounds member).2
    have := layout.nonempty b member
    subst same
    simp only [Block.stop] at *
    omega
  have sized : ∀ c ∈ below, c.size % 16 = 0 := fun c inBelow =>
    (layout.sized c (List.mem_append_left _ inBelow) (notTop c inBelow)).2
  have start := layout.aligned
  clear layout member notTop
  induction below generalizing first with
  | nil => simp only [Tiles] at lower; omega
  | cons c rest ih =>
      have here := sized c List.mem_cons_self
      exact ih lower.2 (fun d later => sized d (List.mem_cons_of_mem _ later)) (by omega)

theorem top_aligned (layout : Layout first stop top blocks) : top % 16 = 0 := by
  obtain ⟨t, inBlocks, here, -⟩ := layout.topBlock
  exact here ▸ layout.aligned_of_mem inBlocks

/-- Filtering by address finds the two ends of the list again. -/
theorem relay_blocks {low high : Nat} {below old above : List Block}
    (lower : TilesBlocks first below low) (middle : TilesBlocks low old high)
    (upper : TilesBlocks high above stop)
    (nonempty : ∀ b ∈ below ++ old ++ above, 0 < b.size) (fresh : List Block) (h : Heap)
    (same : h.blocks = below ++ old ++ above) :
    (h.relay low high fresh).blocks = below ++ fresh ++ above := by
  have inBelow : ∀ b ∈ below, b.addr < low ∧ ¬ high ≤ b.addr := by
    intro b member
    have := tiles_bounds lower member
    have := tiles_le middle
    have := nonempty b (by simp [member])
    omega
  have inOld : ∀ b ∈ old, ¬ b.addr < low ∧ ¬ high ≤ b.addr := by
    intro b member
    have := tiles_bounds middle member
    have := nonempty b (by simp [member])
    omega
  have inAbove : ∀ b ∈ above, ¬ b.addr < low ∧ high ≤ b.addr := by
    intro b member
    have := tiles_bounds upper member
    have := tiles_le middle
    omega
  have kept : ∀ (l : List Block) (p : Block → Bool), (∀ b ∈ l, p b = true) → l.filter p = l :=
    fun l p all => List.filter_eq_self.mpr all
  have dropped : ∀ (l : List Block) (p : Block → Bool), (∀ b ∈ l, p b = false) → l.filter p = [] :=
    fun l p none => List.filter_eq_nil_iff.mpr fun b member => by simp [none b member]
  simp only [Heap.relay, same, List.filter_append]
  rw [kept below _ (by simpa using fun b m => (inBelow b m).1),
    dropped old _ (by simpa using fun b m => Nat.le_of_not_lt (inOld b m).1),
    dropped above _ (by simpa using fun b m => Nat.le_of_not_lt (inAbove b m).1),
    dropped below _ (by simpa using fun b m => Nat.lt_of_not_le (inBelow b m).2),
    dropped old _ (by simpa using fun b m => Nat.lt_of_not_le (inOld b m).2),
    kept above _ (by simpa using fun b m => (inAbove b m).2)]
  simp

theorem blockAt_eq (layout : Layout first stop top blocks) {h : Heap} (same : h.blocks = blocks)
    {b : Block} (member : b ∈ blocks) : h.blockAt b.addr = some b := by
  subst same
  cases found : h.blockAt b.addr with
  | none =>
      have absent := List.find?_eq_none.mp found b member
      simp at absent
  | some c =>
      have at_addr := List.find?_some found
      have inBlocks := List.mem_of_find?_eq_some found
      simp only [decide_eq_true_eq] at at_addr
      rw [layout.addr_inj inBlocks member at_addr]

theorem blockEnding_eq (layout : Layout first stop top blocks) {h : Heap} (same : h.blocks = blocks)
    {b : Block} (member : b ∈ blocks) : h.blockEnding b.stop = some b := by
  subst same
  cases found : h.blockEnding b.stop with
  | none =>
      have absent := List.find?_eq_none.mp found b member
      simp at absent
  | some c =>
      have at_stop := List.find?_some found
      have inBlocks := List.mem_of_find?_eq_some found
      have := layout.nonempty b member
      have := layout.nonempty c inBlocks
      simp only [decide_eq_true_eq] at at_stop
      rcases layout.ordered inBlocks member with rfl | before | after
      · rfl
      · simp only [Block.stop] at *; omega
      · simp only [Block.stop] at *; omega

theorem topsize_eq (layout : Layout first stop top blocks) {h : Heap} (same : h.blocks = blocks)
    (atTop : h.top = top) : top + h.topsize = stop := by
  obtain ⟨t, inBlocks, here, finish⟩ := layout.topBlock
  have found := layout.blockAt_eq same inBlocks
  rw [here, ← atTop] at found
  simp only [Heap.topsize, found, Option.map_some, Option.getD_some]
  simp only [Block.stop] at finish
  omega

end Layout

/-- Blocks `mid`, and `n` behind them, give way to `mid'` and `n'` over the same
bytes. Only top may move its start. -/
structure Replaces (topFree : Prop) (low top top' : Nat) (mid : List Block) (n : Block)
    (mid' : List Block) (n' : Block) : Prop where
  tiles : TilesBlocks low mid' n'.addr
  stop : n'.stop = n.stop
  sized : ∀ b ∈ mid', 32 ≤ b.size ∧ b.size % 16 = 0
  nonempty : 0 < n'.size
  stays : n.addr ≠ top → n'.addr = n.addr ∧ top' = top
  moves : n.addr = top → n'.addr = top'
  cinuse : n'.cinuse = n.cinuse
  pinuseFirst : ∀ b ∈ (mid' ++ [n']).head?, b.pinuse = true
  pinuseUsed : ∀ b c, Adjacent (mid' ++ [n']) b c → b.cinuse = true → c.pinuse = true
  pinuseFree : ∀ b ∈ mid' ++ [n'], b.cinuse = false → b.pinuse = true
  pinuseOld : topFree → ∀ b ∈ (mid ++ [n]).head?, b.pinuse = true
  coalesced : topFree → ∀ b c, Adjacent (mid' ++ [n']) b c →
    c.pinuse = b.cinuse ∧ (b.cinuse = true ∨ c.cinuse = true)

namespace Layout

variable {first stop low top top' : Nat} {below mid mid' above : List Block} {n n' : Block}

theorem above_nil (layout : Layout first stop top (below ++ mid ++ n :: above))
    (atTop : n.addr = top) : above = [] := by
  obtain ⟨t, inBlocks, here, finish⟩ := layout.topBlock
  have same : n = t := layout.addr_inj (by simp) inBlocks (atTop.trans here.symm)
  subst same
  cases above with
  | nil => rfl
  | cons c rest =>
      have upper := (tiles_split layout.tiles).2
      have bounds := tiles_bounds upper (List.mem_cons_self (a := c) (l := rest))
      have := layout.nonempty c (by simp)
      simp only [Block.stop] at finish
      omega

theorem low_eq (layout : Layout first stop top (below ++ mid ++ n :: above))
    (lower : TilesBlocks first below low) :
    TilesBlocks low mid n.addr ∧ TilesBlocks n.stop above stop := by
  obtain ⟨front, upper⟩ := tiles_split layout.tiles
  obtain ⟨middle, belowTiles, midTiles⟩ := tiles_append.mp front
  have same : middle = low := by
    clear layout front upper midTiles
    induction below generalizing first with
    | nil => simp only [Tiles] at lower belowTiles; omega
    | cons b rest ih => exact ih lower.2 belowTiles.2
  exact ⟨same ▸ midTiles, upper⟩

theorem old_mem {b : Block} (member : b ∈ below ∨ b ∈ above) :
    b ∈ below ++ mid ++ n :: above := by
  simp only [List.mem_append, List.mem_cons]
  tauto

section Replace

variable (layout : Layout first stop top (below ++ mid ++ n :: above))
  (fresh : Replaces (TopFree stop) low top top' mid n mid' n')

include layout fresh

theorem replace_last : ∃ most t, below ++ mid' ++ n' :: above = most ++ [t] ∧ t.addr = top' := by
  obtain ⟨most, t, same, atTop⟩ := layout.last
  by_cases nTop : n.addr = top
  · have nothing := layout.above_nil nTop
    subst nothing
    exact ⟨below ++ mid', n', by simp, fresh.moves nTop⟩
  · rcases List.eq_nil_or_concat above with rfl | ⟨front, final, rfl⟩
    · rw [List.append_inj' same rfl |>.2 |> List.cons.inj |>.1] at nTop
      exact absurd atTop nTop
    · simp only [List.concat_eq_append] at same ⊢
      rw [← List.cons_append, ← List.append_assoc] at same
      have final_eq := (List.append_inj' same rfl).2
      simp only [List.cons.injEq, and_true] at final_eq
      refine ⟨below ++ mid' ++ n' :: front, final, by simp, ?_⟩
      rw [final_eq, atTop, (fresh.stays nTop).2]

theorem replace_pinuseUsed {b c : Block} (adjacent : Adjacent (below ++ mid' ++ n' :: above) b c)
    (used : b.cinuse = true) : c.pinuse = true := by
  have old : ∀ x y, Adjacent below x y ∨ (x = n ∧ above.head? = some y) ∨ Adjacent above x y →
      x.cinuse = true → y.pinuse = true := by
    intro x y pair
    refine layout.pinuseUsed x y (adjacent_group.mpr ?_)
    tauto
  rcases adjacent_group.mp adjacent with early | ⟨-, first⟩ | inside | ⟨rfl, late⟩ | late
  · exact old b c (Or.inl early) used
  · exact fresh.pinuseFirst c first
  · exact fresh.pinuseUsed b c inside used
  · exact old n c (Or.inr (Or.inl ⟨rfl, late⟩)) (fresh.cinuse ▸ used)
  · exact old b c (Or.inr (Or.inr late)) used

theorem replace_coalesced (topFree : TopFree stop) {b c : Block}
    (adjacent : Adjacent (below ++ mid' ++ n' :: above) b c) :
    c.pinuse = b.cinuse ∧ (b.cinuse = true ∨ c.cinuse = true) := by
  have old : ∀ x y, Adjacent below x y ∨
      (below.getLast? = some x ∧ (mid ++ [n]).head? = some y) ∨
      (x = n ∧ above.head? = some y) ∨ Adjacent above x y →
      y.pinuse = x.cinuse ∧ (x.cinuse = true ∨ y.cinuse = true) := by
    intro x y pair
    refine layout.coalesced topFree x y (adjacent_group.mpr ?_)
    tauto
  rcases adjacent_group.mp adjacent with early | ⟨atEnd, first⟩ | inside | ⟨rfl, late⟩ | late
  · exact old b c (Or.inl early)
  · -- the old first block behind `b` said that `b` is used
    obtain ⟨d, headOld⟩ : ∃ d, (mid ++ [n]).head? = some d := by cases mid <;> simp
    have used := (old b d (Or.inr (Or.inl ⟨atEnd, headOld⟩))).1
    rw [fresh.pinuseOld topFree d headOld] at used
    exact ⟨(fresh.pinuseFirst c first).trans used, Or.inl used.symm⟩
  · exact fresh.coalesced topFree b c inside
  · rw [fresh.cinuse]
    exact old n c (Or.inr (Or.inr (Or.inl ⟨rfl, late⟩)))
  · exact old b c (Or.inr (Or.inr (Or.inr late)))

variable (lower : TilesBlocks first below low)

include lower

/-- What is not top now was not top before. -/
theorem keeps_top {b : Block} (member : b ∈ below ∨ b ∈ above) (different : b.addr ≠ top') :
    b.addr ≠ top := by
  obtain ⟨midTiles, -⟩ := layout.low_eq lower
  by_cases atTop : n.addr = top
  · have nothing := layout.above_nil atTop
    subst nothing
    have inBelow : b ∈ below := by simpa using member
    have := (tiles_bounds lower inBelow).2
    have := tiles_le midTiles
    have := layout.nonempty b (old_mem member)
    omega
  · rw [(fresh.stays atTop).2] at different
    exact different

theorem replace_sized {b : Block} (member : b ∈ below ++ mid' ++ n' :: above)
    (different : b.addr ≠ top') : 32 ≤ b.size ∧ b.size % 16 = 0 := by
  simp only [List.mem_append, List.mem_cons] at member
  have old : b ∈ below ∨ b ∈ above → 32 ≤ b.size ∧ b.size % 16 = 0 := fun outside =>
    layout.sized b (old_mem outside) (layout.keeps_top fresh lower outside different)
  rcases member with (inBelow | inMid) | rfl | inAbove
  · exact old (Or.inl inBelow)
  · exact fresh.sized b inMid
  · by_cases nTop : n.addr = top
    · exact absurd (fresh.moves nTop) different
    · have sized := layout.sized n (by simp) nTop
      have start := (fresh.stays nTop).1
      have finish := fresh.stop
      simp only [Block.stop] at finish
      have : b.size = n.size := by omega
      omega
  · exact old (Or.inr inAbove)

theorem replace_topRead {t : Block} (member : t ∈ below ++ mid' ++ n' :: above)
    (atTop : t.addr = top') : t.cinuse = decide (stop / 2 % 2 = 1) := by
  have beforeNew : ∀ b, b ∈ below ∨ b ∈ mid' → b.addr < n'.addr := by
    rintro b (inBelow | inMid)
    · have := tiles_bounds lower inBelow
      have := tiles_le fresh.tiles
      have := layout.nonempty b (old_mem (Or.inl inBelow))
      omega
    · have := tiles_bounds fresh.tiles inMid
      have := (fresh.sized b inMid).1
      omega
  simp only [List.mem_append, List.mem_cons] at member
  by_cases nTop : n.addr = top
  · -- `n'` is the last block, and no other starts where it does
    have notBefore : ¬ (t ∈ below ∨ t ∈ mid') := by
      intro before
      have := beforeNew t before
      have := fresh.moves nTop
      omega
    have nothing := layout.above_nil nTop
    subst nothing
    have isNew : t = n' := by
      rcases member with (inBelow | inMid) | same | none
      · exact absurd (Or.inl inBelow) notBefore
      · exact absurd (Or.inr inMid) notBefore
      · exact same
      · cases none
    rw [isNew, fresh.cinuse]
    exact layout.topRead n (by simp) nTop
  · obtain ⟨stays, sameTop⟩ := fresh.stays nTop
    rw [sameTop] at atTop
    have beforeTop := layout.stop_le_top (b := n) (by simp) nTop
    have := layout.nonempty n (by simp)
    simp only [Block.stop] at beforeTop
    rcases member with (inBelow | inMid) | rfl | inAbove
    · exact layout.topRead t (old_mem (Or.inl inBelow)) atTop
    · have := beforeNew t (Or.inr inMid)
      omega
    · omega
    · exact layout.topRead t (old_mem (Or.inr inAbove)) atTop

end Replace

theorem replace (layout : Layout first stop top (below ++ mid ++ n :: above))
    (lower : TilesBlocks first below low)
    (fresh : Replaces (TopFree stop) low top top' mid n mid' n') :
    Layout first stop top' (below ++ mid' ++ n' :: above) where
  tiles := by
    obtain ⟨-, upper⟩ := layout.low_eq lower
    refine tiles_append.mpr ⟨n'.addr, tiles_append.mpr ⟨low, lower, fresh.tiles⟩, rfl, ?_⟩
    have finish := fresh.stop
    simp only [Block.stop] at finish
    rw [finish]
    exact upper
  last := layout.replace_last fresh
  aligned := layout.aligned
  positive := layout.positive
  bound := layout.bound
  sized := fun _ member different => layout.replace_sized fresh lower member different
  nonempty := by
    intro b member
    simp only [List.mem_append, List.mem_cons] at member
    rcases member with (inBelow | inMid) | rfl | inAbove
    · exact layout.nonempty b (old_mem (Or.inl inBelow))
    · have := fresh.sized b inMid
      omega
    · exact fresh.nonempty
    · exact layout.nonempty b (old_mem (Or.inr inAbove))
  pinuseFirst := by
    intro b member
    cases below with
    | nil => exact fresh.pinuseFirst b (by cases mid' <;> simpa using member)
    | cons c rest => exact layout.pinuseFirst b (by simpa using member)
  pinuseUsed := fun _ _ adjacent used => layout.replace_pinuseUsed fresh adjacent used
  pinuseFree := by
    intro b member free
    simp only [List.mem_append, List.mem_cons] at member
    rcases member with (inBelow | inMid) | rfl | inAbove
    · exact layout.pinuseFree b (old_mem (Or.inl inBelow)) free
    · exact fresh.pinuseFree b (by simp [inMid]) free
    · exact fresh.pinuseFree b (by simp) free
    · exact layout.pinuseFree b (old_mem (Or.inr inAbove)) free
  topRead := fun _ member atTop => layout.replace_topRead fresh lower member atTop
  coalesced := fun topFree _ _ adjacent => layout.replace_coalesced fresh topFree adjacent

section Group

variable (layout : Layout first stop top (below ++ mid ++ n :: above))
  (lower : TilesBlocks first below low)
  (fresh : Replaces (TopFree stop) low top top' mid n mid' n')

include layout lower fresh

theorem below_group {b : Block} (member : b ∈ below) :
    b.addr + 32 ≤ low ∧ b.addr ≠ top ∧ b.addr ≠ top' := by
  have fits := tiles_bounds lower member
  have positive := layout.nonempty b (by simp [member])
  have notNew : b.addr ≠ top' := by
    obtain ⟨midTiles, -⟩ := layout.low_eq lower
    have newTiles := tiles_le fresh.tiles
    by_cases nTop : n.addr = top
    · rw [← fresh.moves nTop]
      omega
    · rw [(fresh.stays nTop).2]
      have oldTiles := tiles_le midTiles
      obtain ⟨t, inBlocks, here, -⟩ := layout.topBlock
      have := layout.stop_le_top (b := n) (by simp) nTop
      simp only [Block.stop] at this
      omega
  have notOld := layout.keeps_top fresh lower (Or.inl member) notNew
  have := (layout.sized b (by simp [member]) notOld).1
  exact ⟨by omega, notOld, notNew⟩

theorem above_group {b : Block} (member : b ∈ above) : n'.addr + 32 ≤ b.addr ∧ n.addr ≠ top := by
  obtain ⟨-, upper⟩ := layout.low_eq lower
  have fits := tiles_bounds upper member
  have notTop : n.addr ≠ top := by
    intro atTop
    rw [layout.above_nil atTop] at member
    cases member
  have := (layout.sized n (by simp) notTop).1
  have := (fresh.stays notTop).1
  simp only [Block.stop] at fits
  exact ⟨by omega, notTop⟩

end Group

end Layout

end Unimem
