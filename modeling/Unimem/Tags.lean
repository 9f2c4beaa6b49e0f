import Unimem.Layout

/-!
Boundary tags in memory: each block's head word, and each free block's size in
its successor's prev_foot. `limit` bounds the bytes known to be accessible; it
lies far enough out that top's head stays inside whatever is split off top.
-/

namespace Unimem

open Tiling ByteMemory

structure HeadWord (top : Nat) (b : Block) (w : Nat) : Prop where
  flags : w % 4 = b.pinuse.toNat + 2 * b.cinuse.toNat
  size : b.addr ≠ top → w = b.size + (b.pinuse.toNat + 2 * b.cinuse.toNat)
  topsize : b.addr = top → w = b.size - b.size % 2 + b.pinuse.toNat

structure Tags (first stop limit top : Nat) (m : Memory) (blocks : List Block) : Prop where
  layout : Layout first stop top blocks
  reach : ∀ t ∈ blocks, t.addr = top → ∀ k, 0 < k → k % 16 = t.size % 16 → stop + 16 ≤ limit + k
  mapped : ∀ x, first ≤ x → x < limit → m.mapped x = true
  head : ∀ b ∈ blocks, HeadWord top b (m.load (b.addr + 8) 8)
  foot : ∀ b c, Adjacent blocks b c → b.cinuse = false → m.load c.addr 8 = b.size

namespace Tags

variable {first stop limit top : Nat} {m m' : Memory} {blocks : List Block}

theorem accessible (tags : Tags first stop limit top m blocks) {a n : Nat} (lower : first ≤ a)
    (upper : a + n ≤ limit) : m.accessible a n = true :=
  (m.accessible_iff a n).mpr fun x low high => tags.mapped x (by omega) (by omega)

theorem top_reach (tags : Tags first stop limit top m blocks) : top + 16 ≤ limit := by
  obtain ⟨t, inBlocks, here, finish⟩ := tags.layout.topBlock
  have := tags.reach t inBlocks here t.size (tags.layout.nonempty t inBlocks) rfl
  simp only [Block.stop] at finish
  omega

theorem block_reach (tags : Tags first stop limit top m blocks) {b : Block} (member : b ∈ blocks) :
    b.addr + 16 ≤ limit := by
  have := tags.top_reach
  by_cases atTop : b.addr = top
  · omega
  · have := tags.layout.stop_le_top member atTop
    have := (tags.layout.sized b member atTop).1
    simp only [Block.stop] at *
    omega

theorem span_reach (tags : Tags first stop limit top m blocks) {b : Block} (member : b ∈ blocks)
    (notTop : b.addr ≠ top) : b.stop + 16 ≤ limit := by
  have := tags.top_reach
  have := tags.layout.stop_le_top member notTop
  omega

section Reads

variable {s : Store} {b : Block}

theorem head_run (tags : Tags first stop limit top s.mem blocks) (member : b ∈ blocks) :
    Chunk.head b.addr s = .ok (s.mem.load (b.addr + 8) 8) s := by
  have := tags.layout.bounds member
  have := tags.block_reach member
  exact run_loadN (tags.accessible (by omega) (by omega))

theorem head_flags (tags : Tags first stop limit top m blocks) (member : b ∈ blocks) :
    m.load (b.addr + 8) 8 % 2 = b.pinuse.toNat ∧
      m.load (b.addr + 8) 8 / 2 % 2 = b.cinuse.toNat := by
  have flags := (tags.head b member).flags
  have := b.pinuse.toNat_le
  have := b.cinuse.toNat_le
  omega

theorem pinuse_run (tags : Tags first stop limit top s.mem blocks) (member : b ∈ blocks) :
    Chunk.pinuse b.addr s = .ok b.pinuse.toNat s := by
  rw [Chunk.pinuse, Fuelled.bind_run, tags.head_run member]
  simp only [pinuseBit, Nat.and_one_is_mod, (tags.head_flags member).1]
  rfl

theorem cinuse_run (tags : Tags first stop limit top s.mem blocks) (member : b ∈ blocks) :
    Chunk.cinuse b.addr s = .ok (2 * b.cinuse.toNat) s := by
  rw [Chunk.cinuse, Fuelled.bind_run, tags.head_run member]
  simp only [cinuseBit, WordArith.and_two, (tags.head_flags member).2]
  rfl

theorem size_of_head (tags : Tags first stop limit top m blocks) (member : b ∈ blocks)
    (notTop : b.addr ≠ top) : m.load (b.addr + 8) 8 &&& WordArith.not64 flagBits = b.size := by
  have word := (tags.head b member).size notTop
  have fits := m.load_lt (b.addr + 8) 8
  have := (tags.layout.sized b member notTop).2
  have := b.pinuse.toNat_le
  have := b.cinuse.toNat_le
  have mask : flagBits = 7 := rfl
  rw [mask, WordArith.and_not64_seven _ (by omega), word]
  omega

theorem chunksize_run (tags : Tags first stop limit top s.mem blocks) (member : b ∈ blocks)
    (notTop : b.addr ≠ top) : Chunk.chunksize b.addr s = .ok b.size s := by
  rw [Chunk.chunksize, Fuelled.bind_run, tags.head_run member]
  simp only [tags.size_of_head member notTop]
  rfl

end Reads

/-- A memory that kept every head, every foot and the mapping keeps the tags. -/
theorem congr (tags : Tags first stop limit top m blocks) (sameMapped : m'.mapped = m.mapped)
    (same : ∀ b ∈ blocks, m'.load b.addr 8 = m.load b.addr 8 ∧
      m'.load (b.addr + 8) 8 = m.load (b.addr + 8) 8) :
    Tags first stop limit top m' blocks := by
  refine ⟨tags.layout, tags.reach, ?_, ?_, ?_⟩
  · intro x lower upper
    rw [sameMapped]
    exact tags.mapped x lower upper
  · intro b member
    rw [(same b member).2]
    exact tags.head b member
  · intro b c adjacent free
    rw [(same c (adjacent_mem adjacent).2).1]
    exact tags.foot b c adjacent free

variable {low top' : Nat} {below mid mid' above : List Block} {n n' : Block}

section Replace

variable (tags : Tags first stop limit top m (below ++ mid ++ n :: above))
  (lower : TilesBlocks first below low)
  (fresh : Replaces (TopFree stop) low top top' mid n mid' n')

include tags lower fresh

/-- The last word of top is where it was, whether top has moved its start or not. -/
theorem replace_reach {t : Block} (inBlocks : t ∈ below ++ mid' ++ n' :: above)
    (atTop : t.addr = top') :
    ∃ s ∈ below ++ mid ++ n :: above, s.addr = top ∧ s.stop = t.stop := by
  have layout := tags.layout
  have layout' := layout.replace lower fresh
  by_cases nTop : n.addr = top
  · have same : t = n' :=
      layout'.addr_inj inBlocks (by simp) (atTop.trans (fresh.moves nTop).symm)
    exact ⟨n, by simp, nTop, by rw [same, fresh.stop]⟩
  · obtain ⟨s, inOld, here, finish⟩ := layout.topBlock
    obtain ⟨t', inBlocks', here', finish'⟩ := layout'.topBlock
    have same := layout'.addr_inj inBlocks inBlocks' (atTop.trans here'.symm)
    exact ⟨s, inOld, here, by rw [same, finish, finish']⟩

variable (agrees : Memory.AgreesOutside (fun x => low + 8 ≤ x ∧ x < n'.addr + 16) m m')

include agrees

omit tags lower fresh in
theorem replace_kept {a : Nat} (outside : a + 8 ≤ low + 8 ∨ n'.addr + 16 ≤ a) :
    m'.load a 8 = m.load a 8 :=
  agrees.load a 8 fun x _ _ inside => by omega

theorem replace_head (heads : ∀ b ∈ mid' ++ [n'], HeadWord top' b (m'.load (b.addr + 8) 8))
    {b : Block} (member : b ∈ below ++ mid' ++ n' :: above) :
    HeadWord top' b (m'.load (b.addr + 8) 8) := by
  have newTiles := tiles_le fresh.tiles
  have member' : b ∈ below ∨ b ∈ mid' ++ [n'] ∨ b ∈ above := by
    simp only [List.mem_append, List.mem_cons, List.not_mem_nil, or_false] at member ⊢
    tauto
  rcases member' with inBelow | inside | inAbove
  · obtain ⟨fits, notOld, notNew⟩ := tags.layout.below_group lower fresh inBelow
    have old := tags.head b (by simp [inBelow])
    rw [replace_kept agrees (by omega)]
    exact ⟨old.flags, fun _ => old.size notOld, fun atTop => absurd atTop notNew⟩
  · exact heads b inside
  · obtain ⟨fits, notTop⟩ := tags.layout.above_group lower fresh inAbove
    rw [replace_kept agrees (by omega), (fresh.stays notTop).2]
    exact tags.head b (by simp [inAbove])

theorem replace_foot
    (feet : ∀ b c, Adjacent (mid' ++ [n']) b c → b.cinuse = false → m'.load c.addr 8 = b.size)
    {b c : Block} (adjacent : Adjacent (below ++ mid' ++ n' :: above) b c)
    (free : b.cinuse = false) : m'.load c.addr 8 = b.size := by
  obtain ⟨midTiles, -⟩ := tags.layout.low_eq lower
  have newTiles := fresh.tiles
  have low_le : low ≤ n'.addr := tiles_le newTiles
  have old : ∀ x y, Adjacent below x y ∨ (below.getLast? = some x ∧ (mid ++ [n]).head? = some y) ∨
      (x = n ∧ above.head? = some y) ∨ Adjacent above x y →
      x.cinuse = false → m.load y.addr 8 = x.size := by
    intro x y pair
    refine tags.foot x y (adjacent_group.mpr ?_)
    tauto
  rcases adjacent_group.mp adjacent with early | ⟨lastBelow, headNew⟩ | inside | ⟨rfl, late⟩ | late
  · have := (tags.layout.below_group lower fresh (adjacent_mem early).2).1
    rw [replace_kept agrees (by omega)]
    exact old b c (Or.inl early) free
  · -- the foot at the group's start belongs to the block below it
    have startNew : c.addr = low := by
      cases mid' with
      | nil =>
          simp only [List.nil_append, List.head?_cons, Option.some.injEq, Tiles] at headNew newTiles
          rw [← headNew, newTiles]
      | cons d rest =>
          simp only [List.cons_append, List.head?_cons, Option.some.injEq] at headNew
          rw [← headNew, newTiles.1]
    have startOld : ∃ d, (mid ++ [n]).head? = some d ∧ d.addr = low := by
      cases mid with
      | nil => exact ⟨n, rfl, midTiles.symm⟩
      | cons d rest => exact ⟨d, rfl, midTiles.1⟩
    obtain ⟨d, headOld, start⟩ := startOld
    rw [replace_kept agrees (by omega), startNew, ← start]
    exact old b d (Or.inr (Or.inl ⟨lastBelow, headOld⟩)) free
  · exact feet b c inside free
  · obtain ⟨fits, notTop⟩ := tags.layout.above_group lower fresh (List.mem_of_mem_head? late)
    have sizes : b.size = n.size := by
      have := (fresh.stays notTop).1
      have := fresh.stop
      simp only [Block.stop] at this
      omega
    rw [replace_kept agrees (by omega), sizes]
    exact old n c (Or.inr (Or.inr (Or.inl ⟨rfl, late⟩))) (fresh.cinuse ▸ free)
  · have := (tags.layout.above_group lower fresh (adjacent_mem late).2).1
    rw [replace_kept agrees (by omega)]
    exact old b c (Or.inr (Or.inr (Or.inr late))) free

end Replace

/-- Rewriting the tags of a group of blocks: nothing below the group's first head
and above the head behind it may change. -/
theorem replace (tags : Tags first stop limit top m (below ++ mid ++ n :: above))
    (lower : TilesBlocks first below low)
    (fresh : Replaces (TopFree stop) low top top' mid n mid' n')
    (agrees : Memory.AgreesOutside (fun x => low + 8 ≤ x ∧ x < n'.addr + 16) m m')
    (heads : ∀ b ∈ mid' ++ [n'], HeadWord top' b (m'.load (b.addr + 8) 8))
    (feet : ∀ b c, Adjacent (mid' ++ [n']) b c → b.cinuse = false → m'.load c.addr 8 = b.size) :
    Tags first stop limit top' m' (below ++ mid' ++ n' :: above) := by
  have layout' := tags.layout.replace lower fresh
  refine ⟨layout', fun t inBlocks atTop k positive residue => ?_, fun x lower upper => ?_,
    fun _ member => tags.replace_head lower fresh agrees heads member,
    fun _ _ adjacent free => tags.replace_foot lower fresh agrees feet adjacent free⟩
  · obtain ⟨s, inOld, here, finish⟩ := tags.replace_reach lower fresh inBlocks atTop
    refine tags.reach s inOld here k positive ?_
    have := tags.layout.aligned_of_mem inOld
    have := layout'.aligned_of_mem inBlocks
    simp only [Block.stop] at finish
    omega
  · rw [agrees.mapped]
    exact tags.mapped x lower upper

end Tags

end Unimem
