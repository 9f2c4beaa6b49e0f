import Unimem.Tags
import Unimem.LinkedRing
import Unimem.Bitmaps

/-!
The nodes of the free store: bin headers inside MallocState and free blocks that
are not top. Their link words never overlap, so writing one node's links leaves
every other node's as they were.
-/

namespace Unimem

open ByteMemory Memory

/-- Where the allocator object lies relative to the segment, and what
`ok_address` compares against. -/
structure Placed (first stop : Nat) (g : MallocState) (m : Memory) : Prop where
  aligned : g.this % 8 = 0
  bound : g.this + 600 < 2 ^ 64
  mapped : ∀ x, g.this + 72 ≤ x → x < g.this + 600 → m.mapped x = true
  apart : g.this + 600 ≤ first ∨ stop + 16 ≤ g.this + 72
  leastPos : 0 < g.leastAddr
  leastLe : g.leastAddr ≤ first

/-- A free block other than top starts at `p` and has size `s`. -/
def FreeAt (top : Nat) (blocks : List Block) (p s : Nat) : Prop :=
  p ≠ top ∧ ∃ b ∈ blocks, b.addr = p ∧ b.size = s ∧ b.cinuse = false

def Node (top : Nat) (g : MallocState) (blocks : List Block) (z : Nat) : Prop :=
  (∃ i < 32, z = g.smallbinAt i) ∨ ∃ s, FreeAt top blocks z s

abbrev fdAt (m : Memory) (p : Nat) : Nat := m.load (p + 16) 8
abbrev bkAt (m : Memory) (p : Nat) : Nat := m.load (p + 24) 8

theorem fd_run {s : Store} {p : Nat} (mapped : s.mem.accessible (p + 16) 8 = true) :
    Chunk.fd p s = .ok (fdAt s.mem p) s := run_loadN mapped

theorem bk_run {s : Store} {p : Nat} (mapped : s.mem.accessible (p + 24) 8 = true) :
    Chunk.bk p s = .ok (bkAt s.mem p) s := run_loadN mapped

theorem okAddress_run {s : Store} {a : Nat} :
    MallocState.okAddress a s = .ok (decide (a ≥ s.gm.leastAddr)) s := rfl

theorem smallbinAt_eq (g : MallocState) (i : Nat) : g.smallbinAt i = g.this + 72 + 16 * i := by
  simp only [MallocState.smallbinAt, smallbinsOffset, Nat.shiftLeft_eq]
  omega

section Geometry

variable {first stop limit top : Nat} {m : Memory} {g : MallocState} {blocks : List Block}

theorem FreeAt.unique (layout : Layout first stop top blocks) {p s s' : Nat}
    (one : FreeAt top blocks p s) (two : FreeAt top blocks p s') : s = s' := by
  obtain ⟨-, b, inBlocks, here, rfl, -⟩ := one
  obtain ⟨-, c, inBlocks', there, rfl, -⟩ := two
  rw [layout.addr_inj inBlocks inBlocks' (here.trans there.symm)]

theorem FreeAt.chunksize_run {s : Store} (tags : Tags first stop limit top s.mem blocks)
    {p size : Nat} (free : FreeAt top blocks p size) : Chunk.chunksize p s = .ok size s := by
  obtain ⟨notTop, b, inBlocks, rfl, rfl, -⟩ := free
  exact tags.chunksize_run inBlocks notTop

theorem FreeAt.geometry (layout : Layout first stop top blocks) {p s : Nat}
    (free : FreeAt top blocks p s) :
    first ≤ p ∧ p + s ≤ top ∧ top ≤ stop ∧ 32 ≤ s ∧ s % 16 = 0 ∧ p % 16 = 0 ∧
      stop + 8 ≤ 2 ^ 64 := by
  obtain ⟨notTop, b, inBlocks, rfl, rfl, -⟩ := free
  obtain ⟨t, inTop, here, finish⟩ := layout.topBlock
  have fits := layout.sized b inBlocks notTop
  have lower := (layout.bounds inBlocks).1
  have upper := layout.stop_le_top inBlocks notTop
  have aligned := layout.aligned_of_mem inBlocks
  have bound := layout.bound
  simp only [Block.stop] at *
  omega

theorem FreeAt.apart (layout : Layout first stop top blocks) {p s q r : Nat}
    (one : FreeAt top blocks p s) (two : FreeAt top blocks q r) :
    p = q ∨ p + s ≤ q ∨ q + r ≤ p := by
  obtain ⟨-, b, inBlocks, rfl, rfl, -⟩ := one
  obtain ⟨-, c, inBlocks', rfl, rfl, -⟩ := two
  rcases layout.ordered inBlocks inBlocks' with rfl | before | after
  · exact Or.inl rfl
  · exact Or.inr (Or.inl before)
  · exact Or.inr (Or.inr after)

theorem header_geometry (placed : Placed first stop g m) {i : Nat} (bound : i < 32) :
    g.this + 72 ≤ g.smallbinAt i ∧ g.smallbinAt i + 32 ≤ g.this + 600 ∧
      g.smallbinAt i % 16 = (g.this + 72) % 16 ∧ 0 < g.smallbinAt i ∧
      g.smallbinAt i < 2 ^ 64 := by
  have := placed.bound
  rw [smallbinAt_eq]
  omega

theorem header_ne_free (layout : Layout first stop top blocks) (placed : Placed first stop g m)
    {i p s : Nat} (bound : i < 32) (free : FreeAt top blocks p s) :
    g.smallbinAt i + 32 ≤ p ∨ p + s + 16 ≤ g.smallbinAt i := by
  have header := header_geometry placed bound
  have block := free.geometry layout
  have := placed.apart
  omega

theorem node_apart (layout : Layout first stop top blocks) (placed : Placed first stop g m)
    {y z : Nat} (left : Node top g blocks y) (right : Node top g blocks z) :
    y = z ∨ y + 16 ≤ z ∨ z + 16 ≤ y := by
  rcases left with ⟨i, boundI, rfl⟩ | ⟨s, freeY⟩ <;> rcases right with ⟨j, boundJ, rfl⟩ | ⟨r, freeZ⟩
  · rw [smallbinAt_eq, smallbinAt_eq]; omega
  · have := header_ne_free layout placed boundI freeZ; omega
  · have := header_ne_free layout placed boundJ freeY; omega
  · have := freeY.apart layout freeZ
    have := freeY.geometry layout
    have := freeZ.geometry layout
    omega

theorem node_bound (layout : Layout first stop top blocks) (placed : Placed first stop g m)
    {z : Nat} (node : Node top g blocks z) : 0 < z ∧ z < 256 ^ 8 := by
  rcases node with ⟨i, bound, rfl⟩ | ⟨s, free⟩
  · have := header_geometry placed bound
    omega
  · have := free.geometry layout
    have := layout.positive
    omega

theorem node_accessible (tags : Tags first stop limit top m blocks) (placed : Placed first stop g m)
    {z : Nat} (node : Node top g blocks z) :
    m.accessible (z + 16) 8 = true ∧ m.accessible (z + 24) 8 = true := by
  rcases node with ⟨i, bound, rfl⟩ | ⟨s, free⟩
  · have := header_geometry placed bound
    constructor
    · exact (m.accessible_iff _ _).mpr fun x lower upper => placed.mapped x (by omega) (by omega)
    · exact (m.accessible_iff _ _).mpr fun x lower upper => placed.mapped x (by omega) (by omega)
  · have := free.geometry tags.layout
    have := tags.top_reach
    exact ⟨tags.accessible (by omega) (by omega), tags.accessible (by omega) (by omega)⟩

/-- The bytes that links of small nodes may occupy, headers included. -/
def SmallBytes (this top : Nat) (blocks : List Block) (x : Nat) : Prop :=
  (this + 72 ≤ x ∧ x < this + 600) ∨
    ∃ p s, FreeAt top blocks p s ∧ s < 256 ∧ p + 16 ≤ x ∧ x < p + s

/-- The bytes that the fields of tree chunks may occupy. -/
def LargeBytes (top : Nat) (blocks : List Block) (x : Nat) : Prop :=
  ∃ p s, FreeAt top blocks p s ∧ 256 ≤ s ∧ p + 16 ≤ x ∧ x < p + s

theorem head_not_free_byte (layout : Layout first stop top blocks) {b : Block} (member : b ∈ blocks)
    {p s x : Nat} (free : FreeAt top blocks p s) (lower : p + 16 ≤ x) (upper : x < p + s) :
    x < b.addr ∨ b.addr + 16 ≤ x := by
  obtain ⟨notTop, c, inBlocks, rfl, rfl, -⟩ := free
  rcases layout.ordered member inBlocks with rfl | before | after
  · omega
  · by_cases atTop : b.addr = top
    · have := layout.stop_le_top inBlocks notTop
      have := layout.nonempty b member
      simp only [Block.stop] at *
      omega
    · have := (layout.sized b member atTop).1
      simp only [Block.stop] at *
      omega
  · simp only [Block.stop] at after
    omega

/-- Writing links leaves all tags as they are. -/
theorem Tags.links (tags : Tags first stop limit top m blocks) (placed : Placed first stop g m)
    {m' : Memory} (agrees : AgreesOutside
      (fun x => SmallBytes g.this top blocks x ∨ LargeBytes top blocks x) m m') :
    Tags first stop limit top m' blocks := by
  have layout := tags.layout
  refine tags.congr agrees.mapped fun b member => ?_
  have outside : ∀ x, b.addr ≤ x → x < b.addr + 16 →
      ¬ (SmallBytes g.this top blocks x ∨ LargeBytes top blocks x) := by
    intro x lower upper inside
    have inSegment := layout.bounds member
    obtain ⟨t, inTop, here, finish⟩ := layout.topBlock
    have := layout.nonempty b member
    simp only [Block.stop] at inSegment finish
    rcases inside with (header | ⟨p, s, free, -, low, high⟩) | ⟨p, s, free, -, low, high⟩
    · have := placed.apart
      omega
    · have := head_not_free_byte layout member free low high
      omega
    · have := head_not_free_byte layout member free low high
      omega
  exact ⟨agrees.load _ _ fun x lower upper => outside x lower (by omega),
    agrees.load _ _ fun x lower upper => outside x (by omega) (by omega)⟩

theorem Placed.agrees {W : Nat → Prop} {m' : Memory} (placed : Placed first stop g m)
    (agrees : AgreesOutside W m m') : Placed first stop g m' := by
  refine ⟨placed.aligned, placed.bound, fun x lower upper => ?_, placed.apart, placed.leastPos,
    placed.leastLe⟩
  rw [agrees.mapped]
  exact placed.mapped x lower upper

end Geometry

/-! ## Writing links -/

section Writes

variable {m : Memory} {y z v : Nat}

theorem fdAt_store_fd (fits : v < 256 ^ 8) (apart : y = z ∨ y + 16 ≤ z ∨ z + 16 ≤ y) :
    fdAt (m.store (y + 16) 8 v) z = if z = y then v else fdAt m z := by
  by_cases same : z = y
  · subst same
    simp only [if_true, fdAt]
    exact load_store_same m _ 8 v fits
  · simp only [same, if_false, fdAt]
    exact load_store_disjoint m _ 8 v _ 8 (by omega)

theorem bkAt_store_bk (fits : v < 256 ^ 8) (apart : y = z ∨ y + 16 ≤ z ∨ z + 16 ≤ y) :
    bkAt (m.store (y + 24) 8 v) z = if z = y then v else bkAt m z := by
  by_cases same : z = y
  · subst same
    simp only [if_true, bkAt]
    exact load_store_same m _ 8 v fits
  · simp only [same, if_false, bkAt]
    exact load_store_disjoint m _ 8 v _ 8 (by omega)

theorem fdAt_store_bk (apart : y = z ∨ y + 16 ≤ z ∨ z + 16 ≤ y) :
    fdAt (m.store (y + 24) 8 v) z = fdAt m z := load_store_disjoint m _ 8 v _ 8 (by omega)

theorem bkAt_store_fd (apart : y = z ∨ y + 16 ≤ z ∨ z + 16 ≤ y) :
    bkAt (m.store (y + 16) 8 v) z = bkAt m z := load_store_disjoint m _ 8 v _ 8 (by omega)

/-- `F->bk = B; B->fd = F`. -/
def bridge (m : Memory) (F B : Nat) : Memory := (m.store (F + 24) 8 B).store (B + 16) 8 F

/-- `B->fd = P; F->bk = P; P->fd = F; P->bk = B`. -/
def thread (m : Memory) (B F P : Nat) : Memory :=
  (((m.store (B + 16) 8 P).store (F + 24) 8 P).store (P + 16) 8 F).store (P + 24) 8 B

theorem bridge_links {F B : Nat} (fitsF : F < 256 ^ 8) (fitsB : B < 256 ^ 8)
    (apartF : F = z ∨ F + 16 ≤ z ∨ z + 16 ≤ F) (apartB : B = z ∨ B + 16 ≤ z ∨ z + 16 ≤ B) :
    fdAt (bridge m F B) z = (if z = B then F else fdAt m z) ∧
      bkAt (bridge m F B) z = if z = F then B else bkAt m z := by
  unfold bridge
  rw [fdAt_store_fd fitsF apartB, fdAt_store_bk apartF, bkAt_store_fd apartB,
    bkAt_store_bk fitsB apartF]
  exact ⟨rfl, rfl⟩

theorem thread_links {B F P : Nat} (fitsB : B < 256 ^ 8) (fitsF : F < 256 ^ 8) (fitsP : P < 256 ^ 8)
    (apartB : B = z ∨ B + 16 ≤ z ∨ z + 16 ≤ B) (apartF : F = z ∨ F + 16 ≤ z ∨ z + 16 ≤ F)
    (apartP : P = z ∨ P + 16 ≤ z ∨ z + 16 ≤ P) :
    fdAt (thread m B F P) z = (if z = P then F else if z = B then P else fdAt m z) ∧
      bkAt (thread m B F P) z = if z = P then B else if z = F then P else bkAt m z := by
  unfold thread
  rw [fdAt_store_bk apartP, fdAt_store_fd fitsF apartP, fdAt_store_bk apartF,
    fdAt_store_fd fitsP apartB, bkAt_store_bk fitsB apartP, bkAt_store_fd apartP,
    bkAt_store_bk fitsP apartF, bkAt_store_fd apartB]
  exact ⟨rfl, rfl⟩

/-- The link words of a node. -/
def LinkWords (z x : Nat) : Prop := z + 16 ≤ x ∧ x < z + 32

theorem bridge_agrees (m : Memory) (F B : Nat) :
    AgreesOutside (fun x => LinkWords F x ∨ LinkWords B x) m (bridge m F B) := by
  refine AgreesOutside.store (AgreesOutside.store (AgreesOutside.refl m) _ _ _ ?_) _ _ _ ?_
  all_goals
    intro x lower upper
    simp only [LinkWords]
    omega

theorem thread_agrees (m : Memory) (B F P : Nat) :
    AgreesOutside (fun x => LinkWords B x ∨ LinkWords F x ∨ LinkWords P x) m (thread m B F P) := by
  refine AgreesOutside.store (AgreesOutside.store (AgreesOutside.store (AgreesOutside.store
    (AgreesOutside.refl m) _ _ _ ?_) _ _ _ ?_) _ _ _ ?_) _ _ _ ?_
  all_goals
    intro x lower upper
    simp only [LinkWords]
    omega

end Writes

end Unimem
