import Unimem.Surgery

/-!
The tag updates themselves: using a free block whole, splitting it, carving from
top, and putting freed bytes back as one free block or into top. For each, the
blocks before and after, the words written, and the heap it leads to.
-/

namespace Unimem

open Tiling ByteMemory Memory WordArith MallocState

/-! ## Head words -/

section HeadWords

variable {top a k w : Nat} {n : Block}

theorem used_word (aligned : k % 16 = 0) : k ||| pinuseBit ||| cinuseBit = k + 3 := by
  rw [Nat.or_assoc]
  exact or_low (k := 2) (by omega) (by decide)

theorem free_word (aligned : k % 16 = 0) : k ||| pinuseBit = k + 1 :=
  or_low (k := 1) (by omega) (by decide)

theorem headWord_used (aligned : k % 16 = 0) (notTop : a ≠ top) :
    HeadWord top ⟨a, k, true, true⟩ (k ||| pinuseBit ||| cinuseBit) := by
  rw [used_word aligned]
  refine ⟨?_, fun _ => rfl, fun atTop => absurd atTop notTop⟩
  simp only [Bool.toNat_true]
  omega

theorem headWord_free (aligned : k % 16 = 0) (notTop : a ≠ top) :
    HeadWord top ⟨a, k, false, true⟩ (k ||| pinuseBit) := by
  rw [free_word aligned]
  refine ⟨?_, fun _ => rfl, fun atTop => absurd atTop notTop⟩
  simp only [Bool.toNat_true, Bool.toNat_false]
  omega

theorem headWord_top {cinuse : Bool} (bit : k / 2 % 2 = cinuse.toNat) :
    HeadWord top ⟨top, k, cinuse, true⟩ (k ||| pinuseBit) := by
  have word : k ||| pinuseBit = k - k % 2 + 1 := or_one k
  rw [word]
  refine ⟨?_, fun notTop => absurd rfl notTop, fun _ => rfl⟩
  simp only [Bool.toNat_true]
  omega

theorem HeadWord.setPinuse (old : HeadWord top n w) (aligned : n.addr ≠ top → n.size % 16 = 0) :
    HeadWord top { n with pinuse := true } (w ||| pinuseBit) := by
  have flags := old.flags
  have := n.pinuse.toNat_le
  have := n.cinuse.toNat_le
  rw [show w ||| pinuseBit = w - w % 2 + 1 from or_one w]
  refine ⟨?_, fun notTop => ?_, fun atTop => ?_⟩
  · simp only [Bool.toNat_true]
    omega
  · have := old.size notTop
    have := aligned notTop
    simp only [Bool.toNat_true]
    omega
  · have := old.topsize atTop
    simp only [Bool.toNat_true]
    omega

theorem HeadWord.clearPinuse (old : HeadWord top n w) (fits : w < 2 ^ 64)
    (aligned : n.addr ≠ top → n.size % 16 = 0) :
    HeadWord top { n with pinuse := false } (w &&& not64 pinuseBit) := by
  have flags := old.flags
  have := n.pinuse.toNat_le
  have := n.cinuse.toNat_le
  rw [show w &&& not64 pinuseBit = w - w % 2 from and_not64_one w fits]
  refine ⟨?_, fun notTop => ?_, fun atTop => ?_⟩
  · simp only [Bool.toNat_false]
    omega
  · have := old.size notTop
    have := aligned notTop
    simp only [Bool.toNat_false]
    omega
  · have := old.topsize atTop
    simp only [Bool.toNat_false]
    omega

end HeadWords

/-! ## Blocks before and after -/

section Shapes

variable {first stop top : Nat} {below mid above : List Block} {b n t : Block} {nb p size : Nat}

theorem Layout.pair (layout : Layout first stop top (below ++ b :: n :: above)) :
    TilesBlocks first below b.addr ∧ n.addr = b.addr + b.size ∧ b.addr ≠ top ∧
      TilesBlocks b.addr [b, n] n.stop := by
  obtain ⟨lower, upper⟩ := tiles_split layout.tiles
  have next : n.addr = b.addr + b.size := upper.1
  refine ⟨lower, next, layout.ne_top_of_le (n := n) (by simp) (by simp) next.ge, rfl, next, ?_⟩
  simp only [Tiles, Block.stop]
  omega

theorem Layout.after_pair (layout : Layout first stop top (below ++ b :: n :: above)) :
    TilesBlocks n.stop above stop := by
  have tiles : TilesBlocks first ((below ++ [b]) ++ n :: above) stop := by
    simpa using layout.tiles
  exact (tiles_split tiles).2

theorem Replaces.use (layout : Layout first stop top (below ++ b :: n :: above))
    (unused : b.cinuse = false) :
    Replaces (TopFree stop) b.addr top top [b] n [⟨b.addr, b.size, true, true⟩]
      { n with pinuse := true } := by
  obtain ⟨-, next, notTop, -⟩ := layout.pair
  have sized := layout.sized b (by simp) notTop
  have flag := layout.pinuseFree b (by simp) unused
  refine
    { tiles := ⟨rfl, next.symm⟩, stop := rfl, sized := by simpa using sized,
      nonempty := layout.nonempty n (by simp), stays := fun _ => ⟨rfl, rfl⟩, moves := id,
      cinuse := rfl, pinuseFirst := by simp, pinuseUsed := ?_, pinuseFree := by simp,
      pinuseOld := fun _ => by simp [flag], coalesced := fun _ => ?_ }
  all_goals simp [Adjacent]

theorem Replaces.split (layout : Layout first stop top (below ++ b :: n :: above))
    (unused : b.cinuse = false) (enough : 32 ≤ nb) (aligned : nb % 16 = 0)
    (fits : nb + 32 ≤ b.size) :
    Replaces (TopFree stop) b.addr top top [b] n
      [⟨b.addr, nb, true, true⟩, ⟨b.addr + nb, b.size - nb, false, true⟩] n := by
  obtain ⟨-, next, notTop, -⟩ := layout.pair
  have sized := layout.sized b (by simp) notTop
  have flag := layout.pinuseFree b (by simp) unused
  have pinuse := layout.pinuseFree n (by simp)
  have finish : b.addr + nb + (b.size - nb) = n.addr := by
    omega
  refine
    { tiles := ⟨rfl, rfl, finish⟩, stop := rfl, sized := ?_,
      nonempty := layout.nonempty n (by simp), stays := fun _ => ⟨rfl, rfl⟩, moves := id,
      cinuse := rfl, pinuseFirst := by simp, pinuseUsed := ?_, pinuseFree := ?_,
      pinuseOld := fun _ => by simp [flag], coalesced := fun topFree => ?_ }
  · simp only [List.mem_cons, List.not_mem_nil, or_false, forall_eq_or_imp, forall_eq]
    omega
  · simp only [Adjacent, List.cons_append, List.nil_append, or_false]
    rintro x y (⟨rfl, rfl⟩ | ⟨rfl, rfl⟩) used
    · rfl
    · cases used
  · simpa using pinuse
  · have old := layout.coalesced topFree b n (adjacent_iff.mpr ⟨below, above, rfl⟩)
    rw [unused] at old
    simp only [Adjacent, List.cons_append, List.nil_append, or_false]
    rintro x y (⟨rfl, rfl⟩ | ⟨rfl, rfl⟩)
    · simp
    · exact old

theorem Replaces.splitTop (layout : Layout first stop top (below ++ [t])) (atTop : t.addr = top)
    (enough : 32 ≤ nb) (aligned : nb % 16 = 0) (fits : nb < t.size) :
    Replaces (TopFree stop) t.addr top (t.addr + nb) [] t [⟨t.addr, nb, true, true⟩]
      ⟨t.addr + nb, t.size - nb, t.cinuse, true⟩ := by
  have finish : t.addr + nb + (t.size - nb) = t.stop := by
    rw [Block.stop]
    omega
  refine
    { tiles := ⟨rfl, rfl⟩, stop := finish, sized := by simp [enough, aligned],
      nonempty := by simp only; omega, stays := fun notTop => absurd atTop notTop,
      moves := fun _ => rfl, cinuse := rfl, pinuseFirst := by simp, pinuseUsed := ?_,
      pinuseFree := by simp, pinuseOld := fun topFree => ?_, coalesced := fun _ => ?_ }
  · simp [Adjacent]
  · have free : t.cinuse = false := by
      have read := layout.topRead t (by simp) atTop
      unfold TopFree at topFree
      simpa [topFree] using read
    simpa using layout.pinuseFree t (by simp) free
  · simp [Adjacent]

/-- The group becomes one free block in front of `n`. -/
theorem Replaces.freed (layout : Layout first stop top (below ++ mid ++ n :: above))
    (lower : TilesBlocks first below p) (whole : p + size = n.addr) (some : mid ≠ [])
    (head : ∀ b ∈ mid.head?, b.pinuse = true) {pinuse : Bool}
    (unused : n.cinuse = false → pinuse = true)
    (whenFree : TopFree stop → pinuse = false ∧ n.cinuse = true) :
    Replaces (TopFree stop) p top top mid n [⟨p, size, false, true⟩] { n with pinuse := pinuse } := by
  have midTiles := (layout.low_eq lower).1
  have sizes : ∀ b ∈ mid, 32 ≤ b.size ∧ b.size % 16 = 0 := by
    intro b inMid
    exact layout.sized b (by simp [inMid]) (layout.ne_top_of_le (n := n) (by simp [inMid]) (by simp)
      (tiles_bounds midTiles inMid).2)
  have total : 32 ≤ size ∧ size % 16 = 0 := by
    obtain ⟨b, rest, rfl⟩ := List.exists_cons_of_ne_nil some
    have first_size := sizes b (by simp)
    have := tiles_le midTiles.2
    have alignedP : p % 16 = 0 := midTiles.1 ▸ layout.aligned_of_mem (b := b) (by simp)
    have alignedN := layout.aligned_of_mem (b := n) (by simp)
    omega
  refine
    { tiles := ⟨rfl, whole⟩, stop := rfl, sized := by simpa using total,
      nonempty := layout.nonempty n (by simp), stays := fun _ => ⟨rfl, rfl⟩, moves := id,
      cinuse := rfl, pinuseFirst := by simp, pinuseUsed := ?_, pinuseFree := by simpa using unused,
      pinuseOld := fun _ => ?_, coalesced := fun topFree => ?_ }
  · simp [Adjacent]
  · obtain ⟨b, rest, rfl⟩ := List.exists_cons_of_ne_nil some
    simpa using head
  · simpa [Adjacent] using whenFree topFree

/-- The group and top `n` behind it become top. -/
theorem Replaces.absorbed (layout : Layout first stop top (below ++ mid ++ [n]))
    (whole : p + size = n.addr) (some : mid ≠ [])
    (head : ∀ b ∈ mid.head?, b.pinuse = true) (atTop : n.addr = top) (unused : n.cinuse = false) :
    Replaces (TopFree stop) p top p mid n [] ⟨p, size + n.size, false, true⟩ := by
  have := layout.nonempty n (by simp)
  refine
    { tiles := rfl, stop := by simp only [Block.stop]; omega, sized := by simp,
      nonempty := by simp only; omega, stays := fun notTop => absurd atTop notTop,
      moves := fun _ => rfl, cinuse := unused.symm, pinuseFirst := by simp,
      pinuseUsed := fun _ _ pair => pair.elim, pinuseFree := by simp, pinuseOld := fun _ => ?_,
      coalesced := fun _ _ _ pair => pair.elim }
  obtain ⟨b, rest, rfl⟩ := List.exists_cons_of_ne_nil some
  simpa using head

end Shapes

/-! ## The updates -/

/-- The blocks `mid` fill `[p, p + size)`, with `n` behind; the free ones of them are loose. -/
structure Vacates (first : Nat) (h : Heap) (loose : List Nat) (below mid : List Block)
    (p size : Nat) (n : Block) (above : List Block) : Prop where
  shape : h.blocks = below ++ mid ++ n :: above
  lower : TilesBlocks first below p
  whole : p + size = n.addr
  nonempty : mid ≠ []
  head : ∀ b ∈ mid.head?, b.pinuse = true
  looseMid : ∀ b ∈ mid, b.cinuse = false → b.addr ∈ loose
  looseAll : ∀ q ∈ loose, ∃ b ∈ mid, b.addr = q
  used : ∃ b ∈ mid, b.cinuse = true

/-- The tags of a free block: its head and its size behind it. -/
def grown (m : Memory) (p size : Nat) : Memory :=
  (m.store (p + 8) 8 (size ||| pinuseBit)).store (p + size) 8 size

theorem setFree_run {s : Store} {p size : Nat} (accHead : s.mem.accessible (p + 8) 8 = true)
    (accFoot : s.mem.accessible (p + size) 8 = true) (fits : p + size < 2 ^ 64) :
    Chunk.setSizeAndPinuseOfFreeChunk p size s = .ok () { s with mem := grown s.mem p size } := by
  have plus : chunkPlusOffset p size = p + size := add64_of_lt fits
  simp [Chunk.setSizeAndPinuseOfFreeChunk, Chunk.setFoot, Chunk.setPrevFoot, Chunk.setHead, store64,
    run_storeN, plus, accHead, accFoot, grown]

namespace Represents

variable {first stop limit : Nat} {s : Store} {h : Heap} {loose : List Nat}
  {below mid above : List Block} {b n t : Block} {nb p size : Nat}

/-- Sums of addresses and sizes within the segment do not wrap. -/
theorem plus_offset (rep : Represents first stop limit s h loose) (p size : Nat)
    (inside : p + size ≤ stop) :
    chunkPlusOffset p size = p + size := by
  have := rep.layout.bound
  exact add64_of_lt (by omega)

theorem relay_eq (rep : Represents first stop limit s h loose) {low high : Nat}
    {below old above fresh : List Block} (shape : h.blocks = below ++ old ++ above)
    (lower : TilesBlocks first below low) (middle : TilesBlocks low old high)
    (upper : TilesBlocks high above stop) :
    h.relay low high fresh = { h with blocks := below ++ fresh ++ above } := by
  have nonempty := rep.layout.nonempty
  rw [shape] at nonempty
  have blocks := Layout.relay_blocks lower middle upper nonempty fresh h shape
  exact congrArg (fun blocks => ({ h with blocks := blocks } : Heap)) blocks

/-- The group `b, n` within the whole list. -/
theorem group (rep : Represents first stop limit s h loose)
    (shape : h.blocks = below ++ b :: n :: above) :
    TilesBlocks first below b.addr ∧ n.addr = b.addr + b.size ∧ b.addr ≠ h.top ∧
      n.addr + n.size ≤ stop ∧ 0 < n.size ∧ b.addr + 16 ≤ limit ∧ n.addr + 16 ≤ limit ∧
        first ≤ b.addr ∧
      32 ≤ b.size ∧ b.size % 16 = 0 := by
  have layout := rep.layout
  have tags := rep.tags
  rw [shape] at layout tags
  obtain ⟨lower, next, notTop, -⟩ := layout.pair
  exact ⟨lower, next, notTop, (layout.bounds (b := n) (by simp)).2,
    layout.nonempty n (by simp), tags.block_reach (by simp), tags.block_reach (b := n) (by simp),
    (layout.bounds (b := b) (by simp)).1, layout.sized b (by simp) notTop⟩

/-- Replacing `b` and `n` where they stand. -/
theorem relay_pair (rep : Represents first stop limit s h loose)
    (shape : h.blocks = below ++ b :: n :: above) (fresh : List Block) :
    h.relay b.addr n.stop fresh = { h with blocks := below ++ fresh ++ above } := by
  have layout := rep.layout
  rw [shape] at layout
  have whole : h.blocks = below ++ [b, n] ++ above := by simp [shape]
  exact rep.relay_eq whole (rep.group shape).1 layout.pair.2.2.2 layout.after_pair

theorem use_eq (rep : Represents first stop limit s h loose)
    (shape : h.blocks = below ++ b :: n :: above) :
    h.use b n = { h with blocks :=
      below ++ ⟨b.addr, b.size, true, true⟩ :: { n with pinuse := true } :: above } := by
  rw [Heap.use, rep.relay_pair shape]
  simp

theorem split_eq (rep : Represents first stop limit s h loose)
    (shape : h.blocks = below ++ b :: n :: above) (nb : Nat) :
    h.split b n nb = { h with blocks :=
      below ++ ⟨b.addr, nb, true, true⟩ ::
        ⟨b.addr + nb, b.size - nb, false, true⟩ :: n :: above } := by
  rw [Heap.split, rep.relay_pair shape]
  simp

theorem splitTop_eq (rep : Represents first stop limit s h loose) (shape : h.blocks = below ++ [t])
    (nb : Nat) : h.splitTop t nb = { h with
      blocks := below ++ [⟨t.addr, nb, true, true⟩, ⟨t.addr + nb, t.size - nb, t.cinuse, true⟩]
      top := t.addr + nb } := by
  have tiles := rep.layout.tiles
  rw [shape] at tiles
  obtain ⟨lower, finish⟩ := tiles_split tiles
  have whole : h.blocks = below ++ [t] ++ [] := by simp [shape]
  rw [Heap.splitTop, rep.relay_eq whole lower ⟨rfl, rfl⟩ finish]
  simp

theorem useWhole (rep : Represents first stop limit s h [b.addr])
    (shape : h.blocks = below ++ b :: n :: above) (unused : b.cinuse = false) :
    Serves first stop limit s h (setInuseAndPinuse b.addr b.size) () b.addr b.size (h.use b n)
      [] := by
  obtain ⟨lower, next, notTop, inside, positive, reachB, reachN, low, enough, aligned⟩ :=
    rep.group shape
  have tags := rep.tags
  have layout := rep.layout
  have bound := layout.bound
  have accB := tags.accessible (a := b.addr + 8) (n := 8) (by omega) (by omega)
  have accN := tags.accessible (a := n.addr + 8) (n := 8) (by omega) (by omega)
  have plus : chunkPlusOffset b.addr b.size = n.addr := by
    rw [rep.plus_offset _ _ (by omega), next]
  have wordFits := s.mem.load_lt (n.addr + 8) 8
  obtain ⟨word, wordEq⟩ : ∃ word, word = s.mem.load (n.addr + 8) 8 := ⟨_, rfl⟩
  have headN := tags.head n (by rw [shape]; simp)
  rw [← wordEq] at wordFits headN
  have headN' := headN.setPinuse fun atTop => (layout.sized n (by rw [shape]; simp) atTop).2
  have fitsN : word ||| pinuseBit < 256 ^ 8 := Nat.or_lt_two_pow (n := 64) wordFits (by decide)
  obtain ⟨m', write⟩ : ∃ m', m' = (s.mem.store (b.addr + 8) 8
    (b.size ||| pinuseBit ||| cinuseBit)).store (n.addr + 8) 8 (word ||| pinuseBit) := ⟨_, rfl⟩
  have ran : setInuseAndPinuse b.addr b.size s = .ok () { s with mem := m' } := by
    -- the first store leaves the successor's head as it was
    have kept : (s.mem.store (b.addr + 8) 8 (b.size ||| pinuseBit ||| cinuseBit)).load
        (n.addr + 8) 8 = word := by
      rw [wordEq]
      exact load_store_disjoint _ _ _ _ _ _ (by omega)
    simp [setInuseAndPinuse, plus, Chunk.setHead, Chunk.head, store64, load64,
      run_storeN, run_loadN, accB, accN, kept, write]
  rw [shape] at layout
  have whole : h.blocks = below ++ [b] ++ n :: above := by simp [shape]
  obtain ⟨rep', keeps⟩ := rep.relay s.gm m' (h.use b n) [] whole lower
    (Replaces.use layout unused)
    (by
      rw [write]
      refine ((AgreesOutside.refl _).store _ _ _ ?_).store _ _ _ ?_
      all_goals
        intro x lowX highX
        exact ⟨by omega, show x < n.addr + 16 by omega⟩)
    (by
      simp only [List.cons_append, List.nil_append, List.mem_cons, List.not_mem_nil, or_false,
        forall_eq_or_imp, forall_eq]
      refine ⟨?_, ?_⟩
      · rw [write, load_store_disjoint _ _ _ _ _ _ (by omega), load_store_same _ _ 8 _
          (by rw [used_word aligned]; omega)]
        exact headWord_used aligned notTop
      · rw [write, load_store_same _ _ 8 _ fitsN]
        exact headN')
    (by
      simp only [Adjacent, List.cons_append, List.nil_append, or_false]
      rintro x y ⟨rfl, rfl⟩ free
      cases free)
    (by simp) (by simp) (by simp) ⟨⟨rfl, rfl, rfl, rfl, rfl⟩, rfl, rfl, rfl, rfl, rfl⟩ rep.top
    (by rw [rep.topsize])
    (by
      rw [rep.use_eq shape]
      simp)
  refine ⟨_, ran, rep', keeps.congr ?_ ?_⟩
  · simp [unused]
  · intro a k
    simp only [List.mem_singleton, exists_eq_left, and_true]
    exact and_congr eq_comm eq_comm

/-- The tags of a used chunk of size `nb` and of the free rest behind it. -/
def carved (m : Memory) (p nb rsize : Nat) : Memory :=
  ((m.store (p + 8) 8 (nb ||| pinuseBit ||| cinuseBit)).store (p + nb + 8) 8
    (rsize ||| pinuseBit)).store (p + nb + rsize) 8 rsize

/-- The rest's tags may as well be written first. -/
theorem carved_comm (m : Memory) {p nb rsize : Nat} (enough : 16 ≤ nb) :
    ((m.store (p + nb + 8) 8 (rsize ||| pinuseBit)).store (p + nb + rsize) 8 rsize).store (p + 8) 8
      (nb ||| pinuseBit ||| cinuseBit) = carved m p nb rsize := by
  rw [carved, store_comm _ (p + nb + rsize) 8 rsize (p + 8) 8 _ (by omega),
    store_comm m (p + nb + 8) 8 _ (p + 8) 8 _ (by omega)]

theorem split (rep : Represents first stop limit s h [b.addr])
    (shape : h.blocks = below ++ b :: n :: above) (unused : b.cinuse = false) (enough : 32 ≤ nb)
    (multiple : nb % 16 = 0) (fits : nb + 32 ≤ b.size) :
    Represents first stop limit { s with mem := carved s.mem b.addr nb (b.size - nb) }
        (h.split b n nb) [b.addr + nb] ∧
      Keeps (fun _ => False) (fun a k => a = b.addr ∧ k = nb) h (h.split b n nb) s
        { s with mem := carved s.mem b.addr nb (b.size - nb) } ∧
      FreeAt h.top (h.split b n nb).blocks (b.addr + nb) (b.size - nb) := by
  obtain ⟨lower, next, notTop, inside, positive, reachB, reachN, low, large, aligned⟩ :=
    rep.group shape
  have layout := rep.layout
  have bound := layout.bound
  have headN := rep.tags.head n (by rw [shape]; simp)
  rw [shape] at layout
  -- a top inside `b` would overlap it
  have restTop : b.addr + nb ≠ h.top := by
    intro atTop
    have := layout.ne_top_of_le (b := b) (n := n) (by simp) (by simp) next.ge
    obtain ⟨u, inTop, here, finish⟩ := layout.topBlock
    have inOrder := layout.ordered (b := b) (c := u) (by simp) inTop
    have := layout.nonempty u inTop
    simp only [Block.stop] at *
    rcases inOrder with rfl | before | after <;> omega
  have whole : h.blocks = below ++ [b] ++ n :: above := by simp [shape]
  have blocks := rep.split_eq shape nb
  obtain ⟨rep', keeps⟩ := rep.relay s.gm (carved s.mem b.addr nb (b.size - nb)) (h.split b n nb)
    [b.addr + nb] whole lower (Replaces.split layout unused enough multiple fits)
    (by
      refine (((AgreesOutside.refl _).store _ _ _ ?_).store _ _ _ ?_).store _ _ _ ?_
      all_goals
        intro x lowX highX
        exact ⟨by omega, by omega⟩)
    (by
      simp only [List.cons_append, List.nil_append, List.mem_cons, List.not_mem_nil, or_false,
        forall_eq_or_imp, forall_eq, carved]
      refine ⟨?_, ?_, ?_⟩
      · rw [load_store_disjoint _ _ _ _ _ _ (by omega), load_store_disjoint _ _ _ _ _ _ (by omega),
          load_store_same _ _ 8 _ (by rw [used_word multiple]; omega)]
        exact headWord_used multiple notTop
      · rw [load_store_disjoint _ _ _ _ _ _ (by omega),
          load_store_same _ _ 8 _ (by rw [free_word (by omega)]; omega)]
        exact headWord_free (by omega) restTop
      · rw [load_store_disjoint _ _ _ _ _ _ (by omega), load_store_disjoint _ _ _ _ _ _ (by omega),
          load_store_disjoint _ _ _ _ _ _ (by omega)]
        exact headN)
    (by
      simp only [Adjacent, List.cons_append, List.nil_append, or_false]
      rintro x y (⟨rfl, rfl⟩ | ⟨rfl, rfl⟩) free
      · cases free
      · rw [show n.addr = b.addr + nb + (b.size - nb) by omega]
        exact load_store_same _ _ 8 _ (by omega))
    (by simp) (by simp)
    (fun q => by
      simp only [List.mem_cons, List.not_mem_nil, or_false, exists_eq_or_imp, exists_eq_left,
        reduceCtorEq, and_false, and_true, false_or]
      exact eq_comm)
    ⟨⟨rfl, rfl, rfl, rfl, rfl⟩, rfl, rfl, rfl, rfl, rfl⟩ rep.top
    (by rw [rep.topsize])
    (by simp [blocks])
  refine ⟨rep', keeps.congr ?_ ?_, restTop, ⟨b.addr + nb, b.size - nb, false, true⟩,
    by simp [blocks], rfl, rfl, rfl⟩
  · simp [unused]
  · intro a k
    simp only [List.mem_cons, List.not_mem_nil, or_false, exists_eq_or_imp, exists_eq_left,
      Bool.false_eq_true, and_false, and_true]
    exact and_congr eq_comm eq_comm

/-- Top keeps the tail of its bytes. -/
theorem splitTop (rep : Represents first stop limit s h []) (shape : h.blocks = below ++ [t])
    (atTop : t.addr = h.top) (enough : 32 ≤ nb) (multiple : nb % 16 = 0) (fits : nb < t.size) :
    Represents first stop limit
        { s with
          gm := { s.gm with topsize := t.size - nb, top := t.addr + nb }
          mem := (s.mem.store (t.addr + nb + 8) 8 ((t.size - nb) ||| pinuseBit)).store (t.addr + 8) 8
            (nb ||| pinuseBit ||| cinuseBit) }
        (h.splitTop t nb) [] ∧
      Keeps (fun _ => False) (fun a k => a = t.addr ∧ k = nb) h (h.splitTop t nb) s
        { s with
          gm := { s.gm with topsize := t.size - nb, top := t.addr + nb }
          mem := (s.mem.store (t.addr + nb + 8) 8 ((t.size - nb) ||| pinuseBit)).store (t.addr + 8) 8
            (nb ||| pinuseBit ||| cinuseBit) } := by
  have layout := rep.layout
  have bound := layout.bound
  have headT := rep.tags.head t (by rw [shape]; simp)
  have bit := headT.flags
  have word := headT.topsize atTop
  have := t.pinuse.toNat_le
  have := t.cinuse.toNat_le
  rw [shape] at layout
  have tiles := tiles_split layout.tiles
  have finish : t.addr + t.size = stop := tiles.2
  have lower := tiles.1
  -- no block goes: the used one is new, and top moves up
  have whole : h.blocks = below ++ [] ++ t :: [] := by simpa using shape
  obtain ⟨rep', keeps⟩ := rep.relay { s.gm with topsize := t.size - nb, top := t.addr + nb }
    ((s.mem.store (t.addr + nb + 8) 8 ((t.size - nb) ||| pinuseBit)).store (t.addr + 8) 8
      (nb ||| pinuseBit ||| cinuseBit))
    (h.splitTop t nb) [] whole lower (Replaces.splitTop layout atTop enough multiple fits)
    (by
      refine ((AgreesOutside.refl _).store _ _ _ ?_).store _ _ _ ?_
      all_goals
        intro x lowX highX
        exact ⟨by omega, show x < t.addr + nb + 16 by omega⟩)
    (by
      simp only [List.cons_append, List.nil_append, List.mem_cons, List.not_mem_nil, or_false,
        forall_eq_or_imp, forall_eq]
      refine ⟨?_, ?_⟩
      · rw [load_store_same _ _ 8 _ (by rw [used_word multiple]; omega)]
        exact headWord_used multiple (by omega)
      · rw [load_store_disjoint _ _ _ _ _ _ (by omega), load_store_same _ _ 8 _
          (Nat.or_lt_two_pow (n := 64) (by omega) (by decide))]
        exact headWord_top (by omega))
    (by
      simp only [Adjacent, List.cons_append, List.nil_append, or_false]
      rintro x y ⟨rfl, rfl⟩ free
      cases free)
    (by simp) (by simp) (by simp) ⟨⟨rfl, rfl, rfl, rfl, rfl⟩, rfl, rfl, rfl, rfl, rfl⟩ rfl
    (by simp only; omega)
    (by
      rw [rep.splitTop_eq shape]
      simp)
  refine ⟨rep', keeps.congr (by simp) ?_⟩
  intro a k
  simp only [List.mem_singleton, exists_eq_left, and_true]
  exact and_congr eq_comm eq_comm

/-- The group gives way to one free block; `n` behind it may lose its PINUSE. -/
theorem freed (rep : Represents first stop limit s h loose)
    (group : Vacates first h loose below mid p size n above) (pinuse : Bool) (m' : Memory)
    (unused : n.cinuse = false → pinuse = true)
    (whenFree : TopFree stop → pinuse = false ∧ n.cinuse = true)
    (agrees : AgreesOutside (fun x => n.addr + 8 ≤ x ∧ x < n.addr + 16) s.mem m')
    (headN : HeadWord h.top { n with pinuse := pinuse } (m'.load (n.addr + 8) 8)) :
    Represents first stop limit { s with mem := grown m' p size }
        { h with blocks := below ++ ⟨p, size, false, true⟩ :: { n with pinuse := pinuse } :: above }
        [p] ∧
      Keeps (fun a => ∃ b ∈ mid, b.addr = a ∧ b.cinuse = true) (fun _ _ => False) h
        { h with blocks := below ++ ⟨p, size, false, true⟩ :: { n with pinuse := pinuse } :: above }
        s { s with mem := grown m' p size } ∧
      FreeAt h.top
        (below ++ ⟨p, size, false, true⟩ :: { n with pinuse := pinuse } :: above) p size := by
  obtain ⟨shape, lower, whole, some, head, looseMid, looseAll⟩ := group
  have layout := rep.layout
  have bound := layout.bound
  rw [shape] at layout
  have fresh := Replaces.freed layout lower whole some head unused whenFree
  have total := fresh.sized _ (List.mem_singleton_self _)
  simp only at total
  -- something follows the freed block, so it is not top
  have notTop : p ≠ h.top := by
    have layout' := layout.replace lower fresh
    exact layout'.ne_top_of_le (b := ⟨p, size, false, true⟩) (n := { n with pinuse := pinuse })
      (by simp) (by simp) whole.le
  have inside := layout.bounds (b := n) (by simp)
  have := layout.nonempty n (by simp)
  simp only [Block.stop] at inside
  obtain ⟨rep', keeps⟩ := rep.relay s.gm (grown m' p size) { h with blocks :=
      below ++ ⟨p, size, false, true⟩ :: { n with pinuse := pinuse } :: above }
        [p] shape lower fresh
    (by
      refine ((agrees.mono ?_).store _ _ _ ?_).store _ _ _ ?_
      · exact fun x window => ⟨by omega, show x < n.addr + 16 by omega⟩
      all_goals
        intro x lowX highX
        exact ⟨by omega, show x < n.addr + 16 by omega⟩)
    (by
      simp only [List.cons_append, List.nil_append, List.mem_cons, List.not_mem_nil, or_false,
        forall_eq_or_imp, forall_eq, grown]
      refine ⟨?_, ?_⟩
      · rw [load_store_disjoint _ _ _ _ _ _ (by omega),
          load_store_same _ _ 8 _ (by rw [free_word total.2]; omega)]
        exact headWord_free total.2 notTop
      · rw [load_store_disjoint _ _ _ _ _ _ (by omega), load_store_disjoint _ _ _ _ _ _ (by omega)]
        exact headN)
    (by
      simp only [Adjacent, List.cons_append, List.nil_append, or_false]
      rintro x y ⟨rfl, rfl⟩ -
      show (grown m' p size).load n.addr 8 = size
      rw [← whole]
      exact load_store_same _ _ 8 _ (by omega))
    looseMid looseAll
    (fun q => by
      simp only [List.mem_singleton, exists_eq_left, and_true]
      exact eq_comm)
    ⟨⟨rfl, rfl, rfl, rfl, rfl⟩, rfl, rfl, rfl, rfl, rfl⟩ rep.top (by rw [rep.topsize]) (by simp)
  exact ⟨rep', keeps.congr (fun _ => Iff.rfl) (by simp), notTop, ⟨p, size, false, true⟩, by simp,
    rfl, rfl, rfl⟩

/-- The group and top behind it become top. -/
theorem absorbed (rep : Represents first stop limit s h loose)
    (group : Vacates first h loose below mid p size n []) (atTop : n.addr = h.top)
    (unused : n.cinuse = false) :
    Represents first stop limit
        { s with
          gm := { s.gm with topsize := size + n.size, top := p }
          mem := s.mem.store (p + 8) 8 ((size + n.size) ||| pinuseBit) }
        { h with blocks := below ++ [⟨p, size + n.size, false, true⟩], top := p } [] ∧
      Keeps (fun a => ∃ b ∈ mid, b.addr = a ∧ b.cinuse = true) (fun _ _ => False) h
        { h with blocks := below ++ [⟨p, size + n.size, false, true⟩], top := p } s
        { s with
          gm := { s.gm with topsize := size + n.size, top := p }
          mem := s.mem.store (p + 8) 8 ((size + n.size) ||| pinuseBit) } := by
  obtain ⟨shape, lower, whole, some, head, looseMid, looseAll⟩ := group
  have layout := rep.layout
  have bound := layout.bound
  have headN := rep.tags.head n (by rw [shape]; simp)
  have flags := headN.flags
  have word := headN.topsize atTop
  have := n.pinuse.toNat_le
  rw [shape] at layout
  have finish : n.addr + n.size = stop := (tiles_split layout.tiles).2
  have fresh := Replaces.absorbed layout whole some head atTop unused
  have alignedP : p % 16 = 0 := by
    have layout' := layout.replace lower fresh
    exact layout'.aligned_of_mem (b := ⟨p, size + n.size, false, true⟩) (by simp)
  have alignedN := layout.aligned_of_mem (b := n) (by simp)
  rw [unused, Bool.toNat_false] at flags
  obtain ⟨rep', keeps⟩ := rep.relay { s.gm with topsize := size + n.size, top := p }
    (s.mem.store (p + 8) 8 ((size + n.size) ||| pinuseBit))
    { h with blocks := below ++ [⟨p, size + n.size, false, true⟩], top := p } [] shape lower fresh
    (by
      refine (AgreesOutside.refl _).store _ _ _ ?_
      intro x lowX highX
      exact ⟨by omega, show x < p + 16 by omega⟩)
    (by
      simp only [List.nil_append, List.mem_cons, List.not_mem_nil, or_false, forall_eq]
      rw [load_store_same _ _ 8 _ (Nat.or_lt_two_pow (n := 64) (by omega) (by decide))]
      exact headWord_top (by simp only [Bool.toNat_false]; omega))
    (fun _ _ pair => pair.elim) looseMid looseAll (by simp)
    ⟨⟨rfl, rfl, rfl, rfl, rfl⟩, rfl, rfl, rfl, rfl, rfl⟩ rfl
    (by simp only; omega) (by simp)
  exact ⟨rep', keeps.congr (fun _ => Iff.rfl) (by simp)⟩

end Represents

end Unimem
