import Unimem.Carving

/-!
Handing out a chosen block: the ends of the branches of Alloc. Each takes the
block the abstract heap takes, and keeps the rest where that does.
-/

namespace Unimem

open Tiling ByteMemory Memory WordArith MallocState

/-- The outcome of `program` is the abstract reply; a served chunk is the request
`nb`, or up to 16 bytes more. A refusal comes too late: a head is already changed. -/
def Answers {α : Type} (first stop limit : Nat) (s : Store) (h : Heap) (program : Prog α)
    (value : Nat → α) (nb : Nat) : Heap.Reply → Prop
  | .served mem h' => ∃ p k, mem = p + 32 ∧ nb ≤ k ∧ k < nb + 32 ∧
      Serves first stop limit s h program (value mem) p k h' []
  | .corrupted => ∃ s', program s = .error .corrupted s' ∧ Disturbed h s'
  | .expand => False

section Bind

variable {α β : Type} {first stop limit nb : Nat} {s : Store} {h h₁ : Heap} {loose : List Nat}
  {reply : Heap.Reply} {start : Prog α} {rest : α → Prog β} {middle : α}

theorem Answers.after {value : Nat → β}
    (one : Reaches first stop limit s h start middle h₁ loose) (blocks : h₁.blocks = h.blocks)
    (top : h₁.top = h.top)
    (two : ∀ s₁, Represents first stop limit s₁ h₁ loose →
      Answers first stop limit s₁ h₁ (rest middle) value nb reply) :
    Answers first stop limit s h (start >>= rest) value nb reply := by
  cases reply with
  | served mem h' =>
      obtain ⟨s₁, ran, rep, keeps⟩ := one
      obtain ⟨p, k, same, lower, upper, s', ran', rep', keeps'⟩ := two s₁ rep
      exact ⟨p, k, same, lower, upper, s', by rw [Fuelled.bind_run, ran]; exact ran', rep',
        Keeps.after keeps keeps'⟩
  | corrupted =>
      obtain ⟨s₁, ran, rep, keeps⟩ := one
      obtain ⟨s', ran', disturbed⟩ := two s₁ rep
      rw [Disturbed, blocks, top] at disturbed
      exact ⟨s', by rw [Fuelled.bind_run, ran]; exact ran', disturbed⟩
  | expand =>
      obtain ⟨s₁, ran, rep, keeps⟩ := one
      exact (two s₁ rep).elim

theorem Answers.congr {value : Nat → α} {start' : Prog α}
    (answers : Answers first stop limit s h start value nb reply) (same : start' s = start s) :
    Answers first stop limit s h start' value nb reply := by
  cases reply with
  | served mem h' =>
      obtain ⟨p, k, at_, lower, upper, s', ran, rest⟩ := answers
      exact ⟨p, k, at_, lower, upper, s', same.trans ran, rest⟩
  | corrupted =>
      obtain ⟨s', ran, disturbed⟩ := answers
      exact ⟨s', same.trans ran, disturbed⟩
  | expand => exact answers.elim

theorem Answers.map {start : Prog Nat}
    (answers : Answers first stop limit s h start id nb reply) :
    Answers first stop limit s h (start >>= fun mem => pure (some mem)) some nb reply := by
  cases reply with
  | served mem h' =>
      obtain ⟨p, k, at_, lower, upper, s', ran, rest⟩ := answers
      exact ⟨p, k, at_, lower, upper, s', by rw [Fuelled.bind_run, ran]; rfl, rest⟩
  | corrupted =>
      obtain ⟨s', ran, disturbed⟩ := answers
      exact ⟨s', by rw [Fuelled.bind_run, ran], disturbed⟩
  | expand => exact answers.elim

end Bind

section Padding

variable {bytes : Nat}

theorem maxSmallRequest_eq : maxSmallRequest = 232 := rfl

theorem maxRequest_eq : maxRequest = 2 ^ 64 - 128 := by decide

theorem padRequest_eq (fits : bytes + 23 < 2 ^ 64) :
    padRequest bytes = bytes + 23 - (bytes + 23) % 16 := by
  have mask : chunkAlignMask = 15 := rfl
  have overhead : chunkOverhead = 8 := rfl
  rw [padRequest, mask, overhead, add64_of_lt (a := bytes) (b := 8) (by omega),
    add64_of_lt (by omega),
    and_not64_fifteen _ (by omega)]

theorem paddedRequest_small (few : bytes ≤ maxSmallRequest) :
    32 ≤ paddedRequest bytes ∧ paddedRequest bytes ≤ 240 ∧ paddedRequest bytes % 16 = 0 ∧
      bytes ≤ paddedRequest bytes := by
  have minimum : minRequest = 23 := rfl
  have least : minChunkSize = 32 := by decide
  rw [maxSmallRequest_eq] at few
  rw [paddedRequest, maxSmallRequest_eq, if_pos few, minimum, least, padRequest_eq (by omega)]
  split <;> omega

theorem paddedRequest_large (many : ¬ bytes ≤ maxSmallRequest) (proper : ¬ bytes ≥ maxRequest) :
    256 ≤ paddedRequest bytes ∧ paddedRequest bytes % 16 = 0 ∧ bytes + 8 ≤ paddedRequest bytes ∧
      paddedRequest bytes < 2 ^ 64 - 100 := by
  rw [paddedRequest, if_neg many, if_neg proper]
  rw [maxSmallRequest_eq] at many
  rw [maxRequest_eq] at proper
  rw [padRequest_eq (by omega)]
  omega

theorem paddedRequest_huge (many : bytes ≥ maxRequest) : paddedRequest bytes = 2 ^ 64 - 1 := by
  have notSmall : ¬ bytes ≤ maxSmallRequest := by
    rw [maxRequest_eq] at many
    rw [maxSmallRequest_eq]
    omega
  rw [paddedRequest, if_neg notSmall, if_pos many]
  rfl

theorem paddedRequest_proper (bytes : Nat) :
    32 ≤ paddedRequest bytes ∧ paddedRequest bytes % 16 = 0 ∨ paddedRequest bytes = 2 ^ 64 - 1 := by
  by_cases few : bytes ≤ maxSmallRequest
  · have := paddedRequest_small few
    omega
  · by_cases many : bytes ≥ maxRequest
    · exact Or.inr (paddedRequest_huge many)
    · have := paddedRequest_large few many
      omega

end Padding

namespace Represents

variable {first stop limit : Nat} {s : Store} {h : Heap} {loose : List Nat}
  {below above : List Block} {b n t : Block} {nb p size : Nat}

/-- A free block with its successor, and how the abstract heap finds the two. -/
theorem successor (rep : Represents first stop limit s h loose)
    (free : FreeAt h.top h.blocks p size) :
    ∃ below b n above, h.blocks = below ++ b :: n :: above ∧ b.addr = p ∧ b.size = size ∧
      b.cinuse = false ∧ h.blockAt p = some b ∧ h.blockAt (p + size) = some n := by
  obtain ⟨notTop, b, member, rfl, rfl, unused⟩ := free
  obtain ⟨below, n, above, shape, next⟩ := rep.layout.successor member notTop
  refine ⟨below, b, n, above, shape, rfl, rfl, unused, rep.layout.blockAt_eq rfl member, ?_⟩
  have found := rep.layout.blockAt_eq rfl (b := n) (by rw [shape]; simp)
  rwa [next] at found

/-- The chunk address a pointer stands for. -/
theorem chunk2mem_eq (rep : Represents first stop limit s h loose)
    (shape : h.blocks = below ++ b :: n :: above) : chunk2mem b.addr = b.addr + 32 := by
  obtain ⟨-, next, -, inside, -, -, -, -, enough, -⟩ := rep.group shape
  have := rep.layout.bound
  exact add64_of_lt (by simp only [twoSizeTSizes, sizeTSize, Nat.shiftLeft_eq]; omega)

/-- Splitting as the code does it: the used head, then the free rest. -/
theorem split_run (rep : Represents first stop limit s h [b.addr])
    (shape : h.blocks = below ++ b :: n :: above) (unused : b.cinuse = false) (enough : 32 ≤ nb)
    (multiple : nb % 16 = 0) (fits : nb + 32 ≤ b.size) :
    Serves first stop limit s h
        (do setSizeAndPinuseOfInuseChunk b.addr nb
            Chunk.setSizeAndPinuseOfFreeChunk (b.addr + nb) (b.size - nb))
        () b.addr nb (h.split b n nb) [b.addr + nb] ∧
      FreeAt h.top (h.split b n nb).blocks (b.addr + nb) (b.size - nb) := by
  obtain ⟨rep', keeps, free⟩ := rep.split shape unused enough multiple fits
  obtain ⟨-, next, -, inside, positive, reachB, reachN, low, -, -⟩ := rep.group shape
  have tags := rep.tags
  have accHead := tags.accessible (a := b.addr + 8) (n := 8) (by omega) (by omega)
  have accRest := tags.accessible (a := b.addr + nb + 8) (n := 8) (by omega) (by omega)
  have accFoot := tags.accessible (a := b.addr + nb + (b.size - nb)) (n := 8) (by omega) (by omega)
  refine ⟨⟨_, ?_, rep', keeps⟩, free⟩
  simp [setSizeAndPinuseOfInuseChunk, Chunk.setSizeAndPinuseOfFreeChunk, Chunk.setFoot,
    Chunk.setPrevFoot, Chunk.setHead, store64, run_storeN, accHead, accRest, accFoot, carved,
    rep.plus_offset (b.addr + nb) (b.size - nb) (by omega)]

end Represents

/-- Hands out `size` bytes at `p`, or `nb` of them and keeps the rest. -/
def handOut (p size nb : Nat) (keep : Prog Unit) : Prog Nat :=
  if size - nb < 32 then do
    setInuseAndPinuse p size
    return chunk2mem p
  else do
    setSizeAndPinuseOfInuseChunk p nb
    Chunk.setSizeAndPinuseOfFreeChunk (p + nb) (size - nb)
    keep
    return chunk2mem p

theorem handOut_spec {first stop limit nb bytes : Nat} {s : Store} {h : Heap}
    {below above : List Block} {b n : Block} (rep : Represents first stop limit s h [b.addr])
    (shape : h.blocks = below ++ b :: n :: above) (unused : b.cinuse = false) (enough : 32 ≤ nb)
    (multiple : nb % 16 = 0) (fits : nb ≤ b.size) {keep : Prog Unit}
    (keeps : ∀ s', Represents first stop limit s' (h.split b n nb) [b.addr + nb] →
      FreeAt h.top (h.split b n nb).blocks (b.addr + nb) (b.size - nb) →
      match (h.split b n nb).keepRest bytes (b.addr + nb) (b.size - nb) with
      | some h' => Reaches first stop limit s' (h.split b n nb) keep () h' []
      | none => Refused first stop limit s' (h.split b n nb) keep) :
    Answers first stop limit s h (handOut b.addr b.size nb keep) id nb
      (if b.size - nb < 32 then .served (b.addr + 32) (h.use b n)
      else
        match (h.split b n nb).keepRest bytes (b.addr + nb) (b.size - nb) with
        | some h' => .served (b.addr + 32) h'
        | none => .corrupted) := by
  have pointer := rep.chunk2mem_eq shape
  have notTop := (rep.group shape).2.2.1
  unfold handOut
  by_cases whole : b.size - nb < 32
  · rw [if_pos whole, if_pos whole]
    refine ⟨b.addr, b.size, rfl, fits, by omega, ?_⟩
    have done := (rep.useWhole shape unused).pure (chunk2mem b.addr)
    rwa [pointer] at done ⊢
  · rw [if_neg whole, if_neg whole]
    obtain ⟨⟨s₁, ran, rep₁, keeps₁⟩, free⟩ :=
      rep.split_run shape unused enough multiple (by omega)
    have next := keeps s₁ rep₁ free
    have start : (do
        setSizeAndPinuseOfInuseChunk b.addr nb
        Chunk.setSizeAndPinuseOfFreeChunk (b.addr + nb) (b.size - nb)
        keep
        return chunk2mem b.addr) s = (do keep; return chunk2mem b.addr : Prog Nat) s₁ := by
      rw [← bind_assoc, Fuelled.bind_run, ran]
    cases kept : (h.split b n nb).keepRest bytes (b.addr + nb) (b.size - nb) with
    | none =>
        rw [kept] at next
        obtain ⟨s', failed, tags⟩ := next
        refine ⟨s', ?_, b, by simp [shape], notTop, fun word => ?_⟩
        · rw [start, Fuelled.bind_run, failed]
        -- the head was free when the call began and is used now
        · have used : (⟨b.addr, nb, true, true⟩ : Block) ∈ (h.split b n nb).blocks := by
            rw [rep.split_eq shape]
            simp
          have flags := (tags.head _ used).flags
          have old := word.flags
          have := b.pinuse.toNat_le
          rw [unused, Bool.toNat_false] at old
          simp only [Bool.toNat_true] at flags
          omega
    | some h' =>
        rw [kept] at next
        obtain ⟨s', ran', rep', keeps'⟩ := next
        refine ⟨b.addr, nb, rfl, Nat.le_refl _, by omega, s', ?_, rep', keeps₁.before keeps'⟩
        rw [start, Fuelled.bind_run, ran', ← pointer]
        rfl

/-! ## From a small bin -/

namespace Represents

variable {first stop limit nb idx i p bytes : Nat} {s : Store} {h : Heap} {loose rest : List Nat}

theorem marked (rep : Represents first stop limit s h loose) (bound : i < 32) :
    s.gm.smallmap.testBit i = !(h.small i).isEmpty := by
  have marked := rep.small.marked i bound
  cases shape : h.small i with
  | nil => simpa [shape] using marked
  | cons p rest => simpa [shape] using marked

/-- Block sizes are multiples of 16, so every other small bin stays empty. -/
theorem odd_bin (rep : Represents first stop limit s h loose) (odd : i % 2 = 1) :
    h.small i = [] := by
  by_contra nonempty
  obtain ⟨p, member⟩ := List.exists_mem_of_ne_nil _ nonempty
  have := (rep.small.member i p member).2.geometry rep.layout
  omega

/-- The first node of a small bin, as the code reads it. -/
theorem first_run (rep : Represents first stop limit s h loose) (shape : h.small i = p :: rest) :
    Chunk.fd (s.gm.smallbinAt i) s = .ok p s ∧ FreeAt h.top h.blocks p (8 * i) ∧ i < 32 := by
  have member : p ∈ h.small i := by simp [shape]
  obtain ⟨bound, free⟩ := rep.small.member i p member
  obtain ⟨accFd, -⟩ := node_accessible rep.tags rep.placed (rep.small.header member)
  have next := LinkedRing.chain_next (rep.small.ring i (by simp [shape]))
  rw [shape, List.headD_cons] at next
  exact ⟨(fd_run accFd).trans (by rw [next]), free, bound⟩

theorem unlink_blocks (h : Heap) (p size : Nat) :
    (h.unlink p size).blocks = h.blocks ∧ (h.unlink p size).top = h.top ∧
      (h.unlink p size).dv = h.dv ∧ (h.unlink p size).dvsize = h.dvsize := by
  unfold Heap.unlink
  split <;> exact ⟨rfl, rfl, rfl, rfl⟩

theorem unlinkFirst (rep : Represents first stop limit s h loose) (shape : h.small i = p :: rest) :
    Reaches first stop limit s h (unlinkFirstSmallChunk (s.gm.smallbinAt i) p i) ()
      (h.unlink p (8 * i)) (p :: loose) := by
  obtain ⟨-, free, bound⟩ := rep.first_run shape
  have removal := unlinkFirstSmallChunk_spec rep.tags rep.placed rep.small shape
  rw [show i = 8 * i / 8 by omega] at removal
  refine rep.unlinkSmall free (by omega) ⟨i, Or.inl (by simp [shape])⟩ ?_
  convert removal using 4 <;> omega

theorem smallIndex2size_eq (bound : i < 32) : smallIndex2size i = 8 * i := by
  simp only [smallIndex2size, shl32, smallbinShift, Nat.shiftLeft_eq]
  omega

/-- The bit of a bin that is not empty: Alloc does not step to the next one. -/
theorem exact_bit (rep : Represents first stop limit s h loose) (shape : h.small i = p :: rest) :
    not32 (s.gm.smallmap >>> i) &&& 1 = 0 := by
  obtain ⟨-, -, bound⟩ := rep.first_run shape
  have set : (s.gm.smallmap >>> i).testBit 0 = true := by
    rw [Nat.testBit_shiftRight, Nat.add_zero, rep.marked bound, shape]
    rfl
  have fits : s.gm.smallmap >>> i < 2 ^ 32 :=
    Nat.lt_of_le_of_lt (Nat.shiftRight_le _ _) rep.small.bits
  rw [Nat.and_one_is_mod]
  have clear : (not32 (s.gm.smallmap >>> i)).testBit 0 = false := by
    rw [testBit_not32 _ _ fits, set]
    rfl
  rw [Nat.testBit_zero] at clear
  have := of_decide_eq_false clear
  omega

/-- The exact bin serves the request. -/
theorem exactSmall (rep : Represents first stop limit s h []) (shape : h.small i = p :: rest)
    {b n : Block} (atB : h.blockAt p = some b) (atN : h.blockAt (p + 8 * i) = some n)
    (exact : paddedRequest bytes = 8 * i) :
    Answers first stop limit s h (allocExactSmall i (s.gm.smallmap >>> i)) id
      (paddedRequest bytes) (h.serveBin bytes p (8 * i) b n) := by
  obtain ⟨read, free, bound⟩ := rep.first_run shape
  obtain ⟨below, b', n', above, blocks, rfl, size, unused, foundB, foundN⟩ := rep.successor free
  obtain rfl := Option.some.inj (atB.symm.trans foundB)
  obtain rfl := Option.some.inj (atN.symm.trans foundN)
  have bit := rep.exact_bit shape
  obtain ⟨same, sameTop, -, -⟩ := unlink_blocks h b.addr (8 * i)
  rw [Heap.serveBin, if_pos (by omega)]
  have start : allocExactSmall i (s.gm.smallmap >>> i) s =
      (do unlinkFirstSmallChunk (s.gm.smallbinAt i) b.addr i
          setInuseAndPinuse b.addr b.size
          return chunk2mem b.addr : Prog Nat) s := by
    simp only [allocExactSmall, bit, Nat.add_zero, Fuelled.bind_run, run_readGm, read,
      smallIndex2size_eq bound, size]
  refine Answers.congr (Answers.after (rep.unlinkFirst shape) same sameTop fun s₁ rep₁ => ?_) start
  have served := (rep₁.useWhole (same.trans blocks) unused).pure (chunk2mem b.addr)
  rw [rep.chunk2mem_eq blocks] at served
  refine ⟨b.addr, b.size, rfl, by omega, by omega, ?_⟩
  rwa [rep.chunk2mem_eq blocks]

/-- A dv too small for the request is a small chunk, so it can be filed. -/
theorem keepSmall (small : bytes ≤ maxSmallRequest) (few : h.dvsize < 256) (p size : Nat) :
    ∃ h', h.fileDv = some h' ∧ h.keepRest bytes p size = some (h'.setDv p size) := by
  rw [Heap.keepRest, if_pos small]
  unfold Heap.fileDv
  split
  · exact ⟨h, rfl, rfl⟩
  · rw [Heap.link, if_pos few]
    exact ⟨_, rfl, rfl⟩

/-- What `handOut` asks of the continuation after a small request. -/
theorem keeps_replaceDv (small : bytes ≤ maxSmallRequest) (few : h.dvsize < 256) {size : Nat}
    (rep : Represents first stop limit s h [p]) (free : FreeAt h.top h.blocks p size) :
    match h.keepRest bytes p size with
    | some h' => Reaches first stop limit s h (replaceDv p size) () h' []
    | none => Refused first stop limit s h (replaceDv p size) := by
  obtain ⟨h', filed, kept⟩ := keepSmall small few p size
  rw [kept]
  exact rep.changeDv free few filed

/-- What `handOut` asks of the continuation after a large request. -/
theorem keeps_insertChunk (large : ¬ bytes ≤ maxSmallRequest) (fuel : Nat) {size : Nat}
    (rep : Represents first stop limit s h [p]) (free : FreeAt h.top h.blocks p size) :
    match h.keepRest bytes p size with
    | some h' => Reaches first stop limit s h (insertChunk (fuel + 1) p size) () h' []
    | none => Refused first stop limit s h (insertChunk (fuel + 1) p size) := by
  rw [Heap.keepRest, if_neg large]
  cases linked : h.link p size with
  | some h' => exact rep.link free linked fuel
  | none => exact rep.refused free linked fuel

theorem leftbits_least (rep : Represents first stop limit s h loose) (bound : idx < 32)
    (next : h.nextSmall idx = some i) :
    computeBit2idx (leastBit (shl32 (s.gm.smallmap >>> idx) idx &&& leftBits (idx2bit idx))) = i ∧
      idx < i ∧ i < 32 ∧ h.small i ≠ [] := by
  obtain ⟨here, inRange, before⟩ := List.find?_range_eq_some.mp next
  rw [List.mem_range] at inRange
  simp only [Bool.and_eq_true, decide_eq_true_eq, Bool.not_eq_eq_eq_not, Bool.not_true]
    at here before
  have bits : ∀ j < 32, (shl32 (s.gm.smallmap >>> idx) idx &&& leftBits (idx2bit idx)).testBit j =
      (decide (idx < j) && !(h.small j).isEmpty) := by
    intro j boundJ
    rw [Nat.testBit_and, testBit_leftBits bound boundJ, shl32, Nat.testBit_mod_two_pow,
      Nat.testBit_shiftLeft, Nat.testBit_shiftRight]
    by_cases later : idx < j
    · have shifted : idx + (j - idx) = j := by omega
      simp [later, Nat.le_of_lt later, boundJ, shifted, rep.marked boundJ]
    · simp [later]
  have fits : shl32 (s.gm.smallmap >>> idx) idx &&& leftBits (idx2bit idx) < 2 ^ 32 :=
    Nat.lt_of_le_of_lt Nat.and_le_left (Nat.mod_lt _ (by decide))
  have nonempty : h.small i ≠ [] := by
    intro empty
    simp [empty] at here
  refine ⟨computeBit2idx_leastBit fits ⟨inRange, ?_, fun j lower => ?_⟩, here.1, inRange, nonempty⟩
  · rw [bits i inRange]
    simp [here]
  · rw [bits j (by omega)]
    have := before j lower
    simp_all

/-- The next non-empty bin serves the request, the rest becomes dv. -/
theorem nextSmall (rep : Represents first stop limit s h []) (small : bytes ≤ maxSmallRequest)
    (at_ : paddedRequest bytes / 8 = idx) (next : h.nextSmall idx = some i)
    (shape : h.small i = p :: rest) {b n : Block} (atB : h.blockAt p = some b)
    (atN : h.blockAt (p + 8 * i) = some n) (few : h.dvsize < 256) :
    Answers first stop limit s h
      (allocNextSmall (paddedRequest bytes) idx (s.gm.smallmap >>> idx)) id (paddedRequest bytes)
      (h.serveBin bytes p (8 * i) b n) := by
  obtain ⟨least, most, multiple, -⟩ := paddedRequest_small small
  obtain ⟨bit, later, bound, -⟩ := rep.leftbits_least (by omega) next
  obtain ⟨read, free, -⟩ := rep.first_run shape
  have place := free.geometry rep.layout
  obtain ⟨below, b', n', above, blocks, rfl, size, unused, foundB, foundN⟩ := rep.successor free
  obtain rfl := Option.some.inj (atB.symm.trans foundB)
  obtain rfl := Option.some.inj (atN.symm.trans foundN)
  obtain ⟨same, sameTop, -, sameDv⟩ := unlink_blocks h b.addr (8 * i)
  have minimum : minChunkSize = 32 := by decide
  have word : sizeTSize ≠ 4 := by decide
  have plus := rep.plus_offset b.addr (paddedRequest bytes) (by omega)
  have rest : sub64 (8 * i) (paddedRequest bytes) = 8 * i - paddedRequest bytes :=
    sub64_of_le (by omega) (by omega)
  have start : allocNextSmall (paddedRequest bytes) idx (s.gm.smallmap >>> idx) s =
      (do unlinkFirstSmallChunk (s.gm.smallbinAt i) b.addr i
          handOut b.addr b.size (paddedRequest bytes)
            (replaceDv (b.addr + paddedRequest bytes) (b.size - paddedRequest bytes))) s := by
    simp only [allocNextSmall, bit, Fuelled.bind_run, run_readGm, read, smallIndex2size_eq bound,
      rest, handOut, size, minimum, plus, word, ne_eq, not_false_eq_true, true_and]
  rw [Heap.serveBin, ← size]
  refine Answers.congr (Answers.after (rep.unlinkFirst shape) same sameTop fun s₁ rep₁ => ?_) start
  rw [size]
  refine size ▸ handOut_spec rep₁ (same.trans blocks) unused least multiple (by omega)
    fun s₂ rep₂ free₂ => keeps_replaceDv (h := (h.unlink b.addr (8 * i)).split b n _) small
      (sameDv.trans_lt few) rep₂ free₂

/-! ## From dv and from top -/

/-- dv serves the request and keeps the rest. -/
theorem fromDv (rep : Represents first stop limit s h []) (least : 32 ≤ nb) (multiple : nb % 16 = 0)
    (fits : nb ≤ h.dvsize) {b n : Block} (atB : h.blockAt h.dv = some b)
    (atN : h.blockAt (h.dv + h.dvsize) = some n) :
    Answers first stop limit s h (allocFromDv nb) id nb (.served (h.dv + 32) (h.serveDv nb b n)) := by
  have present : h.dv ≠ 0 := fun none => by
    have := rep.filed.dvNone.mp none
    omega
  have free := rep.filed.dvFree present
  have place := free.geometry rep.layout
  obtain ⟨below, b', n', above, blocks, here, size, unused, foundB, foundN⟩ := rep.successor free
  obtain rfl := Option.some.inj (atB.symm.trans foundB)
  obtain rfl := Option.some.inj (atN.symm.trans foundN)
  obtain ⟨lower, next, notTop, inside, positive, reachB, reachN, low, enough, aligned⟩ :=
    rep.group blocks
  have pointer := rep.chunk2mem_eq blocks
  have minimum : minChunkSize = 32 := by decide
  have plus := rep.plus_offset b.addr nb (by omega)
  have dvAddr : s.gm.dv = b.addr := rep.dv.trans here.symm
  have dvSize : s.gm.dvsize = b.size := rep.dvsize.trans size.symm
  have rest : sub64 b.size nb = b.size - nb := sub64_of_le (by omega) (by omega)
  -- dv is taken out, used or split, and the rest is put back as dv
  obtain ⟨rep₀, keeps₀⟩ := rep.dropDv present (by simp)
  rw [← here] at rep₀
  rw [Heap.serveDv, ← here, ← size]
  by_cases whole : b.size - nb < 32
  · rw [if_pos whole]
    obtain ⟨s', ran, rep', keeps'⟩ := rep₀.useWhole (h := h.setDv 0 0) blocks unused
    refine ⟨b.addr, b.size, rfl, by omega, by omega, s', ?_, rep', keeps₀.after keeps'⟩
    have small : ¬ b.size - nb ≥ 32 := by omega
    simp [allocFromDv, dvAddr, dvSize, rest, minimum, small, ran, pointer]
  · rw [if_neg whole]
    obtain ⟨rep', keeps', free'⟩ :=
      rep₀.split (h := h.setDv 0 0) blocks unused least multiple (by omega)
    obtain ⟨rep'', keeps''⟩ := rep'.setDv free' rfl
    refine ⟨b.addr, nb, rfl, Nat.le_refl _, by omega, _, ?_, rep'',
      (keeps₀.after keeps').before keeps''⟩
    have large : b.size - nb ≥ 32 := by omega
    have tags := rep.tags
    have accHead := tags.accessible (a := b.addr + 8) (n := 8) (by omega) (by omega)
    have accRest := tags.accessible (a := b.addr + nb + 8) (n := 8) (by omega) (by omega)
    have accFoot := tags.accessible (a := b.addr + nb + (b.size - nb)) (n := 8) (by omega) (by omega)
    have plus' := rep.plus_offset (b.addr + nb) (b.size - nb) (by omega)
    simp [allocFromDv, dvAddr, dvSize, rest, minimum, large, pointer, plus, plus',
      Chunk.setSizeAndPinuseOfFreeChunk, Chunk.setSizeAndPinuseOfInuseChunk, Chunk.setFoot,
      Chunk.setPrevFoot, Chunk.setHead, store64, run_storeN, accHead, accRest, accFoot]
    exact carved_comm s.mem (by omega)

/-- Top as the last block. -/
theorem topBlock (rep : Represents first stop limit s h loose) :
    ∃ below t, h.blocks = below ++ [t] ∧ t.addr = h.top ∧ t.size = s.gm.topsize ∧
      h.blockAt h.top = some t ∧ h.topsize = s.gm.topsize := by
  obtain ⟨below, t, shape, atTop⟩ := rep.layout.last
  have finish : t.addr + t.size = stop := by
    have layout := rep.layout
    rw [shape] at layout
    exact (tiles_split layout.tiles).2
  have found := rep.layout.blockAt_eq rfl (b := t) (by rw [shape]; simp)
  have whole := rep.layout.topsize_eq rfl rfl
  have := rep.topsize
  rw [atTop] at found
  exact ⟨below, t, shape, atTop, by omega, found, by omega⟩

/-- Top serves the request and keeps the rest. -/
theorem fromTop (rep : Represents first stop limit s h []) (least : 32 ≤ nb)
    (multiple : nb % 16 = 0) (fits : nb < h.topsize) {t : Block} (atT : h.blockAt h.top = some t) :
    Answers first stop limit s h (allocFromTop nb) id nb (.served (h.top + 32) (h.splitTop t nb)) := by
  obtain ⟨below, t', shape, atTop, size, found, topsize⟩ := rep.topBlock
  obtain rfl := Option.some.inj (atT.symm.trans found)
  have bound := rep.layout.bound
  have extent := rep.topsize
  obtain ⟨rep', keeps⟩ := rep.splitTop shape atTop least multiple (by omega)
  refine ⟨t.addr, nb, by rw [atTop], Nat.le_refl _, by omega, _, ?_, rep', keeps⟩
  have tags := rep.tags
  have low := (rep.layout.bounds (b := t) (by rw [shape]; simp)).1
  have reach := tags.reach t (by rw [shape]; simp) atTop (t.size - nb) (by omega) (by omega)
  have accHead := tags.accessible (a := t.addr + 8) (n := 8) (by omega) (by omega)
  have accRest := tags.accessible (a := t.addr + nb + 8) (n := 8) (by omega) (by omega)
  have plus := rep.plus_offset t.addr nb (by omega)
  have rest : sub64 s.gm.topsize nb = t.size - nb := by
    rw [← size]
    exact sub64_of_le (by omega) (by omega)
  have topAddr : s.gm.top = t.addr := rep.top.trans atTop.symm
  have pointer : chunk2mem t.addr = t.addr + 32 :=
    add64_of_lt (by simp only [twoSizeTSizes, sizeTSize, Nat.shiftLeft_eq]; omega)
  simp [allocFromTop, topAddr, rest, plus, pointer, Chunk.setHead, setSizeAndPinuseOfInuseChunk,
    store64, run_storeN, accHead, accRest, ← atTop]

/-! ## From a tree bin -/

/-- The common end of the tree searches, at the root they settle on. -/
theorem splitTree_spec (rep : Represents first stop limit s h []) {size : Nat} (fuel : Nat)
    (free : FreeAt h.top h.blocks p size) (isLarge : 256 ≤ size) (binned : h.Binned p)
    (least : 32 ≤ paddedRequest bytes) (multiple : paddedRequest bytes % 16 = 0)
    (fits : paddedRequest bytes ≤ size) {b n : Block} (atB : h.blockAt p = some b)
    (atN : h.blockAt (p + size) = some n) {keep : Nat → Nat → Prog Unit}
    (keeps : ∀ s' r rsize h', h'.dvsize = h.dvsize → Represents first stop limit s' h' [r] →
      FreeAt h'.top h'.blocks r rsize →
      match h'.keepRest bytes r rsize with
      | some h'' => Reaches first stop limit s' h' (keep r rsize) () h'' []
      | none => Refused first stop limit s' h' (keep r rsize)) :
    Answers first stop limit s h
      (splitTree fuel (paddedRequest bytes) p (size - paddedRequest bytes) keep) id
      (paddedRequest bytes) (h.serveBin bytes p size b n) := by
  have large : LargeAt h.top h.blocks p := ⟨size, free, isLarge⟩
  have place := free.geometry rep.layout
  obtain ⟨below, b', n', above, blocks, rfl, rfl, unused, foundB, foundN⟩ := rep.successor free
  obtain rfl := Option.some.inj (atB.symm.trans foundB)
  obtain rfl := Option.some.inj (atN.symm.trans foundN)
  obtain ⟨same, sameTop, -, sameDv⟩ := unlink_blocks h b.addr b.size
  have minimum : minChunkSize = 32 := by decide
  have plus := rep.plus_offset b.addr (paddedRequest bytes) (by omega)
  have back : add64 (b.size - paddedRequest bytes) (paddedRequest bytes) = b.size := by
    rw [add64_of_lt (by omega)]
    omega
  have after : okNext b.addr (b.addr + paddedRequest bytes) = true := by
    simp only [okNext, decide_eq_true_eq]
    omega
  have start : splitTree fuel (paddedRequest bytes) b.addr (b.size - paddedRequest bytes) keep s =
      (do unlinkLargeChunk fuel b.addr
          handOut b.addr b.size (paddedRequest bytes)
            (keep (b.addr + paddedRequest bytes) (b.size - paddedRequest bytes))) s := by
    simp only [splitTree, Fuelled.bind_run, large.ok_run rep.layout rep.placed, if_true, plus, after,
      handOut, minimum, back]
  rw [Heap.serveBin]
  refine Answers.congr (Answers.after (rep.unlinkLarge free isLarge binned fuel) same sameTop
    fun s₁ rep₁ => ?_) start
  exact handOut_spec rep₁ (same.trans blocks) unused least multiple fits
    fun s₂ rep₂ free₂ => keeps s₂ _ _ _ sameDv rep₂ free₂

end Represents

end Unimem
