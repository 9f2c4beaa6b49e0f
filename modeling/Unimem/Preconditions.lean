import Unimem.Guarded
import Unimem.Run

/-!
No check of the guarded allocator ever fails. At a store that represents a heap
each helper is entered with its precondition met, so asserting changes nothing;
and a call of a run starts at such a store, or before the first InitOrExpand.
-/

namespace Unimem

open Tiling ByteMemory Memory Fuelled WordArith MallocState

/-! ## Programs that agree at a store -/

section Alike

variable {α β : Type} {s : Store} {check : Prog Bool}

theorem bind_alike {start start' : Prog α} {rest rest' : α → Prog β} (one : start s = start' s)
    (two : ∀ value s', start' s = .ok value s' → rest value s' = rest' value s') :
    (start >>= rest) s = (start' >>= rest') s := by
  rw [bind_run, bind_run, one]
  cases outcome : start' s with
  | ok value s' => exact two value s' outcome
  | error stop s' => rfl

theorem ran_bind {value : α} {s' : Store} {start : Prog α} (ran : start s = .ok value s')
    (rest : α → Prog β) : (start >>= rest) s = rest value s' := by
  rw [bind_run, ran]

/-- A check that passes is as good as none. -/
theorem asserting_bind (holds : check s = .ok true s) (rest : Unit → Prog α) :
    (Guard.asserting check >>= rest) s = rest () s := by
  rw [bind_run, Guard.asserting, bind_run, holds]
  rfl

theorem ite_alike {condition : Prop} [Decidable condition] {yes yes' no no' : Prog α}
    (left : condition → yes s = yes' s) (right : ¬ condition → no s = no' s) :
    (if condition then yes else no) s = (if condition then yes' else no') s := by
  split
  · rename_i holds
    exact left holds
  · rename_i fails
    exact right fails

end Alike

namespace Guarded

section Checks

variable {first stop limit i p size mask : Nat} {s : Store} {h : Heap} {loose rest : List Nat}

theorem indexed_run (bound : i < 32) (s : Store) : indexed i s = .ok true s := by
  have counts : i < nsmallbins ∧ i < ntreebins := ⟨bound, bound⟩
  simp only [indexed, counts, and_self, decide_true, run_pure]

theorem present_run (notNull : p ≠ 0) (s : Store) : present p s = .ok true s := by
  simp only [present, notNull, ne_eq, not_false_eq_true, decide_true, run_pure]

theorem smallSized_run (least : 32 ≤ size) (few : size < 256) (s : Store) :
    smallSized size s = .ok true s := by
  have minimum : minChunkSize = 32 := by decide
  have bound : minLargeSize = 256 := by decide
  simp only [smallSized, minimum, bound, least, few, and_self, decide_true, run_pure]

theorem stored_run (rep : Represents first stop limit s h loose)
    (free : FreeAt h.top h.blocks p size) : stored p size s = .ok true s := by
  simp only [stored, bind_run, free.chunksize_run rep.tags, beq_self_eq_true, run_pure]

theorem vacant_run (rep : Represents first stop limit s h loose)
    (free : FreeAt h.top h.blocks p size) : vacant p size s = .ok true s := by
  have chunksize := free.chunksize_run rep.tags
  obtain ⟨-, b, member, rfl, rfl, unused⟩ := free
  have cinuse := rep.tags.cinuse_run member
  rw [unused, Bool.toNat_false, Nat.mul_zero] at cinuse
  simp only [vacant, bind_run, cinuse, chunksize, and_self, decide_true, run_pure]

/-- The count of trailing zeros is a bin index only for a mask that is not zero. -/
theorem mask_ne_zero (index : computeBit2idx mask = i) (bound : i < 32) : mask ≠ 0 := by
  rintro rfl
  have count : computeBit2idx 0 = 32 := by decide
  omega

theorem namesSmall_run (rep : Represents first stop limit s h loose)
    (shape : h.small i = p :: rest) (index : computeBit2idx mask = i) :
    namesSmall mask s = .ok true s := by
  obtain ⟨read, free, bound⟩ := rep.first_run shape
  have member : p ∈ h.small i := by simp [shape]
  have notHeader := rep.small.header_ne rep.layout rep.placed bound member
  have back : Chunk.bk p s = .ok (s.gm.smallbinAt i) s := by
    obtain ⟨-, accBk⟩ := node_accessible rep.tags rep.placed (rep.small.node member)
    have links := rep.small.ring i (by simp [shape])
    rw [shape, ← List.nil_append (p :: rest)] at links
    rw [bk_run accBk, (LinkedRing.ring_neighbours links).2.1]
    rfl
  have nonzero := mask_ne_zero index bound
  simp only [namesSmall, index, bind_run, run_readGm, read, back, nonzero, ne_eq, Ne.symm notHeader,
    not_false_eq_true, and_self, decide_true, Represents.smallIndex2size_eq bound,
    vacant_run rep free, run_pure, Bool.and_self]

theorem namesTree_run (rep : Represents first stop limit s h loose)
    (shape : (h.tree i).nodes = p :: rest) (index : computeBit2idx mask = i) :
    namesTree mask s = .ok true s := by
  obtain ⟨atRoot, notNull, free, isLarge, bound, -, chunksize, -⟩ := rep.root_run shape
  have nonzero := mask_ne_zero index bound
  have sized := ((rep.tree.bin i).sized (by simp [shape])).2
  simp only [namesTree, index, bind_run, treebin, run_readGm, run_pure, atRoot, chunksize, nonzero,
    ne_eq, notNull, not_false_eq_true, sized, and_self, decide_true, vacant_run rep free,
    Bool.and_self]

end Checks

/-! ## The helpers -/

section Helpers

variable {first stop limit fuel i p size nb : Nat} {s : Store} {h : Heap} {loose rest : List Nat}

theorem unlinkFirstSmall_guarded (rep : Represents first stop limit s h loose)
    (shape : h.small i = p :: rest) :
    unlinkFirstSmallChunk Guard.asserting (s.gm.smallbinAt i) p i s =
      MallocState.unlinkFirstSmallChunk (s.gm.smallbinAt i) p i s := by
  obtain ⟨-, free, bound⟩ := rep.first_run shape
  rw [← Represents.smallIndex2size_eq bound] at free
  rw [unlinkFirstSmallChunk, asserting_bind (indexed_run bound s),
    asserting_bind (stored_run rep free)]

theorem unlinkSmall_guarded (rep : Represents first stop limit s h loose)
    (free : FreeAt h.top h.blocks p size) (few : size < 256) :
    unlinkSmallChunk Guard.asserting p size s = MallocState.unlinkSmallChunk p size s := by
  obtain ⟨index, bound, -⟩ := SmallBins.smallIndex_eq rep.layout free few
  rw [unlinkSmallChunk, asserting_bind (indexed_run (by rw [index]; exact bound) s),
    asserting_bind (stored_run rep free)]

theorem insertSmall_guarded (least : 32 ≤ size) (few : size < 256) (p : Nat) (s : Store) :
    insertSmallChunk Guard.asserting p size s = MallocState.insertSmallChunk p size s := by
  have bound : smallIndex size < 32 := by
    simp only [smallIndex, smallbinShift, Nat.shiftRight_eq_div_pow]
    omega
  rw [insertSmallChunk, asserting_bind (smallSized_run least few s),
    asserting_bind (indexed_run bound s)]

theorem insertLarge_guarded (p size : Nat) (s : Store) :
    insertLargeChunk Guard.asserting fuel p size s = MallocState.insertLargeChunk fuel p size s := by
  rw [insertLargeChunk, asserting_bind (indexed_run (computeTreeIndex_lt size) s)]

theorem insert_guarded (least : 32 ≤ size) (p : Nat) (s : Store) :
    insertChunk Guard.asserting fuel p size s = MallocState.insertChunk fuel p size s := by
  unfold insertChunk MallocState.insertChunk
  exact ite_alike (fun few => insertSmall_guarded least ((Represents.isSmall_iff size).mp few) p s)
    fun _ => insertLarge_guarded p size s

/-- A dv below 256 bytes may be filed as a small chunk. -/
theorem replaceDv_guarded (rep : Represents first stop limit s h loose) (few : h.dvsize < 256)
    (p size : Nat) : replaceDv Guard.asserting p size s = MallocState.replaceDv p size s := by
  rw [← rep.dvsize] at few
  have isSmall : (pure (isSmall s.gm.dvsize) : Prog Bool) s = .ok true s := by
    rw [run_pure, (Represents.isSmall_iff _).mpr few]
  rw [replaceDv, MallocState.replaceDv, bind_run, bind_run, run_readGm]
  simp only
  rw [asserting_bind isSmall]
  refine ite_alike (fun _ => rfl) fun _ => ?_
  by_cases none : s.gm.dvsize = 0
  · simp only [none, ne_eq, not_true_eq_false, if_false]
  · simp only [none, ne_eq, not_false_eq_true, if_true, bind_run, run_readGm]
    have present : h.dv ≠ 0 := fun zero => none (rep.dvsize.trans (rep.filed.dvNone.mp zero))
    have least := ((rep.filed.dvFree present).geometry rep.layout)
    rw [insertSmall_guarded (by rw [rep.dvsize]; omega) few]

/-- The index read back of a chunk to unlink is that of a bin. -/
theorem unlinkLarge_of (reads : ∀ XP R s₁ s₂, TreeChunk.parent p s = .ok XP s₁ →
      unlinkLargeChunk.replacement fuel p s₁ = .ok R s₂ →
      ∃ i < 32, s₂.mem.accessible (p + 56) 4 = true ∧ indexAt s₂.mem p = i) :
    unlinkLargeChunk Guard.asserting fuel p s = MallocState.unlinkLargeChunk fuel p s := by
  refine bind_alike rfl fun XP s₁ parent => bind_alike rfl fun R s₂ replaced => ?_
  obtain ⟨i, bound, acc, index⟩ := reads XP R s₁ s₂ parent replaced
  have read : ∀ g, TreeChunk.index p { s₂ with gm := g } = .ok i { s₂ with gm := g } := fun g => by
    have ran : loadN 4 (p + 56) { s₂ with gm := g } = .ok (indexAt s₂.mem p) { s₂ with gm := g } :=
      run_loadN acc
    rwa [index] at ran
  refine ite_alike (fun _ => ?_) fun _ => rfl
  rw [bind_run, bind_run, read s₂.gm]
  simp only
  rw [asserting_bind (indexed_run bound s₂)]
  refine bind_alike rfl fun root s₃ rooted => ?_
  obtain ⟨rfl, rfl⟩ : s₂.gm.treebins i = root ∧ s₂ = s₃ := by
    simpa [treebin] using EStateM.Result.ok.inj rooted
  refine ite_alike (fun _ => ?_) fun _ => rfl
  rw [bind_run, bind_run, setTreebin, run_writeGm]
  simp only
  refine ite_alike (fun _ => asserting_bind ?_ _) fun _ => rfl
  rw [bind_run, read]
  exact indexed_run bound _

theorem unlinkLarge_guarded (rep : Represents first stop limit s h loose)
    (free : FreeAt h.top h.blocks p size) (isLarge : 256 ≤ size) (binned : h.Binned p) :
    unlinkLargeChunk Guard.asserting fuel p s = MallocState.unlinkLargeChunk fuel p s := by
  have member := (rep.binned_iff free).mp binned
  rw [if_neg (by omega)] at member
  have ring := rep.tree.bin (computeTreeIndex size)
  have large := ring.large member
  have acc := large.accessible rep.tags (a := p + 56) (n := 4) (by omega) (by omega)
  have index := (ring.leaf p member).2.2
  refine unlinkLarge_of fun XP R s₁ s₂ parent replaced => ?_
  rw [large.parent_run rep.tags] at parent
  obtain ⟨-, rfl⟩ := EStateM.Result.ok.inj parent
  refine ⟨computeTreeIndex size, computeTreeIndex_lt size, ?_⟩
  by_cases single : bkAt s.mem p = p
  · rw [replacement_none rep.tags ring member single] at replaced
    obtain ⟨-, rfl⟩ := EStateM.Result.ok.inj replaced
    exact ⟨acc, index⟩
  · rw [replacement_ring rep.tags rep.placed ring member single] at replaced
    obtain ⟨-, rfl⟩ := EStateM.Result.ok.inj replaced
    have kept := (ring.bridge_fields rep.layout member large).2.2
    exact ⟨((bridge_agrees s.mem _ _).accessible _ _).trans acc,
      (kept _ _ (by omega) (by omega)).trans index⟩

theorem unlink_guarded (rep : Represents first stop limit s h loose)
    (free : FreeAt h.top h.blocks p size) (binned : h.Binned p) :
    unlinkChunk Guard.asserting fuel p size s = MallocState.unlinkChunk fuel p size s := by
  unfold unlinkChunk MallocState.unlinkChunk
  have few := Represents.isSmall_iff size
  exact ite_alike (fun yes => unlinkSmall_guarded rep free (few.mp yes)) fun no =>
    unlinkLarge_guarded rep free (Nat.le_of_not_lt fun less => no (few.mpr less)) binned

/-- The path ends before a null node is read, at any store. -/
theorem leastOfPath_guarded (fuel : Nat) (node : Nat × Nat × Nat) (s : Store) :
    leastOfPath Guard.asserting nb fuel node s = MallocState.leastOfPath nb fuel node s := by
  induction fuel generalizing node s with
  | zero => rfl
  | succ fuel ih =>
      obtain ⟨t, v, rsize⟩ := node
      unfold leastOfPath MallocState.leastOfPath
      refine ite_alike (fun _ => rfl) fun notNull => ?_
      rw [asserting_bind (present_run notNull s)]
      refine bind_alike rfl fun size s₁ _ => bind_alike rfl fun next s₂ _ => ?_
      exact ih _ _

theorem walk_guarded (fuel : Nat) {w : Walk} (notNull : w.t ≠ 0) (s : Store) :
    tmallocLarge.walk Guard.asserting nb fuel w s = MallocState.tmallocLarge.walk nb fuel w s := by
  induction fuel generalizing w s with
  | zero => rfl
  | succ fuel ih =>
      unfold tmallocLarge.walk MallocState.tmallocLarge.walk
      rw [asserting_bind (present_run notNull s)]
      refine bind_alike rfl fun size s₁ _ => ite_alike (fun _ => rfl) fun _ => ?_
      refine bind_alike rfl fun rt s₂ _ => bind_alike rfl fun t s₃ _ => ?_
      exact ite_alike (fun _ => rfl) fun another => ih another _

end Helpers

/-! ## Alloc -/

section Allocs

variable {first stop limit fuel i idx p size nb bytes root r rsize v : Nat} {s : Store} {h : Heap}
  {loose rest : List Nat}

/-- Where a chunk is split: what keeps the remainder is entered at a heap. -/
theorem remainder_guarded {α : Type} (rep : Represents first stop limit s h [p])
    (free : FreeAt h.top h.blocks p size) (least : 32 ≤ nb) (multiple : nb % 16 = 0)
    (fits : nb + 32 ≤ size) (atR : r = p + nb) (sized : rsize = size - nb)
    {keep keep' : Prog Unit} {next : Unit → Prog α}
    (kept : ∀ s' h', h'.dvsize = h.dvsize → Represents first stop limit s' h' [r] →
      keep s' = keep' s') :
    (do setSizeAndPinuseOfInuseChunk p nb
        Chunk.setSizeAndPinuseOfFreeChunk r rsize
        keep >>= next) s =
      (do setSizeAndPinuseOfInuseChunk p nb
          Chunk.setSizeAndPinuseOfFreeChunk r rsize
          keep' >>= next) s := by
  obtain ⟨below, b, n, above, shape, rfl, rfl, unused, -, -⟩ := rep.successor free
  obtain ⟨⟨s', ran, rep', -⟩, -⟩ := rep.split_run shape unused least multiple fits
  refine bind_alike rfl fun _ s₁ one => bind_alike rfl fun _ s₂ two =>
    bind_alike ?_ fun _ _ _ => rfl
  subst atR sized
  rw [ran_bind one, two] at ran
  obtain ⟨-, rfl⟩ := EStateM.Result.ok.inj ran
  exact kept _ (h.split b n nb) rfl rep'

theorem splitTree_guarded (rep : Represents first stop limit s h [])
    (free : FreeAt h.top h.blocks v size) (isLarge : 256 ≤ size) (binned : h.Binned v)
    (least : 32 ≤ nb) (multiple : nb % 16 = 0) (fits : nb ≤ size)
    {keep keep' : Nat → Nat → Prog Unit}
    (kept : ∀ s' h' r rsize, h'.dvsize = h.dvsize → 32 ≤ rsize →
      Represents first stop limit s' h' [r] → keep r rsize s' = keep' r rsize s') :
    splitTree Guard.asserting fuel nb v (size - nb) keep s =
      MallocState.splitTree fuel nb v (size - nb) keep' s := by
  have place := free.geometry rep.layout
  obtain ⟨s₁, ran, rep₁, -⟩ := rep.unlinkLarge free isLarge binned fuel
  obtain ⟨same, sameTop, -, sameDv⟩ := Represents.unlink_blocks h v size
  have free₁ : FreeAt (h.unlink v size).top (h.unlink v size).blocks v size := by
    rw [same, sameTop]
    exact free
  have plus := rep.plus_offset v nb (by omega)
  refine bind_alike rfl fun ok s₀ checked => ?_
  rw [okAddress_run] at checked
  obtain ⟨-, rfl⟩ := EStateM.Result.ok.inj checked
  refine ite_alike (fun _ => ite_alike (fun _ => ?_) fun _ => rfl) fun _ => rfl
  refine bind_alike (unlinkLarge_guarded rep free isLarge binned) fun _ s' taken => ?_
  rw [ran] at taken
  obtain ⟨-, rfl⟩ := EStateM.Result.ok.inj taken
  refine ite_alike (fun _ => rfl) fun many => ?_
  have minimum : minChunkSize = 32 := by decide
  rw [minimum] at many
  exact remainder_guarded rep₁ free₁ least multiple (by omega) plus rfl fun s₂ h₂ dvsize rep₂ =>
    kept s₂ h₂ _ _ (dvsize.trans sameDv) (by omega) rep₂

theorem exactSmall_guarded (rep : Represents first stop limit s h [])
    (shape : h.small i = p :: rest) :
    allocExactSmall Guard.asserting i (s.gm.smallmap >>> i) s =
      Unimem.allocExactSmall i (s.gm.smallmap >>> i) s := by
  obtain ⟨read, -, bound⟩ := rep.first_run shape
  rw [allocExactSmall, Unimem.allocExactSmall, rep.exact_bit shape, Nat.add_zero,
    asserting_bind (indexed_run bound s)]
  simp only [bind_run, run_readGm, read]
  rw [unlinkFirstSmall_guarded rep shape]

theorem nextSmall_guarded (rep : Represents first stop limit s h []) (least : 32 ≤ nb)
    (multiple : nb % 16 = 0) (at_ : nb / 8 = idx) (bound : idx < 32)
    (next : h.nextSmall idx = some i) (few : h.dvsize < 256) :
    allocNextSmall Guard.asserting nb idx (s.gm.smallmap >>> idx) s =
      Unimem.allocNextSmall nb idx (s.gm.smallmap >>> idx) s := by
  obtain ⟨index, later, boundI, nonempty⟩ := rep.leftbits_least bound next
  obtain ⟨p, rest, shape⟩ := List.exists_cons_of_ne_nil nonempty
  obtain ⟨read, free, -⟩ := rep.first_run shape
  have place := free.geometry rep.layout
  obtain ⟨same, sameTop, -, sameDv⟩ := Represents.unlink_blocks h p (8 * i)
  obtain ⟨s₁, ran, rep₁, -⟩ := rep.unlinkFirst shape
  have free₁ : FreeAt (h.unlink p (8 * i)).top (h.unlink p (8 * i)).blocks p (8 * i) := by
    rw [same, sameTop]
    exact free
  have plus := rep.plus_offset p nb (by omega)
  have sized : sub64 (smallIndex2size i) nb = 8 * i - nb := by
    rw [Represents.smallIndex2size_eq boundI, sub64_of_le (by omega) (by omega)]
  have minimum : minChunkSize = 32 := by decide
  have word : sizeTSize ≠ 4 := by decide
  rw [allocNextSmall, Unimem.allocNextSmall, asserting_bind (namesSmall_run rep shape index), index,
    asserting_bind (indexed_run boundI s)]
  rw [ran_bind (run_readGm s), ran_bind (run_readGm s), ran_bind read, ran_bind read]
  refine bind_alike (unlinkFirstSmall_guarded rep shape) fun _ s' taken => ?_
  rw [ran] at taken
  obtain ⟨-, rfl⟩ := EStateM.Result.ok.inj taken
  refine ite_alike (fun _ => rfl) fun many => ?_
  rw [sized, minimum] at many
  exact remainder_guarded rep₁ free₁ least multiple (by omega) plus sized fun s₂ h₂ dvsize rep₂ =>
    replaceDv_guarded rep₂ (by rw [dvsize, sameDv]; exact few) _ _

theorem tmallocSmall_guarded (rep : Represents first stop limit s h []) (least : 32 ≤ nb)
    (most : nb ≤ 256) (multiple : nb % 16 = 0) (next : h.nextTree 0 = some i)
    (few : h.dvsize < 256) :
    tmallocSmall Guard.asserting fuel nb s = MallocState.tmallocSmall fuel nb s := by
  obtain ⟨root, rest, shape⟩ := List.exists_cons_of_ne_nil (nextTree_some next).2.2.1
  obtain ⟨atRoot, notNull, free, isLarge, bound, binned, chunksize, leaf, -⟩ := rep.root_run shape
  have place := free.geometry rep.layout
  have index := ((rep.tree_least (j := 0) rep.tree.bits (by simp)).1 i next).2
  have named : (do namesTree (leastBit (← readGm).treemap) : Prog Bool) s = .ok true s :=
    namesTree_run rep shape index
  have sized : sub64 (h.tree i).size nb = (h.tree i).size - nb :=
    sub64_of_le (by omega) (by omega)
  have rooted : treebin i s = .ok root s := by rw [← atRoot]; rfl
  rw [tmallocSmall, MallocState.tmallocSmall, asserting_bind named, ran_bind (run_readGm s),
    ran_bind (run_readGm s), index, asserting_bind (indexed_run bound s), ran_bind rooted,
    ran_bind rooted, asserting_bind (present_run notNull s)]
  simp only [bind_run, chunksize, leaf, sized, leastOfPath_guarded]
  cases fuel with
  | zero => rfl
  | succ fuel =>
      rw [leastOfPath_null]
      exact splitTree_guarded rep free isLarge binned least multiple (by omega)
        fun s' h' r rsize dvsize _ rep' => replaceDv_guarded rep' (by rw [dvsize]; exact few) r rsize

theorem nextBin_guarded (rep : Represents first stop limit s h loose) (bound : idx < 32) :
    tmallocLarge.nextBin Guard.asserting idx s = MallocState.tmallocLarge.nextBin idx s := by
  have bits : ∀ k < 32, (leftBits (idx2bit idx) &&& s.gm.treemap).testBit k =
      (decide (idx + 1 ≤ k) && s.gm.treemap.testBit k) := by
    intro k boundK
    rw [Nat.testBit_and, testBit_leftBits bound boundK]
    rfl
  have fits : leftBits (idx2bit idx) &&& s.gm.treemap < 2 ^ 32 :=
    Nat.lt_of_le_of_lt Nat.and_le_right rep.tree.bits
  obtain ⟨found, none⟩ := rep.tree_least fits bits
  rw [tmallocLarge.nextBin, MallocState.tmallocLarge.nextBin, ran_bind (run_readGm s),
    ran_bind (run_readGm s)]
  refine ite_alike (fun nonzero => ?_) fun _ => rfl
  cases next : h.nextTree (idx + 1) with
  | none => exact absurd (none next) nonzero
  | some j =>
      obtain ⟨boundJ, -, nonempty, -⟩ := nextTree_some next
      obtain ⟨root, rest, shape⟩ := List.exists_cons_of_ne_nil nonempty
      have index := (found j next).2
      rw [asserting_bind (namesTree_run rep shape index), index,
        asserting_bind (indexed_run boundJ s)]

/-- What a search may have in hand: nothing, or the root of a bin of large enough chunks. -/
def Settled (h : Heap) (nb : Nat) (best : Nat × Nat) : Prop :=
  best = (0, neg64 nb) ∨ ∃ i root rest, (h.tree i).nodes = root :: rest ∧ nb ≤ (h.tree i).size ∧
    best = (root, (h.tree i).size - nb)

/-- A path from a root, or from null, that ends settles on a root or on what it had. -/
theorem path_settles (rep : Represents first stop limit s h loose) (positive : 0 < nb)
    (word : nb < 2 ^ 64) {t : Nat} {best best' : Nat × Nat} {s' : Store}
    (from_ : t = 0 ∨ ∃ i rest, (h.tree i).nodes = t :: rest)
    (before : Settled h nb best)
    (ran : MallocState.leastOfPath nb fuel (t, best.1, best.2) s = .ok best' s') :
    Settled h nb best' ∧ s' = s := by
  have ends : ∀ {result : Nat × Nat},
      MallocState.leastOfPath nb (fuel + 2) (t, best.1, best.2) s = .ok result s →
      best' = result ∧ s' = s := fun same => by
    have whole := (leastOfPath_steady nb (t, best.1, best.2)).le (Nat.le_add_right fuel 2) s
      (ran ▸ Call.ok_ends)
    exact EStateM.Result.ok.inj ((ran.symm.trans whole.symm).trans same)
  rcases from_ with rfl | ⟨i, rest, shape⟩
  · obtain ⟨rfl, same⟩ := ends (leastOfPath_null best.1 best.2)
    exact ⟨before, same⟩
  · obtain ⟨-, notNull, free, -⟩ := rep.root_run shape
    have place := free.geometry rep.layout
    obtain ⟨rfl, same⟩ := ends (rep.leastOfPath_root shape best.1 best.2)
    refine ⟨?_, same⟩
    by_cases better : sub64 (h.tree i).size nb < best.2
    · rw [if_pos better]
      have enough : nb ≤ (h.tree i).size := by
        -- a smaller size wraps around to a remainder larger than any other
        rcases before with rfl | ⟨j, other, tail, shapeJ, enoughJ, rfl⟩
        · exact (sub64_lt_neg64 _ positive word (by omega)).mp better
        · obtain ⟨-, -, freeJ, -⟩ := rep.root_run shapeJ
          have placeJ := freeJ.geometry rep.layout
          by_contra less
          rw [sub64_of_lt (by omega) word] at better
          simp only at better
          omega
      rw [sub64_of_le enough (by omega)]
      exact Or.inr ⟨i, t, rest, shape, enough, rfl⟩
    · rwa [if_neg better]

theorem settle_guarded (rep : Represents first stop limit s h []) (least : 32 ≤ nb)
    (multiple : nb % 16 = 0) (word : nb < 2 ^ 64) (bound : idx < 32) {w : Walk}
    (atT : w.t = 0 ∨ ∃ i rest, (h.tree i).nodes = w.t :: rest)
    (before : Settled h nb (w.v, w.rsize)) :
    tmallocLarge.settle Guard.asserting fuel nb idx w s =
      MallocState.tmallocLarge.settle fuel nb idx w s := by
  refine bind_alike (ite_alike (fun _ => nextBin_guarded rep bound) fun _ => rfl)
    fun t s₀ found => ?_
  obtain ⟨from_, rfl⟩ : (t = 0 ∨ ∃ i rest, (h.tree i).nodes = t :: rest) ∧ s₀ = s := by
    rw [run_ite, rep.nextBin_run bound, run_pure] at found
    split at found
    · obtain ⟨rfl, same⟩ := EStateM.Result.ok.inj found
      refine ⟨?_, same.symm⟩
      cases next : h.nextTree (idx + 1) with
      | none => exact Or.inl rfl
      | some j =>
          obtain ⟨root, rest, shape⟩ := List.exists_cons_of_ne_nil (nextTree_some next).2.2.1
          exact Or.inr ⟨j, rest, by simp only [shape, List.headD_cons]⟩
    · obtain ⟨rfl, same⟩ := EStateM.Result.ok.inj found
      exact ⟨atT, same.symm⟩
  refine bind_alike (leastOfPath_guarded _ _ _) fun best s₁ searched => ?_
  obtain ⟨settled, rfl⟩ := path_settles rep (by omega) word from_ before searched
  rw [ran_bind (run_readGm s₁), ran_bind (run_readGm s₁)]
  refine ite_alike (fun chosen => ?_) fun _ => rfl
  rcases settled with rfl | ⟨i, root, rest, shape, enough, rfl⟩
  · exact absurd rfl chosen.1
  · obtain ⟨-, -, free, isLarge, -, binned, -⟩ := rep.root_run shape
    exact splitTree_guarded rep free isLarge binned least multiple enough
      fun s' h' r rsize _ many _ => insert_guarded many r s'

theorem tmallocLarge_guarded (rep : Represents first stop limit s h []) (least : 32 ≤ nb)
    (multiple : nb % 16 = 0) (word : nb < 2 ^ 64) :
    tmallocLarge Guard.asserting fuel nb s = MallocState.tmallocLarge fuel nb s := by
  have bound := computeTreeIndex_lt nb
  have atRoot := rep.tree.root (computeTreeIndex nb) bound
  have rooted : treebin (computeTreeIndex nb) s =
      .ok ((h.tree (computeTreeIndex nb)).nodes.headD 0) s := by rw [← atRoot]; rfl
  rw [tmallocLarge, MallocState.tmallocLarge, asserting_bind (indexed_run bound s), ran_bind rooted,
    ran_bind rooted]
  refine bind_alike (ite_alike (fun notNull => walk_guarded fuel notNull s) fun _ => rfl)
    fun w s' walked => ?_
  cases shape : (h.tree (computeTreeIndex nb)).nodes with
  | nil =>
      rw [shape, List.headD_nil, run_ite, if_neg (fun absent => absent rfl), run_pure] at walked
      obtain ⟨rfl, rfl⟩ := EStateM.Result.ok.inj walked
      exact settle_guarded rep least multiple word bound (Or.inl rfl) (Or.inl rfl)
  | cons root rest =>
      obtain ⟨-, notNull, -⟩ := rep.root_run shape
      rw [shape, List.headD_cons, run_ite, if_pos notNull] at walked
      cases fuel with
      | zero => cases walked
      | succ fuel =>
          rw [rep.walk_root shape (by omega) word] at walked
          obtain ⟨rfl, rfl⟩ := EStateM.Result.ok.inj walked
          by_cases enough : nb ≤ (h.tree (computeTreeIndex nb)).size
          · rw [if_pos enough]
            refine settle_guarded rep least multiple word bound ?_
              (Or.inr ⟨_, root, rest, shape, enough, rfl⟩)
            by_cases exact_ : (h.tree (computeTreeIndex nb)).size = nb
            · exact Or.inr ⟨computeTreeIndex nb, rest, by simp only [if_pos exact_, shape]⟩
            · exact Or.inl (by simp only [if_neg exact_])
          · rw [if_neg enough]
            exact settle_guarded rep least multiple word bound (Or.inl rfl) (Or.inl rfl)

theorem tryAlloc_guarded (rep : Represents first stop limit s h []) (fuel bytes : Nat) :
    tryAlloc Guard.asserting fuel bytes s = Unimem.tryAlloc fuel bytes s := by
  by_cases few : bytes ≤ maxSmallRequest
  · obtain ⟨least, most, multiple, -⟩ := paddedRequest_small few
    have index : smallIndex (paddedRequest bytes) = paddedRequest bytes / 8 := by
      simp only [smallIndex, smallbinShift, Nat.shiftRight_eq_div_pow]
      omega
    have bound : paddedRequest bytes / 8 < 32 := by omega
    obtain ⟨exact_, later⟩ := rep.smallbits_eq (i := paddedRequest bytes / 8) (by omega) (by omega)
    rw [tryAlloc, Unimem.tryAlloc]
    simp only [if_pos few, index]
    rw [asserting_bind (indexed_run bound s), ran_bind (run_readGm s), ran_bind (run_readGm s)]
    refine ite_alike (fun marked => ?_) fun unmarked => ?_
    · obtain ⟨p, rest, shape⟩ := List.exists_cons_of_ne_nil (exact_.mp marked)
      exact bind_alike (exactSmall_guarded rep shape) fun _ _ _ => rfl
    have empty : h.small (paddedRequest bytes / 8) = [] := by
      by_contra nonempty
      exact unmarked (exact_.mpr nonempty)
    rw [ran_bind (run_readGm s), ran_bind (run_readGm s)]
    refine ite_alike (fun above => ?_) fun _ => rfl
    have dvFew : h.dvsize < 256 := by
      rw [← rep.dvsize]
      omega
    refine ite_alike (fun marked => ?_) fun _ => ?_
    · obtain ⟨j, next⟩ := Option.ne_none_iff_exists'.mp ((later empty).mp marked)
      exact bind_alike (nextSmall_guarded rep least multiple rfl bound next dvFew) fun _ _ _ => rfl
    rw [ran_bind (run_readGm s), ran_bind (run_readGm s)]
    refine ite_alike (fun nonzero => ?_) fun _ => rfl
    obtain ⟨i, next⟩ := Option.ne_none_iff_exists'.mp
      (fun none => nonzero (rep.treemap_zero.mpr none))
    exact bind_alike (tmallocSmall_guarded rep least (by omega) multiple next dvFew)
      fun _ _ _ => rfl
  · rw [tryAlloc, Unimem.tryAlloc]
    simp only [if_neg few]
    refine ite_alike (fun _ => rfl) fun proper => ?_
    obtain ⟨least, multiple, -, below⟩ := paddedRequest_large few proper
    rw [ran_bind (run_readGm s), ran_bind (run_readGm s)]
    refine ite_alike (fun _ => ?_) fun _ => rfl
    exact bind_alike (tmallocLarge_guarded rep (by omega) multiple (by omega)) fun _ _ _ => rfl

theorem initBins_guarded (left : Nat) {i : Nat} (bound : i + left ≤ 32) (s : Store) :
    initBins.loop Guard.asserting left i s = MallocState.initBins.loop left i s := by
  induction left generalizing i s with
  | zero => rfl
  | succ left ih =>
      rw [initBins.loop, MallocState.initBins.loop,
        asserting_bind (indexed_run (show i < 32 by omega) s)]
      refine bind_alike rfl fun g s₁ _ => bind_alike rfl fun _ s₂ _ => bind_alike rfl fun _ s₃ _ => ?_
      exact ih (by omega) s₃

theorem initOrExpand_guarded (s : Store) :
    initOrExpand Guard.asserting s = Unimem.initOrExpand s := by
  have binned : ∀ s : Store, ∀ next : Unit → Prog Unit,
      (initBins.loop Guard.asserting nsmallbins 0 >>= next) s = (initBins >>= next) s :=
    fun s next => bind_alike (initBins_guarded nsmallbins (Nat.le_refl 32) s) fun _ _ _ => rfl
  refine bind_alike rfl fun size s₁ _ => bind_alike rfl fun step s₂ _ =>
    bind_alike rfl fun tbase s₃ _ => bind_alike rfl fun ready s₄ _ => ?_
  refine ite_alike (fun _ => ?_) fun _ => rfl
  refine bind_alike rfl fun g s₅ _ => bind_alike rfl fun g' s₆ _ => ?_
  refine ite_alike (fun _ => bind_alike rfl fun _ s₇ _ => ?_) fun _ => ?_
  all_goals exact bind_alike rfl fun _ s₈ _ => bind_alike rfl fun _ s₉ _ => binned s₉ _

/-- Alloc enters its helpers properly at every retry. -/
theorem alloc_guarded (rep : Represents first stop limit s h []) (fuel bytes : Nat) :
    alloc Guard.asserting fuel bytes s = Unimem.alloc fuel bytes s := by
  induction fuel generalizing s with
  | zero => rfl
  | succ fuel ih =>
      refine bind_alike (tryAlloc_guarded rep fuel bytes) fun found s₁ tried => ?_
      cases found with
      | some mem => rfl
      | none =>
          have same : s₁ = s := by
            have whole := (tryAlloc_steady bytes).le (Nat.le_add_right fuel 2) s
              (tried ▸ Call.ok_ends)
            have refines := rep.tryAlloc_refines bytes fuel
            rw [tried] at whole
            cases reply : h.alloc bytes with
            | served mem h' =>
                rw [reply] at refines
                obtain ⟨p, k, -, -, -, s', ran, -⟩ := refines
                rw [whole] at ran
                cases ran
            | corrupted =>
                rw [reply] at refines
                obtain ⟨s', ran, -⟩ := refines
                rw [whole] at ran
                cases ran
            | expand =>
                rw [reply] at refines
                exact (EStateM.Result.ok.inj (whole.symm.trans refines)).2
          subst same
          refine bind_alike (initOrExpand_guarded s₁) fun _ s₂ opened => ?_
          rw [initOrExpand_again rep.top_ne_zero] at opened
          obtain ⟨-, rfl⟩ := EStateM.Result.ok.inj opened
          exact ih (rep.recount _)

end Allocs

/-! ## Free -/

section Frees

variable {first stop limit fuel p size : Nat} {s : Store} {h : Heap} {loose : List Nat}
  {below mid above : List Block} {n : Block}

theorem freeInsert_guarded (least : 32 ≤ size) (p : Nat) (s : Store) :
    freeInsert Guard.asserting fuel p size s = Unimem.freeInsert fuel p size s :=
  insert_guarded least p s

/-- The chunk behind is taken out of the bin of its size, if it is in one. -/
theorem freeForward_guarded (rep : Represents first stop limit s h loose) (member : n ∈ h.blocks)
    (before : p < n.addr) (least : 32 ≤ size) (whole : p + size = n.addr)
    (behind : n.cinuse = false → n.addr ≠ h.top → n.addr ≠ h.dv → h.Binned n.addr) :
    freeForward Guard.asserting fuel p size n.addr s = Unimem.freeForward fuel p size n.addr s := by
  have inside := rep.layout.bounds member
  have bound := rep.layout.bound
  simp only [Block.stop] at inside
  have ok : (pure (okNext p n.addr) <&&> do return (← Chunk.pinuse n.addr) != 0 : Prog Bool) s =
      .ok (n.pinuse.toNat != 0) s := by
    rw [run_andM, okNext, decide_eq_true before, run_pure]
    simp only [bind_run, rep.tags.pinuse_run member, run_pure]
  have cinuse := rep.tags.cinuse_run member
  rw [freeForward, Unimem.freeForward, ran_bind ok, ran_bind ok]
  refine ite_alike (fun _ => ?_) fun _ => rfl
  rw [ran_bind cinuse, ran_bind cinuse]
  refine ite_alike (fun clear => ?_) fun _ => ?_
  · have unused : n.cinuse = false := by
      cases read : n.cinuse with
      | false => rfl
      | true =>
          rw [read, Bool.toNat_true] at clear
          omega
    rw [ran_bind (run_readGm s), ran_bind (run_readGm s)]
    refine ite_alike (fun _ => rfl) fun notTop => ?_
    rw [ran_bind (run_readGm s), ran_bind (run_readGm s)]
    refine ite_alike (fun _ => rfl) fun notDv => ?_
    rw [rep.top] at notTop
    rw [rep.dv] at notDv
    have chunksize := rep.tags.chunksize_run member notTop
    have sum : add64 size n.size = size + n.size := add64_of_lt (by omega)
    rw [ran_bind chunksize, ran_bind chunksize, sum]
    refine bind_alike (unlink_guarded rep ⟨notTop, n, member, rfl, rfl, unused⟩
      (behind unused notTop notDv)) fun _ s₁ _ => ?_
    refine bind_alike rfl fun _ s₂ _ => bind_alike rfl fun g s₃ _ => ?_
    exact ite_alike (fun _ => rfl) fun _ => freeInsert_guarded (by omega) p s₃
  · exact bind_alike rfl fun _ s₁ _ => freeInsert_guarded least p s₁

/-- As above, from a group of blocks that become one. -/
theorem forward_guarded (rep : Represents first stop limit s h loose)
    (group : Vacates first h loose below mid p size n above) :
    freeForward Guard.asserting fuel p size n.addr s = Unimem.freeForward fuel p size n.addr s := by
  obtain ⟨low, least, whole, inside, positive, -⟩ := group.geometry rep
  exact freeForward_guarded rep (by simp [group.shape]) (by omega) least whole
    fun unused notTop notDv => rep.behind_filed group unused notTop notDv

theorem free_guarded (rep : Represents first stop limit s h []) {a k : Nat} (used : h.Used a k) :
    free Guard.asserting fuel (a + 32) s = Unimem.free fuel (a + 32) s := by
  obtain ⟨notTop, b, member, rfl, -, inuse⟩ := used
  obtain ⟨below, n, above, shape, next⟩ := rep.layout.successor member notTop
  obtain ⟨back, ok, live, chunksize, plus⟩ := rep.free_reads shape inuse
  have pinuse := rep.tags.pinuse_run member
  have checked : (okAddress b.addr <&&> Chunk.isInuse b.addr) s = .ok true s := by
    rw [run_andM, ok]
    exact live
  unfold free Unimem.free
  refine ite_alike (fun _ => ?_) fun _ => rfl
  rw [back, ran_bind checked, ran_bind checked]
  refine ite_alike (fun _ => ?_) fun _ => rfl
  rw [ran_bind chunksize, ran_bind chunksize, plus, ran_bind pinuse, ran_bind pinuse]
  refine ite_alike (fun clear => ?_) fun set => ?_
  · have flag : b.pinuse = false := by
      cases read : b.pinuse with
      | false => rfl
      | true =>
          rw [read, Bool.toNat_true] at clear
          omega
    obtain ⟨most, q, rfl, unused, flagQ, finish, qNotTop, foot⟩ := rep.free_before shape flag
    have shape' : h.blocks = most ++ q :: b :: n :: above := by simpa using shape
    obtain ⟨prev, sum, okQ⟩ := rep.front_reads shape'
    have inQ : q ∈ h.blocks := by simp [shape']
    have lowQ : TilesBlocks first most q.addr := by
      have tiles := rep.layout.tiles
      rw [shape'] at tiles
      exact (tiles_split tiles).1
    simp only [Block.stop] at finish next
    -- both ways the group of `q` and `b` vacates
    have group : Vacates first (h.setDv 0 0) [q.addr] most [q, b] q.addr (b.size + q.size) n
        above :=
      ⟨by simp [Heap.setDv, shape'], lowQ, by omega, by simp, by simp [flagQ], by simp [inuse],
        by simp, b, by simp, inuse⟩
    rw [ran_bind foot, ran_bind foot, prev, sum, ran_bind okQ, ran_bind okQ]
    refine ite_alike (fun _ => ?_) fun _ => rfl
    rw [ran_bind (run_readGm s), ran_bind (run_readGm s), rep.dv]
    refine ite_alike (fun notDv => ?_) fun isDv => ?_
    · have free : FreeAt h.top h.blocks q.addr q.size := ⟨qNotTop, q, inQ, rfl, rfl, unused⟩
      have binned : h.Binned q.addr :=
        ((rep.filed.cover _ _ free).resolve_left notDv).resolve_right List.not_mem_nil
      refine bind_alike (unlink_guarded rep free binned) fun _ s₁ taken => ?_
      obtain ⟨s', ran, rep₁, -⟩ := rep.unlink free binned fuel
      rw [ran] at taken
      obtain ⟨-, rfl⟩ := EStateM.Result.ok.inj taken
      exact forward_guarded rep₁ (group.congr (Represents.unlink_blocks h q.addr q.size).1)
    · have head := rep.tags.head_run (b := n) (by simp [shape'])
      rw [ran_bind head, ran_bind head]
      refine ite_alike (fun _ => rfl) fun _ => ?_
      have isDv : q.addr = h.dv := not_not.mp isDv
      have positive := rep.layout.positive
      have boundQ := rep.layout.bounds inQ
      obtain ⟨rep₀, -⟩ := rep.dropDv (show h.dv ≠ 0 by omega) (by simp)
      rw [← isDv] at rep₀
      obtain ⟨low, least, whole, inside, -⟩ := group.geometry rep₀
      exact freeForward_guarded rep (by simp [shape']) (by omega) least whole
        fun unusedN notTopN _ => rep₀.behind_filed group unusedN notTopN (show n.addr ≠ 0 by omega)
  · have flag : b.pinuse = true := by
      cases read : b.pinuse with
      | true => rfl
      | false => exact absurd (by rw [read]; rfl) set
    have group : Vacates first h [] below [b] b.addr b.size n above :=
      ⟨by simp [shape], (rep.group shape).1, next.symm, by simp, by simp [flag], by simp [inuse],
        by simp, b, by simp, inuse⟩
    exact forward_guarded rep group

end Frees

end Guarded

/-! ## Every call of a run -/

section Runs

open Guarded

variable {setup : Setup} {w : World} {h : Heap} {call : Call} {events : List Event} {s : Store}

/-- Before the first InitOrExpand no helper is entered. -/
theorem tryAlloc_clean_guarded (clean : Clean s.gm) (fuel bytes : Nat) :
    Guarded.tryAlloc Guard.asserting fuel bytes s = tryAlloc fuel bytes s := by
  rw [Guarded.tryAlloc, tryAlloc]
  refine ite_alike (fun few => ?_) fun _ => ite_alike (fun _ => rfl) fun _ => ?_
  · have bound : smallIndex (paddedRequest bytes) < 32 := by
      have padded := paddedRequest_small few
      simp only [smallIndex, smallbinShift, Nat.shiftRight_eq_div_pow]
      omega
    rw [asserting_bind (indexed_run bound s), ran_bind (run_readGm s), ran_bind (run_readGm s),
      clean.smallmap, Nat.zero_shiftRight]
    refine ite_alike (fun marked => absurd (Nat.zero_and 3) marked) fun _ => ?_
    rw [ran_bind (run_readGm s), ran_bind (run_readGm s)]
    refine ite_alike (fun _ => ite_alike (fun marked => absurd rfl marked) fun _ => ?_) fun _ => rfl
    rw [ran_bind (run_readGm s), ran_bind (run_readGm s)]
    exact ite_alike (fun marked => absurd clean.treemap marked) fun _ => rfl
  · rw [ran_bind (run_readGm s), ran_bind (run_readGm s)]
    exact ite_alike (fun marked => absurd clean.treemap marked) fun _ => rfl

theorem Runs.guarded (runs : Runs setup w h) (permitted : w.permits call) (fuel : Nat) :
    Guarded.run Guard.asserting fuel call w.store = call.run fuel w.store := by
  cases call with
  | alloc bytes => exact alloc_guarded runs.rep fuel bytes
  | free mem =>
      obtain ⟨⟨_, bytes⟩, member, rfl⟩ := List.mem_map.mp permitted
      obtain ⟨a, k, rfl, used, -⟩ := runs.tracked.live _ _ member
      exact bind_alike (free_guarded runs.rep used) fun _ _ _ => rfl
  | expand => exact bind_alike (initOrExpand_guarded w.store) fun _ _ _ => rfl

theorem Runs.no_assertion (runs : Runs setup w h) (permitted : w.permits call) (fuel : Nat)
    (s' : Store) : call.run fuel w.store ≠ .error .assertion s' := by
  intro failed
  have obeys := runs.obeys permitted
  have whole := call.steady.le (Nat.le_add_right fuel 3) w.store
    (failed ▸ Call.error_ends (by decide))
  rw [failed] at whole
  cases answered : h.answer call with
  | served value h' =>
      rw [answered] at obeys
      obtain ⟨s₁, ran, -⟩ := obeys
      have done := ran (fuel + 3) (Nat.le_add_left 3 fuel)
      rw [whole] at done
      cases done
  | corrupted =>
      rw [answered] at obeys
      obtain ⟨s₁, ran, -⟩ := obeys
      have done := ran (fuel + 3) (Nat.le_add_left 3 fuel)
      rw [whole] at done
      cases done
  | expand =>
      rw [answered] at obeys
      obtain ⟨s₁, stuck⟩ := obeys fuel
      rw [failed] at stuck
      cases stuck

/-- InitOrExpand before any other call: it faults, or a heap is represented after it. -/
theorem Fresh.expands (fresh : Fresh setup w) (holds : setup.Holds) (clean : Clean setup.raw)
    (wide : setup.Wide) : (∃ s', initOrExpand w.store = .error .fault s') ∨
      ∃ s', initOrExpand w.store = .ok () s' ∧
        Runs setup ⟨s', []⟩ (Heap.init setup.first setup.stop) := by
  by_cases spill : w.store.mem.accessible (setup.tbase + setup.increasingSize) 8 = true
  · exact Or.inr (fresh.opens holds clean wide spill)
  · exact Or.inl (initOrExpand_fault (fresh.site holds clean.top) spill)

theorem Fresh.guarded (fresh : Fresh setup w) (zeroed : Zeroed setup.raw) (aligned : setup.Aligned)
    (permitted : w.permits call) (fuel : Nat) :
    Guarded.run Guard.asserting fuel call w.store = call.run fuel w.store ∧
      ∀ s', call.run fuel w.store ≠ .error .assertion s' := by
  obtain ⟨holds, wide, -⟩ := aligned.bounds
  have clean : Clean w.store.gm := by
    rw [fresh.gm]
    exact zeroed.toClean
  cases call with
  | free mem =>
      have live : mem ∈ w.live.map Prod.fst := permitted
      rw [fresh.none] at live
      cases live
  | expand =>
      refine ⟨bind_alike (initOrExpand_guarded w.store) fun _ _ _ => rfl, fun s' failed => ?_⟩
      rw [Call.run, bind_run] at failed
      rcases fresh.expands holds zeroed.toClean wide with ⟨s₁, ran⟩ | ⟨s₁, ran, -⟩
      · rw [ran] at failed
        cases failed
      · rw [ran] at failed
        cases failed
  | alloc bytes =>
      cases fuel with
      | zero => exact ⟨rfl, fun s' failed => by cases failed⟩
      | succ fuel =>
          have later : (Call.alloc bytes).run (fuel + 1) w.store =
              (do initOrExpand; (Call.alloc bytes).run fuel : Prog Nat) w.store :=
            alloc_clean clean fuel
          have entered : Guarded.run Guard.asserting (fuel + 1) (.alloc bytes) w.store =
              (do initOrExpand; Guarded.alloc Guard.asserting fuel bytes : Prog Nat) w.store := by
            rw [Guarded.run, Guarded.alloc, bind_run, tryAlloc_clean_guarded clean,
              tryAlloc_clean clean]
            exact bind_alike (initOrExpand_guarded w.store) fun _ _ _ => rfl
          rw [entered, later]
          rcases fresh.expands holds zeroed.toClean wide with ⟨s₁, ran⟩ | ⟨s₁, ran, runs⟩
          · rw [bind_run, bind_run, ran]
            exact ⟨rfl, fun s' failed => by cases failed⟩
          · rw [ran_bind ran, ran_bind ran]
            have permits : World.permits ⟨s₁, []⟩ (.alloc bytes) := trivial
            exact ⟨alloc_guarded runs.rep fuel bytes, runs.no_assertion permits fuel⟩

/-- In every call of every run, thrown or not, every check on entry to a helper passes:
the checked copy runs like the one without checks, which is the code (`run_idle`). -/
theorem reached_guarded (zeroed : Zeroed setup.raw) (aligned : setup.Aligned)
    (run : setup.Reaches events w) (permitted : w.permits call) (fuel : Nat) :
    Guarded.run Guard.asserting fuel call w.store = call.run fuel w.store ∧
      ∀ s', Guarded.run Guard.asserting fuel call w.store ≠ .error .assertion s' := by
  have both : Guarded.run Guard.asserting fuel call w.store = call.run fuel w.store ∧
      ∀ s', call.run fuel w.store ≠ .error .assertion s' := by
    rcases run.either zeroed aligned with fresh | ⟨h, runs⟩
    · exact fresh.guarded zeroed aligned permitted fuel
    · exact ⟨runs.guarded permitted fuel, runs.no_assertion permitted fuel⟩
  rw [both.1]
  exact ⟨rfl, both.2⟩

/-- A Free between two allocations. -/
theorem reached_guarded_sample : ∃ w : World, w.live = [(4160, 40), (4128, 10)] ∧ ∀ fuel,
    Guarded.run Guard.asserting fuel (.free 4128) w.store =
        (Call.free 4128).run fuel w.store ∧
      ∀ s', Guarded.run Guard.asserting fuel (.free 4128) w.store ≠ .error .assertion s' := by
  have replayed : ((Heap.init 4096 (4096 + 1024 - 8)).replay [] [.alloc 10, .alloc 40]).map
      Prod.snd = some [(4160, 40), (4128, 10)] := by decide
  obtain ⟨events, w, h, run, runs, live, -⟩ :=
    Setup.sample_replays (by decide) (by decide) (by decide) _ replayed
  have regular : (Setup.sample 1024 (by decide)).Regular :=
    Setup.sample_regular (by decide) (by decide) (by decide)
  have permitted : w.permits (.free 4128) := by
    show 4128 ∈ w.live.map Prod.fst
    rw [live]
    decide
  exact ⟨w, live, fun fuel => reached_guarded (Setup.sample_zeroed 1024 (by decide))
    regular.aligned run permitted fuel⟩

end Runs

end Unimem
