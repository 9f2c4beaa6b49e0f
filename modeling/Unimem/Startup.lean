import Unimem.Alloc
import Unimem.Free

/-!
InitOrExpand on a state that reads as empty: it makes the whole segment top.
On an initialised state it only calls the underlying allocator again.
-/

namespace Unimem

open Tiling ByteMemory Memory WordArith MallocState

/-- The heap InitOrExpand builds: one block, top. -/
def Heap.init (first stop : Nat) : Heap where
  blocks := [⟨first, stop - first, decide (stop / 2 % 2 = 1), true⟩]
  top := first
  small := fun _ => []
  lastOut := fun _ => none
  tree := fun _ => ⟨0, []⟩
  dv := 0
  dvsize := 0

/-- No bin, no bit and no dv. -/
structure Unfiled (g : MallocState) : Prop where
  smallmap : g.smallmap = 0
  treemap : g.treemap = 0
  treebins : ∀ i < 32, g.treebins i = 0
  dv : g.dv = 0
  dvsize : g.dvsize = 0

/-- Nothing is filed and top serves no request: Alloc goes to InitOrExpand, which
overwrites the other fields. -/
structure Clean (g : MallocState) : Prop extends Unfiled g where
  top : g.top = 0
  topsize : g.topsize ≤ 32

theorem alignOffset_eq (a : Nat) : alignOffset a = (16 - a % 16) % 16 := by
  have mask : chunkAlignMask = 15 := rfl
  have alignment : mallocAlignment = 16 := rfl
  rw [alignOffset, mask, alignment, and_fifteen, and_fifteen]
  split <;> omega

/-- The headers of all small bins, as chunks. -/
def HeaderBytes (g : MallocState) (x : Nat) : Prop := g.this + 72 ≤ x ∧ x < g.this + 600

/-- A header whose bin never had a member. -/
def SelfLinked (g : MallocState) (m : Memory) (i : Nat) : Prop :=
  fdAt m (g.smallbinAt i) = g.smallbinAt i ∧ bkAt m (g.smallbinAt i) = g.smallbinAt i

theorem initBins_loop (left : Nat) {i : Nat} {s : Store} (bound : i + left ≤ 32)
    (fits : s.gm.this + 600 < 2 ^ 64)
    (mapped : ∀ x, HeaderBytes s.gm x → s.mem.mapped x = true) :
    ∃ m', initBins.loop left i s = .ok () { s with mem := m' } ∧
      AgreesOutside (fun x => s.gm.smallbinAt i + 16 ≤ x ∧ x < s.gm.smallbinAt (i + left) + 16)
        s.mem m' ∧
      ∀ j, i ≤ j → j < i + left → SelfLinked s.gm m' j := by
  -- on the bins still to be linked; those before keep their links
  induction left generalizing i s with
  | zero => exact ⟨s.mem, rfl, AgreesOutside.refl _, fun j lower upper => by omega⟩
  | succ left ih =>
      have bin := smallbinAt_eq s.gm i
      have next := smallbinAt_eq s.gm (i + 1)
      have last := smallbinAt_eq s.gm (i + 1 + left)
      have accBk : s.mem.accessible (s.gm.smallbinAt i + 24) 8 = true :=
        (s.mem.accessible_iff _ _).mpr fun x lower upper => mapped x ⟨by omega, by omega⟩
      have accFd : s.mem.accessible (s.gm.smallbinAt i + 16) 8 = true :=
        (s.mem.accessible_iff _ _).mpr fun x lower upper => mapped x ⟨by omega, by omega⟩
      obtain ⟨m₁, write⟩ : ∃ m₁, m₁ = (s.mem.store (s.gm.smallbinAt i + 24) 8
        (s.gm.smallbinAt i)).store (s.gm.smallbinAt i + 16) 8 (s.gm.smallbinAt i) := ⟨_, rfl⟩
      have written : AgreesOutside (fun x => s.gm.smallbinAt i + 16 ≤ x ∧
          x < s.gm.smallbinAt (i + 1) + 16) s.mem m₁ := by
        rw [write]
        refine ((AgreesOutside.refl _).store _ _ _ ?_).store _ _ _ ?_
        all_goals
          intro x lower upper
          exact ⟨by omega, by omega⟩
      -- the header is written through fd and bk of its own address
      have self : SelfLinked s.gm m₁ i := by
        rw [SelfLinked, fdAt, bkAt, write]
        have word : s.gm.smallbinAt i < 256 ^ 8 := by omega
        rw [load_store_same _ _ 8 _ word, load_store_disjoint _ _ _ _ _ _ (by omega),
          load_store_same _ _ 8 _ word]
        exact ⟨rfl, rfl⟩
      obtain ⟨m', ran, agrees, linked⟩ := ih (i := i + 1) (s := { s with mem := m₁ }) (by omega)
        fits (by rw [written.mapped]; exact mapped)
      simp only at agrees linked
      refine ⟨m', ?_, ?_, fun j lower upper => ?_⟩
      · rw [initBins.loop]
        simpa [Chunk.setBk, Chunk.setFd, store64, run_storeN, accBk, accFd, ← write] using ran
      · rw [show i + (left + 1) = i + 1 + left by omega]
        refine (written.mono fun x inside => ?_).trans (agrees.mono fun x inside => ?_)
        all_goals
          obtain ⟨low, high⟩ := inside
          exact ⟨by omega, by omega⟩
      · rcases Nat.eq_or_lt_of_le lower with rfl | later
        · have kept : ∀ d, 16 ≤ d → d + 8 ≤ 32 → m'.load (s.gm.smallbinAt i + d) 8 =
              m₁.load (s.gm.smallbinAt i + d) 8 := fun d low high =>
            agrees.load _ 8 fun x lower upper inside => by
              obtain ⟨low', high'⟩ := inside
              omega
          rw [SelfLinked, fdAt, bkAt, kept 16 (by omega) (by omega), kept 24 (by omega) (by omega)]
          exact self
        · exact linked j later (by omega)

/-- Where the segment of a block lies, and that the block holds the gap in front
of it and the foot behind it. -/
structure Roomy (tbase tsize first stop : Nat) : Prop where
  positive : 0 < tbase
  bound : tbase + tsize ≤ 2 ^ 64
  start : first = tbase + alignOffset (chunk2mem tbase)
  finish : stop + 8 = tbase + tsize
  room : first ≤ stop

/-- A heap that is all top, from its two words and the mapping. -/
theorem represents_init {first stop limit : Nat} {s : Store} (unfiled : Unfiled s.gm)
    (aligned : first % 16 = 0) (positive : 0 < first) (room : first + 8 ≤ stop)
    (bound : stop + 8 ≤ 2 ^ 64) (placed : Placed first stop s.gm s.mem) (top : s.gm.top = first)
    (topsize : s.gm.topsize = stop - first) (bins : ∀ i < 32, SelfLinked s.gm s.mem i)
    (reach : ∀ k, 0 < k → k % 16 = (stop - first) % 16 → stop + 16 ≤ limit + k)
    (mapped : ∀ x, first ≤ x → x < limit → s.mem.mapped x = true)
    (head : s.mem.load (first + 8) 8 = (stop - first) ||| pinuseBit) :
    Represents first stop limit s (Heap.init first stop) [] := by
  have single : ∀ b ∈ (Heap.init first stop).blocks,
      b = ⟨first, stop - first, decide (stop / 2 % 2 = 1), true⟩ := fun b => List.mem_singleton.mp
  -- the one block is top, and top is no free block
  have none : ∀ p size, ¬ FreeAt first (Heap.init first stop).blocks p size := by
    rintro p size ⟨notTop, b, member, rfl, -⟩
    exact notTop (by rw [single b member])
  have layout : Layout first stop first (Heap.init first stop).blocks :=
    { tiles := ⟨rfl, show first + (stop - first) = stop by omega⟩
      last := ⟨[], _, rfl, rfl⟩
      aligned := aligned
      positive := positive
      bound := bound
      sized := fun b member notTop => absurd (by rw [single b member]) notTop
      nonempty := fun b member => by rw [single b member]; simp only; omega
      pinuseFirst := by simp [Heap.init]
      pinuseUsed := fun _ _ pair => pair.elim
      pinuseFree := fun b member _ => by rw [single b member]
      topRead := fun b member _ => by rw [single b member]
      coalesced := fun _ _ _ pair => pair.elim }
  have bit : (stop - first) / 2 % 2 = (decide (stop / 2 % 2 = 1)).toNat := by
    rcases Nat.mod_two_eq_zero_or_one (stop / 2) with even | odd
    · simp only [even, Nat.zero_ne_one, decide_false, Bool.toNat_false]
      omega
    · simp only [odd, decide_true, Bool.toNat_true]
      omega
  have tags : Tags first stop limit first s.mem (Heap.init first stop).blocks :=
    { layout := layout
      reach := fun b member _ => by rw [single b member]; exact reach
      mapped := mapped
      head := fun b member => by
        rw [single b member, head]
        exact headWord_top bit
      foot := fun _ _ pair => pair.elim }
  exact
    { tags := tags
      placed := placed
      small :=
        { bits := by rw [unfiled.smallmap]; decide
          marked := fun i _ => by simp [unfiled.smallmap, Heap.init]
          member := fun i p member => by cases member
          nodup := fun i => List.nodup_nil
          ring := fun i nonempty => absurd rfl nonempty
          idle := fun i bound _ => bins i bound }
      tree :=
        { bits := by rw [unfiled.treemap]; decide
          marked := fun i _ => by simp [unfiled.treemap, Heap.init]
          root := unfiled.treebins
          bin := fun i =>
            { member := fun p member => by cases member
              sized := fun nonempty => absurd rfl nonempty
              nodup := List.nodup_nil
              ring := fun root rest shape => by cases shape
              leaf := fun p member => by cases member
              parent := fun root rest shape => by cases shape } }
      top := top
      topsize := by rw [topsize]; show first + (stop - first) = stop; omega
      dv := unfiled.dv
      dvsize := unfiled.dvsize
      filed := ⟨⟨fun _ => rfl, fun _ => rfl⟩, fun present => absurd rfl present,
        ⟨by simp [Heap.Binned, Heap.init], by simp⟩, by simp,
        fun p size free => absurd free (none p size)⟩ }

/-- What InitOrExpand is called on, and the block it is given. -/
structure Site (tbase tsize first stop : Nat) (s : Store) : Prop extends
    Roomy tbase tsize first stop where
  top : s.gm.top = 0
  size : s.increasingSize * s.increasingStep % 2 ^ 64 = tsize
  base : s.underlyingAllocator s.underlyingCalls tsize = tbase
  aligned : s.gm.this % 8 = 0
  object : s.gm.this + 600 < 2 ^ 64
  headers : ∀ x, HeaderBytes s.gm x → s.mem.mapped x = true
  apart : s.gm.this + 600 ≤ first ∨ stop + 16 ≤ s.gm.this + 72
  block : ∀ x, tbase ≤ x → x < tbase + tsize → s.mem.mapped x = true

section Fresh

variable {first stop tbase tsize : Nat} {s : Store}

theorem Roomy.first_eq (room : Roomy tbase tsize first stop) :
    first % 16 = 0 ∧ tbase ≤ first ∧ first < tbase + 16 ∧
      (tbase % 16 = 0 → first = tbase) := by
  have start := room.start
  have distance : twoSizeTSizes = 32 := rfl
  have mem16 : chunk2mem tbase % 16 = tbase % 16 := by
    rw [chunk2mem, distance]
    unfold add64
    omega
  rw [alignOffset_eq, mem16] at start
  omega

/-- What InitOrExpand leaves in the fields. -/
def initGm (g : MallocState) (tbase first stop : Nat) : MallocState :=
  { g with
    leastAddr := if g.leastAddr = 0 ∨ tbase < g.leastAddr then tbase else g.leastAddr
    magic := sizeTOne
    releaseChecks := maxReleaseCheckRate
    top := first
    topsize := stop - first
    trimCheck := defaultTrimThreshold }

/-- The store after the bins and the fields are set, before the two words of top. -/
theorem initOrExpand_start (site : Site tbase tsize first stop s) :
    ∃ m₁, AgreesOutside (HeaderBytes s.gm) s.mem m₁ ∧ (∀ i < 32, SelfLinked s.gm m₁ i) ∧
      initOrExpand s =
        (do Chunk.setHead first ((stop - first) ||| pinuseBit)
            Chunk.setHead stop topFootSize
            writeGm fun g => { g with trimCheck := defaultTrimThreshold } : Prog Unit)
          { s with
            underlyingCalls := s.underlyingCalls + 1
            gm := { initGm s.gm tbase first stop with trimCheck := s.gm.trimCheck }
            mem := m₁ } := by
  obtain ⟨aligned, low, high, -⟩ := site.toRoomy.first_eq
  have positive := site.positive
  have fits := site.bound
  have start := site.start
  have finish := site.finish
  have room := site.room
  have plus : chunkPlusOffset tbase (alignOffset (chunk2mem tbase)) = first := by
    rw [start]
    exact add64_of_lt (by omega)
  have foot : sub64 tsize topFootSize = tsize - 8 := by
    have word : topFootSize = 8 := rfl
    rw [word, sub64_of_le (by omega) (by omega)]
  have psize : sub64 (tsize - 8) (alignOffset (chunk2mem tbase)) = stop - first := by
    rw [sub64_of_le (by omega) (by omega)]
    omega
  have trailing : chunkPlusOffset first (stop - first) = stop := by
    rw [chunkPlusOffset, add64_of_lt (by omega)]
    omega
  obtain ⟨least, leastEq⟩ : ∃ least, least =
    if s.gm.leastAddr = 0 ∨ tbase < s.gm.leastAddr then tbase else s.gm.leastAddr := ⟨_, rfl⟩
  obtain ⟨m₁, bins, agrees, linked⟩ := initBins_loop 32 (i := 0) (s := { s with
    underlyingCalls := s.underlyingCalls + 1
    gm := { s.gm with leastAddr := least, magic := sizeTOne, releaseChecks := maxReleaseCheckRate } })
    (by omega) site.object site.headers
  have begun : initOrExpand s = (do initBins; initTop tbase (tsize - 8) : Prog Unit) { s with
      underlyingCalls := s.underlyingCalls + 1
      gm := { s.gm with leastAddr := least, magic := sizeTOne,
                        releaseChecks := maxReleaseCheckRate } } := by
    have uninitialised : decide (s.gm.top ≠ 0) = false := by simp [site.top]
    simp only [initOrExpand, Fuelled.bind_run, run_readThis, site.size, underlyingAlloc, site.base,
      isInitialized, run_readGm, run_pure, uninitialised, Bool.false_eq_true, not_false_eq_true,
      if_true, foot]
    by_cases lower : s.gm.leastAddr = 0 ∨ tbase < s.gm.leastAddr
    · rw [if_pos lower] at leastEq
      simp only [if_pos lower, Fuelled.bind_run, run_writeGm, leastEq]
    · rw [if_neg lower] at leastEq
      simp only [if_neg lower, Fuelled.bind_run, run_writeGm, leastEq]
  refine ⟨m₁, agrees.mono fun x inside => ?_, fun i bound => linked i (Nat.zero_le _) (by omega), ?_⟩
  · simp only [smallbinAt_eq] at inside
    exact ⟨by omega, by omega⟩
  · rw [begun, Fuelled.bind_run, initBins, nsmallbins, bins]
    simp only [initTop, plus, psize, trailing, Fuelled.bind_run, run_writeGm, initGm, leastEq]

/-- InitOrExpand makes the segment top, if the word behind the block is writable. A
segment too small for a chunk head gets its fields but is no heap. -/
theorem initOrExpand_fresh (site : Site tbase tsize first stop s)
    (spill : s.mem.accessible (tbase + tsize) 8 = true) :
    ∃ m', initOrExpand s = .ok () { s with
        underlyingCalls := s.underlyingCalls + 1
        gm := initGm s.gm tbase first stop
        mem := m' } ∧ m'.mapped = s.mem.mapped ∧ m'.load (stop + 8) 8 = topFootSize ∧
      (Unfiled s.gm → first + 8 ≤ stop → Represents first stop (stop + 16) { s with
        underlyingCalls := s.underlyingCalls + 1
        gm := initGm s.gm tbase first stop
        mem := m' } (Heap.init first stop) []) := by
  obtain ⟨m₁, agrees, linked, ran⟩ := initOrExpand_start site
  obtain ⟨aligned, low, high, -⟩ := site.toRoomy.first_eq
  have positive := site.positive
  have fits := site.bound
  have finish := site.finish
  have room := site.room
  have tail := (s.mem.accessible_iff _ _).mp spill
  have whole : ∀ x, first ≤ x → x < stop + 16 → m₁.mapped x = true := by
    intro x lower upper
    rw [agrees.mapped]
    rcases Nat.lt_or_ge x (tbase + tsize) with inside | behind
    · exact site.block x (by omega) inside
    · exact tail x behind (by omega)
  have accHead : m₁.accessible (first + 8) 8 = true :=
    (m₁.accessible_iff _ _).mpr fun x lower upper => whole x (by omega) (by omega)
  have accFoot : m₁.accessible (stop + 8) 8 = true :=
    (m₁.accessible_iff _ _).mpr fun x lower upper => whole x (by omega) (by omega)
  have leastOk : 0 < (initGm s.gm tbase first stop).leastAddr ∧
      (initGm s.gm tbase first stop).leastAddr ≤ first := by
    simp only [initGm]
    split <;> omega
  have apart := site.apart
  -- top's head and the foot lie outside the allocator's own object
  have kept : ∀ i < 32, SelfLinked s.gm ((m₁.store (first + 8) 8 ((stop - first) ||| pinuseBit)).store
      (stop + 8) 8 topFootSize) i := by
    intro i bound
    have bin := smallbinAt_eq s.gm i
    have old := linked i bound
    rw [SelfLinked, fdAt, bkAt, load_store_disjoint _ _ _ _ _ _ (by omega),
      load_store_disjoint _ _ _ _ _ _ (by omega), load_store_disjoint _ _ _ _ _ _ (by omega),
      load_store_disjoint _ _ _ _ _ _ (by omega)]
    exact old
  refine ⟨(m₁.store (first + 8) 8 ((stop - first) ||| pinuseBit)).store (stop + 8) 8 topFootSize,
    ?_, agrees.mapped, load_store_same _ _ 8 _ (by decide), fun unfiled wide => ?_⟩
  · rw [ran]
    simp [Chunk.setHead, store64, run_storeN, accHead, accFoot, initGm]
  · refine represents_init
      ⟨unfiled.smallmap, unfiled.treemap, unfiled.treebins, unfiled.dv, unfiled.dvsize⟩
        aligned (by omega)
      wide (by omega) ⟨site.aligned, site.object, ?_, site.apart, leastOk.1, leastOk.2⟩ rfl rfl
      kept (fun k positive _ => by omega) whole ?_
    · intro x lower upper
      rw [store_mapped, store_mapped, agrees.mapped]
      exact site.headers x ⟨lower, upper⟩
    · have fitsHead : (stop - first) ||| pinuseBit < 256 ^ 8 :=
        Nat.or_lt_two_pow (n := 64) (by omega) (by decide)
      rw [load_store_disjoint _ _ _ _ _ _ (by omega), load_store_same _ _ 8 _ fitsHead]

/-- Where that word is not writable, InitOrExpand faults. -/
theorem initOrExpand_fault (site : Site tbase tsize first stop s)
    (spill : ¬ s.mem.accessible (tbase + tsize) 8 = true) :
    ∃ s', initOrExpand s = .error .fault s' := by
  obtain ⟨m₁, agrees, -, ran⟩ := initOrExpand_start site
  have blocked : ¬ m₁.accessible (stop + 8) 8 = true := by
    rw [site.finish, agrees.accessible]
    exact spill
  rw [ran]
  by_cases accHead : m₁.accessible (first + 8) 8 = true
  · simp [Chunk.setHead, store64, storeN, accHead, blocked]
  · simp [Chunk.setHead, store64, storeN, accHead]

/-- The second and later calls only move the underlying allocator on. -/
theorem initOrExpand_again (present : s.gm.top ≠ 0) :
    initOrExpand s = .ok () { s with underlyingCalls := s.underlyingCalls + 1 } := by
  simp [initOrExpand, underlyingAlloc, isInitialized, present]

end Fresh

/-- With nothing filed and top too small for a chunk, no request is served. -/
theorem tryAlloc_unfiled {s : Store} (unfiled : Unfiled s.gm) (few : s.gm.topsize ≤ 32)
    (fuel bytes : Nat) : tryAlloc fuel bytes s = .ok none s := by
  have proper := paddedRequest_proper bytes
  have noDv : ¬ paddedRequest bytes ≤ s.gm.dvsize := by
    rw [unfiled.dvsize]
    omega
  have noTop : ¬ paddedRequest bytes < s.gm.topsize := by omega
  have rest : allocFromDvOrTop (paddedRequest bytes) s = .ok none s := by
    simp only [allocFromDvOrTop, Fuelled.bind_run, run_readGm, if_neg noDv, if_neg noTop, run_pure]
  simp [tryAlloc, unfiled.smallmap, unfiled.treemap, unfiled.dvsize, rest]

theorem tryAlloc_clean {s : Store} (clean : Clean s.gm) (fuel bytes : Nat) :
    tryAlloc fuel bytes s = .ok none s :=
  tryAlloc_unfiled clean.toUnfiled clean.topsize fuel bytes

end Unimem
