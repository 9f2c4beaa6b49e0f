import Unimem.Serving

/-!
Free does what the abstract heap does: merging with the neighbours, and filing
the merged chunk as top, as dv or in the bin of its size.
-/

namespace Unimem

open Tiling ByteMemory Memory WordArith MallocState

/-- The outcome of `program`, after which the chunks `freed` are unused, is the abstract one. -/
def Frees (first stop limit : Nat) (s : Store) (h : Heap) (program : Prog Unit)
    (freed : Nat → Prop) : Option Heap → Prop
  | some h' => Performs first stop limit freed (fun _ _ => False) s h program () h' []
  | none => ∃ s', program s = .error .corrupted s' ∧ Disturbed h s'

section Vacating

variable {first stop limit p size fuel : Nat} {s : Store} {h h₁ h' : Heap} {loose : List Nat}
  {below mid above : List Block} {n n₂ : Block}

theorem Frees.congr {program program' : Prog Unit} {freed freed' : Nat → Prop}
    {outcome : Option Heap} (frees : Frees first stop limit s h program freed outcome)
    (same : program' s = program s) (sameFreed : ∀ a, freed' a ↔ freed a) :
    Frees first stop limit s h program' freed' outcome := by
  cases outcome with
  | some h' =>
      obtain ⟨s', ran, rep, keeps⟩ := frees
      exact ⟨s', same.trans ran, rep, keeps.congr sameFreed fun _ _ => Iff.rfl⟩
  | none =>
      obtain ⟨s', ran, disturbed⟩ := frees
      exact ⟨s', same.trans ran, disturbed⟩

theorem Frees.after {start rest : Prog Unit} {freed : Nat → Prop} {outcome : Option Heap}
    (one : Reaches first stop limit s h start () h₁ loose) (blocks : h₁.blocks = h.blocks)
    (top : h₁.top = h.top)
    (two : ∀ s₁, Represents first stop limit s₁ h₁ loose →
      Frees first stop limit s₁ h₁ rest freed outcome) :
    Frees first stop limit s h (do start; rest) freed outcome := by
  obtain ⟨s₁, ran, rep, keeps⟩ := one
  have same : (do start; rest : Prog Unit) s = rest s₁ := by rw [Fuelled.bind_run, ran]
  cases outcome with
  | some h' =>
      obtain ⟨s', ran', rep', keeps'⟩ := two s₁ rep
      exact ⟨s', same.trans ran', rep', Keeps.after keeps keeps'⟩
  | none =>
      obtain ⟨s', ran', disturbed⟩ := two s₁ rep
      rw [Disturbed, blocks, top] at disturbed
      exact ⟨s', same.trans ran', disturbed⟩

namespace Vacates

theorem congr (group : Vacates first h loose below mid p size n above)
    (same : h'.blocks = h.blocks) : Vacates first h' loose below mid p size n above :=
  ⟨same.trans group.shape, group.lower, group.whole, group.nonempty, group.head, group.looseMid,
    group.looseAll, group.used⟩

/-- The free block behind a group joins it. -/
theorem extend (group : Vacates first h loose below mid p size n (n₂ :: above))
    (next : n₂.addr = n.addr + n.size) :
    Vacates first h (n.addr :: loose) below (mid ++ [n]) p (size + n.size) n₂ above := by
  have whole := group.whole
  refine ⟨by simp [group.shape], group.lower, by omega, by simp, fun b isHead => ?_,
    fun b member unused => ?_, fun q member => ?_, ?_⟩
  · obtain ⟨c, rest, shape⟩ := List.exists_cons_of_ne_nil group.nonempty
    exact group.head b (by simpa [shape] using isHead)
  · rcases List.mem_append.mp member with inMid | isN
    · exact List.mem_cons_of_mem _ (group.looseMid b inMid unused)
    · rw [List.mem_singleton.mp isN]
      exact List.mem_cons_self
  · rcases List.mem_cons.mp member with rfl | inLoose
    · exact ⟨n, by simp, rfl⟩
    · obtain ⟨b, inMid, here⟩ := group.looseAll q inLoose
      exact ⟨b, List.mem_append_left _ inMid, here⟩
  · obtain ⟨b, inMid, inuse⟩ := group.used
    exact ⟨b, List.mem_append_left _ inMid, inuse⟩

/-- Bounds of a group, with the block behind it. -/
theorem geometry (group : Vacates first h loose below mid p size n above)
    (rep : Represents first stop limit s h loose) :
    first ≤ p ∧ 32 ≤ size ∧ p + size = n.addr ∧ n.addr + n.size ≤ stop ∧ 0 < n.size ∧
      n.addr + 16 ≤ limit := by
  have layout := rep.layout
  have tags := rep.tags
  rw [group.shape] at layout tags
  have inside := (layout.bounds (b := n) (by simp)).2
  have low := (layout.low_eq group.lower).1
  obtain ⟨b, rest, shape⟩ := List.exists_cons_of_ne_nil group.nonempty
  have inMid : b ∈ mid := by simp [shape]
  rw [shape] at low
  have reach := (tiles_bounds low (List.mem_cons_self (a := b) (l := rest))).2
  have start : b.addr = p := low.1
  have notTop : b.addr ≠ h.top := layout.ne_top_of_le (n := n) (by simp [shape]) (by simp) reach
  have large := (layout.sized b (by simp [inMid]) notTop).1
  have whole := group.whole
  have lower := (layout.bounds (b := b) (by simp [inMid])).1
  exact ⟨by omega, by omega, whole, inside, layout.nonempty n (by simp),
    tags.block_reach (by simp)⟩

/-- Once a group is one free block, its first head is not the old one. -/
theorem disturbed (group : Vacates first h loose below mid p size n above)
    (rep : Represents first stop limit s h loose) {s' : Store} {size' : Nat}
    (tags : Tags first stop limit h₁.top s'.mem h₁.blocks)
    (free : FreeAt h₁.top h₁.blocks p size') (grown : size ≤ size') : Disturbed h s' := by
  have layout := rep.layout
  rw [group.shape] at layout
  have tiles := (layout.low_eq group.lower).1
  have whole := group.whole
  obtain ⟨c, rest, shape⟩ := List.exists_cons_of_ne_nil group.nonempty
  obtain ⟨b, inMid, inuse⟩ := group.used
  have member : c ∈ mid := by simp [shape]
  have start : c.addr = p := by
    rw [shape] at tiles
    exact tiles.1
  have inC := tiles_bounds tiles member
  have inB := tiles_bounds tiles inMid
  have notTop : c.addr ≠ h.top :=
    layout.ne_top_of_le (b := c) (n := n) (by simp [member]) (by simp) inC.2
  obtain ⟨notTop', d, inBlocks, here, sized, unused⟩ := free
  have word := tags.head d inBlocks
  rw [here] at word
  refine ⟨c, by simp [group.shape, member], notTop, fun old => ?_⟩
  rw [start] at old
  have flagsOld := old.flags
  have flagsNew := word.flags
  have sizeOld := old.size notTop
  have sizeNew := word.size (here ▸ notTop')
  have := d.pinuse.toNat_le
  have := c.pinuse.toNat_le
  rw [unused, Bool.toNat_false] at flagsNew sizeNew
  -- used before: the flag differs; free before: the size does
  cases usedC : c.cinuse with
  | true =>
      rw [usedC, Bool.toNat_true] at flagsOld
      omega
  | false =>
      rw [usedC, Bool.toNat_false] at flagsOld sizeOld
      have positive := layout.nonempty b (by simp [inMid])
      rcases layout.ordered (b := c) (c := b) (by simp [member]) (by simp [inMid]) with
        rfl | before | after
      · simp [usedC] at inuse
      · simp only [Block.stop] at before
        omega
      · have := layout.nonempty b (by simp [inMid])
        simp only [Block.stop] at after
        omega

end Vacates

/-- PINUSE of the chunk at `a` is cleared. -/
def cleared (m : Memory) (a : Nat) : Memory :=
  m.store (a + 8) 8 (m.load (a + 8) 8 &&& not64 pinuseBit)

theorem setFreeWithPinuse_run {q : Nat} (accNext : s.mem.accessible (q + 8) 8 = true)
    (accHead : s.mem.accessible (p + 8) 8 = true)
    (accFoot : s.mem.accessible (p + size) 8 = true) (fits : p + size < 2 ^ 64) :
    Chunk.setFreeWithPinuse p size q s =
      .ok () { s with mem := grown (cleared s.mem q) p size } := by
  have plus : chunkPlusOffset p size = p + size := add64_of_lt fits
  simp [Chunk.setFreeWithPinuse, Chunk.clearPinuse, Chunk.head, Chunk.setHead,
    Chunk.setSizeAndPinuseOfFreeChunk, Chunk.setFoot, Chunk.setPrevFoot, load64, store64, run_loadN,
    run_storeN, accNext, accHead, accFoot, plus, grown, cleared]

namespace Represents

theorem freed_eq (rep : Represents first stop limit s h loose)
    (group : Vacates first h loose below mid p size n above) :
    h.freed p size n =
      { h with blocks := below ++ ⟨p, size, false, true⟩ :: { n with pinuse := false } :: above } := by
  have layout := rep.layout
  rw [group.shape] at layout
  obtain ⟨middle, upper⟩ := layout.low_eq group.lower
  have whole : h.blocks = below ++ (mid ++ [n]) ++ above := by simp [group.shape]
  have inner : TilesBlocks p (mid ++ [n]) n.stop :=
    tiles_append.mpr ⟨n.addr, middle, rfl, rfl⟩
  rw [Heap.freed, rep.relay_eq whole group.lower inner upper]
  simp

theorem merged_eq {loose' : List Nat} (rep : Represents first stop limit s h loose')
    (group : Vacates first h loose below mid p size n above) :
    h.merged p size n = { h with blocks := below ++ ⟨p, size + n.size, false, true⟩ :: above } := by
  have layout := rep.layout
  rw [group.shape] at layout
  obtain ⟨middle, upper⟩ := layout.low_eq group.lower
  have whole : h.blocks = below ++ (mid ++ [n]) ++ above := by simp [group.shape]
  have inner : TilesBlocks p (mid ++ [n]) n.stop :=
    tiles_append.mpr ⟨n.addr, middle, rfl, rfl⟩
  rw [Heap.merged, rep.relay_eq whole group.lower inner upper]
  simp

/-- The chunk behind stays in use and loses its PINUSE. -/
theorem freedUsed (rep : Represents first stop limit s h loose)
    (group : Vacates first h loose below mid p size n above) (used : n.cinuse = true) :
    Represents first stop limit { s with mem := grown (cleared s.mem n.addr) p size }
        (h.freed p size n) [p] ∧
      Keeps (fun a => ∃ b ∈ mid, b.addr = a ∧ b.cinuse = true) (fun _ _ => False) h
        (h.freed p size n) s { s with mem := grown (cleared s.mem n.addr) p size } ∧
      FreeAt h.top (h.freed p size n).blocks p size := by
  have inBlocks : n ∈ h.blocks := by simp [group.shape]
  have fits := s.mem.load_lt (n.addr + 8) 8
  have head := (rep.tags.head n inBlocks).clearPinuse fits fun notTop =>
    (rep.layout.sized n inBlocks notTop).2
  have masked : s.mem.load (n.addr + 8) 8 &&& not64 pinuseBit < 256 ^ 8 :=
    Nat.lt_of_le_of_lt Nat.and_le_left fits
  rw [rep.freed_eq group]
  exact rep.freed group false (cleared s.mem n.addr) (fun unused => by simp [used] at unused)
    (fun _ => ⟨rfl, used⟩)
    ((AgreesOutside.refl _).store _ _ _ fun x lower upper => ⟨lower, by omega⟩)
    (by rw [cleared, load_store_same _ _ 8 _ masked]; exact head)

/-- The chunk behind is free, and merged in. -/
theorem mergedFree (rep : Represents first stop limit s h (n.addr :: loose))
    (group : Vacates first h loose below mid p size n (n₂ :: above)) (unused : n.cinuse = false) :
    Represents first stop limit { s with mem := grown s.mem p (size + n.size) } (h.merged p size n)
        [p] ∧
      Keeps (fun a => ∃ b ∈ mid, b.addr = a ∧ b.cinuse = true) (fun _ _ => False) h
        (h.merged p size n) s { s with mem := grown s.mem p (size + n.size) } ∧
      FreeAt h.top (h.merged p size n).blocks p (size + n.size) := by
  have layout := rep.layout
  have tags := rep.tags
  have merged := rep.merged_eq group
  rw [group.shape] at layout
  have next : n₂.addr = n.addr + n.size := (layout.low_eq group.lower).2.1
  have inBlocks : n₂ ∈ h.blocks := by simp [group.shape]
  have beside : Adjacent (below ++ mid ++ n :: n₂ :: above) n n₂ := by
    rw [adjacent_append]
    exact Or.inr (Or.inr (Or.inl ⟨rfl, rfl⟩))
  obtain ⟨rep', keeps, free⟩ := rep.freed (group.extend next) n₂.pinuse s.mem
    (layout.pinuseFree n₂ (by simp)) (fun topFree => by
      have := layout.coalesced topFree n n₂ beside
      simpa [unused] using this) (AgreesOutside.refl _) (tags.head n₂ inBlocks)
  rw [merged]
  refine ⟨rep', keeps.congr (fun a => ?_) fun _ _ => Iff.rfl, free⟩
  simp [unused, or_and_right, exists_or]

/-- What Free reads of the chunk behind. -/
theorem freeForward_start (rep : Represents first stop limit s h loose) (member : n ∈ h.blocks)
    (before : p < n.addr) (flag : n.pinuse = true) (size fuel : Nat) :
    freeForward fuel p size n.addr s =
      if n.cinuse then
        (do Chunk.setFreeWithPinuse p size n.addr
            freeInsert fuel p size : Prog Unit) s
      else if n.addr = h.top then
        (do let tsize := add64 (← readGm).topsize size
            writeGm fun g => { g with topsize := tsize }
            writeGm fun g => { g with top := p }
            Chunk.setHead p (tsize ||| pinuseBit)
            if p = (← readGm).dv then
              writeGm fun g => { g with dv := 0 }
              writeGm fun g => { g with dvsize := 0 } : Prog Unit) s
      else if n.addr = h.dv then
        (do let dsize := add64 (← readGm).dvsize size
            writeGm fun g => { g with dvsize := dsize }
            writeGm fun g => { g with dv := p }
            Chunk.setSizeAndPinuseOfFreeChunk p dsize : Prog Unit) s
      else
        (do unlinkChunk fuel n.addr n.size
            Chunk.setSizeAndPinuseOfFreeChunk p (add64 size n.size)
            if p = (← readGm).dv then writeGm fun g => { g with dvsize := add64 size n.size }
            else freeInsert fuel p (add64 size n.size) : Prog Unit) s := by
  have pinuse := rep.tags.pinuse_run member
  have cinuse := rep.tags.cinuse_run member
  have ok : okNext p n.addr = true := decide_eq_true before
  have size := fun notTop => rep.tags.chunksize_run member notTop
  rw [flag] at pinuse
  cases read : n.cinuse with
  | true =>
      rw [read] at cinuse
      simp [freeForward, ok, pinuse, cinuse]
  | false =>
      rw [read] at cinuse
      by_cases atTop : n.addr = h.top
      · simp [freeForward, ok, pinuse, cinuse, eq_true atTop, rep.top, shouldTrim, sysTrim]
      · by_cases isDv : n.addr = h.dv
        · simp [freeForward, ok, pinuse, cinuse, eq_false atTop, rep.top, eq_true isDv, rep.dv]
        · simp [freeForward, ok, pinuse, cinuse, eq_false atTop, rep.top, eq_false isDv, rep.dv,
            size atTop]

/-- The start of a group is not dv: it is in use or loose. -/
theorem start_ne_dv (rep : Represents first stop limit s h loose)
    (group : Vacates first h loose below mid p size n above) : p ≠ h.dv := by
  rintro rfl
  have low := (group.geometry rep).1
  have positive := rep.layout.positive
  obtain ⟨b, rest, shape⟩ := List.exists_cons_of_ne_nil group.nonempty
  have inMid : b ∈ mid := by simp [shape]
  have inBlocks : b ∈ h.blocks := by simp [group.shape, inMid]
  have layout := rep.layout
  rw [group.shape] at layout
  have start := (layout.low_eq group.lower).1
  rw [shape] at start
  have here : b.addr = h.dv := start.1
  obtain ⟨-, c, member, at_, -, unused⟩ := rep.filed.dvFree (by omega)
  have same := rep.layout.addr_inj member inBlocks (at_.trans here.symm)
  have loose := group.looseMid b inMid (same ▸ unused)
  exact rep.filed.dvOut.2 (here ▸ loose)

/-- Filing a merged block. -/
theorem fileFreed {freed : Nat → Prop} {start : Prog Unit}
    (done : Performs first stop limit freed (fun _ _ => False) s h start () h₁ [p])
    (free : FreeAt h₁.top h₁.blocks p size)
    (changed : ∀ s', Tags first stop limit h₁.top s'.mem h₁.blocks → Disturbed h s') (fuel : Nat) :
    Frees first stop limit s h (do start; freeInsert (fuel + 1) p size) freed (h₁.link p size) := by
  obtain ⟨s₁, ran, rep₁, keeps₁⟩ := done
  cases linked : h₁.link p size with
  | some h' =>
      obtain ⟨s', ran', rep', keeps'⟩ := rep₁.link free linked fuel
      refine ⟨s', ?_, rep', keeps₁.before keeps'⟩
      rw [Fuelled.bind_run, ran]
      exact ran'
  | none =>
      obtain ⟨s', ran', tags⟩ := rep₁.refused free linked fuel
      refine ⟨s', ?_, changed s' tags⟩
      rw [Fuelled.bind_run, ran]
      exact ran'

theorem forwardUsed (rep : Represents first stop limit s h loose)
    (group : Vacates first h loose below mid p size n above) (flag : n.pinuse = true)
    (used : n.cinuse = true) (fuel : Nat) :
    Frees first stop limit s h (freeForward (fuel + 1) p size n.addr)
      (fun a => ∃ b ∈ mid, b.addr = a ∧ b.cinuse = true) (h.freeForward p size n) := by
  obtain ⟨low, enough, whole, inside, positive, reach⟩ := group.geometry rep
  obtain ⟨rep₁, keeps₁, free⟩ := rep.freedUsed group used
  have bound := rep.layout.bound
  have ran := setFreeWithPinuse_run
    (rep.tags.accessible (a := n.addr + 8) (n := 8) (by omega) (by omega))
    (rep.tags.accessible (a := p + 8) (n := 8) (by omega) (by omega))
    (rep.tags.accessible (a := p + size) (n := 8) (by omega) (by omega)) (by omega)
  have start := rep.freeForward_start (by simp [group.shape]) (show p < n.addr by omega) flag
    size (fuel + 1)
  rw [Heap.freeForward, if_pos used]
  refine (fileFreed ⟨_, ran, rep₁, keeps₁⟩ free
    (fun s' tags => group.disturbed rep tags free (Nat.le_refl _)) fuel).congr ?_ fun _ => Iff.rfl
  rw [start, if_pos used]

theorem forwardTop (rep : Represents first stop limit s h loose)
    (group : Vacates first h loose below mid p size n above) (flag : n.pinuse = true)
    (unused : n.cinuse = false) (atTop : n.addr = h.top) (fuel : Nat) :
    Frees first stop limit s h (freeForward fuel p size n.addr)
      (fun a => ∃ b ∈ mid, b.addr = a ∧ b.cinuse = true) (h.freeForward p size n) := by
  obtain ⟨low, enough, whole, inside, positive, reach⟩ := group.geometry rep
  have start := rep.freeForward_start (by simp [group.shape]) (show p < n.addr by omega) flag
    size fuel
  have notDv := rep.start_ne_dv group
  have bound := rep.layout.bound
  have last : above = [] := by
    have layout := rep.layout
    rw [group.shape] at layout
    exact layout.above_nil atTop
  subst last
  obtain ⟨rep', keeps⟩ := rep.absorbed group atTop unused
  have merged := rep.merged_eq group
  have topsize : n.size = s.gm.topsize := by
    have layout := rep.layout
    rw [group.shape] at layout
    have finish := (layout.low_eq group.lower).2
    have := rep.topsize
    simp only [Tiles, Block.stop] at finish
    omega
  have accHead := rep.tags.accessible (a := p + 8) (n := 8) (by omega) (by omega)
  have sum : add64 s.gm.topsize size = size + n.size := by
    rw [add64_of_lt (by omega)]
    omega
  simp only [Heap.freeForward, unused, Bool.false_eq_true, if_false, if_pos atTop,
    if_neg notDv, merged]
  refine ⟨_, ?_, rep', keeps⟩
  rw [start]
  simp [unused, eq_true atTop, sum, Chunk.setHead, store64, run_storeN, accHead, rep.dv, notDv]

/-- As `forwardTop`, where the group starts with dv. -/
theorem forwardTop_dv (rep : Represents first stop limit s h []) (present : h.dv ≠ 0)
    (group : Vacates first (h.setDv 0 0) [h.dv] below mid h.dv size n above)
    (flag : n.pinuse = true) (unused : n.cinuse = false) (atTop : n.addr = h.top) (fuel : Nat) :
    Frees first stop limit s h (freeForward fuel h.dv size n.addr)
      (fun a => ∃ b ∈ mid, b.addr = a ∧ b.cinuse = true) (h.freeForward h.dv size n) := by
  obtain ⟨rep₀, keeps₀⟩ := rep.dropDv present (by simp)
  obtain ⟨low, enough, whole, inside, positive, reach⟩ := group.geometry rep₀
  have shape : h.blocks = below ++ mid ++ n :: above := group.shape
  have start := rep.freeForward_start (by simp [shape]) (show h.dv < n.addr by omega) flag size fuel
  have bound := rep.layout.bound
  have last : above = [] := by
    have layout := rep.layout
    rw [shape] at layout
    exact layout.above_nil atTop
  subst last
  obtain ⟨rep', keeps⟩ := rep₀.absorbed group atTop unused
  have merged := rep.merged_eq (group.congr rfl)
  have topsize : n.size = s.gm.topsize := by
    have layout := rep.layout
    rw [shape] at layout
    have finish := (layout.low_eq group.lower).2
    have := rep.topsize
    simp only [Tiles, Block.stop] at finish
    omega
  have accHead := rep.tags.accessible (a := h.dv + 8) (n := 8) (by omega) (by omega)
  have sum : add64 s.gm.topsize size = size + n.size := by
    rw [add64_of_lt (by omega)]
    omega
  simp only [Heap.freeForward, unused, Bool.false_eq_true, if_false, if_pos atTop, if_true, merged]
  refine ⟨_, ?_, rep', keeps₀.after keeps⟩
  rw [start]
  simp [unused, eq_true atTop, sum, Chunk.setHead, store64, run_storeN, accHead, rep.dv]

/-- The chunk behind is dv: the merged block is dv in its place. -/
theorem forwardDv (rep : Represents first stop limit s h loose) (proper : 0 ∉ loose)
    (group : Vacates first h loose below mid p size n (n₂ :: above)) (flag : n.pinuse = true)
    (unused : n.cinuse = false) (isDv : n.addr = h.dv) (fuel : Nat) :
    Frees first stop limit s h (freeForward fuel p size n.addr)
      (fun a => ∃ b ∈ mid, b.addr = a ∧ b.cinuse = true) (h.freeForward p size n) := by
  obtain ⟨low, enough, whole, inside, positive, reach⟩ := group.geometry rep
  have start := rep.freeForward_start (by simp [group.shape]) (show p < n.addr by omega) flag
    size fuel
  have bound := rep.layout.bound
  have present : h.dv ≠ 0 := by omega
  obtain ⟨notTop, c, member, here, dvsize, -⟩ := rep.filed.dvFree present
  obtain rfl := rep.layout.addr_inj member (by simp [group.shape]) (here.trans isDv.symm)
  obtain ⟨rep₀, keeps₀⟩ := rep.dropDv present proper
  rw [← isDv] at rep₀ notTop
  obtain ⟨rep₁, keeps₁, free₁⟩ := rep₀.mergedFree (group.congr rfl) unused
  obtain ⟨rep', keeps'⟩ := rep₁.setDv free₁ rfl
  have value : h.dvsize + size = size + c.size := by omega
  have sum : add64 s.gm.dvsize size = size + c.size := by
    rw [rep.dvsize, add64_of_lt (by omega), value]
  have reach₂ : c.addr + c.size + 16 ≤ limit := rep.tags.span_reach member notTop
  simp only [Heap.freeForward, unused, Bool.false_eq_true, if_false, if_neg notTop, if_pos isDv, value]
  refine ⟨_, ?_, rep', (keeps₀.after keeps₁).before keeps'⟩
  rw [start]
  simp only [unused, Bool.false_eq_true, if_false, if_neg notTop, if_pos isDv, Fuelled.bind_run,
    run_readGm, run_writeGm, sum]
  exact setFree_run (rep.tags.accessible (by omega) (by omega))
    (rep.tags.accessible (by omega) (by omega)) (by omega)

/-- The chunk behind is filed: it is taken out, and the merged block is filed. -/
theorem forwardFiled (rep : Represents first stop limit s h loose)
    (group : Vacates first h loose below mid p size n (n₂ :: above)) (flag : n.pinuse = true)
    (unused : n.cinuse = false) (notTop : n.addr ≠ h.top) (notDv : n.addr ≠ h.dv)
    (binned : h.Binned n.addr) (fuel : Nat) :
    Frees first stop limit s h (freeForward (fuel + 1) p size n.addr)
      (fun a => ∃ b ∈ mid, b.addr = a ∧ b.cinuse = true) (h.freeForward p size n) := by
  obtain ⟨low, enough, whole, inside, positive, reach⟩ := group.geometry rep
  have start := rep.freeForward_start (by simp [group.shape]) (show p < n.addr by omega) flag
    size (fuel + 1)
  have bound := rep.layout.bound
  have member : n ∈ h.blocks := by simp [group.shape]
  have free : FreeAt h.top h.blocks n.addr n.size := ⟨notTop, n, member, rfl, rfl, unused⟩
  have pNotDv := rep.start_ne_dv group
  obtain ⟨sameBlocks, sameTop, sameDv, -⟩ := unlink_blocks h n.addr n.size
  obtain ⟨s₀, ran₀, rep₀, keeps₀⟩ := rep.unlink free binned (fuel + 1)
  obtain ⟨rep₁, keeps₁, free₁⟩ := rep₀.mergedFree (group.congr sameBlocks) unused
  have reach₂ : n.addr + n.size + 16 ≤ limit := rep.tags.span_reach member notTop
  have sum : add64 size n.size = size + n.size := add64_of_lt (by omega)
  have grow := setFree_run (s := s₀) (rep₀.tags.accessible (a := p + 8) (n := 8) (by omega) (by omega))
    (rep₀.tags.accessible (a := p + (size + n.size)) (n := 8) (by omega) (by omega)) (by omega)
  have done : Performs first stop limit (fun a => ∃ b ∈ mid, b.addr = a ∧ b.cinuse = true)
      (fun _ _ => False) s h
      (do unlinkChunk (fuel + 1) n.addr n.size
          Chunk.setSizeAndPinuseOfFreeChunk p (size + n.size)) ()
      ((h.unlink n.addr n.size).merged p size n) [p] := by
    refine ⟨_, ?_, rep₁, keeps₀.after keeps₁⟩
    rw [Fuelled.bind_run, ran₀]
    exact grow
  simp only [Heap.freeForward, unused, Bool.false_eq_true, if_false, if_neg notTop, if_neg notDv,
    if_neg pNotDv]
  refine (fileFreed done free₁ (fun s' tags => group.disturbed rep tags free₁
    (Nat.le_add_right _ _)) fuel).congr ?_ fun _ => Iff.rfl
  have other : p ≠ s₀.gm.dv := by
    rw [rep₀.dv, sameDv]
    exact pNotDv
  rw [start]
  simp [unused, notTop, notDv, sum, ran₀, grow, other]

theorem reorder (rep : Represents first stop limit s h loose) {loose' : List Nat}
    (same : ∀ q, q ∈ loose' ↔ q ∈ loose) : Represents first stop limit s h loose' := by
  have filed := rep.filed
  refine { rep with filed := ⟨filed.dvNone, filed.dvFree, ⟨filed.dvOut.1, ?_⟩, ?_, ?_⟩ }
  · rw [same]
    exact filed.dvOut.2
  · exact fun q member => filed.looseOut q ((same q).mp member)
  · simp only [same]
    exact filed.cover

/-- As `forwardFiled`, where the group starts with dv: the merged block is dv. -/
theorem forwardFiled_dv (rep : Represents first stop limit s h []) (present : h.dv ≠ 0)
    (group : Vacates first (h.setDv 0 0) [h.dv] below mid h.dv size n (n₂ :: above))
    (flag : n.pinuse = true) (unused : n.cinuse = false) (notTop : n.addr ≠ h.top)
    (binned : h.Binned n.addr) (fuel : Nat) :
    Frees first stop limit s h (freeForward fuel h.dv size n.addr)
      (fun a => ∃ b ∈ mid, b.addr = a ∧ b.cinuse = true) (h.freeForward h.dv size n) := by
  obtain ⟨low, enough, whole, inside, positive, reach⟩ :=
    group.geometry (rep.dropDv present (by simp)).1
  have shape : h.blocks = below ++ mid ++ n :: n₂ :: above := group.shape
  have start := rep.freeForward_start (by simp [shape]) (show h.dv < n.addr by omega) flag size fuel
  have bound := rep.layout.bound
  have member : n ∈ h.blocks := by simp [shape]
  have free : FreeAt h.top h.blocks n.addr n.size := ⟨notTop, n, member, rfl, rfl, unused⟩
  have notDv : n.addr ≠ h.dv := fun same => rep.filed.dvOut.1 (same ▸ binned)
  obtain ⟨sameBlocks, sameTop, sameDv, -⟩ := unlink_blocks h n.addr n.size
  obtain ⟨s₀, ran₀, rep₀, keeps₀⟩ := rep.unlink free binned fuel
  obtain ⟨rep₁, keeps₁⟩ := rep₀.dropDv (by rwa [sameDv]) (by simp; omega)
  rw [sameDv] at rep₁
  have group' : Vacates first ((h.unlink n.addr n.size).setDv 0 0) [h.dv] below mid h.dv size n
    (n₂ :: above) := group.congr sameBlocks
  have rep₁' := rep₁.reorder (fun q => show q ∈ [n.addr, h.dv] ↔ q ∈ [h.dv, n.addr] by simp [or_comm])
  obtain ⟨rep₂, keeps₂, free₂⟩ := rep₁'.mergedFree group' unused
  obtain ⟨rep', keeps'⟩ := rep₂.setDv free₂ rfl
  have reach₂ : n.addr + n.size + 16 ≤ limit := rep.tags.span_reach member notTop
  have sum : add64 size n.size = size + n.size := add64_of_lt (by omega)
  have grow := setFree_run (s := s₀) (rep₀.tags.accessible (a := h.dv + 8) (n := 8) (by omega)
    (by omega)) (rep₀.tags.accessible (a := h.dv + (size + n.size)) (n := 8) (by omega) (by omega))
    (by omega)
  have stillDv : s₀.gm.dv = h.dv := rep₀.dv.trans sameDv
  simp only [Heap.freeForward, unused, Bool.false_eq_true, if_false, if_neg notTop, if_neg notDv,
    if_true]
  refine ⟨_, ?_, rep', ((keeps₀.after keeps₁).after keeps₂).before keeps'⟩
  rw [start]
  simp [unused, notTop, notDv, sum, ran₀, grow, stillDv]

/-- A free block that is not top and not part of the group is dv or filed. -/
theorem behind_filed (rep : Represents first stop limit s h loose)
    (group : Vacates first h loose below mid p size n above) (unused : n.cinuse = false)
    (notTop : n.addr ≠ h.top) (notDv : n.addr ≠ h.dv) : h.Binned n.addr := by
  have member : n ∈ h.blocks := by simp [group.shape]
  rcases rep.filed.cover n.addr n.size ⟨notTop, n, member, rfl, rfl, unused⟩ with
    isDv | binned | inLoose
  · exact absurd isDv notDv
  · exact binned
  · obtain ⟨b, inMid, here⟩ := group.looseAll _ inLoose
    have layout := rep.layout
    rw [group.shape] at layout
    have bounds := tiles_bounds (layout.low_eq group.lower).1 inMid
    have := layout.nonempty b (by simp [inMid])
    omega

/-- A block that is not top is not the last one. -/
theorem behind_next (rep : Represents first stop limit s h loose)
    (shape : h.blocks = below ++ mid ++ n :: above) (notTop : n.addr ≠ h.top) :
    ∃ n₂ rest, above = n₂ :: rest := by
  cases above with
  | cons n₂ rest => exact ⟨n₂, rest, rfl⟩
  | nil =>
      obtain ⟨most, last, same, atTop⟩ := rep.layout.last
      rw [shape] at same
      obtain ⟨-, single⟩ := List.append_inj' same rfl
      rw [(List.cons.inj single).1] at notTop
      exact absurd atTop notTop

theorem forward (rep : Represents first stop limit s h loose) (proper : 0 ∉ loose)
    (group : Vacates first h loose below mid p size n above) (flag : n.pinuse = true) (fuel : Nat) :
    Frees first stop limit s h (freeForward (fuel + 1) p size n.addr)
      (fun a => ∃ b ∈ mid, b.addr = a ∧ b.cinuse = true) (h.freeForward p size n) := by
  cases used : n.cinuse with
  | true => exact rep.forwardUsed group flag used fuel
  | false =>
      by_cases atTop : n.addr = h.top
      · exact rep.forwardTop group flag used atTop (fuel + 1)
      · obtain ⟨n₂, rest, rfl⟩ := rep.behind_next group.shape atTop
        by_cases isDv : n.addr = h.dv
        · exact rep.forwardDv proper group flag used isDv (fuel + 1)
        · exact rep.forwardFiled group flag used atTop isDv
            (rep.behind_filed group used atTop isDv) fuel

/-- As `forward`, where the group starts with dv and the chunk behind is free. -/
theorem forward_dv (rep : Represents first stop limit s h []) (present : h.dv ≠ 0)
    (group : Vacates first (h.setDv 0 0) [h.dv] below mid h.dv size n above)
    (flag : n.pinuse = true) (unused : n.cinuse = false) (fuel : Nat) :
    Frees first stop limit s h (freeForward fuel h.dv size n.addr)
      (fun a => ∃ b ∈ mid, b.addr = a ∧ b.cinuse = true) (h.freeForward h.dv size n) := by
  by_cases atTop : n.addr = h.top
  · exact rep.forwardTop_dv present group flag unused atTop fuel
  · obtain ⟨n₂, rest, rfl⟩ := rep.behind_next group.shape atTop
    obtain ⟨rep₀, -⟩ := rep.dropDv present (by simp)
    have place := group.geometry rep₀
    have binned : (h.setDv 0 0).Binned n.addr :=
      rep₀.behind_filed group unused atTop (show n.addr ≠ 0 by omega)
    exact rep.forwardFiled_dv present group flag unused atTop binned fuel

/-- As `forward_dv`, where the chunk behind is in use: the merged block is dv. -/
theorem growDv (rep : Represents first stop limit s h []) (present : h.dv ≠ 0)
    (group : Vacates first (h.setDv 0 0) [h.dv] below mid h.dv size n above)
    (used : n.cinuse = true) :
    Performs first stop limit (fun a => ∃ b ∈ mid, b.addr = a ∧ b.cinuse = true) (fun _ _ => False)
      s h
      (do writeGm fun g => { g with dvsize := size }
          Chunk.setFreeWithPinuse h.dv size n.addr) ()
      ((h.freed h.dv size n).setDv h.dv size) [] := by
  obtain ⟨rep₀, keeps₀⟩ := rep.dropDv present (by simp)
  obtain ⟨low, enough, whole, inside, positive, reach⟩ := group.geometry rep₀
  obtain ⟨rep₁, keeps₁, free₁⟩ := rep₀.freedUsed group used
  have bound := rep.layout.bound
  obtain ⟨rep', keeps'⟩ := rep₁.setDv free₁ rfl
  refine ⟨_, ?_, rep', (keeps₀.after keeps₁).before keeps'⟩
  have acc := fun a (lower : first ≤ a) (upper : a + 8 ≤ limit) =>
    rep.tags.accessible (n := 8) lower upper
  rw [Fuelled.bind_run, run_writeGm]
  have ran := setFreeWithPinuse_run (s := { s with gm := { s.gm with dvsize := size } })
    (acc (n.addr + 8) (by omega) (by omega)) (acc (h.dv + 8) (by omega) (by omega))
    (acc (h.dv + size) (by omega) (by omega)) (by omega)
  refine ran.trans ?_
  simp [← rep.dv]

/-- The checks of Free pass at a chunk in use, and the chunk behind is found. -/
theorem free_reads (rep : Represents first stop limit s h loose) {b : Block}
    (shape : h.blocks = below ++ b :: n :: above) (used : b.cinuse = true) :
    mem2chunk (b.addr + 32) = b.addr ∧ okAddress b.addr s = .ok true s ∧
      Chunk.isInuse b.addr s = .ok true s ∧ Chunk.chunksize b.addr s = .ok b.size s ∧
      chunkPlusOffset b.addr b.size = n.addr := by
  obtain ⟨lower, next, notTop, inside, positive, reachB, reachN, low, enough, aligned⟩ :=
    rep.group shape
  have bound := rep.layout.bound
  have member : b ∈ h.blocks := by simp [shape]
  have back : mem2chunk (b.addr + 32) = b.addr := by
    have distance : twoSizeTSizes = 32 := rfl
    rw [mem2chunk, distance, sub64_of_le (by omega) (by omega)]
    omega
  have ok : okAddress b.addr s = .ok true s := by
    have := rep.placed.leastLe
    rw [okAddress_run, decide_eq_true (show b.addr ≥ s.gm.leastAddr by omega)]
  have inuse : Chunk.isInuse b.addr s = .ok true s := by
    have flags := (rep.tags.head_flags member).2
    rw [used, Bool.toNat_true] at flags
    have mask : inuseBits = 3 := rfl
    have differ : s.mem.load (b.addr + 8) 8 &&& inuseBits ≠ pinuseBit := by
      rw [mask, and_three, pinuseBit]
      omega
    rw [Chunk.isInuse, Fuelled.bind_run, rep.tags.head_run member]
    simp only [differ, ne_eq, not_false_eq_true, decide_true, run_pure]
  have plus := rep.plus_offset b.addr b.size (by omega)
  rw [← next] at plus
  exact ⟨back, ok, inuse, rep.tags.chunksize_run member notTop, plus⟩

/-- What Free reads of a chunk in use: the checks pass, then its size and PINUSE. -/
theorem free_start (fuel : Nat) (rep : Represents first stop limit s h loose) {b : Block}
    (shape : h.blocks = below ++ b :: n :: above) (used : b.cinuse = true) :
    free fuel (b.addr + 32) s =
      if b.pinuse then freeForward fuel b.addr b.size n.addr s
      else
        (do let prevsize ← Chunk.prevFoot b.addr
            let prev := chunkMinusOffset b.addr prevsize
            let psize := add64 b.size prevsize
            if ← okAddress prev then
              if prev ≠ (← readGm).dv then
                unlinkChunk fuel prev prevsize
                freeForward fuel prev psize n.addr
              else if (← Chunk.head n.addr) &&& inuseBits = inuseBits then
                writeGm fun g => { g with dvsize := psize }
                Chunk.setFreeWithPinuse prev psize n.addr
              else freeForward fuel prev psize n.addr
            else throw .corrupted : Prog Unit) s := by
  obtain ⟨back, ok, inuse, size, plus⟩ := rep.free_reads shape used
  have pinuse := rep.tags.pinuse_run (b := b) (by simp [shape])
  cases flag : b.pinuse with
  | true =>
      rw [flag] at pinuse
      simp [free, back, ok, inuse, plus, size, pinuse]
  | false =>
      rw [flag] at pinuse
      simp [free, back, ok, inuse, plus, size, pinuse]

/-- PINUSE clear means a free block in front, whose size stands in the foot. -/
theorem free_before (rep : Represents first stop limit s h loose) {b : Block}
    (shape : h.blocks = below ++ b :: n :: above) (flag : b.pinuse = false) :
    ∃ (most : List Block) (q : Block), below = most ++ [q] ∧ q.cinuse = false ∧
      q.pinuse = true ∧ q.stop = b.addr ∧ q.addr ≠ h.top ∧
      Chunk.prevFoot b.addr s = .ok q.size s := by
  have layout := rep.layout
  have tags := rep.tags
  rw [shape] at layout tags
  rcases List.eq_nil_or_concat below with rfl | ⟨most, q, rfl⟩
  · have := layout.pinuseFirst b (by simp)
    simp [flag] at this
  · rw [List.concat_eq_append] at layout tags shape ⊢
    have beside : Adjacent ((most ++ [q]) ++ b :: n :: above) q b := by
      rw [adjacent_append]
      exact Or.inr (Or.inl ⟨by simp, rfl⟩)
    have unused : q.cinuse = false := by
      cases read : q.cinuse with
      | false => rfl
      | true =>
          have := layout.pinuseUsed q b beside read
          simp [flag] at this
    have tiles : TilesBlocks first (most ++ q :: b :: n :: above) stop := by
      simpa using layout.tiles
    have finish : q.stop = b.addr := (tiles_split tiles).2.1.symm
    have positive := layout.nonempty b (by simp)
    have bounds := layout.bounds (b := b) (by simp)
    have notTop : q.addr ≠ h.top := layout.ne_top_of_le (n := b) (by simp) (by simp) finish.le
    have reach := tags.block_reach (b := b) (by simp)
    refine ⟨most, q, rfl, unused, layout.pinuseFree q (by simp) unused, finish, notTop, ?_⟩
    have foot := tags.foot q b beside unused
    have acc := tags.accessible (a := b.addr) (n := 8) bounds.1 (by omega)
    rw [Chunk.prevFoot, load64, run_loadN acc, foot]

/-- Free computes the block in front from its foot. -/
theorem front_reads (rep : Represents first stop limit s h loose) {most : List Block} {q b : Block}
    (shape : h.blocks = most ++ q :: b :: n :: above) :
    chunkMinusOffset b.addr q.size = q.addr ∧ add64 b.size q.size = b.size + q.size ∧
      okAddress q.addr s = .ok true s := by
  obtain ⟨-, next, -, inside, -, -, -, low, -, -⟩ := rep.group shape
  have inB := rep.layout.bounds (b := b) (by simp [shape])
  have bound := rep.layout.bound
  have least := rep.placed.leastLe
  simp only [Block.stop] at inB
  refine ⟨?_, add64_of_lt (by omega), ?_⟩
  · rw [chunkMinusOffset, sub64_of_le (by omega) (by omega)]
    omega
  · rw [okAddress_run, decide_eq_true (show q.addr ≥ s.gm.leastAddr by omega)]

theorem vacates_alone (rep : Represents first stop limit s h loose)
    (shape : h.blocks = below ++ b :: n :: above) (next : n.addr = b.stop)
    (flag : b.pinuse = true) (used : b.cinuse = true) :
    Vacates first h [] below [b] b.addr b.size n above :=
  ⟨by simp [shape], (rep.group shape).1, next.symm, by simp, by simp [flag], by simp [used],
    by simp, b, by simp, used⟩

theorem vacates_behind (rep : Represents first stop limit s h loose) {most : List Block}
    {q : Block} (shape : h.blocks = most ++ q :: b :: n :: above) (finish : q.stop = b.addr)
    (next : n.addr = b.stop) (flag : q.pinuse = true) (used : b.cinuse = true) :
    Vacates first (h.setDv 0 0) [q.addr] most [q, b] q.addr (b.size + q.size) n above := by
  have lower : TilesBlocks first most q.addr := by
    have tiles := rep.layout.tiles
    rw [shape] at tiles
    exact (tiles_split tiles).1
  refine ⟨by simp [Heap.setDv, shape], lower, ?_, by simp, by simp [flag], by simp [used],
    by simp, b, by simp, used⟩
  simp only [Block.stop] at finish next
  omega

/-- Free does to the store what it does to the heap. -/
theorem free_refines (rep : Represents first stop limit s h []) {a k : Nat} (used : h.Used a k)
    (fuel : Nat) :
    Frees first stop limit s h (free (fuel + 1) (a + 32)) (· = a) (h.free a) := by
  obtain ⟨notTop, b, member, rfl, -, inuse⟩ := used
  obtain ⟨below, n, above, shape, next⟩ := rep.layout.successor member notTop
  have atB := rep.layout.blockAt_eq rfl member
  have inN : n ∈ h.blocks := by simp [shape]
  have atN := rep.layout.blockAt_eq rfl inN
  rw [next] at atN
  have flagN : n.pinuse = true := by
    have layout := rep.layout
    rw [shape] at layout
    refine layout.pinuseUsed b n ?_ inuse
    rw [adjacent_append]
    exact Or.inr (Or.inr (Or.inl ⟨rfl, rfl⟩))
  have start := rep.free_start (fuel + 1) shape inuse
  simp only [Heap.free, atB, atN]
  -- consolidate backward only when the block in front is free
  cases flag : b.pinuse with
  | true =>
      rw [flag, if_pos rfl] at start
      simp only [if_true, Heap.freeBlock]
      have group := rep.vacates_alone shape next flag inuse
      refine (rep.forward (by simp) group flagN fuel).congr start fun a => ?_
      simp only [List.mem_singleton, exists_eq_left, inuse, and_true]
      exact eq_comm
  | false =>
      obtain ⟨most, q, rfl, unused, flagQ, finish, qNotTop, foot⟩ := rep.free_before shape flag
      have inQ : q ∈ h.blocks := by simp [shape]
      have ending := rep.layout.blockEnding_eq rfl inQ
      rw [finish] at ending
      simp only [Bool.false_eq_true, if_false, ending, Heap.freeBlock]
      have layout := rep.layout
      rw [shape] at layout
      have shape' : h.blocks = most ++ q :: b :: n :: above := by simpa using shape
      have group := rep.vacates_behind shape' finish next flagQ inuse
      have freedOnly : ∀ a, a = b.addr ↔ ∃ c ∈ [q, b], c.addr = a ∧ c.cinuse = true := by
        intro a
        simp only [List.mem_cons, List.not_mem_nil, or_false, exists_eq_or_imp, unused,
          Bool.false_eq_true, and_false, false_or, exists_eq_left, inuse, and_true]
        exact eq_comm
      have boundQ := layout.bounds (b := q) (by simp)
      have positive := layout.positive
      obtain ⟨prev, sum, ok⟩ := rep.front_reads shape'
      rw [flag] at start
      simp only [Bool.false_eq_true, if_false, Fuelled.bind_run, foot, prev, sum, ok, if_true,
        run_readGm, rep.dv] at start
      -- dv is in no bin: it is grown in place, any other block is unlinked first
      by_cases isDv : q.addr = h.dv
      · have present : h.dv ≠ 0 := by omega
        rw [isDv] at group start ⊢
        simp only [ne_eq, not_true_eq_false, if_false, Fuelled.bind_run,
          rep.tags.head_run inN] at start ⊢
        have flags := rep.tags.head_flags inN
        rw [flagN, Bool.toNat_true] at flags
        have mask : inuseBits = 3 := rfl
        rw [mask, and_three] at start
        -- Free returns early when dv ends in front of a used block
        cases usedN : n.cinuse with
        | true =>
            rw [usedN, Bool.toNat_true] at flags
            rw [if_pos (by omega)] at start
            rw [if_pos rfl]
            have grown := rep.growDv present group usedN
            have done : Frees first stop limit s h _ _
              (some ((h.freed h.dv (b.size + q.size) n).setDv h.dv (b.size + q.size))) := grown
            exact done.congr start freedOnly
        | false =>
            rw [usedN, Bool.toNat_false] at flags
            rw [if_neg (by omega)] at start
            simp only [Bool.false_eq_true, if_false]
            exact (rep.forward_dv present group flagN usedN (fuel + 1)).congr start freedOnly
      · have freeQ : FreeAt h.top h.blocks q.addr q.size := ⟨qNotTop, q, inQ, rfl, rfl, unused⟩
        have binned : h.Binned q.addr := by
          rcases rep.filed.cover _ _ freeQ with same | inBin | inLoose
          · exact absurd same isDv
          · exact inBin
          · cases inLoose
        simp only [isDv, ne_eq, not_false_eq_true, if_true] at start ⊢
        obtain ⟨sameBlocks, sameTop, -⟩ := unlink_blocks h q.addr q.size
        have taken := Frees.after (rep.unlink freeQ binned (fuel + 1)) sameBlocks sameTop
            fun s₁ rep₁ =>
          rep₁.forward (by simpa using (show ¬ 0 = q.addr by omega)) (group.congr sameBlocks) flagN
            fuel
        exact taken.congr start freedOnly

end Represents

end Vacating

end Unimem
