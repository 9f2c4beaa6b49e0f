import Unimem.FreeStore
import Unimem.Merges

/-!
What one call does to the chunks: the chunk an Alloc hands out, and what a Free
makes of the chunk and its neighbours. Everything else stays as it was.
-/

namespace Unimem

open Tiling ByteMemory Memory WordArith MallocState

/-- Top, or a free chunk that is in a bin or dv. -/
def Store.Extent (s : Store) (first p size : Nat) : Prop :=
  p = s.gm.top ∧ size = s.gm.topsize ∨ s.FreeChunk first p size ∧ (p = s.gm.dv ∨ s.Binned p)

/-- An Alloc of `bytes` in the world `w` that returned `mem`. -/
structure Allocated (setup : Setup) (w : World) (bytes mem : Nat) (s' : Store) : Prop where
  within : (∃ p size, w.store.Extent setup.first p size ∧ p ≤ mem2chunk mem ∧
      mem2chunk mem + s'.sizeAt (mem2chunk mem) ≤ p + size) ∨
    w.store.gm.top = 0 ∧ setup.first ≤ mem2chunk mem ∧
      mem2chunk mem + s'.sizeAt (mem2chunk mem) ≤ setup.stop
  request : request2size bytes = max 32 ((bytes + 23) / 16 * 16)
  least : request2size bytes ≤ s'.sizeAt (mem2chunk mem)
  most : s'.sizeAt (mem2chunk mem) < request2size bytes + minChunkSize
  multiple : s'.sizeAt (mem2chunk mem) % 16 = 0
  aligned : mem % 16 = 0
  chunk : s'.IsChunk setup.first (mem2chunk mem)
  cinuse : s'.cinuseAt (mem2chunk mem) = true
  pinuse : s'.pinuseAt (mem2chunk mem) = true
  next : s'.pinuseAt (s'.nextOf (mem2chunk mem)) = true
  others : ∀ other size, (other, size) ∈ w.live →
    s'.IsChunk setup.first (mem2chunk other) ∧
      s'.sizeAt (mem2chunk other) = w.store.sizeAt (mem2chunk other) ∧
      s'.cinuseAt (mem2chunk other) = w.store.cinuseAt (mem2chunk other) ∧
      (s'.pinuseAt (mem2chunk other) = w.store.pinuseAt (mem2chunk other) ∨
        mem2chunk other = s'.nextOf (mem2chunk mem) ∧ s'.pinuseAt (mem2chunk other) = true)

theorem request2size_eq {bytes : Nat} (proper : bytes < maxRequest) :
    request2size bytes = paddedRequest bytes ∧
      request2size bytes = max 32 ((bytes + 23) / 16 * 16) := by
  have least : minChunkSize = 32 := by decide
  have minimum : minRequest = 23 := rfl
  rw [maxRequest_eq] at proper
  have padded : padRequest bytes = bytes + 23 - (bytes + 23) % 16 := padRequest_eq (by omega)
  constructor
  · rw [request2size, paddedRequest, maxSmallRequest_eq, maxRequest_eq, minimum]
    split
    · rw [if_pos (by omega)]
    · split
      · rfl
      · rw [if_neg (by omega)]
  · rw [request2size, minimum, least, padded]
    split <;> omega

section Carving

variable {first stop nb p : Nat} {h h' : Heap}

/-- The chunk a carving hands out, and the one behind it. -/
theorem Carved.handed (layout : Layout first stop h.top h.blocks)
    (layout' : Layout first stop h'.top h'.blocks) (carved : Carved h h' nb p) :
    ∃ c ∈ h'.blocks, c.addr = p ∧ nb ≤ c.size ∧ c.size < nb + 32 ∧ c.addr ≠ h'.top ∧
      c.cinuse = true ∧ c.pinuse = true ∧
      ∃ n ∈ h'.blocks, n.addr = c.stop ∧ n.pinuse = true := by
  cases carved with
  | whole below above b n shape unused at_ notTop fits few blocks top =>
      have next := adjacent_stop layout.tiles (shape ▸ adjacent_pair : Adjacent h.blocks b n)
      exact ⟨⟨p, b.size, true, true⟩, by simp [blocks], rfl, fits, few, by rw [top, ← at_]; exact notTop,
        rfl, rfl, { n with pinuse := true }, by simp [blocks], by simp only [Block.stop]; omega, rfl⟩
  | part below above b n shape unused at_ notTop fits blocks top =>
      exact ⟨⟨p, nb, true, true⟩, by simp [blocks], rfl, Nat.le_refl _, by simp,
        by rw [top, ← at_]; exact notTop, rfl, rfl, ⟨p + nb, b.size - nb, false, true⟩,
        by simp [blocks], rfl, rfl⟩
  | top below t shape atTop isTop fits blocks top =>
      have some := layout'.nonempty ⟨p, nb, true, true⟩ (by simp [blocks])
      simp only at some
      exact ⟨⟨p, nb, true, true⟩, by simp [blocks], rfl, Nat.le_refl _, by simp,
        by rw [top]; simp only; omega, rfl, rfl, ⟨p + nb, t.size - nb, t.cinuse, true⟩,
        by simp [blocks], rfl, rfl⟩

/-- It comes out of one free block or out of top. -/
theorem Carved.within (layout' : Layout first stop h'.top h'.blocks) (carved : Carved h h' nb p)
    {c : Block} (member : c ∈ h'.blocks) (here : c.addr = p) :
    (∃ size, FreeAt h.top h.blocks p size ∧ c.size ≤ size) ∨
      p = h.top ∧ ∃ t ∈ h.blocks, t.addr = h.top ∧ c.size ≤ t.size := by
  cases carved with
  | whole below above b n shape unused at_ notTop fits few blocks =>
      have same := layout'.addr_inj member
        (by simp [blocks] : ⟨p, b.size, true, true⟩ ∈ h'.blocks) here
      refine Or.inl ⟨b.size, ⟨at_ ▸ notTop, b, by simp [shape], at_, rfl, unused⟩, ?_⟩
      rw [same]
  | part below above b n shape unused at_ notTop fits blocks =>
      have same := layout'.addr_inj member (by simp [blocks] : ⟨p, nb, true, true⟩ ∈ h'.blocks) here
      refine Or.inl ⟨b.size, ⟨at_ ▸ notTop, b, by simp [shape], at_, rfl, unused⟩, ?_⟩
      rw [same]
      exact Nat.le_of_add_right_le fits
  | top below t shape atTop isTop fits blocks =>
      have same := layout'.addr_inj member (by simp [blocks] : ⟨p, nb, true, true⟩ ∈ h'.blocks) here
      refine Or.inr ⟨isTop, t, by simp [shape], atTop, ?_⟩
      rw [same]
      exact Nat.le_of_lt fits

/-- All chunks in use stay; the one behind it gets its PINUSE set. -/
theorem Carved.others (layout : Layout first stop h.top h.blocks) (carved : Carved h h' nb p)
    {c d : Block} (inNew : c ∈ h'.blocks) (here : c.addr = p)
    (layout' : Layout first stop h'.top h'.blocks) (member : d ∈ h.blocks)
    (used : d.cinuse = true) (notTop : d.addr ≠ h.top) :
    ∃ d' ∈ h'.blocks, d'.addr = d.addr ∧ d'.size = d.size ∧ d'.cinuse = d.cinuse ∧
      (d'.pinuse = d.pinuse ∨ d'.addr = c.stop ∧ d'.pinuse = true) := by
  cases carved with
  | whole below above b n shape unused at_ _ fits few blocks =>
      have same := layout'.addr_inj inNew
        (by simp [blocks] : ⟨p, b.size, true, true⟩ ∈ h'.blocks) here
      have next := adjacent_stop layout.tiles (shape ▸ adjacent_pair : Adjacent h.blocks b n)
      rw [shape] at member
      simp only [List.mem_append, List.mem_cons] at member
      rcases member with inBelow | rfl | rfl | inAbove
      · exact ⟨d, by simp [blocks, inBelow], rfl, rfl, rfl, Or.inl rfl⟩
      · rw [unused] at used
        cases used
      · refine ⟨{ d with pinuse := true }, by simp [blocks], rfl, rfl, rfl, Or.inr ⟨?_, rfl⟩⟩
        rw [same]
        simp only [Block.stop]
        omega
      · exact ⟨d, by simp [blocks, inAbove], rfl, rfl, rfl, Or.inl rfl⟩
  | part below above b n shape unused at_ _ fits blocks =>
      rw [shape] at member
      simp only [List.mem_append, List.mem_cons] at member
      rcases member with inBelow | rfl | rfl | inAbove
      · exact ⟨d, by simp [blocks, inBelow], rfl, rfl, rfl, Or.inl rfl⟩
      · rw [unused] at used
        cases used
      · exact ⟨d, by simp [blocks], rfl, rfl, rfl, Or.inl rfl⟩
      · exact ⟨d, by simp [blocks, inAbove], rfl, rfl, rfl, Or.inl rfl⟩
  | top below t shape atTop isTop fits blocks =>
      rw [shape] at member
      rcases List.mem_append.mp member with inBelow | isLast
      · exact ⟨d, by simp [blocks, inBelow], rfl, rfl, rfl, Or.inl rfl⟩
      · rw [List.mem_singleton.mp isLast] at notTop
        exact absurd atTop notTop

end Carving

section Allocated

variable {setup : Setup} {w : World} {h : Heap} {bytes mem : Nat} {s' : Store}

/-- A free extent of the heap, as the words show it. -/
theorem Runs.extent (runs : Runs setup w h) {p size : Nat} (free : FreeAt h.top h.blocks p size) :
    w.store.Extent setup.first p size := by
  have rep := runs.rep
  refine Or.inr ⟨(rep.freeChunk_iff p size).mpr free, ?_⟩
  rcases rep.filed.cover p size free with isDv | binned | loose
  · exact Or.inl (isDv.trans rep.dv.symm)
  · exact Or.inr ((rep.binned_words p).mpr binned)
  · cases loose

theorem Runs.allocated (runs : Runs setup w h) (proper : bytes < maxRequest)
    (returned : (Call.alloc bytes).Returns w.store mem s') : Allocated setup w bytes mem s' := by
  have rep := runs.rep
  have layout := rep.layout
  have permitted : w.permits (.alloc bytes) := trivial
  obtain ⟨h', answered, runs', -, -⟩ := runs.returned permitted returned
  have rep' : Represents setup.first setup.stop (setup.stop + 16) s' h' [] := runs'.rep
  have layout' := rep'.layout
  obtain ⟨p, rfl, carved⟩ := rep.alloc_carved answered
  obtain ⟨padded, request⟩ := request2size_eq proper
  rw [← padded] at carved
  obtain ⟨c, inNew, rfl, fits, few, notTop, used, flag, n, inNext, next, nextFlag⟩ :=
    carved.handed layout layout'
  have size := rep'.sizeAt_eq inNew notTop
  have step : s'.nextOf c.addr = c.stop := rep'.step_eq inNew (by exact notTop)
  have bounds := layout'.bounds inNew
  have bound := layout'.bound
  have multiple := (layout'.sized c inNew notTop).2
  have back : mem2chunk (c.addr + 32) = c.addr := by
    have distance : twoSizeTSizes = 32 := rfl
    simp only [Block.stop] at bounds
    rw [mem2chunk, distance, sub64_of_le (by omega) (by omega)]
    omega
  have aligned := layout'.aligned_of_mem inNew
  have minimum : minChunkSize = 32 := by decide
  refine
    { within := Or.inl ?_
      request := request
      least := by rw [back, size]; exact fits
      most := by rw [back, size, minimum]; exact few
      multiple := by rw [back, size]; exact multiple
      aligned := by omega
      chunk := by rw [back]; exact (rep'.chunk_iff _).mpr ⟨c, inNew, rfl⟩
      cinuse := by rw [back, rep'.cinuseAt_eq inNew, used]
      pinuse := by rw [back, rep'.pinuseAt_eq inNew, flag]
      next := by rw [back, step, ← next, rep'.pinuseAt_eq inNext, nextFlag]
      others := fun other bytes' member => ?_ }
  · rw [back, size]
    rcases carved.within layout' inNew rfl with ⟨whole, free, less⟩ | ⟨isTop, t, inTop, atTop, less⟩
    · exact ⟨c.addr, whole, runs.extent free, Nat.le_refl _, by omega⟩
    · have topsize := rep.topsize
      obtain ⟨t', inTop', atTop', finish⟩ := layout.topBlock
      obtain rfl := layout.addr_inj inTop inTop' (atTop.trans atTop'.symm)
      simp only [Block.stop] at finish
      exact ⟨c.addr, w.store.gm.topsize, Or.inl ⟨isTop.trans rep.top.symm, rfl⟩,
        Nat.le_refl _, by omega⟩
  · obtain ⟨a, k, -, back', usedA, -⟩ := runs.pointer member
    obtain ⟨notTop', d, inOld, rfl, rfl, usedD⟩ := usedA
    obtain ⟨d', inNew', here, sameSize, sameUse, flags⟩ :=
      carved.others layout inNew rfl layout' inOld usedD notTop'
    -- a used block below the old top does not become top
    have notTopNew : d'.addr ≠ h'.top := by
      intro atTop
      have := layout'.topRead d' inNew' atTop
      obtain ⟨t, inTop, atTop', finish⟩ := layout'.topBlock
      obtain rfl := layout'.addr_inj inTop inNew' (atTop'.trans atTop.symm)
      have below := layout.stop_le_top inOld notTop'
      obtain ⟨u, inTopOld, atTopOld, finishOld⟩ := layout.topBlock
      have := layout.nonempty u inTopOld
      simp only [Block.stop] at *
      omega
    rw [back', back, ← here, rep'.sizeAt_eq inNew' notTopNew, rep'.cinuseAt_eq inNew',
      rep'.pinuseAt_eq inNew', step, here, rep.sizeAt_eq inOld notTop', rep.cinuseAt_eq inOld,
      rep.pinuseAt_eq inOld]
    exact ⟨(rep'.chunk_iff _).mpr ⟨d', inNew', here⟩, sameSize, sameUse, here ▸ flags⟩

/-- Where the call initialises the heap, its chunk lies in the new top. -/
theorem Fresh.allocated (fresh : Fresh setup w) (aligned : setup.Aligned) (clean : Clean setup.raw)
    (proper : bytes < maxRequest) (returned : (Call.alloc bytes).Returns w.store mem s') :
    Allocated setup w bytes mem s' := by
  obtain ⟨holds, wide, -⟩ := aligned.bounds
  obtain ⟨s₁, opened, later⟩ := alloc_opens (fresh.gm ▸ clean) returned
  obtain ⟨gm, ⟨-, rep⟩ | ⟨narrow, -⟩⟩ := fresh.opened holds clean opened
  · have runs : Runs setup ⟨s₁, []⟩ (Heap.init setup.first setup.stop) := ⟨rep, tracked_init _ _⟩
    have done := runs.allocated proper later
    refine { done with
      within := Or.inr ⟨by rw [fresh.gm]; exact clean.top, ?_⟩
      others := fun other size member => by rw [fresh.none] at member; cases member }
    obtain ⟨p, size, extent, lower, upper⟩ | ⟨none, -⟩ := done.within
    · rcases extent with ⟨rfl, rfl⟩ | ⟨free, -⟩
      · have top : s₁.gm.top = setup.first := rep.top
        have topsize : setup.first + s₁.gm.topsize = setup.stop := rep.topsize
        simp only [top] at lower upper
        exact ⟨lower, by omega⟩
      · obtain ⟨notTop, b, member, rfl, -⟩ := (rep.freeChunk_iff p size).mp free
        rw [Heap.init, List.mem_singleton] at member
        exact absurd (by rw [member]; rfl) notTop
    · exact absurd none rep.top_ne_zero
  · rw [Setup.Wide] at wide
    omega

/-- Alloc's result, in every world a run reaches. -/
theorem reached_allocated (zeroed : Zeroed setup.raw) (aligned : setup.Aligned)
    {events : List Event} (run : setup.Reaches events w) (proper : bytes < maxRequest)
    (returned : (Call.alloc bytes).Returns w.store mem s') : Allocated setup w bytes mem s' := by
  rcases run.either zeroed aligned with fresh | ⟨h, runs⟩
  · exact fresh.allocated aligned zeroed.toClean proper returned
  · exact runs.allocated proper returned

/-- A request of 40 bytes, cut out of a freed chunk of 112. -/
theorem reached_allocated_sample : ∃ (w : World) (s' : Store),
    (Call.alloc 40).Returns w.store 4192 s' ∧
      Allocated (Setup.sample 1024 (by decide)) w 40 4192 s' := by
  have asked : ((Heap.init 4096 (4096 + 1024 - 8)).replay []
      [.alloc 24, .alloc 8, .alloc 100, .alloc 8, .free 4192]).map
        (fun found => (found.2, (found.1.answer (.alloc 40)).ending)) =
      some ([(4304, 8), (4160, 8), (4128, 24)], .returns 4192) := by decide
  obtain ⟨events, w, h, run, -, live, ⟨s', returned⟩, -⟩ :=
    Setup.sample_asks (by decide) (by decide) (by decide) _ _ asked fun _ => trivial
  exact ⟨w, s', returned, reached_allocated (Setup.sample_zeroed 1024 (by decide))
    (Setup.sample_regular (by decide) (by decide) (by decide)).aligned run (by decide) returned⟩

end Allocated

/-! ## What a Free leaves behind -/

/-- Where the chunk `p` starts and ends together with its free neighbours. -/
def Store.extentStart (s : Store) (p : Nat) : Nat :=
  if s.pinuseAt p then p else chunkMinusOffset p (s.prevFootAt p)

def Store.extentEnd (s : Store) (p : Nat) : Nat :=
  if s.nextOf p = s.gm.top then s.gm.top + s.gm.topsize
  else if s.cinuseAt (s.nextOf p) then s.nextOf p else s.nextOf (s.nextOf p)

/-- A Free in the world `w` of the live chunk `c`: `low` and `high` are the ends of its extent. -/
structure Released (setup : Setup) (w : World) (c low high : Nat) (s' : Store) : Prop where
  address : w.store.gm.leastAddr ≤ c ∧ w.store.gm.leastAddr ≤ low
  inuse : w.store.headAt c &&& inuseBits ≠ pinuseBit
  okNext : low < w.store.nextOf c
  nextPinuse : w.store.pinuseAt (w.store.nextOf c) = true
  used : ∀ p n, s'.UsedChunk setup.first p n ↔ w.store.UsedChunk setup.first p n ∧ p ≠ c
  left : w.store.pinuseAt c = false → w.store.FreeChunk setup.first low (c - low)
  top : w.store.nextOf c = w.store.gm.top → s'.gm.top = low ∧ s'.gm.top + s'.gm.topsize = high ∧
    s'.gm.dv = (if low = w.store.gm.dv then 0 else w.store.gm.dv) ∧
      s'.gm.dvsize = if low = w.store.gm.dv then 0 else w.store.gm.dvsize
  extent : w.store.nextOf c ≠ w.store.gm.top → s'.FreeChunk setup.first low (high - low) ∧
    s'.gm.top = w.store.gm.top ∧ s'.gm.topsize = w.store.gm.topsize
  dv : w.store.nextOf c ≠ w.store.gm.top →
    low = w.store.gm.dv ∨ w.store.nextOf c = w.store.gm.dv →
      s'.gm.dv = low ∧ s'.gm.dvsize = high - low
  bin : w.store.nextOf c ≠ w.store.gm.top → low ≠ w.store.gm.dv →
    w.store.nextOf c ≠ w.store.gm.dv →
      s'.gm.dv = w.store.gm.dv ∧ s'.gm.dvsize = w.store.gm.dvsize ∧
        if high - low < 256 then s'.InSmallbin ((high - low) / 8) low
        else s'.InTreebin (computeTreeIndex (high - low)) low
  others : ∀ i < 32, ∀ p, p ≠ low → p ≠ w.store.nextOf c →
    (s'.InSmallbin i p ↔ w.store.InSmallbin i p) ∧ (s'.InTreebin i p ↔ w.store.InTreebin i p)

section Released

variable {setup : Setup} {w : World} {h : Heap} {mem : Nat} {s' : Store}

/-- Where the freed chunk's next chunk and its extent start, as the words say. -/
theorem Front.start {first stop limit low size : Nat} {s : Store} {below mid above : List Block}
    {b n : Block} (rep : Represents first stop limit s h [])
    (shape : h.blocks = below ++ mid ++ n :: above)
    (front : Front b mid low size) (member : b ∈ h.blocks) (next : n.addr = b.stop) :
    s.nextOf b.addr = n.addr ∧ s.extentStart b.addr = low := by
  have layout := rep.layout
  have inN : n ∈ h.blocks := by simp [shape]
  have notTop := layout.ne_top_of_le member inN (Nat.le_of_eq next.symm)
  refine ⟨(rep.step_eq member notTop).trans next.symm, ?_⟩
  cases front with
  | alone flag => rw [Store.extentStart, rep.pinuseAt_eq member, flag, if_pos rfl]
  | behind q flag unused stops =>
      have bound := layout.bound
      have bounds := layout.bounds member
      simp only [Block.stop] at stops bounds
      have foot : s.prevFootAt b.addr = q.size := by
        have pair : Adjacent h.blocks q b := by
          rw [shape, List.append_assoc]
          exact adjacent_pair
        exact rep.tags.foot q b pair unused
      rw [Store.extentStart, rep.pinuseAt_eq member, flag, if_neg (by simp), foot,
        chunkMinusOffset, sub64_of_le (by omega) (by omega)]
      omega

/-- The extent of the freed chunk, as the words give its ends. -/
theorem Front.ends {first stop limit low size : Nat} {s : Store} {below mid above : List Block}
    {b n : Block} (rep : Represents first stop limit s h []) (topFree : TopFree stop)
    (shape : h.blocks = below ++ mid ++ n :: above) (front : Front b mid low size)
    (member : b ∈ h.blocks) (next : n.addr = b.stop) :
    s.nextOf b.addr = n.addr ∧ s.extentStart b.addr = low ∧
      s.extentEnd b.addr = low + size + (if n.cinuse then 0 else n.size) ∧ low + size = n.addr ∧
      first ≤ low ∧ low < n.addr ∧ low ≠ h.top ∧
      (b.pinuse = false → FreeAt h.top h.blocks low (b.addr - low)) ∧
      (n.addr = h.top → n.cinuse = false ∧ n.addr + n.size = stop) := by
  have layout := rep.layout
  have inN : n ∈ h.blocks := by simp [shape]
  have bounds := layout.bounds member
  have boundN := layout.bounds inN
  have bound := layout.bound
  have someB := layout.nonempty b member
  have someN := layout.nonempty n inN
  have notTop := layout.ne_top_of_le member inN (Nat.le_of_eq next.symm)
  obtain ⟨step, start⟩ := front.start rep shape member next
  have atTop : n.addr = h.top → n.cinuse = false ∧ n.addr + n.size = stop := by
    intro isTop
    obtain ⟨t, inTop, here, finish⟩ := layout.topBlock
    obtain rfl := layout.addr_inj inTop inN (here.trans isTop.symm)
    exact ⟨layout.top_unused topFree inTop isTop, finish⟩
  have finish : s.extentEnd b.addr = n.addr + if n.cinuse then 0 else n.size := by
    rw [Store.extentEnd, step, rep.top]
    by_cases isTop : n.addr = h.top
    · have topsize := rep.topsize
      obtain ⟨unused, stops⟩ := atTop isTop
      simp only [isTop, if_true, unused, Bool.false_eq_true, if_false]
      omega
    · rw [if_neg isTop, rep.cinuseAt_eq inN]
      have onward : s.nextOf n.addr = n.stop := rep.step_eq inN isTop
      rw [onward]
      cases n.cinuse <;> rfl
  simp only [Block.stop] at bounds boundN next
  cases front with
  | alone flag =>
      exact ⟨step, start, by rw [finish, next], next.symm, bounds.1, by omega, notTop,
        fun clear => by simp [flag] at clear, atTop⟩
  | behind q flag unused stops =>
      have inQ : q ∈ h.blocks := by simp [shape]
      have boundQ := layout.bounds inQ
      have someQ := layout.nonempty q inQ
      simp only [Block.stop] at stops boundQ
      have notTopQ := layout.ne_top_of_le inQ member (Nat.le_of_eq stops)
      refine ⟨step, start, by rw [finish]; omega, by omega, boundQ.1, by omega, notTopQ,
        fun _ => ⟨notTopQ, q, inQ, rfl, by omega, unused⟩, atTop⟩

/-- Any other free block was dv before as it is now. -/
theorem Merges.dv_other {first stop limit low size : Nat} {s : Store} {h' : Heap}
    {below mid above : List Block} {n : Block} {p r : Nat}
    (rep : Represents first stop limit s h [])
    (merges : Merges h h' below mid above n low size)
    (atTop : n.addr = h.top → n.cinuse = false) (atDv : n.addr = h.dv → n.cinuse = false)
    (free : FreeAt h.top h.blocks p r) (notLow : p ≠ low) (notNext : p ≠ n.addr) :
    p ≠ h'.dv ↔ p ≠ h.dv := by
  have present := free.geometry rep.layout
  have positive := rep.layout.positive
  by_cases isTop : n.addr = h.top
  · rw [(merges.atTop (atTop isTop) isTop).2.1]
    split
    · rename_i same
      exact ⟨fun _ => same ▸ notLow, fun _ => by omega⟩
    · rfl
  · have away : n.cinuse = true ∨ n.addr ≠ h.top := Or.inr isTop
    by_cases joined : low = h.dv ∨ n.cinuse = false ∧ n.addr = h.dv
    · rw [(merges.joins away joined).1]
      refine ⟨fun _ => ?_, fun _ => notLow⟩
      rcases joined with same | ⟨-, same⟩
      · exact same ▸ notLow
      · exact same ▸ notNext
    · simp only [not_or, not_and] at joined
      rw [(merges.apart away joined.1 (Or.inr fun isDv => joined.2 (atDv isDv) isDv)).1]

/-- Nothing but the two merged blocks enters or leaves a bin. -/
theorem Merges.bins_kept {first stop limit low size : Nat} {s : Store} {h' : Heap}
    {below mid above : List Block} {b n : Block} {p i : Nat}
    (rep : Represents first stop limit s h []) (rep' : Represents first stop limit s' h' [])
    (merges : Merges h h' below mid above n low size) (front : Front b mid low size)
    (inuse : b.cinuse = true) (atTop : n.addr = h.top → n.cinuse = false)
    (atDv : n.addr = h.dv → n.cinuse = false) (bound : i < 32) (notLow : p ≠ low)
    (notNext : p ≠ n.addr) :
    (s'.InSmallbin i p ↔ s.InSmallbin i p) ∧ (s'.InTreebin i p ↔ s.InTreebin i p) := by
  have free := fun r => merges.free_iff front inuse (p := p) (r := r) notLow notNext
  rw [(rep'.bins_free bound).1, (rep.bins_free bound).1, (rep'.bins_free bound).2,
    (rep.bins_free bound).2]
  constructor
  · refine exists_congr fun r => ?_
    rw [free r]
    refine and_congr_right fun freeP => ?_
    rw [merges.dv_other rep atTop atDv freeP notLow notNext]
  · refine exists_congr fun r => ?_
    rw [free r]
    refine and_congr_right fun freeP => ?_
    rw [merges.dv_other rep atTop atDv freeP notLow notNext]

theorem Runs.released (runs : Runs setup w h) (topFree : TopFree setup.stop)
    (live : mem ∈ w.live.map Prod.fst) {value : Nat}
    (returned : (Call.free mem).Returns w.store value s') :
    Released setup w (mem2chunk mem) (w.store.extentStart (mem2chunk mem))
      (w.store.extentEnd (mem2chunk mem)) s' := by
  have rep := runs.rep
  have layout := rep.layout
  obtain ⟨⟨_, bytes⟩, member, rfl⟩ := List.mem_map.mp live
  obtain ⟨a, k, at_, back, used, -⟩ := runs.pointer member
  have permitted : w.permits (.free (a + 32)) := at_ ▸ live
  rw [at_] at returned
  -- the run goes on, so the state after Free is again described by a heap
  obtain ⟨h', answered, runs', -, served⟩ := runs.returned permitted returned
  have rep' : Represents setup.first setup.stop (setup.stop + 16) s' h' [] := runs'.rep
  have freed : h.free a = some h' := Heap.free_of_answer answered
  obtain ⟨below, mid, above, b, n, low, size, freeing, rfl, rfl⟩ := rep.freeing used
  have merges := rep.free_merges freeing freed
  obtain ⟨-, front, inB, inuse, next, flagN, -, -, -⟩ := freeing
  have inN : n ∈ h.blocks := by simp [merges.shape]
  obtain ⟨step, start, finish, whole, lower, less, lowTop, left, atTop⟩ :=
    front.ends rep topFree merges.shape inB next
  rw [at_] at back ⊢
  rw [back, start, finish]
  have total : low + size + (if n.cinuse then 0 else n.size) - low =
      size + if n.cinuse then 0 else n.size := by
    rw [Nat.add_assoc, Nat.add_sub_cancel_left]
  have least := rep.placed.leastLe
  have bounds := layout.bounds inB
  have positive := layout.positive
  have away : n.addr ≠ h.top → n.cinuse = true ∨ n.addr ≠ h.top := Or.inr
  -- dv is a free block: a used successor cannot be dv
  have dvFree : n.addr = h.dv → n.cinuse = false := by
    intro isDv
    have some : h.dv ≠ 0 := by omega
    obtain ⟨-, c, inC, here, -, unused⟩ := rep.filed.dvFree some
    rwa [layout.addr_inj inC inN (here.trans isDv.symm)] at unused
  have topsize := rep.topsize
  have topsize' := rep'.topsize
  refine
    { address := ⟨by omega, by omega⟩
      inuse := ?_
      okNext := by rw [step]; exact less
      nextPinuse := by rw [step, rep.pinuseAt_eq inN, flagN]
      used := fun p r => ?_
      left := fun flag => ?_
      top := fun isTop => ?_
      extent := fun notTop => ?_
      dv := fun notTop joined => ?_
      bin := fun notTop notLow notNext => ?_
      others := fun i bound p notLow notNext => merges.bins_kept rep rep' front inuse
        (fun isTop => (atTop isTop).1) dvFree bound notLow (step ▸ notNext) }
  · have flags := (rep.tags.head_flags inB).2
    rw [inuse, Bool.toNat_true] at flags
    have mask : inuseBits = 3 := rfl
    rw [mask, and_three, pinuseBit, Store.headAt]
    omega
  · rw [rep'.usedChunk_iff, rep.usedChunk_iff]
    have exact_ := served p r
    rw [exact_]
    exact and_congr_right fun _ => by omega
  · rw [rep.pinuseAt_eq inB] at flag
    exact (rep.freeChunk_iff _ _).mpr (left flag)
  · rw [step, rep.top] at isTop
    obtain ⟨unused, stops⟩ := atTop isTop
    obtain ⟨top, dv, dvsize⟩ := merges.atTop unused isTop
    rw [rep'.top, rep'.dv, rep'.dvsize, rep.dv, rep.dvsize, top, unused, if_neg (by simp)]
    exact ⟨rfl, by omega, dv, dvsize⟩
  · rw [step, rep.top] at notTop
    have top := merges.top (away notTop)
    rw [total, rep'.freeChunk_iff, rep'.top, rep.top, top]
    exact ⟨top ▸ merges.freed lowTop (away notTop), rfl, by omega⟩
  · rw [step, rep.top] at notTop
    rw [step, rep.dv] at joined
    rw [total, rep'.dv, rep'.dvsize]
    exact merges.joins (away notTop) (joined.imp_right fun isDv => ⟨dvFree isDv, isDv⟩)
  · rw [step, rep.top] at notTop
    rw [rep.dv] at notLow notNext
    rw [step] at notNext
    obtain ⟨dv, dvsize⟩ := merges.apart (away notTop) notLow (Or.inr notNext)
    have free := merges.freed lowTop (away notTop)
    rw [total, rep'.dv, rep'.dvsize, rep.dv, rep.dvsize]
    refine ⟨dv, dvsize, ?_⟩
    generalize size + (if n.cinuse then 0 else n.size) = whole at free
    -- the bin it is filed in follows from its size alone
    by_cases few : whole < 256
    · rw [if_pos few]
      exact ((rep'.bins_free (by omega)).1).mpr ⟨_, free, by rw [dv]; exact notLow, few, rfl⟩
    · rw [if_neg few]
      exact ((rep'.bins_free (computeTreeIndex_lt _)).2).mpr
        ⟨_, free, by rw [dv]; exact notLow, by omega, rfl⟩

/-- Free's effect, in every world a run reaches. -/
theorem reached_released (zeroed : Zeroed setup.raw) (aligned : setup.Aligned)
    {events : List Event} (run : setup.Reaches events w) (live : mem ∈ w.live.map Prod.fst)
    {value : Nat} (returned : (Call.free mem).Returns w.store value s') :
    Released setup w (mem2chunk mem) (w.store.extentStart (mem2chunk mem))
      (w.store.extentEnd (mem2chunk mem)) s' := by
  rcases run.either zeroed aligned with fresh | ⟨h, runs⟩
  · rw [fresh.none] at live
    cases live
  · exact runs.released aligned.bounds.2.2 live returned

/-- A chunk freed between two free ones. -/
theorem reached_released_sample : ∃ (w : World) (s' : Store),
    w.live = [(4304, 8), (4160, 8)] ∧ (Call.free 4160).Returns w.store 0 s' ∧
      Released (Setup.sample 1024 (by decide)) w (mem2chunk 4160)
        (w.store.extentStart (mem2chunk 4160)) (w.store.extentEnd (mem2chunk 4160)) s' := by
  have asked : ((Heap.init 4096 (4096 + 1024 - 8)).replay []
      [.alloc 24, .alloc 8, .alloc 100, .alloc 8, .free 4128, .free 4192]).map
        (fun found => (found.2, (found.1.answer (.free 4160)).ending)) =
      some ([(4304, 8), (4160, 8)], .returns 0) := by decide
  have permitted : ∀ s, World.permits ⟨s, [(4304, 8), (4160, 8)]⟩ (.free 4160) := fun s => by
    simp [World.permits]
  obtain ⟨events, w, h, run, -, live, ⟨s', returned⟩, -⟩ :=
    Setup.sample_asks (by decide) (by decide) (by decide) _ _ asked permitted
  exact ⟨w, s', live, returned, reached_released (Setup.sample_zeroed 1024 (by decide))
    (Setup.sample_regular (by decide) (by decide) (by decide)).aligned run
    (by simp [live]) returned⟩

end Released

end Unimem
