import Unimem.Serving

/-!
Alloc picks the block the abstract heap picks: the bitmap and tree searches, and
the whole of one entry.
-/

namespace Unimem

open Tiling ByteMemory Memory WordArith MallocState

section Searches

variable {first stop limit nb i root bytes fuel : Nat} {s : Store} {h : Heap}
  {loose rest : List Nat}

namespace Represents

/-- What the searches read of a tree bin: its root, a leaf of the bin's size. -/
theorem root_run (rep : Represents first stop limit s h loose)
    (shape : (h.tree i).nodes = root :: rest) :
    s.gm.treebins i = root ∧ root ≠ 0 ∧ FreeAt h.top h.blocks root (h.tree i).size ∧
      256 ≤ (h.tree i).size ∧ i < 32 ∧ h.Binned root ∧
      Chunk.chunksize root s = .ok (h.tree i).size s ∧
      TreeChunk.leftmostChild root s = .ok 0 s ∧
      ∀ side < 2, TreeChunk.child root side s = .ok 0 s := by
  have member : root ∈ (h.tree i).nodes := by simp [shape]
  have ring := rep.tree.bin i
  have bound := rep.tree.index_lt member
  have large := ring.large member
  have free := ring.member root member
  obtain ⟨left, right, -⟩ := ring.leaf root member
  have atRoot := rep.tree.root i bound
  rw [shape, List.headD_cons] at atRoot
  have child : ∀ side < 2, TreeChunk.child root side s = .ok 0 s := by
    intro side lower
    rw [large.child_run rep.tags lower]
    rcases Nat.lt_or_ge 0 side with one | zero
    · rw [show side = 1 by omega, right]
    · rw [show side = 0 by omega, left]
  have notNull : root ≠ 0 := by
    have := large.geometry rep.layout
    omega
  refine ⟨atRoot, notNull, free, (ring.sized (List.ne_nil_of_mem member)).1, bound,
    ⟨i, Or.inr member⟩, free.chunksize_run rep.tags, ?_, child⟩
  simp only [TreeChunk.leftmostChild, Fuelled.bind_run, child 0 (by omega), child 1 (by omega),
    run_ite, ne_eq, not_true_eq_false, if_false]

theorem tree_marked (rep : Represents first stop limit s h loose) (bound : i < 32) :
    s.gm.treemap.testBit i = !(h.tree i).nodes.isEmpty := by
  have marked := rep.tree.marked i bound
  cases shape : (h.tree i).nodes with
  | nil => simpa [shape] using marked
  | cons p rest => simpa [shape] using marked

end Represents

theorem nextTree_some {j : Nat} (next : h.nextTree j = some i) :
    i < 32 ∧ j ≤ i ∧ (h.tree i).nodes ≠ [] ∧
      ∀ k < i, j ≤ k → (h.tree k).nodes = [] := by
  obtain ⟨here, inRange, before⟩ := List.find?_range_eq_some.mp next
  rw [List.mem_range] at inRange
  simp only [Bool.and_eq_true, decide_eq_true_eq, Bool.not_eq_eq_eq_not, Bool.not_true] at here before
  refine ⟨inRange, here.1, fun empty => ?_, fun k lower from_ => ?_⟩
  · simp [empty] at here
  · simpa [from_] using before k lower

theorem nextTree_none {j : Nat} : h.nextTree j = none ↔ ∀ k < 32, j ≤ k →
    (h.tree k).nodes = [] := by
  simp only [Heap.nextTree, List.find?_eq_none, List.mem_range, Bool.and_eq_true, decide_eq_true_eq,
    Bool.not_eq_eq_eq_not, Bool.not_true, not_and]
  refine forall₂_congr fun k bound => forall_congr' fun from_ => ?_
  cases (h.tree k).nodes <;> simp

theorem largeFit_some (fit : h.largeFit nb = some i) :
    nb ≤ (h.tree i).size ∧ (h.tree i).nodes ≠ [] := by
  unfold Heap.largeFit at fit
  simp only at fit
  split at fit
  · rename_i here
    obtain rfl := Option.some.inj fit
    exact here.symm
  · obtain ⟨next, enough⟩ := Option.filter_eq_some_iff.mp fit
    exact ⟨of_decide_eq_true enough, (nextTree_some next).2.2.1⟩

theorem largeFit_none (none : h.nextTree 0 = none) (nb : Nat) : h.largeFit nb = Option.none := by
  have empty := nextTree_none.mp none
  have later : h.nextTree (computeTreeIndex nb + 1) = Option.none :=
    nextTree_none.mpr fun k bound _ => empty k bound (Nat.zero_le k)
  simp [Heap.largeFit, empty _ (computeTreeIndex_lt nb) (Nat.zero_le _), later]

namespace Represents

/-- A bitmap cut from the treemap at `j` finds the bin the abstract search finds. -/
theorem tree_least (rep : Represents first stop limit s h loose) {j x : Nat}
    (fits : x < 2 ^ 32) (bits : ∀ k < 32, x.testBit k = (decide (j ≤ k) && s.gm.treemap.testBit k)) :
    (∀ i, h.nextTree j = some i → x ≠ 0 ∧ computeBit2idx (leastBit x) = i) ∧
      (h.nextTree j = none → x = 0) := by
  constructor
  · intro i next
    obtain ⟨bound, from_, nonempty, before⟩ := nextTree_some next
    have here : x.testBit i = true := by
      rw [bits i bound, rep.tree_marked bound]
      simp [from_, nonempty]
    refine ⟨?_, computeBit2idx_leastBit fits ⟨bound, here, fun k lower => ?_⟩⟩
    · rintro rfl
      simp at here
    · rw [bits k (by omega), rep.tree_marked (by omega)]
      by_cases inside : j ≤ k
      · simp [before k lower inside]
      · simp [inside]
  · intro none
    by_contra nonzero
    obtain ⟨k, bound, here, -⟩ := exists_leastSet fits nonzero
    rw [bits k bound, rep.tree_marked bound] at here
    simp only [Bool.and_eq_true, decide_eq_true_eq] at here
    simp [nextTree_none.mp none k bound here.1] at here

theorem treemap_zero (rep : Represents first stop limit s h loose) :
    s.gm.treemap = 0 ↔ h.nextTree 0 = none := by
  obtain ⟨found, none⟩ := rep.tree_least (j := 0) rep.tree.bits (by simp)
  constructor
  · intro zero
    cases next : h.nextTree 0 with
    | none => rfl
    | some i => exact absurd zero (found i next).1
  · exact none

end Represents

theorem leastOfPath_null (v rsize : Nat) :
    leastOfPath nb (fuel + 1) (0, v, rsize) s = .ok (v, rsize) s := rfl

/-- A small request takes the root of the first non-empty tree bin. -/
theorem Represents.tmallocSmall_spec (rep : Represents first stop limit s h [])
    (small : bytes ≤ maxSmallRequest) (next : h.nextTree 0 = some i)
    (shape : (h.tree i).nodes = root :: rest) {b n : Block} (atB : h.blockAt root = some b)
    (atN : h.blockAt (root + (h.tree i).size) = some n) (few : h.dvsize < 256) (fuel : Nat) :
    Answers first stop limit s h (tmallocSmall (fuel + 1) (paddedRequest bytes)) id
      (paddedRequest bytes) (h.serveBin bytes root (h.tree i).size b n) := by
  obtain ⟨least, most, multiple, -⟩ := paddedRequest_small small
  obtain ⟨atRoot, notNull, free, isLarge, bound, binned, size, leaf, -⟩ := rep.root_run shape
  have place := free.geometry rep.layout
  obtain ⟨found, -⟩ := rep.tree_least (j := 0) rep.tree.bits (by simp)
  have rest := sub64_of_le (a := (h.tree i).size) (b := paddedRequest bytes) (by omega) (by omega)
  have start : tmallocSmall (fuel + 1) (paddedRequest bytes) s =
      splitTree (fuel + 1) (paddedRequest bytes) root ((h.tree i).size - paddedRequest bytes)
        replaceDv s := by
    simp only [tmallocSmall, Fuelled.bind_run, run_readGm, (found i next).2, treebin, run_pure,
      atRoot, size, leaf, rest, leastOfPath_null]
  refine Answers.congr (rep.splitTree_spec (fuel + 1) free isLarge binned least multiple
    (by omega) atB atN fun s' r rsize h' sameDv rep' free' => ?_) start
  exact Represents.keeps_replaceDv small (by omega) rep' free'

theorem sub64_lt_neg64 (size : Nat) (positive : 0 < nb) (fits : nb < 2 ^ 64)
    (below : size < 2 ^ 64) :
    sub64 size nb < neg64 nb ↔ nb ≤ size := by
  unfold sub64 neg64
  omega

theorem sub64_lt_sub64 {size dvsize : Nat} (fits : nb ≤ size) (below : size < 2 ^ 64)
    (dvBelow : dvsize < 2 ^ 64) :
    size - nb < sub64 dvsize nb ↔ size < dvsize ∨ dvsize < nb := by
  unfold sub64
  omega

namespace Represents

/-- From a root the path is one step long. -/
theorem leastOfPath_root (rep : Represents first stop limit s h loose)
    (shape : (h.tree i).nodes = root :: rest) (v rsize : Nat) :
    leastOfPath nb (fuel + 2) (root, v, rsize) s =
      .ok (if sub64 (h.tree i).size nb < rsize then (root, sub64 (h.tree i).size nb)
        else (v, rsize)) s := by
  obtain ⟨-, notNull, -, -, -, -, size, leaf, -⟩ := rep.root_run shape
  rw [leastOfPath]
  simp only [if_neg notNull, Fuelled.bind_run, size, leaf]
  exact leastOfPath_null _ _

/-- The walk ends at the root: exact, best so far, or too small. -/
theorem walk_root (rep : Represents first stop limit s h loose)
    (shape : (h.tree i).nodes = root :: rest) (positive : 0 < nb) (fits : nb < 2 ^ 64)
    (sizebits : Nat) :
    tmallocLarge.walk nb (fuel + 1) ⟨root, 0, neg64 nb, sizebits, 0⟩ s =
      .ok (if nb ≤ (h.tree i).size then
          ⟨if (h.tree i).size = nb then root else 0, root, (h.tree i).size - nb, sizebits, 0⟩
        else ⟨0, 0, neg64 nb, sizebits, 0⟩) s := by
  obtain ⟨-, notNull, free, -, -, -, size, -, child⟩ := rep.root_run shape
  have place := free.geometry rep.layout
  have smaller := sub64_lt_neg64 (h.tree i).size positive fits (by omega)
  have side : (sizebits >>> (sizeTBitsize - sizeTOne)) &&& 1 < 2 := by
    rw [Nat.and_one_is_mod]
    omega
  rw [tmallocLarge.walk]
  simp only [Fuelled.bind_run, size]
  by_cases enough : nb ≤ (h.tree i).size
  · have rest := sub64_of_le (a := (h.tree i).size) enough (by omega)
    have better := smaller.mpr enough
    rw [rest] at better ⊢
    by_cases exact : (h.tree i).size = nb
    · have none : (h.tree i).size - nb = 0 := by omega
      rw [none] at better ⊢
      simp only [better, and_self, if_true, if_pos enough, if_pos exact, run_pure]
    · have differ : (h.tree i).size - nb ≠ 0 := by omega
      simp only [better, differ, and_false, if_false, if_true, Fuelled.bind_run, child 1 (by omega),
        child _ side, if_pos enough, if_neg exact]
      rfl
  · have worse : ¬ sub64 (h.tree i).size nb < neg64 nb := fun less => enough (smaller.mp less)
    simp only [worse, false_and, if_false, Fuelled.bind_run, child 1 (by omega), child _ side,
      if_neg enough]
    rfl

theorem nextBin_run (rep : Represents first stop limit s h loose) {idx : Nat} (bound : idx < 32) :
    tmallocLarge.nextBin idx s =
      .ok (match h.nextTree (idx + 1) with
        | some j => (h.tree j).nodes.headD 0
        | none => 0) s := by
  have bits : ∀ k < 32, (leftBits (idx2bit idx) &&& s.gm.treemap).testBit k =
      (decide (idx + 1 ≤ k) && s.gm.treemap.testBit k) := by
    intro k boundK
    rw [Nat.testBit_and, testBit_leftBits bound boundK]
    rfl
  have fits : leftBits (idx2bit idx) &&& s.gm.treemap < 2 ^ 32 :=
    Nat.lt_of_le_of_lt Nat.and_le_right rep.tree.bits
  obtain ⟨found, none⟩ := rep.tree_least fits bits
  cases next : h.nextTree (idx + 1) with
  | some j =>
      obtain ⟨nonzero, least⟩ := found j next
      simp only [tmallocLarge.nextBin, Fuelled.bind_run, run_readGm, if_pos nonzero, least, treebin,
        rep.tree.root j (nextTree_some next).1, run_pure]
  | none =>
      simp only [tmallocLarge.nextBin, Fuelled.bind_run, run_readGm, none next, ne_eq,
        not_true_eq_false, if_false, run_pure]

/-- The root of bin `i` is the best fit; it is taken unless dv fits better. -/
def takeRoot (h : Heap) (fuel nb i : Nat) : Prog Nat :=
  if (h.tree i).size < h.dvsize ∨ h.dvsize < nb then
    splitTree fuel nb ((h.tree i).nodes.headD 0) ((h.tree i).size - nb) (insertChunk fuel)
  else pure 0

theorem dvsize_lt (rep : Represents first stop limit s h loose) : h.dvsize < 2 ^ 64 := by
  by_cases none : h.dv = 0
  · have := rep.filed.dvNone.mp none
    omega
  · have := (rep.filed.dvFree none).geometry rep.layout
    omega

theorem settle_best (rep : Represents first stop limit s h loose)
    (shape : (h.tree i).nodes = root :: rest) (enough : nb ≤ (h.tree i).size) :
    (if root ≠ 0 ∧ (h.tree i).size - nb < sub64 s.gm.dvsize nb then
        splitTree fuel nb root ((h.tree i).size - nb) (insertChunk fuel)
      else pure 0 : Prog Nat) s = takeRoot h fuel nb i s := by
  obtain ⟨-, notNull, free, -⟩ := rep.root_run shape
  have place := free.geometry rep.layout
  have test := sub64_lt_sub64 enough (by omega) rep.dvsize_lt
  simp only [takeRoot, rep.dvsize, test, shape, List.headD_cons, ne_eq, notNull, not_false_eq_true,
    true_and]

/-- The walk found a node of its bin that is large enough. -/
theorem settle_walked (rep : Represents first stop limit s h loose)
    (shape : (h.tree i).nodes = root :: rest) (enough : nb ≤ (h.tree i).size) (sizebits : Nat) :
    tmallocLarge.settle (fuel + 2) nb (computeTreeIndex nb)
        ⟨if (h.tree i).size = nb then root else 0, root, (h.tree i).size - nb, sizebits, 0⟩ s =
      takeRoot h (fuel + 2) nb i s := by
  obtain ⟨-, notNull, free, -⟩ := rep.root_run shape
  have place := free.geometry rep.layout
  have path : leastOfPath nb (fuel + 2)
      (if (h.tree i).size = nb then root else 0, root, (h.tree i).size - nb) s =
        .ok (root, (h.tree i).size - nb) s := by
    split
    · rw [rep.leastOfPath_root shape, sub64_of_le enough (by omega), if_neg (Nat.lt_irrefl _)]
    · exact leastOfPath_null _ _
  simp only [tmallocLarge.settle, notNull, and_false, if_false, Fuelled.bind_run, run_pure,
    path, run_readGm]
  exact rep.settle_best shape enough

/-- The walk found nothing: the next bin, if that is large enough. -/
theorem settle_next (rep : Represents first stop limit s h loose) (positive : 0 < nb)
    (fits : nb < 2 ^ 64) (sizebits : Nat) :
    tmallocLarge.settle (fuel + 2) nb (computeTreeIndex nb) ⟨0, 0, neg64 nb, sizebits, 0⟩ s =
      match (h.nextTree (computeTreeIndex nb + 1)).filter
        fun j => decide (nb ≤ (h.tree j).size) with
      | some i => takeRoot h (fuel + 2) nb i s
      | none => .ok 0 s := by
  simp only [tmallocLarge.settle, and_self, if_true, Fuelled.bind_run,
    rep.nextBin_run (computeTreeIndex_lt nb)]
  cases found : h.nextTree (computeTreeIndex nb + 1) with
  | none => simp [leastOfPath_null]
  | some j =>
      obtain ⟨root, rest, shape⟩ := List.exists_cons_of_ne_nil (nextTree_some found).2.2.1
      obtain ⟨-, -, free, -⟩ := rep.root_run shape
      have place := free.geometry rep.layout
      have smaller := sub64_lt_neg64 (h.tree j).size positive fits (by omega)
      simp only [shape, List.headD_cons, rep.leastOfPath_root shape, run_readGm]
      by_cases enough : nb ≤ (h.tree j).size
      · rw [if_pos (smaller.mpr enough), sub64_of_le enough (by omega)]
        simpa [Option.filter, enough] using rep.settle_best shape enough
      · rw [if_neg fun less => enough (smaller.mp less)]
        simp [Option.filter, enough]

/-- A large request settles on the root of one bin, or on none. -/
theorem tmallocLarge_run (rep : Represents first stop limit s h loose) (positive : 0 < nb)
    (fits : nb < 2 ^ 64) (fuel : Nat) :
    tmallocLarge (fuel + 2) nb s =
      match h.largeFit nb with
      | some i => takeRoot h (fuel + 2) nb i s
      | none => .ok 0 s := by
  have start := rep.tree.root (computeTreeIndex nb) (computeTreeIndex_lt nb)
  rw [tmallocLarge, Heap.largeFit]
  cases shape : (h.tree (computeTreeIndex nb)).nodes with
  | nil =>
      rw [shape, List.headD_nil] at start
      simp only [Fuelled.bind_run, treebin, run_readGm, run_pure, start, ne_eq, not_true_eq_false,
        if_false, false_and]
      exact rep.settle_next positive fits _
  | cons root rest =>
      obtain ⟨-, notNull, -⟩ := rep.root_run shape
      rw [shape, List.headD_cons] at start
      simp only [Fuelled.bind_run, treebin, run_readGm, run_pure, start, ne_eq, notNull,
        not_false_eq_true, if_true, rep.walk_root shape positive fits, reduceCtorEq, true_and]
      by_cases enough : nb ≤ (h.tree (computeTreeIndex nb)).size
      · rw [if_pos enough, if_pos enough]
        exact rep.settle_walked shape enough _
      · rw [if_neg enough, if_neg enough]
        exact rep.settle_next positive fits _

end Represents

/-- What one entry of Alloc does: serve, or fall through to InitOrExpand. -/
def Refines (first stop limit : Nat) (s : Store) (h : Heap) (program : Prog (Option Nat))
    (nb : Nat) : Heap.Reply → Prop
  | .expand => program s = .ok none s
  | reply => Answers first stop limit s h program some nb reply

theorem Answers.refines {program : Prog (Option Nat)} {reply : Heap.Reply}
    (answers : Answers first stop limit s h program some nb reply) :
    Refines first stop limit s h program nb reply := by
  cases reply with
  | served mem h' => exact answers
  | corrupted => exact answers
  | expand => exact answers.elim

theorem Refines.congr {program program' : Prog (Option Nat)} {reply : Heap.Reply}
    (refines : Refines first stop limit s h program nb reply) (same : program' s = program s) :
    Refines first stop limit s h program' nb reply := by
  cases reply with
  | expand => exact same.trans refines
  | served mem h' =>
      have answers : Answers first stop limit s h program some nb (.served mem h') := refines
      exact answers.congr same
  | corrupted =>
      have answers : Answers first stop limit s h program some nb .corrupted := refines
      exact answers.congr same

/-- A chunk found is never null, so what stands behind the search does not run. -/
theorem Answers.found {start : Prog Nat} {reply : Heap.Reply}
    (answers : Answers first stop limit s h start id nb reply) (other : Prog (Option Nat)) :
    Answers first stop limit s h
      (do let mem ← start
          if mem ≠ 0 then return some mem else other) some nb reply := by
  cases reply with
  | served mem h' =>
      obtain ⟨p, k, at_, lower, upper, s', ran, rest⟩ := answers
      have notNull : mem ≠ 0 := by omega
      refine ⟨p, k, at_, lower, upper, s', ?_, rest⟩
      rw [Fuelled.bind_run, ran]
      simp only [id_eq, ne_eq, notNull, not_false_eq_true, if_true, run_pure]
  | corrupted =>
      obtain ⟨s', ran, disturbed⟩ := answers
      exact ⟨s', by rw [Fuelled.bind_run, ran], disturbed⟩
  | expand => exact answers.elim

namespace Represents

theorem rest_refines (rep : Represents first stop limit s h []) (bytes : Nat) :
    Refines first stop limit s h (allocFromDvOrTop (paddedRequest bytes)) (paddedRequest bytes)
      (h.serve bytes (h.pickRest (paddedRequest bytes))) := by
  have proper := paddedRequest_proper bytes
  obtain ⟨-, t, -, -, -, atT, topsize⟩ := rep.topBlock
  have whole := rep.topsize
  have below := rep.layout.bound
  unfold Heap.pickRest
  by_cases dvFits : paddedRequest bytes ≤ h.dvsize
  · have present : h.dv ≠ 0 := by
      intro none
      have := rep.filed.dvNone.mp none
      omega
    have free := rep.filed.dvFree present
    have place := free.geometry rep.layout
    obtain ⟨-, b, n, -, -, -, -, -, atB, atN⟩ := rep.successor free
    rw [if_pos dvFits]
    simp only [Heap.serve, atB, atN]
    refine (Answers.congr (rep.fromDv (by omega) (by omega) dvFits atB atN).map ?_).refines
    simp only [allocFromDvOrTop, Fuelled.bind_run, run_readGm, rep.dvsize, if_pos dvFits]
  · rw [if_neg dvFits]
    by_cases topFits : paddedRequest bytes < h.topsize
    · rw [if_pos topFits]
      simp only [Heap.serve, atT]
      refine (Answers.congr (rep.fromTop (by omega) (by omega) topFits atT).map ?_).refines
      simp only [allocFromDvOrTop, Fuelled.bind_run, run_readGm, rep.dvsize, if_neg dvFits,
        ← topsize, if_pos topFits]
    · rw [if_neg topFits]
      show allocFromDvOrTop _ s = .ok none s
      simp only [allocFromDvOrTop, Fuelled.bind_run, run_readGm, rep.dvsize, if_neg dvFits,
        ← topsize, if_neg topFits, run_pure]

/-- What the small bitmap, shifted to a bin, says about it and the later ones. -/
theorem smallbits_eq (rep : Represents first stop limit s h loose) (bound : i < 31)
    (even : i % 2 = 0) :
    ((s.gm.smallmap >>> i) &&& 0x3 ≠ 0 ↔ h.small i ≠ []) ∧
      (h.small i = [] → (s.gm.smallmap >>> i ≠ 0 ↔ h.nextSmall i ≠ none)) := by
  have bit : ∀ j, i + j < 32 → (s.gm.smallmap >>> i).testBit j = !(h.small (i + j)).isEmpty := by
    intro j inRange
    rw [Nat.testBit_shiftRight, rep.marked inRange]
  -- of the two bits the mask tests, the second belongs to a bin no size falls in
  have none : h.small (i + 1) = [] := rep.odd_bin (by omega)
  have fits : s.gm.smallmap >>> i < 2 ^ 32 :=
    Nat.lt_of_le_of_lt (Nat.shiftRight_le _ _) rep.small.bits
  have zero := bit 0 (by omega)
  have one := bit 1 (by omega)
  rw [none, Nat.testBit_succ, Nat.testBit_zero] at one
  rw [Nat.testBit_zero, Nat.add_zero] at zero
  have oneClear : ¬ s.gm.smallmap >>> i / 2 % 2 = 1 := by simpa using one
  constructor
  · rw [and_three]
    cases shape : h.small i with
    | nil =>
        rw [shape] at zero
        have clear : ¬ s.gm.smallmap >>> i % 2 = 1 := of_decide_eq_false zero
        simp only [ne_eq, not_true_eq_false, iff_false, not_not]
        omega
    | cons p rest =>
        rw [shape] at zero
        have set : s.gm.smallmap >>> i % 2 = 1 := of_decide_eq_true zero
        simp only [ne_eq, reduceCtorEq, not_false_eq_true, iff_true]
        omega
  · intro empty
    constructor
    · intro nonzero noNext
      obtain ⟨j, -, here, -⟩ := exists_leastSet fits nonzero
      rw [Nat.testBit_shiftRight] at here
      have inRange : i + j < 32 := by
        by_contra high
        have := Nat.testBit_lt_two_pow
          (Nat.lt_of_lt_of_le rep.small.bits (Nat.pow_le_pow_right (by decide)
            (Nat.le_of_not_lt high)))
        rw [this] at here
        cases here
      rw [rep.marked inRange] at here
      rw [Heap.nextSmall, List.find?_eq_none] at noNext
      have later : i < i + j := by
        rcases Nat.eq_zero_or_pos j with rfl | positive
        · simp [empty] at here
        · omega
      exact noNext (i + j) (List.mem_range.mpr inRange) (by simpa [later] using here)
    · intro some_next zero
      obtain ⟨j, next⟩ := Option.ne_none_iff_exists'.mp some_next
      obtain ⟨-, later, inRange, nonempty⟩ := rep.leftbits_least (by omega) next
      have here := bit (j - i) (by omega)
      rw [zero, Nat.zero_testBit, show i + (j - i) = j by omega] at here
      simp [nonempty] at here

theorem small_refines (rep : Represents first stop limit s h [])
    (few : bytes ≤ maxSmallRequest) (fuel : Nat) :
    Refines first stop limit s h (tryAlloc (fuel + 1) bytes) (paddedRequest bytes)
      (h.alloc bytes) := by
  obtain ⟨least, most, multiple, -⟩ := paddedRequest_small few
  have rest := rep.rest_refines bytes
  have index : smallIndex (paddedRequest bytes) = paddedRequest bytes / 8 := by
    simp only [smallIndex, smallbinShift, Nat.shiftRight_eq_div_pow]
    omega
  obtain ⟨exact, later⟩ :=
    rep.smallbits_eq (i := paddedRequest bytes / 8) (by omega) (by omega)
  rw [Heap.alloc, Heap.pick, if_pos few, Heap.pickSmall]
  -- exact small bin, dv, a larger small bin, the tree bins, what is left
  cases shape : h.small (paddedRequest bytes / 8) with
  | cons p tail =>
      obtain ⟨-, free, -⟩ := rep.first_run shape
      rw [show 8 * (paddedRequest bytes / 8) = paddedRequest bytes by omega] at free
      obtain ⟨-, b, n, -, -, -, -, -, atB, atN⟩ := rep.successor free
      simp only [Heap.serve, atB, atN]
      have size : 8 * (paddedRequest bytes / 8) = paddedRequest bytes := by omega
      have atNext : h.blockAt (p + 8 * (paddedRequest bytes / 8)) = some n := by rwa [size]
      have here := rep.exactSmall shape atB atNext size.symm
      rw [size] at here
      refine (Answers.congr here.map ?_).refines
      have nonempty := exact.mpr (by simp [shape])
      simp only [tryAlloc, if_pos few, Fuelled.bind_run, run_readGm, index, if_pos nonempty]
  | nil =>
      have empty : ¬ (s.gm.smallmap >>> (paddedRequest bytes / 8)) &&& 0x3 ≠ 0 :=
        fun marked => exact.mp marked shape
      by_cases dvFits : paddedRequest bytes ≤ h.dvsize
      · have notAbove : ¬ paddedRequest bytes > s.gm.dvsize := by
          rw [rep.dvsize]
          omega
        simp only [if_pos dvFits]
        rw [Heap.pickRest, if_pos dvFits] at rest
        refine rest.congr ?_
        simp only [tryAlloc, if_pos few, Fuelled.bind_run, run_readGm, index, if_neg empty,
          if_neg notAbove]
      · have above : paddedRequest bytes > s.gm.dvsize := by
          rw [rep.dvsize]
          omega
        simp only [if_neg dvFits]
        cases next : h.nextSmall (paddedRequest bytes / 8) with
        | some j =>
            obtain ⟨-, -, -, nonempty⟩ := rep.leftbits_least (by omega) next
            have marked := (later shape).mpr (by simp [next])
            obtain ⟨p, tail, shapeJ⟩ := List.exists_cons_of_ne_nil nonempty
            obtain ⟨-, free, -⟩ := rep.first_run shapeJ
            obtain ⟨-, b, n, -, -, -, -, -, atB, atN⟩ := rep.successor free
            simp only [shapeJ, List.headD_cons, Heap.serve, atB, atN]
            refine (Answers.congr (rep.nextSmall few rfl next shapeJ atB atN (by omega)).map
              ?_).refines
            simp only [tryAlloc, if_pos few, Fuelled.bind_run, run_readGm, index, if_neg empty,
              if_pos above, if_pos marked]
        | none =>
            have unmarked : ¬ s.gm.smallmap >>> (paddedRequest bytes / 8) ≠ 0 :=
              fun marked => (later shape).mp marked next
            have treemap := rep.treemap_zero
            cases tree : h.nextTree 0 with
            | some i =>
                have nonzero : s.gm.treemap ≠ 0 := fun zero => by
                  rw [treemap.mp zero] at tree
                  cases tree
                obtain ⟨root, tail, shapeI⟩ :=
                  List.exists_cons_of_ne_nil (nextTree_some tree).2.2.1
                obtain ⟨-, -, free, -⟩ := rep.root_run shapeI
                obtain ⟨-, b, n, -, -, -, -, -, atB, atN⟩ := rep.successor free
                simp only [Heap.pickTree, shapeI, List.headD_cons, Heap.serve, atB, atN]
                have found := (rep.tmallocSmall_spec few tree shapeI atB atN (by omega) fuel).found
                  (allocFromDvOrTop (paddedRequest bytes))
                refine (found.congr ?_).refines
                simp only [tryAlloc, if_pos few, Fuelled.bind_run, run_readGm, index, if_neg empty,
                  if_pos above, if_neg unmarked, if_pos nonzero]
            | none =>
                have zero : ¬ s.gm.treemap ≠ 0 := not_not.mpr (treemap.mpr tree)
                refine rest.congr ?_
                simp only [tryAlloc, if_pos few, Fuelled.bind_run, run_readGm, index, if_neg empty,
                  if_pos above, if_neg unmarked, if_neg zero]

theorem huge_refines (rep : Represents first stop limit s h []) (many : bytes ≥ maxRequest)
    (fuel : Nat) :
    Refines first stop limit s h (tryAlloc fuel bytes) (paddedRequest bytes) (h.alloc bytes) := by
  have notFew : ¬ bytes ≤ maxSmallRequest := by
    rw [maxRequest_eq] at many
    rw [maxSmallRequest_eq]
    omega
  rw [Heap.alloc, Heap.pick, if_neg notFew, if_pos many]
  refine (rep.rest_refines bytes).congr ?_
  simp only [tryAlloc, if_neg notFew, if_pos many]

theorem large_refines (rep : Represents first stop limit s h [])
    (notFew : ¬ bytes ≤ maxSmallRequest) (proper : ¬ bytes ≥ maxRequest) (fuel : Nat) :
    Refines first stop limit s h (tryAlloc (fuel + 2) bytes) (paddedRequest bytes)
      (h.alloc bytes) := by
  obtain ⟨least, multiple, -, below⟩ := paddedRequest_large notFew proper
  have rest := rep.rest_refines bytes
  have positive : 0 < paddedRequest bytes := by omega
  have run := rep.tmallocLarge_run positive (by omega) fuel
  have treemap := rep.treemap_zero
  -- with no tree chunk the search is not entered, and would find nothing
  have entry : tryAlloc (fuel + 2) bytes s =
      (do let mem ← tmallocLarge (fuel + 2) (paddedRequest bytes)
          if mem ≠ 0 then return some mem else allocFromDvOrTop (paddedRequest bytes)) s := by
    by_cases zero : s.gm.treemap = 0
    · have none : h.largeFit (paddedRequest bytes) = none := largeFit_none (treemap.mp zero) _
      rw [none] at run
      simp only [tryAlloc, if_neg notFew, if_neg proper, Fuelled.bind_run, run_readGm, zero, ne_eq,
        not_true_eq_false, if_false, run]
    · simp only [tryAlloc, if_neg notFew, if_neg proper, Fuelled.bind_run, run_readGm, ne_eq, zero,
        not_false_eq_true, if_true]
  rw [Heap.alloc, Heap.pick, if_neg notFew, if_neg proper, Heap.pickLarge]
  cases fit : h.largeFit (paddedRequest bytes) with
  | none =>
      rw [fit] at run
      refine rest.congr (entry.trans ?_)
      simp only [Fuelled.bind_run, run, ne_eq, not_true_eq_false, if_false]
  | some i =>
      rw [fit] at run
      obtain ⟨enough, nonempty⟩ := largeFit_some fit
      obtain ⟨root, tail, shape⟩ := List.exists_cons_of_ne_nil nonempty
      obtain ⟨-, -, free, isLarge, -, binned, -⟩ := rep.root_run shape
      obtain ⟨-, b, n, -, -, -, -, -, atB, atN⟩ := rep.successor free
      by_cases better : (h.tree i).size < h.dvsize ∨ h.dvsize < paddedRequest bytes
      · simp only [if_pos better, Heap.pickTree, shape, List.headD_cons, Heap.serve, atB, atN]
        have taken := rep.splitTree_spec (fuel + 2) free isLarge binned (by omega) multiple
          enough atB atN fun s' r rsize h' _ rep' free' =>
            keeps_insertChunk notFew (fuel + 1) rep' free'
        have found := taken.found (allocFromDvOrTop (paddedRequest bytes))
        refine (found.congr (entry.trans ?_)).refines
        simp only [Fuelled.bind_run, run, takeRoot, if_pos better, shape, List.headD_cons]
      · simp only [if_neg better]
        refine rest.congr (entry.trans ?_)
        simp only [Fuelled.bind_run, run, takeRoot, if_neg better, run_pure, ne_eq,
          not_true_eq_false, if_false]

/-- One entry of Alloc answers as the abstract heap does. -/
theorem tryAlloc_refines (rep : Represents first stop limit s h []) (bytes fuel : Nat) :
    Refines first stop limit s h (tryAlloc (fuel + 2) bytes) (paddedRequest bytes)
      (h.alloc bytes) := by
  by_cases few : bytes ≤ maxSmallRequest
  · exact rep.small_refines few (fuel + 1)
  · by_cases many : bytes ≥ maxRequest
    · exact rep.huge_refines many (fuel + 2)
    · exact rep.large_refines few many fuel

end Represents

end Searches

end Unimem
