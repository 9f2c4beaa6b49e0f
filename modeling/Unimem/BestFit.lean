import Unimem.Alloc
import Unimem.SizeKeys
import Unimem.TreeInsert

/-!
tmalloc_small and tmalloc_large on tree bins of any depth. Both keep the best
fit among the nodes they visit, remainders being compared as unsigned words, so
that a node which is too small never wins. What is visited has a least fit of
all bins: a leftmost path in the first case, in the second the path of the
request's own digits and the leftmost path of what it leaves to the right, or of
the next bin.
-/

namespace Unimem

open ByteMemory Memory WordArith MallocState DigitalTree LinkedTree

variable {s : Store} {forest : Nat → BinaryTree SizeRing} {i nb p v rsize : Nat}
  {up : Option Nat} {r : SizeRing} {tree zero one : BinaryTree SizeRing}

/-- What the searches rely on: the invariant without its parent links. -/
abbrev Searchable (s : Store) (forest : Nat → BinaryTree SizeRing) : Prop :=
  Bins (fun _ _ => RingNode s.treeLinks) s forest

theorem Tries.searchable (tries : Tries s forest) : Searchable s forest :=
  { tries.toBins with
    linked := fun i =>
      (tries.linked i).congr (fun _ _ _ node => node.toRingNode) fun _ _ _ => rfl }

/-! ## The best of a list -/

/-- `v` and `rsize` after a look at one node. -/
def pick (nb : Nat) (best : Nat × Nat) (r : SizeRing) : Nat × Nat :=
  if sub64 r.size nb < best.2 then (r.chunk, sub64 r.size nb) else best

theorem foldl_pick (nb : Nat) (best : Nat × Nat) (visited : List SizeRing) :
    (visited.foldl (pick nb) best).2 ≤ best.2 ∧
      (∀ r ∈ visited, (visited.foldl (pick nb) best).2 ≤ sub64 r.size nb) ∧
      (visited.foldl (pick nb) best = best ∨ ∃ r ∈ visited, sub64 r.size nb < best.2 ∧
        visited.foldl (pick nb) best = (r.chunk, sub64 r.size nb)) := by
  induction visited generalizing best with
  | nil => exact ⟨Nat.le_refl _, by simp, Or.inl rfl⟩
  | cons first rest ih =>
      obtain ⟨below, least, found⟩ := ih (pick nb best first)
      rw [List.foldl_cons]
      by_cases better : sub64 first.size nb < best.2
      · have taken : pick nb best first = (first.chunk, sub64 first.size nb) := if_pos better
        rw [taken] at below least found ⊢
        refine ⟨by omega, fun r member => ?_, Or.inr ?_⟩
        · rcases List.mem_cons.mp member with rfl | later
          · exact below
          · exact least r later
        · rcases found with same | ⟨r, later, less, here⟩
          · exact ⟨first, by simp, better, same⟩
          · exact ⟨r, List.mem_cons_of_mem _ later, less.trans better, here⟩
      · have kept : pick nb best first = best := if_neg better
        rw [kept] at below least found ⊢
        refine ⟨below, fun r member => ?_, found.imp_right ?_⟩
        · rcases List.mem_cons.mp member with rfl | later
          · omega
          · exact least r later
        · rintro ⟨r, later, less, here⟩
          exact ⟨r, List.mem_cons_of_mem _ later, less, here⟩

/-- From nothing, the least of the sizes that are large enough is picked, if there is one. -/
theorem pick_fit (positive : 0 < nb) (fits : nb < 2 ^ 64) {visited : List SizeRing}
    (sizes : ∀ r ∈ visited, r.size < 2 ^ 64) :
    ((∀ r ∈ visited, r.size < nb) ∧ visited.foldl (pick nb) (0, neg64 nb) = (0, neg64 nb)) ∨
      ∃ r ∈ visited, nb ≤ r.size ∧ (∀ q ∈ visited, nb ≤ q.size → r.size ≤ q.size) ∧
        visited.foldl (pick nb) (0, neg64 nb) = (r.chunk, r.size - nb) := by
  have worth : ∀ r ∈ visited, sub64 r.size nb < neg64 nb ↔ nb ≤ r.size :=
    fun r member => sub64_lt_neg64 r.size positive fits (sizes r member)
  obtain ⟨below, least, none | ⟨r, member, better, here⟩⟩ := foldl_pick nb (0, neg64 nb) visited
  · -- a size that is too small leaves a remainder of at least 2^64 - nb
    refine Or.inl ⟨fun r member => ?_, none⟩
    by_contra enough
    have better := (worth r member).mpr (by omega)
    have bound := least r member
    rw [none] at bound
    exact absurd better (not_lt.mpr bound)
  · have enough := (worth r member).mp better
    have rest := sub64_of_le enough (sizes r member)
    refine Or.inr ⟨r, member, enough, fun q inside fit => ?_, by rw [here, rest]⟩
    have bound := least q inside
    rw [here, rest, sub64_of_le fit (sizes q inside)] at bound
    simp only at bound
    omega

/-! ## Reading the bins -/

namespace Bins

variable {own : Nat → Option Nat → SizeRing → Prop}

theorem reads (bins : Bins own s forest) (member : p ∈ chunks (forest i)) :
    Chunk.chunksize p s = .ok (s.treeLinks.size p) s ∧
      ∀ side : Bool, TreeChunk.child p side.toNat s = .ok (s.treeLinks.child side p) s := by
  have ground : Ground s (· = p) :=
    ⟨fun q here => here ▸ (bins.mapped i p member).2,
      fun q q' here here' => Or.inl (here.trans here'.symm)⟩
  have mirrors := Mirrors.refl s (· = p)
  exact ⟨mirrors.chunksize ground rfl, fun side => mirrors.child ground rfl side⟩

end Bins

/-- A subtree of bin `i`, as the links show it. -/
structure Inside (s : Store) (forest : Nat → BinaryTree SizeRing) (i : Nat)
    (tree : BinaryTree SizeRing) : Prop where
  linked : ∃ up, TreeAt SizeRing.chunk s.treeLinks.child (fun _ => RingNode s.treeLinks) up tree
  held : ∀ r ∈ items tree, r ∈ items (forest i)

namespace Inside

theorem whole (bins : Searchable s forest) (i : Nat) : Inside s forest i (forest i) :=
  ⟨⟨none, bins.linked i⟩, fun _ member => member⟩

theorem nil : Inside s forest i .nil := ⟨⟨none, trivial⟩, by simp⟩

theorem plug {way : List (Frame SizeRing)} (inside : Inside s forest i (DigitalTree.plug way tree)) :
    Inside s forest i tree := by
  obtain ⟨⟨up, linked⟩, held⟩ := inside
  refine ⟨⟨_, (treeAt_plug.mp linked).2⟩, fun r member => held r ?_⟩
  exact (items_plug way tree).mem_iff.mpr (List.mem_append_right _ member)

theorem onSide (side : Bool) (inside : Inside s forest i (.node r zero one)) :
    Inside s forest i (if side then one else zero) := by
  obtain ⟨⟨up, -, -, -, inZero, inOne⟩, held⟩ := inside
  cases side with
  | false => exact ⟨⟨_, inZero⟩, fun q member => held q (by simp_all)⟩
  | true => exact ⟨⟨_, inOne⟩, fun q member => held q (by simp_all)⟩

theorem root_eq_zero_iff (bins : Searchable s forest) (inside : Inside s forest i tree) :
    root tree = 0 ↔ tree = .nil :=
  root_eq_zero fun r member => (bins.mapped i _ (chunk_mem (inside.held r member))).1

/-- What the code reads at the root of a subtree. -/
theorem reads (bins : Searchable s forest) (inside : Inside s forest i (.node r zero one)) :
    r.chunk ≠ 0 ∧ Chunk.chunksize r.chunk s = .ok r.size s ∧
      ∀ side : Bool, TreeChunk.child r.chunk side.toNat s =
        .ok (root (if side then one else zero)) s := by
  have member := chunk_mem (inside.held r (by simp))
  obtain ⟨size, child⟩ := bins.reads member
  obtain ⟨⟨up, node, toZero, toOne, -⟩, -⟩ := inside
  rw [node.sized r.chunk (by simp)] at size
  refine ⟨(bins.mapped i _ member).1, size, fun side => ?_⟩
  rw [child side]
  cases side with
  | false => rw [toZero]; rfl
  | true => rw [toOne]; rfl

theorem leftmostChild (bins : Searchable s forest) (inside : Inside s forest i (.node r zero one)) :
    TreeChunk.leftmostChild r.chunk s =
      .ok (root (if items zero = [] then one else zero)) s := by
  obtain ⟨-, -, child⟩ := inside.reads bins
  have first : TreeChunk.child r.chunk 0 s = .ok (root zero) s := child false
  have second : TreeChunk.child r.chunk 1 s = .ok (root one) s := child true
  have empty : root zero = 0 ↔ items zero = [] :=
    ((inside.onSide false).root_eq_zero_iff bins).trans items_eq_nil.symm
  simp only [TreeChunk.leftmostChild, Fuelled.bind_run, first]
  by_cases none : items zero = []
  · rw [if_neg (not_not.mpr (empty.mpr none)), if_pos none, second]
  · rw [if_pos (mt empty.mp none), if_neg none]
    rfl

end Inside

/-- The loop over a leftmost path. -/
theorem leastOfPath_spine (nb : Nat) (bins : Searchable s forest) (inside : Inside s forest i tree)
    (best : Nat × Nat) : ∀ fuel ≥ tree.height + 1,
      leastOfPath nb fuel (root tree, best) s = .ok ((spine tree).foldl (pick nb) best) s := by
  induction tree generalizing best with
  | nil =>
      intro fuel large
      obtain ⟨less, rfl⟩ : ∃ less, fuel = less + 1 := ⟨fuel - 1, by omega⟩
      rfl
  | node r zero one ihZero ihOne =>
      intro fuel large
      simp only [BinaryTree.height] at large
      obtain ⟨less, rfl⟩ : ∃ less, fuel = less + 1 := ⟨fuel - 1, by omega⟩
      obtain ⟨notNull, size, -⟩ := inside.reads bins
      have onward : ∀ best,
          leastOfPath nb less (root (if items zero = [] then one else zero), best) s =
          .ok ((spine (if items zero = [] then one else zero)).foldl (pick nb) best) s := by
        intro best
        by_cases empty : items zero = []
        · rw [if_pos empty]
          exact ihOne (inside.onSide true) best less (by omega)
        · rw [if_neg empty]
          exact ihZero (inside.onSide false) best less (by omega)
      obtain ⟨v, rsize⟩ := best
      have start : root (.node r zero one) = r.chunk := rfl
      rw [spine_node, List.foldl_cons, ← onward, start, leastOfPath]
      simp only [if_neg notNull, Fuelled.bind_run, size, inside.leftmostChild bins]
      rfl

/-! ## The walk towards a node of the size -/

/-- The two subtrees of a node have different roots: their sizes differ in a digit. -/
theorem roots_differ (inside : Inside s forest i (.node r zero one))
    {depth : Nat} (placed : Digital (fun r => keyDigit i r.size) depth (.node r zero one))
    (present : root one ≠ 0) : root one ≠ root zero := by
  intro same
  obtain ⟨clear, set, -, -⟩ := placed
  obtain ⟨⟨up, linked⟩, -⟩ := inside
  have sized : ∀ q ∈ items (.node r zero one), s.treeLinks.size q.chunk = q.size := by
    intro q member
    obtain ⟨-, node⟩ := linked.holds q member
    exact node.sized q.chunk (by simp)
  cases one with
  | nil => exact present rfl
  | node high _ _ =>
      cases zero with
      | nil => exact present same
      | node low _ _ =>
          have together : high.chunk = low.chunk := same
          have sizes : high.size = low.size := by
            rw [← sized high (by simp), ← sized low (by simp), together]
          have one := set high (by simp)
          have zero := clear low (by simp)
          simp only [sizes, zero] at one
          cases one

/-- The untaken one child is kept, if there is one. -/
theorem untaken (bins : Searchable s forest) (inside : Inside s forest i (.node r zero one))
    {depth : Nat} (placed : Digital (fun r => keyDigit i r.size) depth (.node r zero one))
    (rest : BinaryTree SizeRing) (turn : Bool) :
    (if root one ≠ 0 ∧ root one ≠ root (if turn then one else zero) then root one else root rest) =
      root (if turn then rest else if items one = [] then rest else one) := by
  have empty : root one = 0 ↔ items one = [] :=
    ((inside.onSide true).root_eq_zero_iff bins).trans items_eq_nil.symm
  cases turn with
  | true => simp
  | false =>
      by_cases none : items one = []
      · rw [if_neg fun taken => taken.1 (empty.mpr none)]
        simp [none]
      · have present := mt empty.mp none
        rw [if_pos ⟨present, roots_differ inside placed present⟩]
        simp [none]

/-- The walk has looked at `visited` and goes on at `side`: after the whole trail at what it
left aside, or on a node of the size. -/
inductive Walked (i nb depth : Nat) (rest tree : BinaryTree SizeRing) :
    List SizeRing → BinaryTree SizeRing → Prop
  | through : Walked i nb depth rest tree (trail (keyDigit i nb) depth tree)
      (aside (keyDigit i nb) depth rest tree)
  | found (way : List (Frame SizeRing)) {r : SizeRing} {zero one : BinaryTree SizeRing}
      {visited : List SizeRing} (here : tree = plug way (.node r zero one))
      (fits : sub64 r.size nb = 0) (last : r ∈ visited) (held : ∀ q ∈ visited, q ∈ items tree) :
      Walked i nb depth rest tree visited (.node r zero one)

theorem Walked.step {depth : Nat} {rest side : BinaryTree SizeRing} {visited : List SizeRing}
    (walked : Walked i nb (depth + 1)
      (if keyDigit i nb depth then rest else if items one = [] then rest else one)
      (if keyDigit i nb depth then one else zero) visited side) :
    Walked i nb depth rest (.node r zero one) (r :: visited) side := by
  cases walked with
  | through =>
      rw [← trail_node, ← aside_node]
      exact Walked.through
  | found way here fits last held =>
      have shape : ∃ frame : Frame SizeRing, .node r zero one =
          frame.fill (if keyDigit i nb depth then one else zero) := by
        cases keyDigit i nb depth with
        | true => exact ⟨⟨r, true, zero⟩, rfl⟩
        | false => exact ⟨⟨r, false, one⟩, rfl⟩
      obtain ⟨frame, filled⟩ := shape
      refine Walked.found (way ++ [frame]) ?_ fits (List.mem_cons_of_mem _ last) ?_
      · rw [plug_append, ← here]
        exact filled
      · intro other member
        rcases List.mem_cons.mp member with rfl | below
        · simp
        · have inside := held other below
          split at inside
          · simp [inside]
          · simp [inside]

theorem Walked.held {depth : Nat} {rest side : BinaryTree SizeRing} {visited : List SizeRing}
    (walked : Walked i nb depth rest tree visited side) : ∀ r ∈ visited, r ∈ items tree := by
  cases walked with
  | through => exact fun r => trail_subset
  | found way here fits last held => exact held

theorem Walked.inside {depth : Nat} {side : BinaryTree SizeRing} {visited : List SizeRing}
    (walked : Walked i nb depth .nil tree visited side) (inside : Inside s forest i tree) :
    Inside s forest i side := by
  cases walked with
  | through =>
      refine aside_of (Inside s forest i) _ Inside.nil ?_
      rintro way side rfl
      exact inside.plug
  | found way here fits last held => exact Inside.plug (here ▸ inside)

/-- One round, if it does not end on the size. -/
theorem walk_round (bins : Searchable s forest) (inside : Inside s forest i (.node r zero one))
    {depth : Nat} (placed : Digital (fun r => keyDigit i r.size) depth (.node r zero one))
    (rest : BinaryTree SizeRing) (best : Nat × Nat)
    (onward : ¬ (sub64 r.size nb < best.2 ∧ sub64 r.size nb = 0)) (fuel : Nat) :
    tmallocLarge.walk nb (fuel + 1)
        ⟨r.chunk, best.1, best.2, sizebitsAt i nb depth, root rest⟩ s =
      (if root (if keyDigit i nb depth then one else zero) = 0 then
        pure ⟨root (if keyDigit i nb depth then rest else if items one = [] then rest else one),
          (pick nb best r).1, (pick nb best r).2, sizebitsAt i nb depth,
          root (if keyDigit i nb depth then rest else if items one = [] then rest else one)⟩
      else tmallocLarge.walk nb fuel ⟨root (if keyDigit i nb depth then one else zero),
        (pick nb best r).1, (pick nb best r).2, sizebitsAt i nb (depth + 1),
        root (if keyDigit i nb depth then rest else if items one = [] then rest else one)⟩ :
        Prog Walk) s := by
  obtain ⟨-, size, child⟩ := inside.reads bins
  have digit := child (keyDigit i nb depth)
  rw [← sizebitsAt_digit] at digit
  have right : TreeChunk.child r.chunk 1 s = .ok (root one) s := child true
  have kept := untaken bins inside placed rest (keyDigit i nb depth)
  have bits := sizebitsAt_succ i nb depth
  rw [tmallocLarge.walk]
  simp only [Fuelled.bind_run, size, if_neg onward]
  by_cases beside : root one ≠ 0 ∧ root one ≠ root (if keyDigit i nb depth then one else zero)
  · by_cases better : sub64 r.size nb < best.2
    · have taken : pick nb best r = (r.chunk, sub64 r.size nb) := if_pos better
      simp only [if_pos better, taken, right, digit, ← kept, if_pos beside, bits]
    · have left : pick nb best r = best := if_neg better
      simp only [if_neg better, left, right, digit, ← kept, if_pos beside, bits]
  · by_cases better : sub64 r.size nb < best.2
    · have taken : pick nb best r = (r.chunk, sub64 r.size nb) := if_pos better
      simp only [if_pos better, taken, right, digit, ← kept, if_neg beside, bits]
    · have left : pick nb best r = best := if_neg better
      simp only [if_neg better, left, right, digit, ← kept, if_neg beside, bits]

theorem walk_reaches (nb : Nat) (bins : Searchable s forest) (inside : Inside s forest i tree)
    (nonempty : tree ≠ .nil) {depth : Nat}
    (placed : Digital (fun r => keyDigit i r.size) depth tree) (rest : BinaryTree SizeRing)
    (best : Nat × Nat) :
    ∃ visited side w, Walked i nb depth rest tree visited side ∧ w.t = root side ∧
      (w.v, w.rsize) = visited.foldl (pick nb) best ∧
      ∀ fuel ≥ tree.height, tmallocLarge.walk nb fuel
        ⟨root tree, best.1, best.2, sizebitsAt i nb depth, root rest⟩ s = .ok w s := by
  -- on the tree, the chunk left aside and the best so far carried along
  induction tree generalizing depth rest best with
  | nil => exact absurd rfl nonempty
  | node r zero one ihZero ihOne =>
      have start : root (.node r zero one) = r.chunk := rfl
      have enough : ∀ fuel ≥ (BinaryTree.node r zero one).height, ∃ less, fuel = less + 1 ∧
          (if keyDigit i nb depth then one else zero).height ≤ less := by
        intro fuel large
        simp only [BinaryTree.height] at large
        refine ⟨fuel - 1, by omega, ?_⟩
        split <;> omega
      by_cases found : sub64 r.size nb < best.2 ∧ sub64 r.size nb = 0
      · -- a fit without remainder ends the walk where it is
        refine ⟨[r], .node r zero one,
          ⟨r.chunk, r.chunk, sub64 r.size nb, sizebitsAt i nb depth, root rest⟩,
          Walked.found [] rfl found.2 (by simp) (by simp), rfl, ?_, fun fuel large => ?_⟩
        · simp [pick, found.1]
        · obtain ⟨-, size, -⟩ := inside.reads bins
          obtain ⟨less, rfl, -⟩ := enough fuel large
          rw [tmallocLarge.walk]
          simp only [address_node, Fuelled.bind_run, size, if_pos found]
          rfl
      · have round := walk_round bins inside placed rest best found
        have below := inside.onSide (keyDigit i nb depth)
        by_cases ends : (if keyDigit i nb depth then one else zero) = .nil
        · -- the digits lead no further: on to what was left aside
          have walked : Walked i nb depth rest (.node r zero one) _ _ := Walked.step Walked.through
          rw [ends] at walked round
          refine ⟨_, _, ⟨root (if keyDigit i nb depth then rest else if items one = [] then rest
            else one), (pick nb best r).1, (pick nb best r).2, sizebitsAt i nb depth,
            root (if keyDigit i nb depth then rest else if items one = [] then rest else one)⟩,
            walked, rfl, rfl, fun fuel large => ?_⟩
          obtain ⟨less, rfl, -⟩ := enough fuel large
          exact round less
        · have more := mt (below.root_eq_zero_iff bins).mp ends
          simp only [if_neg more] at round
          have deeper : ∃ visited side w, Walked i nb (depth + 1)
              (if keyDigit i nb depth then rest else if items one = [] then rest else one)
              (if keyDigit i nb depth then one else zero) visited side ∧ w.t = root side ∧
              (w.v, w.rsize) = visited.foldl (pick nb) (pick nb best r) ∧
              ∀ fuel ≥ (if keyDigit i nb depth then one else zero).height,
                tmallocLarge.walk nb fuel ⟨root (if keyDigit i nb depth then one else zero),
                  (pick nb best r).1, (pick nb best r).2, sizebitsAt i nb (depth + 1),
                  root (if keyDigit i nb depth then rest else if items one = [] then rest else one)⟩
                  s = .ok w s := by
            cases turn : keyDigit i nb depth with
            | true =>
                rw [turn] at below ends
                exact ihOne below ends placed.2.2.2 _ _
            | false =>
                rw [turn] at below ends
                exact ihZero below ends placed.2.2.1 _ _
          obtain ⟨visited, side, w, walked, leads, picked, run⟩ := deeper
          refine ⟨r :: visited, side, w, walked.step, leads, picked, fun fuel large => ?_⟩
          obtain ⟨less, rfl, fits⟩ := enough fuel large
          exact (round less).trans (run less fits)

/-! ## The order of the sizes -/

/-- The sizes of bin `i` whose order the bin keeps. -/
def binSizes (i : Nat) : Set Nat :=
  {size | minLargeSize ≤ size ∧ size < 2 ^ 40 ∧ computeTreeIndex size = i}

theorem keyDigit_lexicographic (i : Nat) : Lexicographic (keyDigit i) (binSizes i) := by
  rintro low ⟨largeLow, boundLow, hereLow⟩ high ⟨largeHigh, boundHigh, hereHigh⟩ depth agree clear set
  have shallow : depth < 64 := by
    by_contra deep
    simp [keyDigit, deep] at set
  simp only [keyDigit, shallow, decide_true, Bool.true_and] at clear set
  have keys : sizeKey i low < sizeKey i high := by
    refine Nat.lt_of_testBit (63 - depth) clear set fun j above => ?_
    by_cases inWord : j < 64
    · have same := agree (63 - j) (by omega)
      have shallow' : 63 - j < 64 := by omega
      have back : 63 - (63 - j) = j := by omega
      simp only [keyDigit, shallow', decide_true, Bool.true_and, back] at same
      exact same
    · have outside : ∀ size, (sizeKey i size).testBit j = false := fun size =>
        Nat.testBit_lt_two_pow (Nat.lt_of_lt_of_le (sizeKey_lt i size)
          (Nat.pow_le_pow_right (by decide) (not_lt.mp inWord)))
      rw [outside, outside]
  by_contra reversed
  rcases Nat.lt_or_eq_of_le (not_lt.mp reversed) with less | same
  · have low := lowBitsOrder_of_lt largeHigh less boundLow
    exact Nat.lt_asymm keys (low.sizeKey_lt less (by omega) (by omega) hereHigh hereLow)
  · rw [same] at keys
    exact Nat.lt_irrefl _ keys

section Order

variable (bins : Searchable s forest) (bounded : ∀ i, ∀ r ∈ items (forest i), r.size < 2 ^ 40)

include bins

theorem fits_above (small : nb < 2 ^ 40) (member : r ∈ items (forest i))
    (above : computeTreeIndex nb < i) : nb < r.size := by
  by_contra reversed
  have order := computeTreeIndex_mono (bins.sized i r member).1 (not_lt.mp reversed) small
  rw [(bins.sized i r member).2] at order
  omega

include bounded

theorem sorted_bin (i : Nat) (start : Nat → Bool) :
    Sorted (keyDigit i) SizeRing.size (binSizes i) 0 start (forest i) :=
  ⟨bins.placed i, fun _ _ _ below => absurd below (Nat.not_lt_zero _),
    fun r member => ⟨(bins.sized i r member).1, bounded i r member, (bins.sized i r member).2⟩⟩

/-- Later bins hold larger sizes. -/
theorem bins_lt {j : Nat} {q : SizeRing} (member : r ∈ items (forest i))
    (later : q ∈ items (forest j)) (less : i < j) : r.size < q.size := by
  by_contra reversed
  have large := (bins.sized j q later).1
  have order := computeTreeIndex_mono (s := q.size) large (not_lt.mp reversed) (bounded i r member)
  rw [(bins.sized i r member).2, (bins.sized j q later).2] at order
  omega

/-- A fit is not in a bin below that of the request. -/
theorem index_le (large : minLargeSize ≤ nb) (member : r ∈ items (forest i)) (fits : nb ≤ r.size) :
    computeTreeIndex nb ≤ i := by
  rw [← (bins.sized i r member).2]
  exact computeTreeIndex_mono large fits (bounded i r member)

theorem spine_covers {tree : BinaryTree SizeRing} {way : List (Frame SizeRing)}
    (shape : forest i = plug way tree) :
    ∀ q ∈ items tree, ∃ r ∈ spine tree, r.size ≤ q.size := by
  have sorted := sorted_bin bins bounded i fun _ => false
  rw [shape] at sorted
  obtain ⟨depth, start, below⟩ := sorted.plug
  exact spine_least (keyDigit_lexicographic i) below

/-- After the walk, the leftmost path of what was left aside completes the search of the
bin; larger bins are not needed if it found anything at all. -/
theorem walked_covers (large : minLargeSize ≤ nb) (small : nb < 2 ^ 40)
    {visited : List SizeRing} {side : BinaryTree SizeRing}
    (walked : Walked (computeTreeIndex nb) nb 0 .nil (forest (computeTreeIndex nb)) visited side) :
    (∀ q ∈ items (forest (computeTreeIndex nb)), nb ≤ q.size →
      ∃ r ∈ visited ++ spine side, nb ≤ r.size ∧ r.size ≤ q.size) ∧
      (side ≠ .nil → ∃ r ∈ visited ++ spine side, nb ≤ r.size) := by
  cases walked with
  | through =>
      have sorted := sorted_bin bins bounded (computeTreeIndex nb)
        (keyDigit (computeTreeIndex nb) nb)
      have asked : nb ∈ binSizes (computeTreeIndex nb) := ⟨large, small, rfl⟩
      have order := keyDigit_lexicographic (computeTreeIndex nb)
      generalize shown : aside (keyDigit (computeTreeIndex nb) nb) 0 .nil
        (forest (computeTreeIndex nb)) = side
      have covers : ∀ q, q ∈ items (forest (computeTreeIndex nb)) ∨ q ∈ items .nil →
          nb ≤ q.size → _ ∨ _ := aside_covers order asked sorted (by simp)
      have nothing : ∀ far ∈ items (.nil : BinaryTree SizeRing), nb < far.size := by simp
      have above := aside_above order asked sorted nothing
      rw [shown] at covers above
      have part : side = .nil ∨ ∃ way, forest (computeTreeIndex nb) = plug way side := by
        rw [← shown]
        exact aside_of (fun side => side = .nil ∨ ∃ way, forest (computeTreeIndex nb) =
          plug way side) _ (Or.inl rfl) fun way side here => Or.inr ⟨way, here⟩
      -- its leftmost path leads to the least of what was left aside
      have fromSide : ∀ q ∈ items side, ∃ r ∈ spine side, nb ≤ r.size ∧ r.size ≤ q.size := by
        intro q member
        rcases part with rfl | ⟨way, here⟩
        · simp at member
        · obtain ⟨r, onSpine, less⟩ := spine_covers bins bounded here q member
          exact ⟨r, onSpine, (above r (spine_subset onSpine)).le, less⟩
      refine ⟨fun q member enough => ?_, fun nonempty => ?_⟩
      · rcases covers q (Or.inl member) enough with ⟨r, onTrail, fits, less⟩ | ⟨r, beside, less⟩
        · exact ⟨r, List.mem_append_left _ onTrail, fits, less⟩
        · obtain ⟨best, onSpine, fits, below⟩ := fromSide r beside
          exact ⟨best, List.mem_append_right _ onSpine, fits, below.trans less⟩
      · obtain ⟨q, member⟩ := List.exists_mem_of_ne_nil _ (mt items_eq_nil.mp nonempty)
        obtain ⟨r, onSpine, fits, -⟩ := fromSide q member
        exact ⟨r, List.mem_append_right _ onSpine, fits⟩
  | found way here fits last held =>
      -- the last one visited is an exact fit
      rename_i r zero one
      have inBin := held r last
      have exactly : r.size = nb := by
        have bound := bounded _ r inBin
        unfold sub64 at fits
        omega
      have here' : r ∈ visited ++ spine (.node r zero one) := List.mem_append_left _ last
      exact ⟨fun q _ enough => ⟨r, here', exactly.ge, exactly.trans_le enough⟩,
        fun _ => ⟨r, here', exactly.ge⟩⟩

/-- Every fit has a fit among `visited` that is not larger. -/
def Covers (forest : Nat → BinaryTree SizeRing) (nb : Nat) (visited : List SizeRing) : Prop :=
  ∀ i, ∀ q ∈ items (forest i), nb ≤ q.size → ∃ r ∈ visited, nb ≤ r.size ∧ r.size ≤ q.size

theorem here_covers (large : minLargeSize ≤ nb) (small : nb < 2 ^ 40) {visited : List SizeRing}
    {side : BinaryTree SizeRing}
    (walked : Walked (computeTreeIndex nb) nb 0 .nil (forest (computeTreeIndex nb)) visited side)
    (found : side ≠ .nil ∨ ∃ r ∈ visited, nb ≤ r.size) :
    Covers forest nb (visited ++ spine side) := by
  obtain ⟨within, aside_⟩ := walked_covers bins bounded large small walked
  have inside := walked.inside (Inside.whole bins _)
  have held : ∀ r ∈ visited ++ spine side, r ∈ items (forest (computeTreeIndex nb)) := by
    intro r member
    rcases List.mem_append.mp member with early | onSpine
    · exact walked.held r early
    · exact inside.held r (spine_subset onSpine)
  obtain ⟨r, member, fits⟩ : ∃ r ∈ visited ++ spine side, nb ≤ r.size := by
    rcases found with nonempty | ⟨r, early, fits⟩
    · exact aside_ nonempty
    · exact ⟨r, List.mem_append_left _ early, fits⟩
  intro i q inBin enough
  rcases Nat.lt_or_eq_of_le (index_le bins bounded large inBin enough) with later | rfl
  · exact ⟨r, member, fits, (bins_lt bins bounded (held r member) inBin later).le⟩
  · exact within q inBin enough

/-- Where the request's bin has no fit, the first bin in use above it has the least. -/
theorem next_covers (large : minLargeSize ≤ nb) (small : nb < 2 ^ 40) {j : Nat}
    (above : computeTreeIndex nb < j)
    (between : ∀ k, computeTreeIndex nb < k → k < j → forest k = .nil)
    (last : forest j = .nil → ∀ k, computeTreeIndex nb < k → forest k = .nil)
    (none : ∀ q ∈ items (forest (computeTreeIndex nb)), q.size < nb) (visited : List SizeRing) :
    Covers forest nb (visited ++ spine (forest j)) := by
  intro k q inBin enough
  have later : computeTreeIndex nb < k := by
    refine Nat.lt_of_le_of_ne (index_le bins bounded large inBin enough) ?_
    rintro rfl
    exact absurd (none q inBin) (not_lt.mpr enough)
  have used : forest k ≠ .nil := by
    intro empty
    simp [empty] at inBin
  have reached : j ≤ k := by
    by_contra before
    exact used (between k later (by omega))
  have fromBin : ∀ p ∈ items (forest j), ∃ r ∈ visited ++ spine (forest j),
      nb ≤ r.size ∧ r.size ≤ p.size := by
    intro p member
    have whole : forest j = plug [] (forest j) := rfl
    obtain ⟨r, onSpine, less⟩ := spine_covers bins bounded whole p member
    have fits := fits_above bins small (spine_subset onSpine) above
    exact ⟨r, List.mem_append_right _ onSpine, fits.le, less⟩
  rcases Nat.lt_or_eq_of_le reached with beyond | rfl
  · -- `q` is in a later bin than the first in use, so anything there is smaller
    have nonempty : items (forest j) ≠ [] := fun empty =>
      used (last (items_eq_nil.mp empty) k later)
    obtain ⟨p, member⟩ := List.exists_mem_of_ne_nil _ nonempty
    obtain ⟨r, visited_, fits, less⟩ := fromBin p member
    exact ⟨r, visited_, fits, less.trans (bins_lt bins bounded member inBin beyond).le⟩
  · exact fromBin q inBin

/-- The first bin in use has the least fit of a request that no bin is too small for. -/
theorem first_covers (small : nb ≤ minLargeSize) (used : forest i ≠ .nil)
    (before : ∀ k < i, forest k = .nil) : Covers forest nb (spine (forest i)) := by
  intro k q inBin _
  have large : ∀ r ∈ spine (forest i), nb ≤ r.size := fun r onSpine =>
    small.trans (bins.sized i r (spine_subset onSpine)).1
  have whole : forest i = plug [] (forest i) := rfl
  have reached : i ≤ k := by
    by_contra earlier
    simp [before k (not_le.mp earlier)] at inBin
  rcases Nat.lt_or_eq_of_le reached with beyond | rfl
  · obtain ⟨p, member⟩ := List.exists_mem_of_ne_nil _ (mt items_eq_nil.mp used)
    obtain ⟨r, onSpine, less⟩ := spine_covers bins bounded whole p member
    exact ⟨r, onSpine, large r onSpine, less.trans (bins_lt bins bounded member inBin beyond).le⟩
  · obtain ⟨r, onSpine, less⟩ := spine_covers bins bounded whole q inBin
    exact ⟨r, onSpine, large r onSpine, less⟩

end Order

/-! ## The next bin -/

section Next

variable (bins : Searchable s forest)

include bins

theorem bin_empty (outside : ¬ i < 32) : forest i = .nil := by
  by_contra used
  obtain ⟨r, member⟩ := List.exists_mem_of_ne_nil _ (mt items_eq_nil.mp used)
  exact outside (bins.index_lt member)

theorem marked_iff_used (bound : i < 32) : s.gm.treemap.testBit i = true ↔ forest i ≠ .nil := by
  rw [bins.marked i bound, bins.rooted i bound]
  exact not_congr ((Inside.whole bins i).root_eq_zero_iff bins)

/-- A bitmap cut from the treemap at `j` shows the first bin in use from there on. -/
theorem first_bin {j x : Nat} (fits : x < 2 ^ 32)
    (bits : ∀ k < 32, x.testBit k = (decide (j ≤ k) && s.gm.treemap.testBit k)) :
    (x = 0 ∧ ∀ k, j ≤ k → forest k = .nil) ∨
      (x ≠ 0 ∧ computeBit2idx (leastBit x) < 32 ∧ j ≤ computeBit2idx (leastBit x) ∧
        forest (computeBit2idx (leastBit x)) ≠ .nil ∧
        ∀ k, j ≤ k → k < computeBit2idx (leastBit x) → forest k = .nil) := by
  have used : ∀ k < 32, x.testBit k = true ↔ j ≤ k ∧ forest k ≠ .nil := by
    intro k bound
    rw [bits k bound, Bool.and_eq_true, decide_eq_true_eq, marked_iff_used bins bound]
  by_cases zero : x = 0
  · refine Or.inl ⟨zero, fun k from_ => ?_⟩
    by_cases bound : k < 32
    · by_contra nonempty
      have set := (used k bound).mpr ⟨from_, nonempty⟩
      simp [zero] at set
    · exact bin_empty bins bound
  · obtain ⟨i, least⟩ := exists_leastSet fits zero
    rw [computeBit2idx_leastBit fits least]
    obtain ⟨bound, here, below⟩ := least
    obtain ⟨from_, nonempty⟩ := (used i bound).mp here
    refine Or.inr ⟨zero, bound, from_, nonempty, fun k lower less => ?_⟩
    by_contra earlier
    have set := (used k (by omega)).mpr ⟨lower, earlier⟩
    rw [below k less] at set
    cases set

theorem nextBin_reads {idx : Nat} (bound : idx < 32) :
    ∃ j, idx < j ∧ tmallocLarge.nextBin idx s = .ok (root (forest j)) s ∧
      (∀ k, idx < k → k < j → forest k = .nil) ∧
      (forest j = .nil → ∀ k, idx < k → forest k = .nil) := by
  have bits : ∀ k < 32, (leftBits (idx2bit idx) &&& s.gm.treemap).testBit k =
      (decide (idx + 1 ≤ k) && s.gm.treemap.testBit k) := by
    intro k boundK
    rw [Nat.testBit_and, testBit_leftBits bound boundK]
    rfl
  have fits : leftBits (idx2bit idx) &&& s.gm.treemap < 2 ^ 32 :=
    Nat.lt_of_le_of_lt Nat.and_le_right bins.bits
  rcases first_bin bins fits bits with ⟨zero, none⟩ | ⟨nonzero, inRange, from_, used, before⟩
  · refine ⟨32, bound, ?_, fun k later _ => none k later, fun _ k later => none k later⟩
    rw [bin_empty bins (by decide)]
    simp only [tmallocLarge.nextBin, Fuelled.bind_run, run_readGm, zero, ne_eq,
      not_true_eq_false, if_false, run_pure]
    rfl
  · refine ⟨_, from_, ?_, before, fun empty => absurd empty used⟩
    simp only [tmallocLarge.nextBin, Fuelled.bind_run, run_readGm, if_pos nonzero, treebin, run_pure,
      bins.rooted _ inRange]

end Next

/-! ## The searches -/

/-- The end of tmalloc_large: the best fit is split, unless dv is a better one. -/
def settleOn (fuel nb : Nat) (best : Nat × Nat) : Prog Nat := do
  if best.1 ≠ 0 ∧ best.2 < sub64 (← readGm).dvsize nb then
    splitTree fuel nb best.1 best.2 (insertChunk fuel)
  else return 0

section Search

variable (bins : Searchable s forest)

include bins

theorem settle_run (idx : Nat) {k : Nat} {w : Walk} {visited : List SizeRing}
    {next : BinaryTree SizeRing} (inside : Inside s forest k next)
    (picked : (w.v, w.rsize) = visited.foldl (pick nb) (0, neg64 nb))
    (leads : (if w.t = 0 ∧ w.v = 0 then tmallocLarge.nextBin idx else pure w.t : Prog Nat) s =
      .ok (root next) s) :
    ∀ fuel ≥ next.height + 1, tmallocLarge.settle fuel nb idx w s =
      settleOn fuel nb ((visited ++ spine next).foldl (pick nb) (0, neg64 nb)) s := by
  intro fuel large
  have path := leastOfPath_spine nb bins inside (w.v, w.rsize) fuel large
  rw [picked, ← List.foldl_append] at path
  rw [tmallocLarge.settle, Fuelled.bind_run, leads]
  simp only [Fuelled.bind_run, picked, path]
  rfl

theorem pick_none (bounded : ∀ i, ∀ r ∈ items (forest i), r.size < 2 ^ 40) (positive : 0 < nb)
    (fits : nb < 2 ^ 64) {visited : List SizeRing}
    (held : ∀ r ∈ visited, ∃ i, r ∈ items (forest i)) :
    (visited.foldl (pick nb) (0, neg64 nb)).1 = 0 ↔ ∀ r ∈ visited, r.size < nb := by
  have sizes : ∀ r ∈ visited, r.size < 2 ^ 64 := by
    intro r member
    obtain ⟨i, inBin⟩ := held r member
    exact (bounded i r inBin).trans (by decide)
  rcases pick_fit positive fits sizes with ⟨none, picked⟩ | ⟨r, member, enough, -, picked⟩
  · rw [picked]
    exact iff_of_true rfl none
  · obtain ⟨i, inBin⟩ := held r member
    rw [picked]
    refine iff_of_false (bins.mapped i _ (chunk_mem inBin)).1 fun none => ?_
    exact absurd (none r member) (not_lt.mpr enough)

/-- What tmalloc_large looks at has a least fit of all bins. -/
theorem tmallocLarge_visits (bounded : ∀ i, ∀ r ∈ items (forest i), r.size < 2 ^ 40)
    (large : minLargeSize ≤ nb) (fits : nb < 2 ^ 64) :
    ∃ visited enough, (∀ r ∈ visited, ∃ i, r ∈ items (forest i)) ∧ Covers forest nb visited ∧
      ∀ fuel ≥ enough, tmallocLarge fuel nb s =
        settleOn fuel nb (visited.foldl (pick nb) (0, neg64 nb)) s := by
  have bound := computeTreeIndex_lt nb
  have least : minLargeSize = 256 := rfl
  have covered : ∀ visited, (nb < 2 ^ 40 → Covers forest nb visited) →
      Covers forest nb visited := by
    intro visited covers i q member enough
    exact covers (enough.trans_lt (bounded i q member)) i q member enough
  obtain ⟨j, above, toNext, between, last⟩ := nextBin_reads bins bound
  have startRead : treebin (computeTreeIndex nb) s =
      .ok (root (forest (computeTreeIndex nb))) s := by
    rw [← bins.rooted _ bound]
    rfl
  have spineHeld : ∀ k, ∀ r ∈ spine (forest k), ∃ i, r ∈ items (forest i) :=
    fun k r onSpine => ⟨k, spine_subset onSpine⟩
  by_cases empty : forest (computeTreeIndex nb) = .nil
  · -- nothing to walk, and the next bin in use holds larger sizes only
    rw [empty] at startRead
    have nothing : ∀ q ∈ items (forest (computeTreeIndex nb)), q.size < nb := by simp [empty]
    have run : ∀ fuel ≥ (forest j).height + 1, tmallocLarge.settle fuel nb (computeTreeIndex nb)
        ⟨0, 0, neg64 nb, shl64 nb (leftshiftForTreeIndex (computeTreeIndex nb)), 0⟩ s =
          settleOn fuel nb (([] ++ spine (forest j)).foldl (pick nb) (0, neg64 nb)) s :=
      settle_run bins _ (Inside.whole bins j) rfl (by rw [if_pos ⟨rfl, rfl⟩]; exact toNext)
    refine ⟨[] ++ spine (forest j), (forest j).height + 1, spineHeld j,
      covered _ fun small => next_covers bins bounded large small above between last nothing [],
      fun fuel enough => ?_⟩
    rw [← run fuel enough, tmallocLarge, Fuelled.bind_run, startRead]
    rfl
  · obtain ⟨visited, side, w, walked, leads, picked, run⟩ :=
      walk_reaches nb bins (Inside.whole bins (computeTreeIndex nb)) empty
        (bins.placed (computeTreeIndex nb)) .nil (0, neg64 nb)
    have inside := walked.inside (Inside.whole bins _)
    have notNull : root (forest (computeTreeIndex nb)) ≠ 0 :=
      mt ((Inside.whole bins _).root_eq_zero_iff bins).mp empty
    have held : ∀ r ∈ visited, ∃ i, r ∈ items (forest i) :=
      fun r member => ⟨_, walked.held r member⟩
    have reached : ∀ fuel ≥ (forest (computeTreeIndex nb)).height, tmallocLarge fuel nb s =
        tmallocLarge.settle fuel nb (computeTreeIndex nb) w s := by
      intro fuel enough
      have walk : tmallocLarge.walk nb fuel ⟨root (forest (computeTreeIndex nb)), 0, neg64 nb,
          shl64 nb (leftshiftForTreeIndex (computeTreeIndex nb)), 0⟩ s = .ok w s := by
        rw [← sizebitsAt_zero]
        exact run fuel enough
      rw [tmallocLarge, Fuelled.bind_run, startRead]
      simp only [if_pos notNull, Fuelled.bind_run, walk]
    have smaller := pick_none bins bounded (by omega) fits held
    rw [← picked] at smaller
    by_cases none : w.t = 0 ∧ w.v = 0
    · -- nothing in the bin fits, or it would have been picked
      obtain rfl : side = .nil := (inside.root_eq_zero_iff bins).mp (leads.symm.trans none.1)
      have settled := settle_run bins (computeTreeIndex nb) (Inside.whole bins j) picked
        (by rw [if_pos none]; exact toNext)
      refine ⟨visited ++ spine (forest j), max (forest (computeTreeIndex nb)).height
        ((forest j).height + 1), fun r member => ?_, covered _ fun small => ?_, fun fuel enough => ?_⟩
      · exact (List.mem_append.mp member).elim (held r) (spineHeld j r)
      · refine next_covers bins bounded large small above between last (fun q member => ?_) visited
        by_contra fit
        obtain ⟨r, here, enough, -⟩ := (walked_covers bins bounded large small walked).1 q member
          (not_lt.mp fit)
        have early : r ∈ visited := by simpa [spine] using here
        exact absurd (smaller.mp none.2 r early) (not_lt.mpr enough)
      · rw [reached fuel (le_of_max_le_left enough), settled fuel (le_of_max_le_right enough)]
    · -- the bin has a fit, and no other bin a better one
      have settled := settle_run bins (computeTreeIndex nb) inside picked
        (by rw [if_neg none, leads]; rfl)
      refine ⟨visited ++ spine side, max (forest (computeTreeIndex nb)).height
        (side.height + 1), fun r member => ?_, covered _ fun small => ?_, fun fuel enough => ?_⟩
      · exact (List.mem_append.mp member).elim (held r)
          fun onSpine => ⟨_, inside.held r (spine_subset onSpine)⟩
      · refine here_covers bins bounded large small walked ?_
        by_contra nothing
        obtain ⟨noSide, noFit⟩ := not_or.mp nothing
        refine none ⟨leads.trans ((inside.root_eq_zero_iff bins).mpr (not_not.mp noSide)), ?_⟩
        exact smaller.mpr fun r member => not_le.mp fun fit => noFit ⟨r, member, fit⟩
      · rw [reached fuel (le_of_max_le_left enough), settled fuel (le_of_max_le_right enough)]

/-- tmalloc_small looks down the leftmost path of the first bin in use. -/
theorem tmallocSmall_visits (bounded : ∀ i, ∀ r ∈ items (forest i), r.size < 2 ^ 40)
    (marked : s.gm.treemap ≠ 0) (positive : 0 < nb) (small : nb ≤ minLargeSize) :
    ∃ visited enough, (∀ r ∈ visited, ∃ i, r ∈ items (forest i)) ∧ visited ≠ [] ∧
      Covers forest nb visited ∧ ∀ fuel ≥ enough, tmallocSmall fuel nb s =
        splitTree fuel nb (visited.foldl (pick nb) (0, neg64 nb)).1
          (visited.foldl (pick nb) (0, neg64 nb)).2 replaceDv s := by
  have least : minLargeSize = 256 := rfl
  have whole : ∀ k < 32, s.gm.treemap.testBit k = (decide (0 ≤ k) && s.gm.treemap.testBit k) := by
    simp
  obtain ⟨i, found⟩ : ∃ i, computeBit2idx (leastBit s.gm.treemap) = i := ⟨_, rfl⟩
  obtain ⟨zero, -⟩ | ⟨-, bound, -, used, before⟩ := first_bin bins bins.bits whole
  · exact absurd zero marked
  rw [found] at bound used before
  have rooted := bins.rooted i bound
  have inside := Inside.whole bins i
  have covers := first_covers bins bounded small used fun k less => before k (Nat.zero_le k) less
  refine ⟨spine (forest i), (forest i).height, fun r onSpine => ⟨i, spine_subset onSpine⟩, ?_,
    covers, fun fuel enough => ?_⟩
  · cases shape : forest i with
    | nil => exact absurd shape used
    | node r zero one => simp [spine_node]
  · cases shape : forest i with
    | nil => exact absurd shape used
    | node r zero one =>
        rw [shape] at inside rooted enough
        obtain ⟨-, size, -⟩ := inside.reads bins
        have large := (bins.sized i r (inside.held r (by simp))).1
        have below := bounded i r (inside.held r (by simp))
        -- the root is always better than nothing
        have taken : pick nb (0, neg64 nb) r = (r.chunk, sub64 r.size nb) :=
          if_pos ((sub64_lt_neg64 r.size positive (by omega) (by omega)).mpr (by omega))
        have path : leastOfPath nb fuel (root (if items zero = [] then one else zero),
            r.chunk, sub64 r.size nb) s =
              .ok ((spine (.node r zero one)).foldl (pick nb) (0, neg64 nb)) s := by
          rw [spine_node, List.foldl_cons, taken]
          simp only [BinaryTree.height] at enough
          by_cases empty : items zero = []
          · rw [if_pos empty]
            exact leastOfPath_spine nb bins (inside.onSide true) _ fuel (by simp; omega)
          · rw [if_neg empty]
            exact leastOfPath_spine nb bins (inside.onSide false) _ fuel (by simp; omega)
        simp only [tmallocSmall, Fuelled.bind_run, run_readGm, found, treebin, run_pure, rooted,
          address_node, size, inside.leftmostChild bins, path]

end Search

/-! ## Best fit -/

/-- `v` has the least size that is large enough, of all chunks in the bins. -/
structure LeastFit (s : Store) (forest : Nat → BinaryTree SizeRing) (nb v : Nat) : Prop where
  binned : ∃ i, v ∈ chunks (forest i)
  fits : nb ≤ s.treeLinks.size v
  least : ∀ i, ∀ p ∈ chunks (forest i), nb ≤ s.treeLinks.size p →
    s.treeLinks.size v ≤ s.treeLinks.size p

/-- No chunk in the bins is large enough, or none is better than dv, which is. -/
def DvServes (s : Store) (forest : Nat → BinaryTree SizeRing) (nb : Nat) : Prop :=
  (∀ i, ∀ p ∈ chunks (forest i), s.treeLinks.size p < nb) ∨
    nb ≤ s.gm.dvsize ∧ ∀ i, ∀ p ∈ chunks (forest i), nb ≤ s.treeLinks.size p →
      s.gm.dvsize ≤ s.treeLinks.size p

/-- The search ends in the split of `v`, and returns nothing but its memory. -/
def Takes (search : Nat → Prog Nat) (keep : Nat → Nat → Nat → Prog Unit) (nb v : Nat)
    (s : Store) : Prop :=
  ∃ enough, ∀ fuel ≥ enough,
    search fuel s = splitTree fuel nb v (s.treeLinks.size v - nb) (keep fuel) s ∧
      ∀ value s', search fuel s = .ok value s' → value = chunk2mem v ∧ value ≠ 0

theorem splitTree_returns {fuel value : Nat} {keep : Nat → Nat → Prog Unit} {s' : Store}
    (ran : splitTree fuel nb v rsize keep s = .ok value s') : value = chunk2mem v := by
  obtain ⟨known, between, -, ran⟩ := Fuelled.bind_returns ran
  cases known with
  | false => cases ran
  | true =>
      simp only [if_true] at ran
      split at ran
      · obtain ⟨-, unlinked, -, ran⟩ := Fuelled.bind_returns ran
        split at ran
        · obtain ⟨-, whole, -, ran⟩ := Fuelled.bind_returns ran
          exact (EStateM.Result.ok.inj ran).1.symm
        · obtain ⟨-, cut, -, ran⟩ := Fuelled.bind_returns ran
          obtain ⟨-, sized, -, ran⟩ := Fuelled.bind_returns ran
          obtain ⟨-, kept, -, ran⟩ := Fuelled.bind_returns ran
          exact (EStateM.Result.ok.inj ran).1.symm
      · cases ran

section Chosen

variable (bins : Searchable s forest)

include bins

/-- A chunk has the size of its ring. -/
theorem ring_of (member : p ∈ chunks (forest i)) :
    ∃ r ∈ items (forest i), p ∈ r.chunks ∧ s.treeLinks.size p = r.size := by
  obtain ⟨r, inside, here⟩ := mem_chunks.mp member
  obtain ⟨-, node⟩ := (bins.linked i).holds r inside
  exact ⟨r, inside, here, node.sized p here⟩

theorem size_chunk (member : r ∈ items (forest i)) : s.treeLinks.size r.chunk = r.size := by
  obtain ⟨-, node⟩ := (bins.linked i).holds r member
  exact node.sized r.chunk (by simp)

theorem covers_leastFit (bounded : ∀ i, ∀ r ∈ items (forest i), r.size < 2 ^ 40)
    (positive : 0 < nb) (fits : nb < 2 ^ 64) {visited : List SizeRing}
    (held : ∀ r ∈ visited, ∃ i, r ∈ items (forest i)) (covers : Covers forest nb visited) :
    ((∀ r ∈ visited, r.size < nb) ∧ (∀ i, ∀ p ∈ chunks (forest i), s.treeLinks.size p < nb) ∧
        visited.foldl (pick nb) (0, neg64 nb) = (0, neg64 nb)) ∨
      ∃ v, LeastFit s forest nb v ∧ v ≠ 0 ∧ s.treeLinks.size v < 2 ^ 40 ∧ v + 64 ≤ 2 ^ 64 ∧
        visited.foldl (pick nb) (0, neg64 nb) = (v, s.treeLinks.size v - nb) := by
  have sizes : ∀ r ∈ visited, r.size < 2 ^ 64 := by
    intro r member
    obtain ⟨i, inBin⟩ := held r member
    exact (bounded i r inBin).trans (by decide)
  rcases pick_fit positive fits sizes with ⟨none, picked⟩ | ⟨r, member, enough, least, picked⟩
  · refine Or.inl ⟨none, fun i p inBin => ?_, picked⟩
    obtain ⟨q, ring, -, size⟩ := ring_of bins inBin
    rw [size]
    by_contra fit
    obtain ⟨r, member, enough, -⟩ := covers i q ring (not_lt.mp fit)
    exact absurd (none r member) (not_lt.mpr enough)
  · obtain ⟨i, inBin⟩ := held r member
    have size := size_chunk bins inBin
    have place := bins.mapped i _ (chunk_mem inBin)
    refine Or.inr ⟨r.chunk, ⟨⟨i, chunk_mem inBin⟩, size.symm ▸ enough, ?_⟩, place.1,
      size.symm ▸ bounded i r inBin, place.2.1, by rw [size]; exact picked⟩
    intro j p inside fit
    obtain ⟨q, ring, -, sizeP⟩ := ring_of bins inside
    rw [size, sizeP]
    rw [sizeP] at fit
    obtain ⟨best, seen, enough', less⟩ := covers j q ring fit
    exact (least best seen enough').trans less

end Chosen

theorem Takes.of_split {search : Nat → Prog Nat} {keep : Nat → Nat → Nat → Prog Unit} {v : Nat}
    (room : v + 64 ≤ 2 ^ 64) (enough : Nat) (run : ∀ fuel ≥ enough, search fuel s =
      splitTree fuel nb v (s.treeLinks.size v - nb) (keep fuel) s) : Takes search keep nb v s := by
  refine ⟨enough, fun fuel large => ⟨run fuel large, fun value s' ran => ?_⟩⟩
  rw [run fuel large] at ran
  have returned := splitTree_returns ran
  have distance : twoSizeTSizes = 32 := rfl
  refine ⟨returned, ?_⟩
  rw [returned, chunk2mem, distance, add64_of_lt (by omega)]
  omega

theorem dvServes_iff {v : Nat} (best : LeastFit s forest nb v) :
    DvServes s forest nb ↔ nb ≤ s.gm.dvsize ∧ s.gm.dvsize ≤ s.treeLinks.size v := by
  obtain ⟨i, inBin⟩ := best.binned
  constructor
  · rintro (none | ⟨enough, least⟩)
    · exact absurd (none i v inBin) (not_lt.mpr best.fits)
    · exact ⟨enough, least i v inBin best.fits⟩
  · rintro ⟨enough, less⟩
    exact Or.inr ⟨enough, fun j p inside fit => less.trans (best.least j p inside fit)⟩

theorem tmallocLarge_selects (bins : Searchable s forest)
    (bounded : ∀ i, ∀ r ∈ items (forest i), r.size < 2 ^ 40) (dvFits : s.gm.dvsize < 2 ^ 64)
    (large : minLargeSize ≤ nb) (fits : nb < 2 ^ 64) :
    (DvServes s forest nb → ∃ enough, ∀ fuel ≥ enough, tmallocLarge fuel nb s = .ok 0 s) ∧
      (¬ DvServes s forest nb → ∃ v, LeastFit s forest nb v ∧
        Takes (fun fuel => tmallocLarge fuel nb) insertChunk nb v s) := by
  have positive : 0 < nb := Nat.lt_of_lt_of_le (by decide) large
  obtain ⟨visited, enough, held, covers, run⟩ := tmallocLarge_visits bins bounded large fits
  rcases covers_leastFit bins bounded positive fits held covers with
    ⟨-, none, picked⟩ | ⟨v, best, notNull, below, room, picked⟩
  · refine ⟨fun _ => ⟨enough, fun fuel more => ?_⟩, fun better => absurd (Or.inl none) better⟩
    rw [run fuel more, picked]
    rfl
  · have test := sub64_lt_sub64 best.fits (below.trans (by decide)) dvFits
    have settled : ∀ fuel ≥ enough, tmallocLarge fuel nb s =
        (if s.treeLinks.size v < s.gm.dvsize ∨ s.gm.dvsize < nb then
          splitTree fuel nb v (s.treeLinks.size v - nb) (insertChunk fuel)
        else pure 0 : Prog Nat) s := by
      intro fuel more
      rw [run fuel more, picked]
      simp only [settleOn, Fuelled.bind_run, run_readGm, ne_eq, notNull, not_false_eq_true, true_and,
        test]
    rw [dvServes_iff best]
    refine ⟨fun serves => ⟨enough, fun fuel more => ?_⟩, fun better => ⟨v, best, ?_⟩⟩
    · rw [settled fuel more, if_neg (by omega)]
      rfl
    · refine Takes.of_split room enough fun fuel more => ?_
      rw [settled fuel more, if_pos (by omega)]

theorem tmallocSmall_selects (bins : Searchable s forest)
    (bounded : ∀ i, ∀ r ∈ items (forest i), r.size < 2 ^ 40) (marked : s.gm.treemap ≠ 0)
    (positive : 0 < nb) (small : nb ≤ minLargeSize) :
    ∃ v, LeastFit s forest nb v ∧ (∀ i, ∀ p ∈ chunks (forest i),
      s.treeLinks.size v ≤ s.treeLinks.size p) ∧
        Takes (fun fuel => tmallocSmall fuel nb) (fun _ => replaceDv) nb v s := by
  have fits : nb < 2 ^ 64 := Nat.lt_of_le_of_lt small (by decide)
  have large : ∀ i, ∀ r ∈ items (forest i), nb ≤ r.size :=
    fun i r member => small.trans (bins.sized i r member).1
  obtain ⟨visited, enough, held, nonempty, covers, run⟩ :=
    tmallocSmall_visits bins bounded marked positive small
  rcases covers_leastFit bins bounded positive fits held covers with
    ⟨none, -⟩ | ⟨v, best, notNull, -, room, picked⟩
  · obtain ⟨r, member⟩ := List.exists_mem_of_ne_nil _ nonempty
    obtain ⟨i, inBin⟩ := held r member
    exact absurd (none r member) (not_lt.mpr (large i r inBin))
  · refine ⟨v, best, fun i p inside => best.least i p inside ?_,
      Takes.of_split room enough ?_⟩
    · obtain ⟨r, ring, -, size⟩ := ring_of bins inside
      exact size.symm ▸ large i r ring
    · intro fuel more
      rw [run fuel more, picked]

/-- Both searches end and take a best fit of all bins. tmalloc_large leaves the request to
dv exactly where no chunk is large enough or none fits better than dv. -/
theorem tmalloc_bestFit (bins : Searchable s forest)
    (bounded : ∀ i, ∀ p ∈ chunks (forest i), s.treeLinks.size p < 2 ^ 40) :
    (∀ nb, minLargeSize ≤ nb → nb < 2 ^ 64 → s.gm.dvsize < 2 ^ 64 →
      (DvServes s forest nb → ∃ enough, ∀ fuel ≥ enough, tmallocLarge fuel nb s = .ok 0 s) ∧
        (¬ DvServes s forest nb → ∃ v, LeastFit s forest nb v ∧
          Takes (fun fuel => tmallocLarge fuel nb) insertChunk nb v s)) ∧
      ∀ nb, 0 < nb → nb ≤ minLargeSize → s.gm.treemap ≠ 0 →
        ∃ v, LeastFit s forest nb v ∧
          (∀ i, ∀ p ∈ chunks (forest i), s.treeLinks.size v ≤ s.treeLinks.size p) ∧
            Takes (fun fuel => tmallocSmall fuel nb) (fun _ => replaceDv) nb v s := by
  have rings : ∀ i, ∀ r ∈ items (forest i), r.size < 2 ^ 40 := by
    intro i r member
    rw [← size_chunk bins member]
    exact bounded i _ (chunk_mem member)
  constructor
  · intro nb large fits dvFits
    exact tmallocLarge_selects bins rings dvFits large fits
  · intro nb positive small marked
    exact tmallocSmall_selects bins rings marked positive small

/-- Of chunks of 256 bytes, 256 and 272, a request of 264 takes the last and one of 48 a first. -/
theorem tmalloc_bestFit_first : ∃ s forest, Holding [12288, 8192, 4096] s forest ∧
    Takes (fun fuel => tmallocLarge fuel 264) insertChunk 264 12288 s ∧
    ∃ v, s.treeLinks.size v = 256 ∧
      Takes (fun fuel => tmallocSmall fuel 48) (fun _ => replaceDv) 48 v s := by
  obtain ⟨s, forest, filled⟩ := Store.loose_filled
  have bins := filled.tries.searchable
  have size : ∀ i, ∀ p ∈ chunks (forest i), s.treeLinks.size p = looseSize p :=
    fun i p member => filled.sizes p (filled.among p ((filled.binned i p).mp member).2)
  have here : ∀ p ∈ [12288, 8192, 4096], p ∈ chunks (forest 0) :=
    fun p member => (filled.binned 0 p).mpr ⟨rfl, member⟩
  have used : s.gm.treemap ≠ 0 := by
    intro zero
    have marked := filled.tries.marked 0 (by decide)
    rw [zero, Nat.zero_testBit, filled.tries.rooted 0 (by decide)] at marked
    have null : root (forest 0) = 0 := by simpa using marked
    have mapped : ∀ r ∈ items (forest 0), r.chunk ≠ 0 :=
      fun r member => (filled.tries.mapped 0 _ (chunk_mem member)).1
    have held := here 4096 (by simp)
    rw [(root_eq_zero mapped).mp null] at held
    simp at held
  obtain ⟨searchLarge, searchSmall⟩ := tmalloc_bestFit bins fun i p member => by
    rw [size i p member, looseSize]
    split <;> decide
  have better : ¬ DvServes s forest 264 := by
    have large := size 0 12288 (here _ (by simp))
    have dvsize := filled.undesignated
    rintro (none | ⟨enough, -⟩)
    · have small := none 0 12288 (here _ (by simp))
      rw [large] at small
      exact absurd small (by decide)
    · omega
  obtain ⟨v, best, takes⟩ := (searchLarge 264 (by decide) (by decide)
    (by rw [filled.undesignated]; decide)).2 better
  obtain ⟨w, fit, least, taken⟩ := searchSmall 48 (by decide) (by decide) used
  refine ⟨s, forest, filled, ?_, w, ?_, taken⟩
  · -- the two chunks of 256 bytes are too small
    obtain ⟨i, inBin⟩ := best.binned
    have fits := best.fits
    rw [size i v inBin, looseSize] at fits
    by_cases last : v = 12288
    · exact last ▸ takes
    · rw [if_neg last] at fits
      exact absurd fits (by decide)
  · obtain ⟨i, inBin⟩ := fit.binned
    have bound := least 0 4096 (here _ (by simp))
    rw [size i w inBin, size 0 4096 (here _ (by simp)), looseSize] at bound
    rw [size i w inBin, looseSize]
    split at bound
    · exact absurd bound (by decide)
    · next other => rw [if_neg other]

end Unimem
