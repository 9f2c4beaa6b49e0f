import Unimem.Tries

/-!
insert_large_chunk on tree bins of any depth. The loop only reads: it stops at
the node of the size, or above an empty slot. What it writes then makes a new
root, a new ring member or a new leaf, and the last of these passes the address
check only where nothing is checked.
-/

namespace Unimem

open ByteMemory Memory LinkedRing WordArith MallocState DigitalTree LinkedTree

variable {base s s' : Store} {forest : Nat → BinaryTree SizeRing} {among : Nat → Prop}
  {L : TreeLinks} {I X S T K : Nat} {up : Option Nat} {side : Bool} {r : SizeRing}
  {way : List (Frame SizeRing)} {zero one tree : BinaryTree SizeRing}

/-! ## The descent -/

section Descent

variable (ground : Ground base among) (mirrors : Mirrors base among L s)

include ground mirrors

theorem descend_down {fuel : Nat} (here : among T) (differ : L.size T ≠ S)
    (digit : (K >>> (sizeTBitsize - sizeTOne)) &&& 1 = side.toNat) (below : L.child side T ≠ 0) :
    insertLargeChunk.descend X S (fuel + 1) (T, K) s =
      insertLargeChunk.descend X S fuel (L.child side T, shl64 K 1) s := by
  rw [insertLargeChunk.descend]
  simp only [Fuelled.bind_run, mirrors.chunksize ground here, digit,
    mirrors.child ground here side, run_ite, if_pos differ, if_pos below]

theorem descend_stop {fuel : Nat} (here : among T)
    (digit : (K >>> (sizeTBitsize - sizeTOne)) &&& 1 = side.toNat)
    (stops : L.size T = S ∨ L.child side T = 0) :
    insertLargeChunk.descend X S (fuel + 1) (T, K) s =
      insertLargeChunk.descend X S 1 (T, K) s := by
  rw [insertLargeChunk.descend, insertLargeChunk.descend]
  simp only [Fuelled.bind_run, mirrors.chunksize ground here, digit,
    mirrors.child ground here side, run_ite]
  by_cases same : L.size T = S
  · simp only [same, ne_eq, not_true_eq_false, if_false]
  · have empty : L.child side T = 0 := stops.resolve_left same
    simp only [empty, ne_eq, not_true_eq_false, if_false]

/-- Where the descent ends: no node on the way has the size. -/
theorem descend_reaches (linked : TreeAt SizeRing.chunk L.child (TreeNode L I) up tree)
    (seen : ∀ r ∈ items tree, among r.chunk ∧ r.chunk ≠ 0) (nonempty : tree ≠ .nil)
    (follows : Follows (keyDigit I S) way) (passes : ∀ frame ∈ way, frame.item.size ≠ S) :
    ∃ way' r zero one, plug way tree = plug way' (.node r zero one) ∧
      Follows (keyDigit I S) way' ∧ (∀ frame ∈ way', frame.item.size ≠ S) ∧
      (r.size = S ∨ (if keyDigit I S way'.length then one else zero) = .nil) ∧
      ∀ fuel ≥ tree.height, insertLargeChunk.descend X S fuel
          (root tree, sizebitsAt I S way.length) s =
        insertLargeChunk.descend X S 1 (r.chunk, sizebitsAt I S way'.length) s := by
  induction tree generalizing up way with
  | nil => exact absurd rfl nonempty
  | node r zero one ihZero ihOne =>
      obtain ⟨node, toZero, toOne, inZero, inOne⟩ := linked
      have here := (seen r (by simp)).1
      have size : L.size r.chunk = r.size := node.sized r.chunk (by simp)
      have digit := sizebitsAt_digit I S way.length
      have enough : ∀ fuel ≥ (BinaryTree.node r zero one).height, ∃ less, fuel = less + 1 ∧
          zero.height ≤ less ∧ one.height ≤ less := by
        intro fuel large
        simp only [BinaryTree.height] at large
        exact ⟨fuel - 1, by omega, by omega, by omega⟩
      by_cases stops : r.size = S ∨ (if keyDigit I S way.length then one else zero) = .nil
      · -- here the loop stops: the node of the size, or an empty slot below it
        refine ⟨way, r, zero, one, rfl, follows, passes, stops, fun fuel large => ?_⟩
        obtain ⟨less, rfl, -⟩ := enough fuel large
        refine descend_stop ground mirrors here digit (stops.imp size.trans fun empty => ?_)
        cases turn : keyDigit I S way.length with
        | true =>
            have isNil : one = .nil := by simpa [turn] using empty
            exact toOne.trans (by rw [isNil]; rfl)
        | false =>
            have isNil : zero = .nil := by simpa [turn] using empty
            exact toZero.trans (by rw [isNil]; rfl)
      · obtain ⟨differ, more⟩ := not_or.mp stops
        have passes' : ∀ (side : Bool) (other : BinaryTree SizeRing),
            ∀ frame ∈ (⟨r, side, other⟩ : Frame SizeRing) :: way, frame.item.size ≠ S := by
          intro side other frame member
          rcases List.mem_cons.mp member with rfl | outer
          · exact differ
          · exact passes frame outer
        cases turn : keyDigit I S way.length with
        | true =>
            have deeper : one ≠ .nil := by simpa [turn] using more
            have seen' : ∀ r ∈ items one, among r.chunk ∧ r.chunk ≠ 0 :=
              fun q member => seen q (by simp [member])
            have follows' : Follows (keyDigit I S) (⟨r, true, zero⟩ :: way) := ⟨turn, follows⟩
            obtain ⟨way', q, z, o, shape, onward, passes'', ends, run⟩ :=
              ihOne inOne seen' deeper follows' (passes' true zero)
            refine ⟨way', q, z, o, shape, onward, passes'', ends, fun fuel large => ?_⟩
            obtain ⟨less, rfl, -, fits⟩ := enough fuel large
            have below : L.child true r.chunk ≠ 0 := by
              rw [toOne]
              exact mt (root_eq_zero fun q member => (seen' q member).2).mp deeper
            rw [root, address_node, descend_down ground mirrors here (size.trans_ne differ)
              (digit.trans (congrArg Bool.toNat turn)) below, toOne, sizebitsAt_succ]
            exact run less fits
        | false =>
            have deeper : zero ≠ .nil := by simpa [turn] using more
            have seen' : ∀ r ∈ items zero, among r.chunk ∧ r.chunk ≠ 0 :=
              fun q member => seen q (by simp [member])
            have follows' : Follows (keyDigit I S) (⟨r, false, one⟩ :: way) := ⟨turn, follows⟩
            obtain ⟨way', q, z, o, shape, onward, passes'', ends, run⟩ :=
              ihZero inZero seen' deeper follows' (passes' false one)
            refine ⟨way', q, z, o, shape, onward, passes'', ends, fun fuel large => ?_⟩
            obtain ⟨less, rfl, fits, -⟩ := enough fuel large
            have below : L.child false r.chunk ≠ 0 := by
              rw [toZero]
              exact mt (root_eq_zero fun q member => (seen' q member).2).mp deeper
            rw [root, address_node, descend_down ground mirrors here (size.trans_ne differ)
              (digit.trans (congrArg Bool.toNat turn)) below, toZero, sizebitsAt_succ]
            exact run less fits

end Descent

/-- The descent passes every node of the size, so above an empty slot there is none. -/
theorem size_absent {frame : Frame SizeRing} {outer : List (Frame SizeRing)}
    (placed : Digital (fun r => keyDigit I r.size) 0 (plug (frame :: outer) .nil))
    (follows : Follows (keyDigit I S) (frame :: outer))
    (passes : ∀ frame' ∈ frame :: outer, frame'.item.size ≠ S) :
    ∀ q ∈ items (plug (frame :: outer) .nil), q.size ≠ S := by
  intro q member same
  have aligned := (digital_plug.mp placed).2.2
  have passed_ : q ∈ passed (frame :: outer) := by
    have moved := (items_plug (frame :: outer) .nil).mem_iff.mp member
    simpa using moved
  clear member placed
  generalize frame :: outer = way at follows passes aligned passed_
  induction way with
  | nil => simp at passed_
  | cons first rest ih =>
      rw [passed_cons, List.mem_append] at passed_
      rcases passed_ with here | further
      · rcases List.mem_cons.mp here with rfl | beside
        · exact passes first (by simp) same
        · -- the other side of a node on the way has the other digit
          have turned : keyDigit I q.size rest.length = !first.side := aligned.1 q beside
          rw [same, follows.1] at turned
          cases turn : first.side <;> simp [turn] at turned
      · exact ih follows.2 (fun frame' inside => passes frame' (by simp [inside])) aligned.2.2.2
          further

/-- What the descent stopped above, if not at a node of the size. -/
theorem empty_slot (placed : Digital (fun r => keyDigit I r.size) 0 (plug way (.node r zero one)))
    (follows : Follows (keyDigit I S) way) (passes : ∀ frame ∈ way, frame.item.size ≠ S)
    (differ : r.size ≠ S) (empty : (if keyDigit I S way.length then one else zero) = .nil) :
    ∃ frame, frame.item = r ∧ frame.side = keyDigit I S way.length ∧
      plug way (.node r zero one) = plug (frame :: way) .nil ∧
      Follows (keyDigit I S) (frame :: way) ∧
      ∀ q ∈ items (plug way (.node r zero one)), q.size ≠ S := by
  have passes' : ∀ (side : Bool) (other : BinaryTree SizeRing),
      ∀ frame ∈ (⟨r, side, other⟩ : Frame SizeRing) :: way, frame.item.size ≠ S := by
    intro side other frame member
    rcases List.mem_cons.mp member with rfl | outer
    · exact differ
    · exact passes frame outer
  cases turn : keyDigit I S way.length with
  | true =>
      obtain rfl : one = .nil := by simpa [turn] using empty
      have follows' : Follows (keyDigit I S) (⟨r, true, zero⟩ :: way) := ⟨turn, follows⟩
      exact ⟨⟨r, true, zero⟩, rfl, rfl, rfl, follows',
        size_absent placed follows' (passes' true zero)⟩
  | false =>
      obtain rfl : zero = .nil := by simpa [turn] using empty
      have follows' : Follows (keyDigit I S) (⟨r, false, one⟩ :: way) := ⟨turn, follows⟩
      exact ⟨⟨r, false, one⟩, rfl, rfl, rfl, follows',
        size_absent placed follows' (passes' false one)⟩

/-! ## What is written -/

namespace TreeLinks

/-- The fields of the chunk to insert, before it gets its place. -/
def cleared (L : TreeLinks) (X I : Nat) : TreeLinks :=
  ((L.set .index X I).set .one X 0).set .zero X 0

def rooted (L : TreeLinks) (X I : Nat) : TreeLinks :=
  ((((L.setMap (L.treemap ||| idx2bit I)).setBin I X).set .parent X X).set .bk X X).set .fd X X

def joined (L : TreeLinks) (X T : Nat) : TreeLinks :=
  ((((L.set .bk (L.field .fd T) X).set .fd T X).set .fd X (L.field .fd T)).set .bk X T).set
    .parent X 0

def hung (L : TreeLinks) (X T : Nat) (side : Bool) : TreeLinks :=
  (((L.set (Field.child side) T X).set .parent X T).set .bk X X).set .fd X X

variable {L : TreeLinks} {X I T p : Nat} {f : Field} {side : Bool}

@[simp] theorem cleared_size : (L.cleared X I).size = L.size := rfl
@[simp] theorem cleared_treebins : (L.cleared X I).treebins = L.treebins := rfl
@[simp] theorem cleared_treemap : (L.cleared X I).treemap = L.treemap := rfl

theorem cleared_other (other : p ≠ X) (f : Field) :
    (L.cleared X I).field f p = L.field f p := by
  simp [cleared, other]

theorem cleared_own : (L.cleared X I).field .index X = I ∧
    ∀ side, (L.cleared X I).child side X = 0 := by
  refine ⟨by simp [cleared], fun side => ?_⟩
  cases side <;> simp [cleared]

end TreeLinks

section Writes

variable (ground : Ground base among) (here : among X)

include ground here

theorem insertLargeChunk_cleared :
    ∃ s₁, Mirrors base among (base.treeLinks.cleared X (computeTreeIndex S)) s₁ ∧
      ∀ fuel, insertLargeChunk fuel X S base =
        (if base.gm.treemap &&& idx2bit (computeTreeIndex S) = 0 then do
          markTreemap (computeTreeIndex S)
          setTreebin (computeTreeIndex S) X
          TreeChunk.setParent X (← treebin (computeTreeIndex S))
          Chunk.setBk X X
          Chunk.setFd X X
        else do
          insertLargeChunk.descend X S fuel (← treebin (computeTreeIndex S),
            shl64 S (leftshiftForTreeIndex (computeTreeIndex S)))) s₁ := by
  have bound := computeTreeIndex_lt S
  obtain ⟨a, ranA, mirrorsA⟩ := Shows.setIndex (v := computeTreeIndex S) ground
    (Mirrors.refl base among) here (by omega)
  obtain ⟨b, ranB, mirrorsB⟩ := Shows.setChild (v := 0) ground mirrorsA here true (by omega)
  obtain ⟨c, ranC, mirrorsC⟩ := Shows.setChild (v := 0) ground mirrorsB here false (by omega)
  refine ⟨c, mirrorsC, fun fuel => ?_⟩
  have ranB' : TreeChunk.setChild X 1 0 a = .ok () b := ranB
  have ranC' : TreeChunk.setChild X 0 0 b = .ok () c := ranC
  have marked := mirrorsC.treemapIsMarked (computeTreeIndex S)
  rw [insertLargeChunk]
  simp only [Fuelled.bind_run, ranA, ranB', ranC', marked, run_ite]
  rfl

theorem root_run_links (mirrors : Mirrors base among L s) :
    Shows base among (do
        markTreemap I
        setTreebin I X
        TreeChunk.setParent X (← treebin I)
        Chunk.setBk X X
        Chunk.setFd X X) s () (L.rooted X I) := by
  have fits := (ground.reach X here).1
  refine Shows.bind (Shows.markTreemap mirrors) fun a mirrors => ?_
  refine Shows.bind (Shows.setTreebin mirrors) fun b mirrors => ?_
  have atRoot := mirrors.treebin I
  rw [TreeLinks.setBin_treebins, Function.update_self] at atRoot
  refine Shows.read atRoot ?_
  refine Shows.bind (Shows.setParent ground mirrors here (by omega)) fun c mirrors => ?_
  refine Shows.bind (Shows.setBk ground mirrors here (by omega)) fun d mirrors => ?_
  exact Shows.setFd ground mirrors here (by omega)

theorem join_run (mirrors : Mirrors base among L s) (hereT : among T)
    (hereF : among (L.field .fd T)) (same : L.size T = S) (okT : base.gm.leastAddr ≤ T)
    (okF : base.gm.leastAddr ≤ L.field .fd T) :
    Shows base among (insertLargeChunk.descend X S 1 (T, K)) s () (L.joined X T) := by
  have fitsX := (ground.reach X here).1
  have fitsT := (ground.reach T hereT).1
  have fitsF := (ground.reach _ hereF).1
  have check : (okAddress T <&&> okAddress (L.field .fd T)) s = .ok true s := by
    simp only [run_andM, mirrors.okAddress, ge_iff_le, okT, okF, decide_true]
  rw [insertLargeChunk.descend]
  refine Shows.read (mirrors.chunksize ground hereT) ?_
  rw [if_neg (not_not.mpr same)]
  refine Shows.read (mirrors.fd ground hereT) (Shows.read check ?_)
  rw [if_pos rfl]
  refine Shows.bind (Shows.setBk ground mirrors hereF (by omega)) fun a mirrors => ?_
  refine Shows.bind (Shows.setFd ground mirrors hereT (by omega)) fun b mirrors => ?_
  refine Shows.bind (Shows.setFd ground mirrors here (by omega)) fun c mirrors => ?_
  refine Shows.bind (Shows.setBk ground mirrors here (by omega)) fun d mirrors => ?_
  exact Shows.setParent ground mirrors here (by omega)

/-- The check looks at the empty slot, and passes where every address does. -/
theorem hang_run (mirrors : Mirrors base among L s) (hereT : among T) (differ : L.size T ≠ S)
    (digit : (K >>> (sizeTBitsize - sizeTOne)) &&& 1 = side.toNat) (empty : L.child side T = 0) :
    (base.gm.leastAddr = 0 →
      Shows base among (insertLargeChunk.descend X S 1 (T, K)) s () (L.hung X T side)) ∧
      (base.gm.leastAddr ≠ 0 →
        insertLargeChunk.descend X S 1 (T, K) s = .error .corrupted s) := by
  have fitsX := (ground.reach X here).1
  have fitsT := (ground.reach T hereT).1
  have slot := mirrors.child ground hereT side
  rw [empty] at slot
  constructor
  · intro zero
    have check : okAddress 0 s = .ok true s := by
      rw [mirrors.okAddress, zero]
      rfl
    rw [insertLargeChunk.descend]
    refine Shows.read (mirrors.chunksize ground hereT) ?_
    rw [if_pos differ, digit]
    refine Shows.read slot ?_
    rw [if_neg (fun absent => absent rfl)]
    refine Shows.read check ?_
    rw [if_pos rfl]
    refine Shows.bind (Shows.setChild ground mirrors hereT side (by omega)) fun a mirrors => ?_
    refine Shows.bind (Shows.setParent ground mirrors here (by omega)) fun b mirrors => ?_
    refine Shows.bind (Shows.setBk ground mirrors here (by omega)) fun c mirrors => ?_
    exact Shows.setFd ground mirrors here (by omega)
  · intro nonzero
    have check : okAddress 0 s = .ok false s := by
      rw [mirrors.okAddress, decide_eq_false (by omega)]
    rw [insertLargeChunk.descend]
    simp only [Fuelled.bind_run, mirrors.chunksize ground hereT, run_ite, if_pos differ, digit, slot,
      ne_eq, not_true_eq_false, if_false, check, Bool.false_eq_true, run_throw]

end Writes

/-! ## The three ways to end -/

section Endings

variable {frame : Frame SizeRing} {outer : List (Frame SizeRing)}

theorem root_newBin (tries : Tries s forest) (room : Room s forest X)
    (sized : s.treeLinks.size X = S) (large : minLargeSize ≤ S) (index : computeTreeIndex S = I) :
    NewBin s forest I X ((s.treeLinks.cleared X I).rooted X I) (.node ⟨S, X, []⟩ .nil .nil) := by
  have bound : I < 32 := index ▸ computeTreeIndex_lt S
  obtain ⟨notNull, -⟩ := room.mapped
  obtain ⟨ownIndex, ownChild⟩ := TreeLinks.cleared_own (L := s.treeLinks) (X := X) (I := I)
  refine ⟨mark_lt tries.bits bound, fun i _ => ?_, fun i _ => ?_, ?_, ?_, ?_, ?_, ?_⟩
  · have marked := testBit_mark (x := s.gm.treemap) bound i
    refine marked.trans ?_
    by_cases here : i = I
    · simp [here, notNull]
    · simp [here, Ne.symm here]
  · simp only [TreeLinks.rooted, TreeLinks.set_treebins, TreeLinks.setBin_treebins,
      Function.update_apply, address_node]
    rfl
  · refine ⟨⟨⟨?_, ?_⟩, ?_, ?_, ?_, ?_⟩, ?_, ?_, trivial, trivial⟩
    · exact ⟨by simp [TreeLinks.rooted], by simp [TreeLinks.rooted]⟩
    · intro p member
      obtain rfl : p = X := by simpa using member
      exact sized
    · exact List.nodup_singleton X
    · intro p member
      obtain rfl : p = X := by simpa using member
      simpa [TreeLinks.rooted] using ownIndex
    · simpa [TreeLinks.rooted] using notNull
    · simp
    · simpa [TreeLinks.rooted] using ownChild false
    · simpa [TreeLinks.rooted] using ownChild true
  · intro p member
    exact Or.inl (by simpa [SizeRing.chunks] using member)
  · exact ⟨by simp, by simp, trivial, trivial⟩
  · intro r member
    obtain rfl : r = ⟨S, X, []⟩ := by simpa using member
    exact ⟨large, index⟩
  · simp

theorem joined_other {L : TreeLinks} {p : Nat} (notX : p ≠ X) (notT : p ≠ T)
    (notF : p ≠ L.field .fd T) (f : Field) : (L.joined X T).field f p = L.field f p := by
  simp [TreeLinks.joined, notX, notT, notF]

/-- The chunk behind a node on its ring. -/
theorem next_mem {L : TreeLinks} (node : TreeNode L I up r) (fresh : X ∉ r.chunks) :
    (L.cleared X I).field .fd r.chunk ∈ r.chunks := by
  have notX : r.chunk ≠ X := fun same => fresh (by simp [← same])
  rw [TreeLinks.cleared_other notX, (ring_header node.ring).1]
  cases shape : r.mates with
  | nil => simp
  | cons first rest => simp [shape]

/-- The node's ring with `X` behind the node. -/
theorem join_node {L : TreeLinks} (node : TreeNode L I up r) (fresh : X ∉ r.chunks)
    (sized : L.size X = r.size) :
    TreeNode ((L.cleared X I).joined X r.chunk) I up ⟨r.size, r.chunk, X :: r.mates⟩ := by
  obtain ⟨next, -, -, -⟩ := ring_header node.ring
  have notT : r.chunk ≠ X := fun same => fresh (by simp [← same])
  have notMate : ∀ p ∈ r.mates, p ≠ X := by
    rintro p member rfl
    exact fresh (by simp [member])
  have nodup := node.nodup
  have atT : ∀ p ∈ r.mates, p ≠ r.chunk := by
    rintro p member rfl
    exact (List.nodup_cons.mp nodup).1 member
  have forth : (L.cleared X I).field .fd r.chunk = r.mates.headD r.chunk := by
    rw [TreeLinks.cleared_other notT, next]
  -- the ring's second chunk is written to as well: the header when alone
  have notF : r.mates.headD r.chunk ≠ X := by
    cases shape : r.mates with
    | nil => exact notT
    | cons first rest => exact notMate first (by simp [shape])
  have notX : ∀ p ∈ r.chunks, p ≠ X := by
    rintro p member rfl
    exact fresh member
  have kept : ∀ p ∈ r.chunks, ∀ f, (L.cleared X I).field f p = L.field f p :=
    fun p member f => TreeLinks.cleared_other (notX p member) f
  obtain ⟨ownIndex, ownChild⟩ := TreeLinks.cleared_own (L := L) (X := X) (I := I)
  have sizes : (L.cleared X I).size = L.size := rfl
  generalize L.cleared X I = C at forth kept ownIndex ownChild sizes ⊢
  generalize atF : r.mates.headD r.chunk = F at forth notF
  refine ⟨⟨?_, fun p member => ?_⟩, ?_, fun p member => ?_, ?_, fun p member => ?_⟩
  · refine ring_insert nodup (by simpa using fresh) (fun _ => node.ring) ?_ ?_ ?_ ?_ ?_ ?_
    · simp [TreeLinks.joined, notT]
    · simp [TreeLinks.joined]
    · rw [atF]
      simp [TreeLinks.joined, forth]
    · rw [atF]
      simp [TreeLinks.joined, forth, notF]
    · intro p member
      simp [TreeLinks.joined, notMate p member, atT p member, kept p (by simp [member])]
    · intro p member away
      rw [atF] at away
      simp [TreeLinks.joined, forth, away, notX p member, kept p member]
  · simp only [SizeRing.mem_chunks, List.mem_cons] at member
    have size : C.size p = r.size := by
      rw [sizes]
      rcases member with rfl | rfl | inside
      · exact node.sized _ (by simp)
      · exact sized
      · exact node.sized p (by simp [inside])
    exact size
  · refine List.nodup_cons.mpr ⟨?_, List.nodup_cons.mpr ⟨fun inside => ?_, ?_⟩⟩
    · simp only [List.mem_cons, not_or]
      exact ⟨notT, (List.nodup_cons.mp nodup).1⟩
    · exact notMate X inside rfl
    · exact (List.nodup_cons.mp nodup).2
  · simp only [SizeRing.mem_chunks, List.mem_cons] at member
    have index : C.field .index p = I := by
      rcases member with rfl | rfl | inside
      · rw [kept _ (by simp), node.index _ (by simp)]
      · exact ownIndex
      · rw [kept p (by simp [inside]), node.index p (by simp [inside])]
    simpa [TreeLinks.joined] using index
  · have parent := node.parent
    have same : (C.joined X r.chunk).field .parent r.chunk = L.field .parent r.chunk := by
      simp [TreeLinks.joined, notT, kept r.chunk (by simp)]
    cases up with
    | none => simpa only [same] using parent
    | some q => simpa only [same] using parent
  · rcases List.mem_cons.mp member with rfl | inside
    · refine ⟨by simp [TreeLinks.joined], fun side => ?_⟩
      have own := ownChild side
      cases side <;> simpa [TreeLinks.joined, TreeLinks.child] using own
    · obtain ⟨orphan, childless⟩ := node.mate p inside
      refine ⟨?_, fun side => ?_⟩
      · simp [TreeLinks.joined, notMate p inside, kept p (by simp [inside]), orphan]
      · have none := childless side
        rw [TreeLinks.child, ← kept p (by simp [inside])] at none
        cases side <;> simpa [TreeLinks.joined, TreeLinks.child] using none

theorem join_chunks (shape : forest I = plug way (.node r zero one)) :
    (chunks (plug way (.node ⟨r.size, r.chunk, X :: r.mates⟩ zero one))).Perm
      (X :: chunks (forest I)) := by
  rw [shape]
  refine (chunks_plug_node way zero one).trans (List.Perm.trans ?_
    ((chunks_plug_node way zero one).symm.cons X))
  exact List.Perm.swap X r.chunk _

/-- The chunks beside a ring are not in it. -/
theorem beside_ring (tries : Tries s forest) (fresh : X ∉ chunks (forest I))
    (shape : forest I = plug way (.node r zero one)) {p : Nat}
    (member : p ∈ chunksOf (passed way) ++ (chunks zero ++ chunks one)) :
    p ≠ X ∧ ∀ q ∈ r.chunks, p ≠ q := by
  have moved := chunks_plug_node (r := r) way zero one
  rw [← shape] at moved
  have nodup := moved.nodup_iff.mp (tries.nodup I)
  have inside : p ∈ chunks (forest I) := moved.mem_iff.mpr (List.mem_append_right _ member)
  refine ⟨fun same => fresh (same ▸ inside), ?_⟩
  rintro q there rfl
  exact (List.nodup_append.mp nodup).2.2 p there p member rfl

theorem join_newBin (tries : Tries s forest) (fresh : X ∉ chunks (forest I)) (bound : I < 32)
    (shape : forest I = plug way (.node r zero one)) (sized : s.treeLinks.size X = r.size) :
    NewBin s forest I X ((s.treeLinks.cleared X I).joined X r.chunk)
      (plug way (.node ⟨r.size, r.chunk, X :: r.mates⟩ zero one)) := by
  have linked := tries.linked I
  have placed := tries.placed I
  rw [shape] at linked placed
  obtain ⟨framed, node, toZero, toOne, inZero, inOne⟩ := treeAt_plug.mp linked
  have sameSize : SizeRing.size ⟨r.size, r.chunk, X :: r.mates⟩ = r.size := rfl
  have sizes := sizes_same zero one way sameSize
  rw [← shape] at sizes
  have inBin : r ∈ items (forest I) := shape ▸ (items_plug way _).mem_iff.mpr (by simp)
  have freshHere : X ∉ r.chunks := fun inside => fresh (mem_chunks.mpr ⟨r, inBin, inside⟩)
  have notX : r.chunk ≠ X := fun same => freshHere (by simp [← same])
  -- the chunk written besides X and r is the next one of the ring
  have next := next_mem node freshHere
  have kept : ∀ p ∈ chunksOf (passed way) ++ (chunks zero ++ chunks one), ∀ f,
      ((s.treeLinks.cleared X I).joined X r.chunk).field f p = s.treeLinks.field f p := by
    intro p member f
    obtain ⟨away, apart⟩ := beside_ring tries fresh shape member
    rw [joined_other away (apart _ (by simp)) (apart _ next), TreeLinks.cleared_other away]
  have same : ∀ side, ((s.treeLinks.cleared X I).joined X r.chunk).child side r.chunk =
      s.treeLinks.child side r.chunk := by
    intro side
    have own := TreeLinks.cleared_other (L := s.treeLinks) (I := I) notX (Field.child side)
    cases side <;> simpa [TreeLinks.joined, TreeLinks.child] using own
  have nonempty : forest I ≠ .nil := by
    intro none
    simp [none] at inBin
  have sameRoot : root (plug way (.node ⟨r.size, r.chunk, X :: r.mates⟩ zero one)) =
      root (forest I) := by
    rw [shape]
    exact address_plug_same way rfl
  have bin := tries.kept_bin bound nonempty sameRoot
  refine ⟨tries.bits, fun i _ => (bin i).1, fun i _ => (bin i).2, ?_, fun p member => ?_, ?_, ?_, ?_⟩
  · refine treeAt_plug.mpr ⟨framed_kept framed rfl fun p member => ?_,
      join_node node freshHere sized,
      (same false).trans toZero, (same true).trans toOne, treeAt_kept inZero rfl fun p member => ?_,
      treeAt_kept inOne rfl fun p member => ?_⟩
    · exact kept p (List.mem_append_left _ member)
    · exact kept p (List.mem_append_right _ (List.mem_append_left _ member))
    · exact kept p (List.mem_append_right _ (List.mem_append_right _ member))
  · exact List.mem_cons.mp ((join_chunks shape).mem_iff.mp member)
  · exact placed_same sameSize placed
  · exact sizes_hold (fun size => minLargeSize ≤ size ∧ computeTreeIndex size = I) sizes.subset
      (tries.sized I)
  · exact sizes.nodup_iff.mpr (tries.distinct I)

theorem hung_other {L : TreeLinks} {p : Nat} {f : Field} (notX : p ≠ X)
    (unwritten : ¬ (f = Field.child side ∧ p = T)) :
    ((L.cleared X I).hung X T side).field f p = L.field f p := by
  have own := TreeLinks.cleared_other (L := L) (I := I) notX f
  simp [TreeLinks.hung, notX, unwritten, own]

theorem hung_leaf {L : TreeLinks} (sized : L.size X = S) (notX : T ≠ X) :
    TreeAt SizeRing.chunk ((L.cleared X I).hung X T side).child
      (TreeNode ((L.cleared X I).hung X T side) I) (some T) (.node ⟨S, X, []⟩ .nil .nil) := by
  obtain ⟨ownIndex, ownChild⟩ := TreeLinks.cleared_own (L := L) (X := X) (I := I)
  have childless : ∀ turn, ((L.cleared X I).hung X T side).child turn X = 0 := by
    intro turn
    have own := ownChild turn
    rw [TreeLinks.child] at own ⊢
    cases turn <;> simpa [TreeLinks.hung, Ne.symm notX] using own
  refine ⟨⟨⟨⟨?_, ?_⟩, fun p member => ?_⟩, List.nodup_singleton X, fun p member => ?_, ?_,
    by simp⟩, childless false, childless true, trivial, trivial⟩
  · simp [TreeLinks.hung]
  · simp [TreeLinks.hung]
  · obtain rfl : p = X := by simpa using member
    exact sized
  · obtain rfl : p = X := by simpa using member
    cases side <;> simpa [TreeLinks.hung] using ownIndex
  · cases side <;> simp [TreeLinks.hung]

theorem hang_newBin (tries : Tries s forest) (fresh : X ∉ chunks (forest I)) (bound : I < 32)
    (shape : forest I = plug (frame :: outer) .nil) (sized : s.treeLinks.size X = S)
    (large : minLargeSize ≤ S) (index : computeTreeIndex S = I)
    (follows : Follows (keyDigit I S) (frame :: outer))
    (absent : ∀ q ∈ items (forest I), q.size ≠ S) :
    NewBin s forest I X ((s.treeLinks.cleared X I).hung X frame.item.chunk frame.side)
      (plug (frame :: outer) (.node ⟨S, X, []⟩ .nil .nil)) := by
  have linked := tries.linked I
  have placed := tries.placed I
  rw [shape] at linked placed
  have framed := (treeAt_plug.mp linked).1
  obtain ⟨-, -, aligned⟩ := digital_plug.mp placed
  have moved := items_plug (frame :: outer) .nil
  have moved' := items_plug (frame :: outer) (.node ⟨S, X, []⟩ .nil .nil)
  rw [← shape] at moved
  have members : chunksOf (passed (frame :: outer)) = chunksOf (passed (frame :: outer) ++ []) := by
    rw [List.append_nil]
  have inChunks : ∀ p, p ∈ chunksOf (passed (frame :: outer)) ↔ p ∈ chunks (forest I) := by
    intro p
    rw [members]
    exact (moved.flatMap_right SizeRing.chunks).mem_iff.symm
  have notX : ∀ p ∈ chunksOf (passed (frame :: outer)), p ≠ X := by
    rintro p member rfl
    exact fresh ((inChunks p).mp member)
  have atFrame : frame.item.chunk ∈ chunksOf (passed (frame :: outer)) := by
    simp [Frame.members]
  have nodup : (chunksOf (passed (frame :: outer))).Nodup := by
    rw [members]
    exact (moved.flatMap_right SizeRing.chunks).nodup_iff.mp (tries.nodup I)
  -- a frame above the slot means the root stays in place
  have nonempty : forest I ≠ .nil := by
    intro none
    simpa [none, chunks] using (inChunks _).mp atFrame
  have sameRoot : root (plug (frame :: outer) (.node ⟨S, X, []⟩ .nil .nil)) =
      root (forest I) := by
    rw [shape]
    exact address_plug_same outer (by rw [address_fill, address_fill])
  have bin := tries.kept_bin bound nonempty sameRoot
  refine ⟨tries.bits, fun i _ => (bin i).1, fun i _ => (bin i).2, ?_, fun p member => ?_, ?_, ?_, ?_⟩
  · refine treeAt_plug.mpr ⟨framed_relinked framed nodup rfl ?_ fun p member f unwritten => ?_,
      hung_leaf sized (notX _ atFrame)⟩
    · rw [TreeLinks.child]
      cases frame.side <;> simp [TreeLinks.hung, notX _ atFrame]
    · exact hung_other (notX p member) unwritten
  · rcases List.mem_append.mp ((chunks_plug _ _).mem_iff.mp member) with outside | here
    · exact Or.inr ((inChunks p).mp outside)
    · exact Or.inl (by simpa [SizeRing.chunks] using here)
  · refine digital_plug.mpr ⟨⟨by simp, by simp, trivial, trivial⟩, fun q member => ?_, aligned⟩
    obtain rfl : q = ⟨S, X, []⟩ := by simpa using member
    exact follows
  · intro q member
    rcases List.mem_append.mp (moved'.mem_iff.mp member) with outside | here
    · exact tries.sized I q (moved.mem_iff.mpr (List.mem_append_left _ outside))
    · obtain rfl : q = ⟨S, X, []⟩ := by simpa using here
      exact ⟨large, index⟩
  · rw [(moved'.map SizeRing.size).nodup_iff]
    have distinct := (moved.map SizeRing.size).nodup_iff.mp (tries.distinct I)
    have outside : ∀ q ∈ passed (frame :: outer), q.size ≠ S :=
      fun q member => absent q (moved.mem_iff.mpr (List.mem_append_left _ member))
    simp only [items_nil, List.append_nil] at distinct
    simp only [items_node, items_nil, List.append_nil, List.map_append, List.map_cons, List.map_nil]
    refine List.nodup_append.mpr ⟨distinct, by simp, ?_⟩
    rintro size member size' here rfl
    obtain ⟨q, there, same⟩ := List.mem_map.mp member
    exact outside q there (same.trans (by simpa using here))

theorem hang_chunks (shape : forest I = plug way .nil) :
    (chunks (plug way (.node ⟨S, X, []⟩ .nil .nil))).Perm (X :: chunks (forest I)) := by
  have moved := chunks_plug way (.nil : BinaryTree SizeRing)
  rw [chunks_nil, List.append_nil] at moved
  rw [shape]
  refine (chunks_plug way _).trans (List.Perm.trans ?_ (moved.symm.cons X))
  simp [SizeRing.chunks]

end Endings

/-! ## insert_large_chunk -/

/-- Insertion returns, and bin compute_tree_index(S) holds `X` as well, nothing else changed. -/
def Inserted (s : Store) (forest : Nat → BinaryTree SizeRing) (X S fuel : Nat) : Prop :=
  ∃ s' tree, insertLargeChunk fuel X S s = .ok () s' ∧
    (chunks tree).Perm (X :: chunks (forest (computeTreeIndex S))) ∧
    Rebinned s forest (computeTreeIndex S) X tree s'

section Insert

variable (tries : Tries s forest) (room : Room s forest X) (fresh : ∀ i, X ∉ chunks (forest i))

include tries room fresh

theorem insert_root (sized : s.treeLinks.size X = S) (large : minLargeSize ≤ S)
    (empty : forest (computeTreeIndex S) = .nil) :
    ∃ s', Rebinned s forest (computeTreeIndex S) X (.node ⟨S, X, []⟩ .nil .nil) s' ∧
      ∀ fuel, insertLargeChunk fuel X S s = .ok () s' := by
  have bound := computeTreeIndex_lt S
  have ground := tries.ground room (computeTreeIndex S)
  have here : Tries.Touched forest (computeTreeIndex S) X X := Or.inl rfl
  have clear : s.gm.treemap &&& idx2bit (computeTreeIndex S) = 0 := by
    rw [marked_iff bound, Bool.eq_false_iff, Ne, tries.marked _ bound, tries.rooted _ bound, empty]
    simp
  obtain ⟨s₁, mirrors, run⟩ := insertLargeChunk_cleared (S := S) ground here
  obtain ⟨s', ran, mirrors'⟩ := root_run_links (I := computeTreeIndex S) ground here mirrors
  refine ⟨s', (root_newBin tries room sized large rfl).rebinned tries room mirrors'
    fun j _ => fresh j, fun fuel => ?_⟩
  rw [run fuel, if_pos clear]
  exact ran

/-- Below a root, everything is decided by the node the descent ends at. -/
theorem insert_descends (nonempty : forest (computeTreeIndex S) ≠ .nil) :
    ∃ s₁ way r zero one,
      Mirrors s (Tries.Touched forest (computeTreeIndex S) X)
        (s.treeLinks.cleared X (computeTreeIndex S)) s₁ ∧
      forest (computeTreeIndex S) = plug way (.node r zero one) ∧
      Follows (keyDigit (computeTreeIndex S) S) way ∧ (∀ frame ∈ way, frame.item.size ≠ S) ∧
      (r.size = S ∨ (if keyDigit (computeTreeIndex S) S way.length then one else zero) = .nil) ∧
      ∀ fuel ≥ (forest (computeTreeIndex S)).height, insertLargeChunk fuel X S s =
        insertLargeChunk.descend X S 1
          (r.chunk, sizebitsAt (computeTreeIndex S) S way.length) s₁ := by
  have bound := computeTreeIndex_lt S
  have ground := tries.ground room (computeTreeIndex S)
  have here : Tries.Touched forest (computeTreeIndex S) X X := Or.inl rfl
  have mapped : ∀ r ∈ items (forest (computeTreeIndex S)), r.chunk ≠ 0 :=
    fun r member => (tries.mapped _ _ (chunk_mem member)).1
  have set : ¬ s.gm.treemap &&& idx2bit (computeTreeIndex S) = 0 := by
    rw [marked_iff bound, Bool.not_eq_false, tries.marked _ bound, tries.rooted _ bound]
    exact mt (root_eq_zero mapped).mp nonempty
  obtain ⟨s₁, mirrors, run⟩ := insertLargeChunk_cleared (S := S) ground here
  have kept : ∀ p ∈ chunks (forest (computeTreeIndex S)), ∀ f,
      (s.treeLinks.cleared X (computeTreeIndex S)).field f p = s.treeLinks.field f p :=
    fun p member f => TreeLinks.cleared_other (fun same => fresh _ (same ▸ member)) f
  have linked := treeAt_kept (tries.linked (computeTreeIndex S))
    (TreeLinks.cleared_size (X := X) (I := computeTreeIndex S)) kept
  have atRoot := mirrors.treebin (computeTreeIndex S)
  rw [TreeLinks.cleared_treebins] at atRoot
  have rooted : s.treeLinks.treebins (computeTreeIndex S) = root (forest (computeTreeIndex S)) :=
    tries.rooted _ bound
  have outset : Follows (keyDigit (computeTreeIndex S) S) ([] : List (Frame SizeRing)) := trivial
  obtain ⟨way, r, zero, one, shape, follows, passes, stops, descent⟩ :=
    descend_reaches ground mirrors linked
      (fun r member => ⟨Or.inr (chunk_mem member), mapped r member⟩) nonempty outset (by simp)
  refine ⟨s₁, way, r, zero, one, mirrors, shape, follows, passes, stops, fun fuel large => ?_⟩
  have onward := descent fuel large
  rw [List.length_nil, sizebitsAt_zero, ← rooted] at onward
  rw [run fuel, if_neg set, Fuelled.bind_run, atRoot]
  exact onward

/-- A node of the size takes the chunk into its ring. -/
theorem insert_ring (sized : s.treeLinks.size X = S)
    (known : ∃ r ∈ items (forest (computeTreeIndex S)), r.size = S) :
    ∃ enough, ∀ fuel ≥ enough, Inserted s forest X S fuel := by
  have nonempty : forest (computeTreeIndex S) ≠ .nil := by
    intro none
    simp [none] at known
  obtain ⟨s₁, way, r, zero, one, mirrors, shape, follows, passes, stops, run⟩ :=
    insert_descends tries room fresh nonempty
  have member : r ∈ items (forest (computeTreeIndex S)) :=
    shape ▸ (items_plug way _).mem_iff.mpr (by simp)
  have size : r.size = S := by
    by_contra differ
    have placed := tries.placed (computeTreeIndex S)
    rw [shape] at placed
    obtain ⟨frame, -, -, -, -, absent⟩ := empty_slot placed follows passes differ
      (stops.resolve_left differ)
    obtain ⟨q, inside, same⟩ := known
    exact absent q (shape ▸ inside) same
  obtain ⟨up, node⟩ := tries.node member
  have freshHere : X ∉ r.chunks :=
    fun inside => fresh _ (mem_chunks.mpr ⟨r, member, inside⟩)
  have inBin : ∀ p ∈ r.chunks, p ∈ chunks (forest (computeTreeIndex S)) :=
    fun p inside => mem_chunks.mpr ⟨r, member, inside⟩
  have next := next_mem (I := computeTreeIndex S) node freshHere
  obtain ⟨s', ran, mirrors'⟩ := join_run (K := sizebitsAt (computeTreeIndex S) S way.length)
    (tries.ground room _) (Or.inl rfl) mirrors (Or.inr (inBin r.chunk (by simp)))
    (Or.inr (inBin _ next)) ((node.sized r.chunk (by simp)).trans size)
    (tries.least _ _ (inBin r.chunk (by simp))) (tries.least _ _ (inBin _ next))
  have new := join_newBin tries (fresh _) (computeTreeIndex_lt S) shape (sized.trans size.symm)
  refine ⟨(forest (computeTreeIndex S)).height, fun fuel large => ?_⟩
  exact ⟨s', _, (run fuel large).trans ran, join_chunks shape,
    new.rebinned tries room mirrors' fun j _ => fresh j⟩

/-- Where no node has the size, the check of the empty slot decides. -/
theorem insert_leaf (sized : s.treeLinks.size X = S) (large : minLargeSize ≤ S)
    (nonempty : forest (computeTreeIndex S) ≠ .nil)
    (absent : ¬ ∃ r ∈ items (forest (computeTreeIndex S)), r.size = S) :
    (s.gm.leastAddr = 0 → ∃ enough, ∀ fuel ≥ enough, Inserted s forest X S fuel) ∧
      (s.gm.leastAddr ≠ 0 → ∃ s', ∀ fuel ≥ (forest (computeTreeIndex S)).height,
        insertLargeChunk fuel X S s = .error .corrupted s') := by
  obtain ⟨s₁, way, r, zero, one, mirrors, shape, follows, passes, stops, run⟩ :=
    insert_descends tries room fresh nonempty
  have member : r ∈ items (forest (computeTreeIndex S)) :=
    shape ▸ (items_plug way _).mem_iff.mpr (by simp)
  have differ : r.size ≠ S := fun same => absent ⟨r, member, same⟩
  have placed := tries.placed (computeTreeIndex S)
  rw [shape] at placed
  obtain ⟨frame, rfl, turn, shape', follows', absent'⟩ := empty_slot placed follows passes differ
    (stops.resolve_left differ)
  rw [← shape] at shape' absent'
  obtain ⟨up, node⟩ := tries.node member
  have atNode := chunk_mem member
  have notX : frame.item.chunk ≠ X := fun same => fresh _ (same ▸ atNode)
  have empty : (s.treeLinks.cleared X (computeTreeIndex S)).child frame.side frame.item.chunk = 0 := by
    have linked := tries.linked (computeTreeIndex S)
    rw [shape', treeAt_plug] at linked
    exact (TreeLinks.cleared_other notX _).trans linked.1.2.1
  have digit := sizebitsAt_digit (computeTreeIndex S) S way.length
  rw [← turn] at digit
  obtain ⟨passing, failing⟩ := hang_run (tries.ground room _) (Or.inl rfl) mirrors (Or.inr atNode)
    ((node.sized frame.item.chunk (by simp)).trans_ne differ) digit empty
  refine ⟨fun zero => ?_, fun nonzero => ⟨s₁, fun fuel large =>
    (run fuel large).trans (failing nonzero)⟩⟩
  obtain ⟨s', ran, mirrors'⟩ := passing zero
  have new := hang_newBin tries (fresh _) (computeTreeIndex_lt S) shape' sized large rfl follows'
    absent'
  refine ⟨(forest (computeTreeIndex S)).height, fun fuel large => ?_⟩
  exact ⟨s', _, (run fuel large).trans ran, hang_chunks shape',
    new.rebinned tries room mirrors' fun j _ => fresh j⟩

end Insert

theorem insert_succeeds (tries : Tries s forest) (room : Room s forest X)
    (fresh : ∀ i, X ∉ chunks (forest i)) (sized : s.treeLinks.size X = S)
    (large : minLargeSize ≤ S)
    (condition : forest (computeTreeIndex S) = .nil ∨
      (∃ r ∈ items (forest (computeTreeIndex S)), r.size = S) ∨ s.gm.leastAddr = 0) :
    ∃ enough, ∀ fuel ≥ enough, Inserted s forest X S fuel := by
  by_cases empty : forest (computeTreeIndex S) = .nil
  · obtain ⟨s', rebinned, returns⟩ := insert_root tries room fresh sized large empty
    refine ⟨0, fun fuel _ => ⟨s', _, returns fuel, ?_, rebinned⟩⟩
    rw [empty]
    exact List.Perm.refl _
  by_cases known : ∃ r ∈ items (forest (computeTreeIndex S)), r.size = S
  · exact insert_ring tries room fresh sized known
  · -- only the null address check is left to let the chunk in
    exact (insert_leaf tries room fresh sized large empty known).1
      ((condition.resolve_left empty).resolve_left known)

/-- Insertion puts the chunk into its bin exactly where the bin is empty or has the size
already, or where the check of the empty slot passes because every address does. -/
theorem insertLargeChunk_inserts (tries : Tries s forest) (room : Room s forest X)
    (fresh : ∀ i, X ∉ chunks (forest i)) (sized : s.treeLinks.size X = S)
    (large : minLargeSize ≤ S) :
    (∃ enough, ∀ fuel ≥ enough, Inserted s forest X S fuel) ↔
      forest (computeTreeIndex S) = .nil ∨
        (∃ r ∈ items (forest (computeTreeIndex S)), r.size = S) ∨ s.gm.leastAddr = 0 := by
  refine ⟨?_, insert_succeeds tries room fresh sized large⟩
  rintro ⟨enough, inserts⟩
  by_contra none
  simp only [not_or] at none
  obtain ⟨nonempty, absent, nonzero⟩ := none
  obtain ⟨s', throws⟩ := (insert_leaf tries room fresh sized large nonempty absent).2 nonzero
  obtain ⟨s'', tree, returns, -⟩ := inserts (max enough (forest (computeTreeIndex S)).height)
    (le_max_left _ _)
  rw [throws _ (le_max_right _ _)] at returns
  cases returns

/-! Three free chunks, two of 256 bytes and one of 272, where every address passes the
check: the bin they go into has two sizes and a ring. -/

def looseChunks : List Nat := [4096, 8192, 12288]

def looseSize (p : Nat) : Nat := if p = 12288 then 272 else 256

theorem mem_looseChunks {p : Nat} : p ∈ looseChunks ↔ p = 4096 ∨ p = 8192 ∨ p = 12288 := by
  simp [looseChunks]

theorem looseSize_index (p : Nat) : computeTreeIndex (looseSize p) = 0 := by
  rw [looseSize]
  split <;> decide

theorem looseSize_large (p : Nat) : minLargeSize ≤ looseSize p := by
  rw [looseSize]
  split <;> decide

def Store.loose : Store where
  underlyingAllocator := fun _ _ => 0
  underlyingCalls := 0
  increasingSize := 0
  increasingStep := 0
  gm :=
    { this := 0, smallmap := 0, treemap := 0, dvsize := 0, topsize := 0, leastAddr := 0,
      dv := 0, top := 0, trimCheck := 0, releaseChecks := 0, magic := 0, treebins := fun _ => 0 }
  mem := (((⟨fun _ => 0, fun x => decide (x < 16384)⟩ : Memory).store 4104 8 256).store 8200 8
    256).store 12296 8 272

/-- The chunks `held` are in tree bin 0, the others of the three are in no bin. -/
structure Holding (held : List Nat) (s : Store) (forest : Nat → BinaryTree SizeRing) : Prop where
  tries : Tries s forest
  every : s.gm.leastAddr = 0
  undesignated : s.gm.dvsize = 0
  mapped : ∀ p ∈ looseChunks, s.mem.accessible p 64 = true
  sizes : ∀ p ∈ looseChunks, s.treeLinks.size p = looseSize p
  binned : ∀ i p, p ∈ chunks (forest i) ↔ i = 0 ∧ p ∈ held
  among : ∀ p ∈ held, p ∈ looseChunks

theorem Store.loose_holding : Holding [] Store.loose fun _ => .nil where
  tries :=
    { bits := by decide, marked := by simp [Store.loose], rooted := by simp [Store.loose],
      linked := fun _ => trivial, placed := fun _ => trivial, sized := by simp, mapped := by simp,
      distinct := by simp, least := by simp, apart := by simp }
  every := rfl
  undesignated := rfl
  mapped := by
    intro p member
    rw [mem_looseChunks] at member
    exact (accessible_iff _ _ _).mpr fun x _ below => decide_eq_true (show x < 16384 by omega)
  sizes := by decide +kernel
  binned := by simp
  among := by simp

namespace Holding

variable {held : List Nat}

theorem room (holding : Holding held s forest) (mine : X ∈ looseChunks)
    (apart : X ∉ held) : Room s forest X where
  mapped := by
    have accessible := holding.mapped X mine
    rw [mem_looseChunks] at mine
    exact ⟨by omega, by omega, accessible⟩
  least := holding.every.trans_le (Nat.zero_le X)
  apart := by
    intro i p member
    have inside := ((holding.binned i p).mp member).2
    have differ : p ≠ X := fun same => apart (same ▸ inside)
    have other := holding.among p inside
    rw [mem_looseChunks] at mine other
    omega

theorem fresh (holding : Holding held s forest) (apart : X ∉ held) : ∀ i, X ∉ chunks (forest i) :=
  fun i member => apart ((holding.binned i X).mp member).2

/-- One more of the three is inserted. -/
theorem insert (holding : Holding held s forest) (mine : X ∈ looseChunks)
    (apart : X ∉ held) :
    ∃ fuel s' tree, insertLargeChunk fuel X (looseSize X) s = .ok () s' ∧
      Holding (X :: held) s' (Function.update forest 0 tree) := by
  obtain ⟨fuel, inserted⟩ := insert_succeeds holding.tries (holding.room mine apart)
    (holding.fresh apart) (holding.sizes X mine) (looseSize_large X)
    (Or.inr (Or.inr holding.every))
  obtain ⟨s', tree, ran, moved, rebinned⟩ := inserted fuel (le_refl fuel)
  rw [looseSize_index] at moved rebinned
  have touched : ∀ p, Tries.Touched forest 0 X p → p ∈ looseChunks := by
    rintro p (rfl | inside)
    · exact mine
    · exact holding.among p ((holding.binned 0 p).mp inside).2
  refine ⟨fuel, s', tree, ran,
    { tries := rebinned.tries
      every := (congrArg (fun s => s.gm.leastAddr) rebinned.same).trans holding.every
      undesignated := (congrArg (fun s => s.gm.dvsize) rebinned.same).trans holding.undesignated
      mapped := fun p member => (rebinned.frame.accessible _ _).trans (holding.mapped p member)
      sizes := ?_
      binned := ?_
      among := List.forall_mem_cons.mpr ⟨mine, holding.among⟩ }⟩
  · -- the links are written behind the size word of a chunk, and none reaches the next chunk
    intro p member
    rw [← holding.sizes p member]
    refine congrArg (· &&& not64 flagBits) (rebinned.frame.load _ _ fun x lower upper written => ?_)
    obtain ⟨q, there, low, high⟩ := written
    have other := touched q there
    rw [mem_looseChunks] at member other
    omega
  · intro i p
    by_cases here : i = 0
    · subst here
      rw [Function.update_self, moved.mem_iff, List.mem_cons, List.mem_cons, holding.binned 0 p]
      simp
    · rw [Function.update_of_ne here, holding.binned i p]
      simp [here]

end Holding

theorem Store.loose_ring : ∃ s forest, Holding [8192, 4096] s forest := by
  obtain ⟨-, s, tree, -, first⟩ := Store.loose_holding.insert (X := 4096) (by decide) (by simp)
  obtain ⟨-, s', tree', -, second⟩ := first.insert (X := 8192) (by decide) (by simp)
  exact ⟨s', _, second⟩

theorem Store.loose_filled : ∃ s forest, Holding [12288, 8192, 4096] s forest := by
  obtain ⟨s, forest, ring⟩ := Store.loose_ring
  obtain ⟨-, s', tree, -, filled⟩ := ring.insert (X := 12288) (by decide) (by simp)
  exact ⟨s', _, filled⟩

theorem insertLargeChunk_inserts_first : ∃ s forest, Holding [8192, 4096] s forest ∧
    ∃ enough, ∀ fuel ≥ enough, Inserted s forest 12288 272 fuel := by
  obtain ⟨s, forest, ring⟩ := Store.loose_ring
  have sized : s.treeLinks.size 12288 = 272 := ring.sizes 12288 (by decide)
  exact ⟨s, forest, ring, (insertLargeChunk_inserts ring.tries (ring.room (by decide) (by simp))
    (ring.fresh (by simp)) sized (by decide)).mpr (Or.inr (Or.inr ring.every))⟩

/-- Two free chunks in no bin, of 256 bytes and 272. -/
def Store.unbinned : Store where
  underlyingAllocator := fun _ _ => 0
  underlyingCalls := 0
  increasingSize := 0
  increasingStep := 0
  gm :=
    { this := 0, smallmap := 0, treemap := 0, dvsize := 0, topsize := 0, leastAddr := 4096,
      dv := 0, top := 0, trimCheck := 0, releaseChecks := 0, magic := 0, treebins := fun _ => 0 }
  mem := ((⟨fun _ => 0, fun x => decide (x < 16384)⟩ : Memory).store 4104 8 256).store 8200 8 272

theorem Store.unbinned_tries : Tries Store.unbinned fun _ => .nil where
  bits := by decide
  marked := by simp [Store.unbinned]
  rooted := by simp [Store.unbinned]
  linked := fun _ => trivial
  placed := fun _ => trivial
  sized := by simp
  mapped := by simp
  distinct := by simp
  least := by simp
  apart := by simp

theorem Store.unbinned_room {p : Nat} (lower : 4096 ≤ p) (upper : p + 64 ≤ 16384) :
    Room Store.unbinned (fun _ => .nil) p where
  mapped := by
    refine ⟨by omega, by omega, (accessible_iff _ _ _).mpr fun x _ below => ?_⟩
    exact decide_eq_true (show x < 16384 by omega)
  least := lower
  apart := by simp

theorem Store.unbinned_sizes : Store.unbinned.treeLinks.size 4096 = 256 ∧
    Store.unbinned.treeLinks.size 8192 = 272 := by decide +kernel

def firstBinned : Nat → BinaryTree SizeRing :=
  Function.update (fun _ => .nil) 0 (.node ⟨256, 4096, []⟩ .nil .nil)

theorem firstBinned_zero : firstBinned 0 = .node ⟨256, 4096, []⟩ .nil .nil :=
  Function.update_self ..

theorem firstBinned_only {i p : Nat} (member : p ∈ chunks (firstBinned i)) : p = 4096 := by
  by_cases here : i = 0
  · subst here
    simpa [firstBinned_zero, SizeRing.chunks] using member
  · simp [firstBinned, here] at member

theorem Store.unbinned_first : ∃ s,
    (∀ fuel, insertLargeChunk fuel 4096 256 Store.unbinned = .ok () s) ∧
      Rebinned Store.unbinned (fun _ => .nil) 0 4096 (.node ⟨256, 4096, []⟩ .nil .nil) s := by
  obtain ⟨s, rebinned, ran⟩ := insert_root Store.unbinned_tries
    (Store.unbinned_room (p := 4096) (by decide) (by decide)) (by simp) Store.unbinned_sizes.1
    (by decide) rfl
  have index : computeTreeIndex 256 = 0 := by decide
  exact ⟨s, ran, index ▸ rebinned⟩

/-- The second of two sizes in one bin is refused: its slot is empty. -/
theorem insertLargeChunk_refuses : ∃ s, insertLargeChunk 1 4096 256 Store.unbinned = .ok () s ∧
    Tries s firstBinned ∧ Room s firstBinned 8192 ∧ (∀ i, 8192 ∉ chunks (firstBinned i)) ∧
    s.treeLinks.size 8192 = 272 ∧ minLargeSize ≤ 272 ∧
    ∀ fuel ≥ 1, ∃ s', insertLargeChunk fuel 8192 272 s = .error .corrupted s' := by
  have second := Store.unbinned_room (p := 8192) (by decide) (by decide)
  obtain ⟨-, sizeSecond⟩ := Store.unbinned_sizes
  obtain ⟨s, ran, rebinned⟩ := Store.unbinned_first
  have index' : computeTreeIndex 272 = 0 := by decide
  have tries : Tries s firstBinned := rebinned.tries
  have least : s.gm.leastAddr = 4096 := congrArg (fun s => s.gm.leastAddr) rebinned.same
  have room : Room s firstBinned 8192 := by
    refine ⟨?_, least.trans_le (by decide), fun i p member => ?_⟩
    · rw [rebinned.frame.accessible]
      exact second.mapped
    · rw [firstBinned_only member]
      omega
  have fresh : ∀ i, 8192 ∉ chunks (firstBinned i) := by
    intro i member
    exact absurd (firstBinned_only member) (by decide)
  have sized : s.treeLinks.size 8192 = 272 := by
    rw [← sizeSecond]
    refine congrArg (· &&& not64 flagBits) (rebinned.frame.load _ _ fun x lower upper written => ?_)
    obtain ⟨p, touched, low, high⟩ := written
    have : p = 4096 := by simpa [Tries.Touched] using touched
    omega
  have throws := (insert_leaf tries room fresh sized (by decide)
    (by rw [index', firstBinned_zero]; simp)
    (by rw [index', firstBinned_zero]; simp)).2 (by rw [least]; decide)
  rw [index', firstBinned_zero] at throws
  obtain ⟨s', throws⟩ := throws
  exact ⟨s, ran 1, tries, room, fresh, sized, by decide, fun fuel large => ⟨s', throws fuel large⟩⟩

end Unimem
