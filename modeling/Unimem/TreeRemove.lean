import Unimem.TreeInsert
import Unimem.TreeHeirs

/-!
unlink_large_chunk on tree bins of any depth. A chunk that is not its ring's node
only leaves the ring. A node is replaced by its ring neighbour or by a leaf dug
out below it, and whoever replaces it takes over its parent, its slot or bin and
its children. The parent field of a root is copied but never followed.
-/

namespace Unimem

open ByteMemory Memory LinkedRing WordArith MallocState DigitalTree LinkedTree

variable {base s s' : Store} {forest : Nat → BinaryTree SizeRing} {among : Nat → Prop}
  {L : TreeLinks} {I X R C p : Nat} {up : Option Nat} {side : Bool} {f : Field}
  {r q : SizeRing} {way : List (Frame SizeRing)} {zero one tree : BinaryTree SizeRing}

/-! ## The leaf -/

/-- The slot that leads on from the end of a way. -/
def slotAbove (slot : Nat) : List (Frame SizeRing) → Nat
  | [] => slot
  | frame :: _ => TreeChunk.childSlot frame.item.chunk frame.side.toNat

theorem slotAbove_append (slot : Nat) (inner : List (Frame SizeRing)) (frame : Frame SizeRing) :
    slotAbove slot (inner ++ [frame]) =
      slotAbove (TreeChunk.childSlot frame.item.chunk frame.side.toNat) inner := by
  cases inner <;> rfl

/-- The loop follows one children, else zero children, to a leaf. -/
theorem leaf_reaches (ground : Ground base among) (mirrors : Mirrors base among L s)
    (linked : TreeAt SizeRing.chunk L.child (TreeNode L I) up tree)
    (seen : ∀ r ∈ items tree, among r.chunk ∧ r.chunk ≠ 0) (nonempty : tree ≠ .nil) :
    ∃ inner w, tree = plug inner (.node w .nil .nil) ∧ ∀ fuel ≥ tree.height, ∀ slot,
      unlinkLargeChunk.leaf fuel (root tree, slot) s = .ok (w.chunk, slotAbove slot inner) s := by
  -- on the tree: the loop tries child 1 before child 0
  induction tree generalizing up with
  | nil => exact absurd rfl nonempty
  | node r zero one ihZero ihOne =>
      obtain ⟨node, toZero, toOne, inZero, inOne⟩ := linked
      have here := (seen r (by simp)).1
      have readZero := mirrors.child ground here false
      have readOne := mirrors.child ground here true
      rw [toZero, Bool.toNat_false] at readZero
      rw [toOne, Bool.toNat_true] at readOne
      have seenZero : ∀ q ∈ items zero, among q.chunk ∧ q.chunk ≠ 0 :=
        fun q member => seen q (by simp [member])
      have seenOne : ∀ q ∈ items one, among q.chunk ∧ q.chunk ≠ 0 :=
        fun q member => seen q (by simp [member])
      have enough : ∀ fuel ≥ (BinaryTree.node r zero one).height, ∃ less, fuel = less + 1 ∧
          zero.height ≤ less ∧ one.height ≤ less := by
        intro fuel large
        simp only [BinaryTree.height] at large
        exact ⟨fuel - 1, by omega, by omega, by omega⟩
      by_cases noOne : one = .nil
      · by_cases noZero : zero = .nil
        · subst noOne noZero
          refine ⟨[], r, rfl, fun fuel large slot => ?_⟩
          obtain ⟨less, rfl, -⟩ := enough fuel large
          simp [unlinkLargeChunk.leaf, Fuelled.bind_run, readZero, readOne, slotAbove]
        · subst noOne
          obtain ⟨inner, w, shape, run⟩ := ihZero inZero seenZero noZero
          refine ⟨inner ++ [⟨r, false, .nil⟩], w, ?_, fun fuel large slot => ?_⟩
          · rw [plug_append, ← shape]
            rfl
          · obtain ⟨less, rfl, fits, -⟩ := enough fuel large
            have below : root zero ≠ 0 :=
              mt (root_eq_zero fun q member => (seenZero q member).2).mp noZero
            rw [slotAbove_append, ← run less fits, unlinkLargeChunk.leaf]
            simp [Fuelled.bind_run, readZero, readOne, below]
      · obtain ⟨inner, w, shape, run⟩ := ihOne inOne seenOne noOne
        refine ⟨inner ++ [⟨r, true, zero⟩], w, ?_, fun fuel large slot => ?_⟩
        · rw [plug_append, ← shape]
          rfl
        · obtain ⟨less, rfl, -, fits⟩ := enough fuel large
          have below : root one ≠ 0 :=
            mt (root_eq_zero fun q member => (seenOne q member).2).mp noOne
          rw [slotAbove_append, ← run less fits, unlinkLargeChunk.leaf]
          simp [Fuelled.bind_run, readOne, below]

/-! ## Runs -/

section Runs

variable (ground : Ground base among) (mirrors : Mirrors base among L s)

include ground mirrors

theorem adopt_run (side : Bool) (hereX : among X) (hereR : among R) (reads : L.child side X = C)
    (fine : C ≠ 0 → among C ∧ base.gm.leastAddr ≤ C) :
    Shows base among (unlinkLargeChunk.adopt X R side.toNat) s () (L.adopted R side C) := by
  have child := mirrors.child ground hereX side
  rw [reads] at child
  rw [unlinkLargeChunk.adopt, TreeLinks.adopted]
  refine Shows.read child ?_
  by_cases none : C = 0
  · rw [if_neg (not_not.mpr none), if_pos none]
    exact Shows.pure mirrors
  · obtain ⟨hereC, least⟩ := fine none
    have okC := mirrors.okAddress C
    rw [decide_eq_true (show C ≥ base.gm.leastAddr from least)] at okC
    have fitsR := (ground.reach R hereR).1
    have fitsC := (ground.reach C hereC).1
    rw [if_pos none, if_neg none]
    refine Shows.read okC ?_
    rw [if_pos rfl]
    refine Shows.bind (Shows.setChild ground mirrors hereR side (by omega)) fun a mirrors => ?_
    exact Shows.setParent ground mirrors hereC (by omega)

theorem inherit_run {XP Z O : Nat} (hereX : among X) (hereR : among R) (notX : R ≠ X)
    (notNull : R ≠ 0) (least : base.gm.leastAddr ≤ R) (fits : XP < 2 ^ 64)
    (zero : L.child false X = Z) (one : L.child true X = O)
    (fine : ∀ C, C ≠ 0 → (C = Z ∨ C = O) → among C ∧ base.gm.leastAddr ≤ C) :
    Shows base among (unlinkLargeChunk.inherit X R XP) s () (L.inherited R XP Z O) := by
  have okR := mirrors.okAddress R
  rw [decide_eq_true (show R ≥ base.gm.leastAddr from least)] at okR
  rw [unlinkLargeChunk.inherit, if_pos notNull]
  refine Shows.read okR ?_
  rw [if_pos rfl]
  refine Shows.bind (Shows.setParent ground mirrors hereR fits) fun a mirrors => ?_
  have zero' : (L.set .parent R XP).child false X = Z := by simpa using zero
  refine Shows.bind (adopt_run ground mirrors false hereX hereR zero'
    fun nonzero => fine Z nonzero (Or.inl rfl)) fun b mirrors => ?_
  have one' : ((L.set .parent R XP).adopted R false Z).child true X = O := by
    rw [TreeLinks.adopted]
    split
    · simpa using one
    · simpa [TreeLinks.child, Ne.symm notX] using one
  exact adopt_run ground mirrors true hereX hereR one' fun nonzero => fine O nonzero (Or.inr rfl)

end Runs

/-- Whatever replaces `X` is put into its bin or slot, and inherits. -/
theorem unlink_run (ground : Ground base among) (hereX : among X) {L' : TreeLinks} {fuel : Nat}
    (hole : Hole L I X way zero one)
    (parent : base.treeLinks.field .parent X = L.field .parent X)
    (replaced : Shows base among (unlinkLargeChunk.replacement fuel X) base R L)
    (fits : R < 2 ^ 64) (rooted : way = [] → L.treebins I = X)
    (inner : way ≠ [] → L.treebins I ≠ X)
    (seen : ∀ frame ∈ way.head?, among frame.item.chunk ∧ frame.item.chunk ≠ 0 ∧
      base.gm.leastAddr ≤ frame.item.chunk ∧ root frame.other ≠ X)
    (inherits : ∀ after, Mirrors base among (L.relinked I R way) after →
      Shows base among (unlinkLargeChunk.inherit X R (L.field .parent X)) after () L') :
    Shows base among (unlinkLargeChunk fuel X) base () L' := by
  have start := (Mirrors.refl base among).parent ground hereX
  rw [parent] at start
  rw [unlinkLargeChunk]
  refine Shows.read start (Shows.bind replaced fun a mirrors => ?_)
  have index := mirrors.index ground hereX
  rw [hole.index] at index
  have hasParent : L.field .parent X ≠ 0 := by
    have above := hole.parent
    cases way with
    | nil => exact above
    | cons frame outer => exact above.trans_ne (seen frame (by simp)).2.1
  rw [if_pos hasParent]
  refine Shows.read index (Shows.read (mirrors.treebin I) ?_)
  cases way with
  | nil =>
      rw [rooted rfl, if_pos rfl]
      refine Shows.bind (Shows.setTreebin mirrors) fun b mirrors => ?_
      rw [TreeLinks.relinked] at inherits
      -- only an emptied bin clears its bit
      by_cases none : R = 0
      · have index' := mirrors.index ground hereX
        rw [TreeLinks.setBin_field, hole.index] at index'
        rw [if_pos none] at inherits ⊢
        refine Shows.read index' (Shows.bind (Shows.clearTreemap mirrors) fun c mirrors => ?_)
        exact inherits c mirrors
      · rw [if_neg none] at inherits ⊢
        exact inherits b mirrors
  | cons frame outer =>
      obtain ⟨herePX, -, least, beside⟩ := seen frame (by simp)
      obtain ⟨-, down, other, -⟩ := hole.framed
      have above : L.field .parent X = frame.item.chunk := hole.parent
      have okP := mirrors.okAddress frame.item.chunk
      rw [decide_eq_true (show frame.item.chunk ≥ base.gm.leastAddr from least)] at okP
      have reads := mirrors.child ground herePX false
      rw [if_neg (Ne.symm (inner (by simp))), above]
      rw [above] at inherits
      refine Shows.read okP ?_
      rw [if_pos rfl]
      refine Shows.read reads ?_
      -- the source compares child 0 with the chunk and otherwise writes child 1
      cases turn : frame.side with
      | false =>
          rw [turn] at down
          rw [if_pos down]
          refine Shows.bind (Shows.setChild ground mirrors herePX false fits) fun b mirrors => ?_
          refine inherits b ?_
          rw [TreeLinks.relinked, turn]
          exact mirrors
      | true =>
          rw [turn, Bool.not_true] at other
          rw [if_neg (fun same => beside (other.symm.trans same))]
          refine Shows.bind (Shows.setChild ground mirrors herePX true fits) fun b mirrors => ?_
          refine inherits b ?_
          rw [TreeLinks.relinked, turn]
          exact mirrors

/-! ## Replacements -/

/-- A ring neighbour. -/
theorem bridge_run (ground : Ground base among) (hereX : among X) {F : Nat} (fuel : Nat)
    (next : base.treeLinks.field .fd X = F) (prev : base.treeLinks.field .bk X = R)
    (notAlone : R ≠ X) (hereF : among F) (hereR : among R) (least : base.gm.leastAddr ≤ F)
    (back : base.treeLinks.field .bk F = X) (forth : base.treeLinks.field .fd R = X) :
    Shows base among (unlinkLargeChunk.replacement fuel X) base R
      (base.treeLinks.bridged F R) := by
  have mirrors := Mirrors.refl base among
  have fitsF := (ground.reach F hereF).1
  have fitsR := (ground.reach R hereR).1
  have readBk := mirrors.bk ground hereX
  have readFd := mirrors.fd ground hereX
  have readBack := mirrors.bk ground hereF
  have readForth := mirrors.fd ground hereR
  rw [prev] at readBk
  rw [next] at readFd
  have okF := mirrors.okAddress F
  rw [decide_eq_true (show F ≥ base.gm.leastAddr from least)] at okF
  have check : (okAddress F <&&> (do return (← Chunk.bk F) == X) <&&>
      (do return (← Chunk.fd R) == X) : Prog Bool) base = .ok true base := by
    simp [run_andM, okF, readBack, readForth, back, forth]
  rw [unlinkLargeChunk.replacement]
  refine Shows.read readBk ?_
  rw [if_pos notAlone]
  refine Shows.read readFd (Shows.read readBk (Shows.read check ?_))
  rw [if_pos rfl]
  refine Shows.bind (Shows.setBk ground mirrors hereF (by omega)) fun a mirrors => ?_
  exact Shows.bind (Shows.setFd ground mirrors hereR (by omega)) fun b mirrors => Shows.pure mirrors

/-- Nothing. -/
theorem none_run (ground : Ground base among) (hereX : among X) (fuel : Nat)
    (alone : base.treeLinks.field .bk X = X) (bare : ∀ side, base.treeLinks.child side X = 0) :
    Shows base among (unlinkLargeChunk.replacement fuel X) base 0 base.treeLinks := by
  have mirrors := Mirrors.refl base among
  have readBk := mirrors.bk ground hereX
  have readOne := mirrors.child ground hereX true
  have readZero := mirrors.child ground hereX false
  rw [alone] at readBk
  rw [bare, Bool.toNat_true] at readOne
  rw [bare, Bool.toNat_false] at readZero
  refine ⟨base, ?_, mirrors⟩
  simp [unlinkLargeChunk.replacement, Fuelled.bind_run, readBk, readOne, readZero]

def digging (fuel below slot : Nat) : Prog Nat := do
  let leaf ← unlinkLargeChunk.leaf fuel (below, slot)
  if ← okAddress (← load64 leaf.2) then
    store64 leaf.2 0
    return leaf.1
  else throw .corrupted

/-- A leaf below, dug out of its slot. -/
theorem dig_side (ground : Ground base among) {other : BinaryTree SizeRing}
    (linked : TreeAt SizeRing.chunk base.treeLinks.child (TreeNode base.treeLinks I) up
      (Frame.fill ⟨r, side, other⟩ tree))
    (seen : ∀ q ∈ items (Frame.fill ⟨r, side, other⟩ tree), among q.chunk ∧ q.chunk ≠ 0 ∧
      base.gm.leastAddr ≤ q.chunk) (nonempty : tree ≠ .nil)
    (start : ∀ fuel, unlinkLargeChunk.replacement fuel r.chunk base =
      digging fuel (root tree) (TreeChunk.childSlot r.chunk side.toNat) base) :
    ∃ frame outer w zero' one', Frame.fill ⟨r, side, other⟩ tree =
        plug (frame :: outer) (.node w .nil .nil) ∧
      plug (frame :: outer) .nil = .node r zero' one' ∧
      ∀ fuel ≥ tree.height,
        Shows base among (unlinkLargeChunk.replacement fuel r.chunk) base w.chunk
          (base.treeLinks.set (Field.child frame.side) frame.item.chunk 0) := by
  have mirrors := Mirrors.refl base among
  have seen' : ∀ q ∈ items tree, among q.chunk ∧ q.chunk ≠ 0 :=
    fun q member => ⟨(seen q (Frame.mem_fill.mpr (Or.inr member))).1,
      (seen q (Frame.mem_fill.mpr (Or.inr member))).2.1⟩
  obtain ⟨inner, w, shape, run⟩ :=
    leaf_reaches ground mirrors (treeAt_fill.mp linked).2.2.2.1 seen' nonempty
  have whole : Frame.fill ⟨r, side, other⟩ tree =
      plug (inner ++ [⟨r, side, other⟩]) (.node w .nil .nil) := by
    rw [plug_append, ← shape]
    rfl
  have slot : slotAbove (TreeChunk.childSlot r.chunk side.toNat) inner =
      slotAbove 0 (inner ++ [⟨r, side, other⟩]) :=
    (slotAbove_append 0 inner ⟨r, side, other⟩).symm
  have emptied : ∃ zero' one', plug (inner ++ [⟨r, side, other⟩]) .nil = .node r zero' one' := by
    rw [plug_append]
    cases side with
    | false => exact ⟨_, _, rfl⟩
    | true => exact ⟨_, _, rfl⟩
  -- the slot above the leaf is the innermost turn of the way
  cases turned : inner ++ [⟨r, side, other⟩] with
  | nil => simp at turned
  | cons frame outer =>
      rw [turned] at whole slot emptied
      obtain ⟨zero', one', emptied⟩ := emptied
      refine ⟨frame, outer, w, zero', one', whole, emptied, fun fuel large => ?_⟩
      have down : base.treeLinks.child frame.side frame.item.chunk = w.chunk := by
        rw [whole, treeAt_plug] at linked
        exact linked.1.2.1
      have members := items_plug (frame :: outer) (.node w .nil .nil)
      rw [← whole] at members
      have atFrame := seen frame.item (members.mem_iff.mpr (by simp [Frame.members]))
      have atLeaf := seen w (members.mem_iff.mpr (by simp))
      have reads := mirrors.child ground atFrame.1 frame.side
      rw [down] at reads
      have okW := mirrors.okAddress w.chunk
      rw [decide_eq_true (show w.chunk ≥ base.gm.leastAddr from atLeaf.2.2)] at okW
      have reached := run fuel large (TreeChunk.childSlot r.chunk side.toNat)
      rw [slot] at reached
      obtain ⟨after, ran, mirrors'⟩ : Shows base among
          (digging fuel (root tree) (TreeChunk.childSlot r.chunk side.toNat)) base w.chunk
          (base.treeLinks.set (Field.child frame.side) frame.item.chunk 0) := by
        refine Shows.read reached (Shows.read reads (Shows.read okW ?_))
        rw [if_pos rfl]
        exact Shows.bind (Shows.setChild ground mirrors atFrame.1 frame.side (by decide))
          fun a mirrors => Shows.pure mirrors
      exact ⟨after, (start fuel).trans ran, mirrors'⟩

theorem dig_run (ground : Ground base among)
    (linked : TreeAt SizeRing.chunk base.treeLinks.child (TreeNode base.treeLinks I) up
      (.node r zero one))
    (alone : base.treeLinks.field .bk r.chunk = r.chunk)
    (seen : ∀ q ∈ items (.node r zero one), among q.chunk ∧ q.chunk ≠ 0 ∧
      base.gm.leastAddr ≤ q.chunk)
    (inner : zero ≠ .nil ∨ one ≠ .nil) :
    ∃ frame outer w zero' one', .node r zero one = plug (frame :: outer) (.node w .nil .nil) ∧
      plug (frame :: outer) .nil = .node r zero' one' ∧
      ∀ fuel ≥ (BinaryTree.node r zero one).height,
        Shows base among (unlinkLargeChunk.replacement fuel r.chunk) base w.chunk
          (base.treeLinks.set (Field.child frame.side) frame.item.chunk 0) := by
  have mirrors := Mirrors.refl base among
  have hereX := (seen r (by simp)).1
  have readBk := mirrors.bk ground hereX
  have readOne := mirrors.child ground hereX true
  have readZero := mirrors.child ground hereX false
  obtain ⟨toZero, toOne⟩ : base.treeLinks.child false r.chunk = root zero ∧
      base.treeLinks.child true r.chunk = root one := ⟨linked.2.1, linked.2.2.1⟩
  rw [alone] at readBk
  rw [toOne, Bool.toNat_true] at readOne
  rw [toZero, Bool.toNat_false] at readZero
  -- child 1 is dug into when there is one
  by_cases noOne : one = .nil
  · subst noOne
    have more : zero ≠ .nil := inner.resolve_right (fun absent => absent rfl)
    have below : root zero ≠ 0 :=
      mt (root_eq_zero fun q member => (seen q (by simp [member])).2.1).mp more
    have start : ∀ fuel, unlinkLargeChunk.replacement fuel r.chunk base =
        digging fuel (root zero) (TreeChunk.childSlot r.chunk false.toNat) base := by
      intro fuel
      simp [digging, unlinkLargeChunk.replacement, Fuelled.bind_run, readBk, readOne, readZero, below]
    have turned : BinaryTree.node r zero .nil = Frame.fill ⟨r, false, .nil⟩ zero := rfl
    rw [turned] at linked seen
    obtain ⟨frame, outer, w, zero', one', whole, emptied, run⟩ :=
      dig_side ground linked seen more start
    refine ⟨frame, outer, w, zero', one', whole, emptied, fun fuel large => run fuel ?_⟩
    simp only [BinaryTree.height] at large
    omega
  · have below : root one ≠ 0 :=
      mt (root_eq_zero fun q member => (seen q (by simp [member])).2.1).mp noOne
    have start : ∀ fuel, unlinkLargeChunk.replacement fuel r.chunk base =
        digging fuel (root one) (TreeChunk.childSlot r.chunk true.toNat) base := by
      intro fuel
      simp [digging, unlinkLargeChunk.replacement, Fuelled.bind_run, readBk, readOne, below]
    have turned : BinaryTree.node r zero one = Frame.fill ⟨r, true, zero⟩ one := rfl
    rw [turned] at linked seen
    obtain ⟨frame, outer, w, zero', one', whole, emptied, run⟩ :=
      dig_side ground linked seen noOne start
    refine ⟨frame, outer, w, zero', one', whole, emptied, fun fuel large => run fuel ?_⟩
    simp only [BinaryTree.height] at large
    omega

/-- The slot above the leaf is cleared, nothing else. -/
theorem leaf_dug {frame : Frame SizeRing} {outer : List (Frame SizeRing)} {w : SizeRing}
    (linked : TreeAt SizeRing.chunk L.child (TreeNode L I) up
      (plug (frame :: outer) (.node w .nil .nil)))
    (nodup : (chunks (plug (frame :: outer) (.node w .nil .nil))).Nodup) :
    TreeAt SizeRing.chunk (L.set (Field.child frame.side) frame.item.chunk 0).child
        (TreeNode (L.set (Field.child frame.side) frame.item.chunk 0) I) up
        (plug (frame :: outer) .nil) ∧
      Heir (L.set (Field.child frame.side) frame.item.chunk 0) I w := by
  obtain ⟨framed, node, leafZero, leafOne, -, -⟩ := treeAt_plug.mp linked
  rw [(chunks_plug _ _).nodup_iff, List.nodup_append'] at nodup
  obtain ⟨nodupWay, -, apart⟩ := nodup
  have notFrame : ∀ p ∈ w.chunks, p ≠ frame.item.chunk := by
    rintro p inside rfl
    have atFrame : frame.item.chunk ∈ chunksOf (passed (frame :: outer)) :=
      mem_chunksOf.mpr ⟨frame.item, by simp [Frame.members], by simp⟩
    exact apart atFrame (by rw [chunks_node]; exact List.mem_append_left _ inside)
  have kept : ∀ p f, p ≠ frame.item.chunk →
      (L.set (Field.child frame.side) frame.item.chunk 0).field f p = L.field f p := by
    intro p f away
    simp [away]
  have cleared : (L.set (Field.child frame.side) frame.item.chunk 0).child frame.side
      frame.item.chunk = 0 := by simp
  constructor
  · refine treeAt_plug.mpr ⟨framed_relinked framed nodupWay rfl cleared ?_, trivial⟩
    intro p _ f unwritten
    simp [unwritten]
  · have moved : TreeNode (L.set (Field.child frame.side) frame.item.chunk 0) I
        (above SizeRing.chunk up (frame :: outer)) w :=
      node.congr (fun _ _ => rfl) fun p inside f => Or.inr (kept p f (notFrame p inside))
    refine moved.heir fun side => ?_
    refine (kept w.chunk _ (notFrame _ (by simp))).trans ?_
    cases side with
    | false => exact leafZero
    | true => exact leafOne

/-- The node with a member less on its ring. -/
theorem mate_node {left right : List Nat} (node : TreeNode L I up r)
    (mates : r.mates = left ++ X :: right) :
    TreeNode (L.bridged (right.headD r.chunk) (left.getLastD r.chunk)) I up
      ⟨r.size, r.chunk, left ++ right⟩ := by
  have ring := node.ring
  have nodup := node.nodup
  rw [SizeRing.chunks, mates] at nodup
  rw [mates] at ring
  have fewer : ∀ p ∈ left ++ right, p ∈ r.mates := by
    intro p inside
    rw [mates]
    simp only [List.mem_append, List.mem_cons] at inside ⊢
    tauto
  have inside : ∀ p, p = r.chunk ∨ p ∈ left ++ right → p ∈ r.chunks :=
    fun p => fun inside => SizeRing.mem_chunks.mpr (inside.imp_right (fewer p))
  have other : ∀ p f, f ≠ .fd → f ≠ .bk →
      (L.bridged (right.headD r.chunk) (left.getLastD r.chunk)).field f p = L.field f p :=
    fun p f => TreeLinks.bridged_other
  refine ⟨⟨ring_remove nodup ring ?_ ?_ ?_ ?_, fun p member => ?_⟩, ?_, fun p member => ?_, ?_,
    fun p member => ?_⟩
  · simp [TreeLinks.bridged]
  · simp [TreeLinks.bridged]
  · intro p _ away
    rw [TreeLinks.bridged, TreeLinks.set_field, if_neg fun written => away written.2,
      TreeLinks.set_field, if_neg (by simp)]
  · intro p _ away
    rw [TreeLinks.bridged, TreeLinks.set_field, if_neg (by simp), TreeLinks.set_field,
      if_neg fun written => away written.2]
  · exact node.sized p (inside p (SizeRing.mem_chunks.mp member))
  · exact nodup.sublist (((List.sublist_cons_self X right).append_left left).cons_cons r.chunk)
  · rw [other p .index (by decide) (by decide),
      node.index p (inside p (SizeRing.mem_chunks.mp member))]
  · have parent := node.parent
    cases up with
    | none => simpa only [other r.chunk .parent (by decide) (by decide)] using parent
    | some q => simpa only [other r.chunk .parent (by decide) (by decide)] using parent
  · obtain ⟨orphan, childless⟩ := node.mate p (fewer p member)
    refine ⟨(other p .parent (by decide) (by decide)).trans orphan, fun side => ?_⟩
    exact (other p _ (by cases side <;> decide) (by cases side <;> decide)).trans (childless side)

/-! ## What is left of the bin -/

/-- `tree` has the chunks of bin `I` but for `X`. -/
structure Cut (forest : Nat → BinaryTree SizeRing) (I X : Nat) (tree : BinaryTree SizeRing) :
    Prop where
  perm : (X :: chunks tree).Perm (chunks (forest I))
  sizes : ((items tree).map SizeRing.size).Subperm ((items (forest I)).map SizeRing.size)
  placed : Digital (fun r => keyDigit I r.size) 0 tree

namespace Cut

theorem mem (cut : Cut forest I X tree) (member : p ∈ chunks tree) : p ∈ chunks (forest I) :=
  cut.perm.subset (List.mem_cons_of_mem X member)

theorem nodup (cut : Cut forest I X tree) (tries : Tries s forest) :
    (X :: chunks tree).Nodup := cut.perm.nodup_iff.mpr (tries.nodup I)

theorem newBin (cut : Cut forest I X tree) (tries : Tries s forest)
    (linked : TreeAt SizeRing.chunk L.child (TreeNode L I) none tree) (bits : L.treemap < 2 ^ 32)
    (marked : ∀ i < 32, L.treemap.testBit i =
      if i = I then decide (root tree ≠ 0) else s.gm.treemap.testBit i)
    (rooted : ∀ i < 32, L.treebins i = if i = I then root tree else s.gm.treebins i) :
    NewBin s forest I X L tree where
  bits := bits
  marked := marked
  rooted := rooted
  linked := linked
  inside := fun _ member => Or.inr (cut.mem member)
  placed := cut.placed
  sized := sizes_hold (fun size => minLargeSize ≤ size ∧ computeTreeIndex size = I)
    cut.sizes.subset (tries.sized I)
  distinct := by
    obtain ⟨sizes, perm, sublist⟩ := cut.sizes
    exact perm.nodup_iff.mp ((tries.distinct I).sublist sublist)

/-- A ring of the same size in a ring's place. -/
theorem of_ring (tries : Tries s forest) (shape : forest I = plug way (.node r zero one))
    (same : q.size = r.size) (perm : (X :: q.chunks).Perm r.chunks) :
    Cut forest I X (plug way (.node q zero one)) := by
  have placed := tries.placed I
  rw [shape] at placed
  refine ⟨?_, shape ▸ (sizes_same zero one way same).subperm, placed_same same placed⟩
  rw [shape]
  exact ((chunks_plug_node way zero one).cons X).trans
    ((perm.append_right _).trans (chunks_plug_node way zero one).symm)

/-- A node that is alone on its ring. -/
theorem of_items (moved : (items (forest I)).Perm (r :: items tree)) (alone : r.mates = [])
    (placed : Digital (fun r => keyDigit I r.size) 0 tree) : Cut forest I r.chunk tree := by
  refine ⟨?_, ?_, placed⟩
  · have moved' := moved.flatMap_right SizeRing.chunks
    have single : (r :: items tree).flatMap SizeRing.chunks = r.chunk :: chunks tree := by
      rw [List.flatMap_cons, SizeRing.chunks, alone]
      rfl
    rw [single] at moved'
    exact moved'.symm
  · have sublist : ((items tree).map SizeRing.size).Sublist ((r :: items tree).map SizeRing.size) :=
      List.sublist_cons_self _ _
    exact sublist.subperm.trans (moved.map SizeRing.size).symm.subperm

theorem of_leaf (tries : Tries s forest) (shape : forest I = plug way (.node r .nil .nil))
    (alone : r.mates = []) : Cut forest I r.chunk (plug way .nil) := by
  have placed := tries.placed I
  rw [shape] at placed
  obtain ⟨-, -, aligned⟩ := digital_plug.mp placed
  have moved := items_plug way (.nil : BinaryTree SizeRing)
  rw [items_nil, List.append_nil] at moved
  refine of_items ?_ alone (digital_plug.mpr ⟨trivial, by simp, aligned⟩)
  rw [shape]
  refine (items_plug way _).trans (List.Perm.trans ?_ (moved.symm.cons r))
  exact List.perm_append_singleton r (passed way)

/-- A leaf taken from below into a node's place. -/
theorem of_dug {frame : Frame SizeRing} {outer : List (Frame SizeRing)} {w : SizeRing}
    {zero' one' : BinaryTree SizeRing} (tries : Tries s forest)
    (shape : forest I = plug way (.node r zero one))
    (whole : .node r zero one = plug (frame :: outer) (.node w .nil .nil))
    (emptied : plug (frame :: outer) .nil = .node r zero' one') (alone : r.mates = []) :
    Cut forest I r.chunk (plug way (.node w zero' one')) := by
  have placed := tries.placed I
  rw [shape] at placed
  have inWhole := items_plug (frame :: outer) (.node w .nil .nil)
  have inRest := items_plug (frame :: outer) (.nil : BinaryTree SizeRing)
  rw [← whole] at inWhole
  rw [emptied, items_nil, List.append_nil] at inRest
  refine of_items ?_ alone ?_
  · rw [shape]
    have reached : (items (plug way (.node r zero one))).Perm
        (passed way ++ (r :: (items zero' ++ items one') ++ [w])) :=
      (items_plug way _).trans ((inWhole.trans (inRest.symm.append_right [w])).append_left _)
    refine reached.trans (List.Perm.trans ?_ ((items_plug way _).symm.cons r))
    exact List.perm_middle.trans
      (((List.perm_append_singleton w (items zero' ++ items one')).append_left _).cons r)
  · have dug := placed
    rw [whole, ← plug_append] at dug
    obtain ⟨-, -, aligned⟩ := digital_plug.mp dug
    have rest : Digital (fun r => keyDigit I r.size) 0 (plug (frame :: outer ++ way) .nil) :=
      digital_plug.mpr ⟨trivial, by simp, aligned⟩
    rw [plug_append, emptied] at rest
    obtain ⟨below, follow, aligned'⟩ := digital_plug.mp rest
    have follow' := (digital_plug.mp placed).2.1 w (inWhole.mem_iff.mpr (by simp))
    refine digital_plug.mpr ⟨below, fun other member => ?_, aligned'⟩
    rcases List.mem_cons.mp member with rfl | deeper
    · exact follow'
    · exact follow other (List.mem_cons_of_mem _ deeper)

end Cut

/-! ## The bin and its links -/

/-- `X` in its place as the bin is linked. -/
theorem Hole.of_linked (linked : TreeAt SizeRing.chunk L.child (TreeNode L I) none
    (plug way (.node r zero one))) : Hole L I r.chunk way zero one := by
  obtain ⟨framed, node, toZero, toOne, inZero, inOne⟩ := treeAt_plug.mp linked
  exact ⟨framed, node.parent, node.index _ (by simp), toZero, toOne, inZero, inOne⟩

/-- The treemap and the roots after what led to `X` is relinked. -/
theorem relinked_bins (tries : Tries s forest) (bound : I < 32) (nonempty : forest I ≠ .nil)
    (sameBins : L.treebins = s.gm.treebins) (sameMap : L.treemap = s.gm.treemap)
    (atRoot : way = [] → root tree = R) (below : way ≠ [] → root tree = root (forest I)) :
    (L.relinked I R way).treemap < 2 ^ 32 ∧
      (∀ i < 32, (L.relinked I R way).treemap.testBit i =
        if i = I then decide (root tree ≠ 0) else s.gm.treemap.testBit i) ∧
      ∀ i < 32, (L.relinked I R way).treebins i =
        if i = I then root tree else s.gm.treebins i := by
  cases way with
  | nil =>
      have here := atRoot rfl
      have notNull : s.gm.treebins I ≠ 0 := by
        rw [tries.rooted I bound]
        exact mt (root_eq_zero fun r member => (tries.mapped I _ (chunk_mem member)).1).mp nonempty
      have set := (tries.marked I bound).mpr notNull
      rw [TreeLinks.relinked]
      by_cases none : R = 0
      · rw [if_pos none]
        refine ⟨clear_lt (sameMap ▸ tries.bits), fun i _ => ?_, fun i _ => ?_⟩
        · rw [TreeLinks.setMap_treemap, sameMap, testBit_clear tries.bits bound]
          by_cases atI : i = I
          · simp [atI, here, none]
          · simp [atI, Ne.symm atI]
        · simp [sameBins, Function.update_apply, here]
      · rw [if_neg none]
        refine ⟨sameMap ▸ tries.bits, fun i _ => ?_, fun i _ => ?_⟩
        · rw [TreeLinks.setBin_treemap, sameMap]
          by_cases atI : i = I
          · simp [atI, here, none, set]
          · simp [atI]
        · simp [sameBins, Function.update_apply, here]
  | cons frame outer =>
      have bin := tries.kept_bin bound nonempty (below (by simp))
      refine ⟨sameMap ▸ tries.bits, fun i _ => ?_, fun i _ => ?_⟩
      · rw [TreeLinks.relinked, TreeLinks.set_treemap, sameMap]
        exact (bin i).1
      · rw [TreeLinks.relinked, TreeLinks.set_treebins, sameBins]
        exact (bin i).2

/-! ## unlink_large_chunk -/

/-- Removal returns, and bin `I` holds its other chunks, nothing else changed. -/
def Unlinked (s : Store) (forest : Nat → BinaryTree SizeRing) (I X fuel : Nat)
    (tree : BinaryTree SizeRing) : Prop :=
  ∃ s', unlinkLargeChunk fuel X s = .ok () s' ∧ (X :: chunks tree).Perm (chunks (forest I)) ∧
    Rebinned s forest I X tree s'

section Unlink

variable (tries : Tries s forest) (bound : I < 32)
  (shape : forest I = plug way (.node r zero one))

include shape

theorem node_mem : r.chunk ∈ chunks (forest I) := by
  rw [shape, (chunks_plug_node way zero one).mem_iff]
  simp

include tries

theorem seen_frame {frame : Frame SizeRing} (first : frame ∈ way.head?) :
    frame.item.chunk ∈ chunks (forest I) ∧ root frame.other ≠ r.chunk := by
  have moved := chunks_plug_node (r := r) way zero one
  rw [← shape] at moved
  have nodup := moved.nodup_iff.mp (tries.nodup I)
  rw [List.nodup_append', List.disjoint_append_right] at nodup
  refine ⟨moved.mem_iff.mpr ?_, fun same => ?_⟩
  · exact List.mem_append_right _ (List.mem_append_left _ (frame_mem first))
  · have notNull := (tries.mapped I _ (node_mem shape)).1
    have beside := (root_mem frame.other).resolve_left (by rw [same]; exact notNull)
    obtain ⟨q, member, inside⟩ := mem_chunks.mp beside
    refine nodup.2.2.1 (show r.chunk ∈ r.chunks by simp) (same ▸ mem_chunksOf.mpr ⟨q, ?_, inside⟩)
    cases way with
    | nil => simp at first
    | cons other outer =>
        obtain rfl : other = frame := by simpa using first
        simp [Frame.members, member]

/-- What is beside a ring keeps its fields when two members are bridged. -/
theorem bridged_kept {F : Nat} (hereF : F ∈ r.chunks) (hereR : R ∈ r.chunks) :
    ∀ p ∈ chunksOf (passed way) ++ (chunks zero ++ chunks one), ∀ f,
      (s.treeLinks.bridged F R).field f p = s.treeLinks.field f p := by
  have moved := chunks_plug_node (r := r) way zero one
  rw [← shape] at moved
  have nodup := moved.nodup_iff.mp (tries.nodup I)
  rw [List.nodup_append'] at nodup
  intro p member f
  refine TreeLinks.bridged_apart ?_ ?_ f
  · rintro rfl
    exact nodup.2.2 hereF member
  · rintro rfl
    exact nodup.2.2 hereR member

include bound

theorem root_seen : (way = [] → s.gm.treebins I = r.chunk) ∧
    (way ≠ [] → s.gm.treebins I ≠ r.chunk) := by
  rw [tries.rooted I bound, shape]
  constructor
  · rintro rfl
    rfl
  · intro inner
    obtain ⟨frame, outer, rfl⟩ := List.exists_cons_of_ne_nil inner
    obtain ⟨item, member, here⟩ : ∃ item ∈ passed (frame :: outer),
        root (plug (frame :: outer) (.node r zero one)) = item.chunk := address_plug
    have moved := chunks_plug_node (r := r) (frame :: outer) zero one
    rw [← shape] at moved
    have nodup := moved.nodup_iff.mp (tries.nodup I)
    rw [List.nodup_append', List.disjoint_append_right] at nodup
    rw [here]
    intro same
    exact nodup.2.2.1 (show r.chunk ∈ r.chunks by simp)
      (mem_chunksOf.mpr ⟨item, member, by simp [← same]⟩)

/-- A node is unlinked, given what replaces it. -/
theorem Hole.unlinked {L' : TreeLinks} {zero' one' : BinaryTree SizeRing} {fuel : Nat}
    (hole : Hole L I r.chunk way zero' one')
    (same : L.treebins = s.gm.treebins ∧ L.treemap = s.gm.treemap ∧
      s.treeLinks.field .parent r.chunk = L.field .parent r.chunk) (fits : R < 2 ^ 64)
    (replaced : Shows s (Tries.Touched forest I r.chunk)
      (unlinkLargeChunk.replacement fuel r.chunk) s R L)
    (inherits : ∀ after, Mirrors s (Tries.Touched forest I r.chunk) (L.relinked I R way) after →
      Shows s (Tries.Touched forest I r.chunk)
        (unlinkLargeChunk.inherit r.chunk R (L.field .parent r.chunk)) after () L')
    (bins : L'.treemap = (L.relinked I R way).treemap ∧
      L'.treebins = (L.relinked I R way).treebins)
    (cut : Cut forest I r.chunk tree) (atRoot : way = [] → root tree = R)
    (below : way ≠ [] → root tree = root (forest I))
    (linked : TreeAt SizeRing.chunk L'.child (TreeNode L' I) none tree) :
    Unlinked s forest I r.chunk fuel tree := by
  have member := node_mem shape
  have nonempty : forest I ≠ .nil := by
    intro none
    simp [none] at member
  obtain ⟨sameBins, sameMap, parent⟩ := same
  obtain ⟨atTop, inner⟩ := root_seen tries bound shape
  obtain ⟨s', ran, mirrors⟩ := unlink_run (tries.ground (tries.room member) I) (Or.inl rfl) hole
    parent replaced fits (fun top => sameBins ▸ atTop top) (fun deeper => sameBins ▸ inner deeper)
    (fun frame first => by
      obtain ⟨inside, beside⟩ := seen_frame tries shape first
      exact ⟨Or.inr inside, (tries.mapped I _ inside).1, tries.least I _ inside, beside⟩) inherits
  obtain ⟨bits, marked, rooted⟩ := relinked_bins tries bound nonempty sameBins sameMap atRoot below
  have new := cut.newBin tries linked (bins.1 ▸ bits) (bins.1 ▸ marked) (bins.2 ▸ rooted)
  refine ⟨s', ran, cut.perm, new.rebinned tries (tries.room member) mirrors fun j other inside => ?_⟩
  exact other (tries.index_unique inside member)

/-- By a chunk that takes the node's place. -/
theorem Hole.unlinked_heir {zero' one' : BinaryTree SizeRing} {fuel : Nat}
    (hole : Hole L I r.chunk way zero' one') (heir : Heir L I q)
    (same : L.treebins = s.gm.treebins ∧ L.treemap = s.gm.treemap ∧
      s.treeLinks.field .parent r.chunk = L.field .parent r.chunk)
    (replaced : Shows s (Tries.Touched forest I r.chunk)
      (unlinkLargeChunk.replacement fuel r.chunk) s q.chunk L)
    (cut : Cut forest I r.chunk (plug way (.node q zero' one'))) :
    Unlinked s forest I r.chunk fuel (plug way (.node q zero' one')) := by
  have member := node_mem shape
  have ground := tries.ground (tries.room member) I
  have moved := chunks_plug_node (r := q) way zero' one'
  have inBin : ∀ p, p ∈ q.chunks ∨ p ∈ chunksOf (passed way) ∨ p ∈ chunks zero' ∨
      p ∈ chunks one' → p ∈ chunks (forest I) := by
    intro p inside
    refine cut.mem (moved.mem_iff.mpr ?_)
    simpa only [List.mem_append] using inside
  have nodup := cut.nodup tries
  have nodup' := (moved.cons r.chunk).nodup_iff.mp nodup
  simp only [List.nodup_cons, List.mem_append, not_or, List.nodup_append',
    List.disjoint_append_right] at nodup'
  obtain ⟨⟨notRing, notWay, notZero, notOne⟩, -, -, ringWay, ringZero, ringOne⟩ := nodup'
  have head : q.chunk ∈ q.chunks := by simp
  have atHeir := inBin q.chunk (Or.inl head)
  have notNull := (tries.mapped I _ atHeir).1
  have notX : q.chunk ≠ r.chunk := fun same => notRing (same ▸ head)
  have belowRoot : ∀ C, C ≠ 0 → (C = root zero' ∨ C = root one') →
      C ∈ chunks zero' ∨ C ∈ chunks one' := by
    rintro C nonzero (rfl | rfl)
    · exact Or.inl ((root_mem zero').resolve_left nonzero)
    · exact Or.inr ((root_mem one').resolve_left nonzero)
  -- the heir is not among the children it takes over
  have notBelow : q.chunk ≠ root zero' ∧ q.chunk ≠ root one' := by
    refine ⟨fun same => ringZero head ?_, fun same => ringOne head ?_⟩
    · rw [same] at notNull ⊢
      exact (root_mem zero').resolve_left notNull
    · rw [same] at notNull ⊢
      exact (root_mem one').resolve_left notNull
  have fits := (tries.mapped I _ atHeir).2.1
  have fitsParent : L.field .parent r.chunk < 2 ^ 64 := by
    rw [← same.2.2]
    exact s.mem.load_lt (r.chunk + 48) 8
  refine Hole.unlinked tries bound shape hole same (by omega) replaced (fun after mirrors => ?_)
    ⟨TreeLinks.inherited_treemap, TreeLinks.inherited_treebins⟩ cut ?_ ?_
    (hole.fill heir (TreeLinks.filled_fills heir.bare notBelow.1 notBelow.2 ?_) ?_
      (List.nodup_cons.mp nodup).2)
  · have kept : ∀ side, (L.relinked I q.chunk way).child side r.chunk = L.child side r.chunk := by
      refine fun side => TreeLinks.relinked_other ?_
      rintro frame first ⟨-, here⟩
      exact notWay (here ▸ frame_mem first)
    refine inherit_run ground mirrors (Or.inl rfl) (Or.inr atHeir) notX notNull
      (tries.least I _ atHeir) fitsParent ((kept false).trans hole.toZero)
      ((kept true).trans hole.toOne) fun C nonzero below => ?_
    have inside := inBin C (Or.inr (Or.inr (belowRoot C nonzero below)))
    exact ⟨Or.inr inside, tries.least I _ inside⟩
  · rintro rfl
    rfl
  · intro deeper
    obtain ⟨frame, outer, rfl⟩ := List.exists_cons_of_ne_nil deeper
    rw [shape]
    exact address_plug_same outer (by rw [address_fill, address_fill])
  · rintro frame first here
    exact ringWay head (here ▸ frame_mem first)
  · exact fun p inside => (tries.mapped I p (cut.mem inside)).1

/-- By nothing. -/
theorem unlinked_leaf (leaf : zero = .nil ∧ one = .nil) (alone : r.mates = []) (fuel : Nat) :
    Unlinked s forest I r.chunk fuel (plug way .nil) := by
  obtain ⟨rfl, rfl⟩ := leaf
  have member := node_mem shape
  have linked := tries.linked I
  rw [shape] at linked
  have node := (treeAt_plug.mp linked).2.1
  have hole := Hole.of_linked linked
  have cut := Cut.of_leaf tries shape alone
  have nodup := (List.nodup_cons.mp (cut.nodup tries)).2
  rw [(chunks_plug way _).nodup_iff, chunks_nil, List.append_nil] at nodup
  have ring := ring_header node.ring
  rw [alone] at ring
  have bare : ∀ side, s.treeLinks.child side r.chunk = 0 := by
    intro side
    cases side with
    | false => exact hole.toZero
    | true => exact hole.toOne
  have ground := tries.ground (tries.room member) I
  refine Hole.unlinked tries bound shape hole ⟨rfl, rfl, rfl⟩ (by decide)
    (none_run ground (Or.inl rfl) fuel ring.2.1 bare) (fun after mirrors => ?_) ⟨rfl, rfl⟩ cut ?_ ?_
    (hole.clear nodup)
  · rw [unlinkLargeChunk.inherit, if_neg (not_not.mpr rfl)]
    exact Shows.pure mirrors
  · rintro rfl
    rfl
  · intro deeper
    obtain ⟨frame, outer, rfl⟩ := List.exists_cons_of_ne_nil deeper
    rw [shape]
    exact address_plug_same outer (by rw [address_fill, address_fill])

/-- By a leaf from below. -/
theorem unlinked_dug (inner : zero ≠ .nil ∨ one ≠ .nil) (alone : r.mates = []) :
    ∃ w zero' one', ∀ fuel ≥ (BinaryTree.node r zero one).height,
      Unlinked s forest I r.chunk fuel (plug way (.node w zero' one')) := by
  have member := node_mem shape
  have ground := tries.ground (tries.room member) I
  have linked := tries.linked I
  rw [shape] at linked
  have below := (treeAt_plug.mp linked).2
  have ring := ring_header below.1.ring
  rw [alone] at ring
  have members := items_plug way (.node r zero one)
  rw [← shape] at members
  have seen : ∀ q ∈ items (.node r zero one), Tries.Touched forest I r.chunk q.chunk ∧
      q.chunk ≠ 0 ∧ s.gm.leastAddr ≤ q.chunk := by
    intro q inside
    have inBin := chunk_mem (members.mem_iff.mpr (List.mem_append_right _ inside))
    exact ⟨Or.inr inBin, (tries.mapped I _ inBin).1, tries.least I _ inBin⟩
  obtain ⟨frame, outer, w, zero', one', whole, emptied, run⟩ :=
    dig_run ground below ring.2.1 seen inner
  have cut := Cut.of_dug tries shape whole emptied alone
  rw [whole, ← plug_append] at linked
  have nodup := tries.nodup I
  rw [shape, whole, ← plug_append] at nodup
  obtain ⟨dug, heir⟩ := leaf_dug linked nodup
  have regroup : plug (frame :: outer.append way) .nil = plug way (plug (frame :: outer) .nil) :=
    plug_append (frame :: outer) way .nil
  rw [regroup, emptied] at dug
  have isChild : Field.child frame.side ≠ .parent := by cases frame.side <;> decide
  refine ⟨w, zero', one', fun fuel large => ?_⟩
  refine Hole.unlinked_heir tries bound shape (Hole.of_linked dug) heir ⟨rfl, rfl, ?_⟩
    (run fuel large) cut
  simp [Ne.symm isChild]

/-- A node with others on its ring: the last of them takes its place. -/
theorem unlinked_header {members : List Nat} {last : Nat} (mates : r.mates = members ++ [last])
    (fuel : Nat) : Unlinked s forest I r.chunk fuel
      (plug way (.node ⟨r.size, last, members⟩ zero one)) := by
  have member := node_mem shape
  have ground := tries.ground (tries.room member) I
  have linked := tries.linked I
  rw [shape] at linked
  have node := (treeAt_plug.mp linked).2.1
  have ring := node.ring
  have nodup := node.nodup
  rw [SizeRing.chunks, mates] at nodup
  rw [mates] at ring
  obtain ⟨next, prev, forth, back⟩ := ring_header ring
  have first : (members ++ [last]).headD r.chunk = members.headD last := by cases members <;> rfl
  rw [List.getLastD_concat] at prev forth
  rw [first] at next back
  have inBin : ∀ p ∈ r.chunks, p ∈ chunks (forest I) := by
    intro p inside
    rw [shape, (chunks_plug_node way zero one).mem_iff]
    exact List.mem_append_left _ inside
  have lastMate : last ∈ r.mates := by simp [mates]
  have firstMate : members.headD last ∈ r.mates := by
    rw [mates]
    cases members <;> simp
  have lastIn : last ∈ r.chunks := by simp [lastMate]
  have firstIn : members.headD last ∈ r.chunks := SizeRing.mem_chunks.mpr (Or.inr firstMate)
  -- bk of the header is the last of the ring, which becomes the header
  have lastOnce : ∀ p ∈ members, p ≠ last := by
    rintro p inside rfl
    rw [List.nodup_cons, List.nodup_append'] at nodup
    exact nodup.2.2.2 inside (by simp)
  have notAlone : last ≠ r.chunk := by
    rintro same
    exact (List.nodup_cons.mp nodup).1 (by simp [← same])
  have replaced := bridge_run ground (Or.inl rfl) fuel next prev notAlone
    (Or.inr (inBin _ firstIn)) (Or.inr (inBin _ lastIn)) (tries.least I _ (inBin _ firstIn))
    back forth
  have cut : Cut forest I r.chunk (plug way (.node ⟨r.size, last, members⟩ zero one)) := by
    refine Cut.of_ring tries shape rfl ?_
    rw [SizeRing.chunks, SizeRing.chunks, mates]
    exact (List.perm_append_singleton last members).symm.cons r.chunk
  have mate : ∀ p ∈ r.mates, ∀ f, f ≠ .fd → f ≠ .bk →
      (s.treeLinks.bridged (members.headD last) last).field f p = s.treeLinks.field f p :=
    fun p _ f => TreeLinks.bridged_other
  have heir : Heir (s.treeLinks.bridged (members.headD last) last) I ⟨r.size, last, members⟩ := by
    refine ⟨⟨ring_remove_header nodup ring ?_ ?_ ?_ ?_, fun p inside => ?_⟩, ?_, fun p inside => ?_,
      fun p inside => ⟨?_, fun side => ?_⟩, fun side => ?_⟩
    · simp [TreeLinks.bridged]
    · simp [TreeLinks.bridged]
    · intro other inside
      simp [TreeLinks.bridged, lastOnce other inside]
    · intro other _ away
      rw [TreeLinks.bridged, TreeLinks.set_field, if_neg (by simp), TreeLinks.set_field,
        if_neg fun written => away written.2]
    · refine node.sized p (SizeRing.mem_chunks.mpr (Or.inr ?_))
      rw [mates]
      simpa [or_comm] using inside
    · exact (List.perm_append_singleton last members).nodup_iff.mp (List.nodup_cons.mp nodup).2
    · have inside' : p ∈ r.mates := by
        rw [mates]
        simpa [or_comm] using inside
      rw [mate p inside' .index (by decide) (by decide), node.index p (by simp [inside'])]
    · have inside' : p ∈ r.mates := by simp [mates, inside]
      rw [mate p inside' .parent (by decide) (by decide), (node.mate p inside').1]
    · have inside' : p ∈ r.mates := by simp [mates, inside]
      exact (mate p inside' _ (by cases side <;> decide) (by cases side <;> decide)).trans
        ((node.mate p inside').2 side)
    · exact (mate last lastMate _ (by cases side <;> decide) (by cases side <;> decide)).trans
        ((node.mate last lastMate).2 side)
  exact Hole.unlinked_heir tries bound shape
    ((Hole.of_linked linked).bridged (bridged_kept tries shape firstIn lastIn)) heir
    ⟨rfl, rfl, (TreeLinks.bridged_other (by decide) (by decide)).symm⟩ replaced cut

/-- Another member of the ring. -/
theorem unlinked_mate {left right : List Nat} (mates : r.mates = left ++ X :: right)
    (fuel : Nat) : Unlinked s forest I X fuel
      (plug way (.node ⟨r.size, r.chunk, left ++ right⟩ zero one)) := by
  have linked := tries.linked I
  rw [shape] at linked
  have node := (treeAt_plug.mp linked).2.1
  have ring := node.ring
  have nodup := node.nodup
  rw [SizeRing.chunks, mates] at nodup
  rw [mates] at ring
  obtain ⟨next, prev, forth, back⟩ := ring_neighbours ring
  have inBin : ∀ p ∈ r.chunks, p ∈ chunks (forest I) := by
    intro p inside
    rw [shape, (chunks_plug_node way zero one).mem_iff]
    exact List.mem_append_left _ inside
  have hereX : X ∈ r.mates := by simp [mates]
  have member := inBin X (by simp [hereX])
  have ground := tries.ground (tries.room member) I
  have hereF : right.headD r.chunk ∈ r.chunks := by
    cases right <;> simp [SizeRing.chunks, mates]
  have hereR : left.getLastD r.chunk ∈ r.chunks := by
    rcases List.eq_nil_or_concat left with rfl | ⟨most, last, rfl⟩
    · simp
    · simp [SizeRing.chunks, mates]
  -- a mate has the header beside it at least
  have notAlone : left.getLastD r.chunk ≠ X := by
    rcases List.eq_nil_or_concat left with rfl | ⟨most, last, rfl⟩
    · rintro same
      exact (List.nodup_cons.mp nodup).1 (by simp [← same])
    · rintro same
      simp only [List.concat_eq_append, List.getLastD_concat] at same
      have twice : (most ++ X :: X :: right).Nodup := by
        simpa [same] using (List.nodup_cons.mp nodup).2
      exact absurd (twice.sublist (List.sublist_append_right most _)) (by simp)
  have replaced := bridge_run ground (Or.inl rfl) fuel next prev notAlone
    (Or.inr (inBin _ hereF)) (Or.inr (inBin _ hereR)) (tries.least I _ (inBin _ hereF)) back forth
  have start := (Mirrors.refl s (Tries.Touched forest I X)).parent ground (Or.inl rfl)
  rw [(node.mate X hereX).1] at start
  have ran : Shows s (Tries.Touched forest I X) (unlinkLargeChunk fuel X) s ()
      (s.treeLinks.bridged (right.headD r.chunk) (left.getLastD r.chunk)) := by
    rw [unlinkLargeChunk]
    refine Shows.read start (Shows.bind replaced fun a mirrors => ?_)
    -- a mate has no parent, so nothing is inherited
    rw [if_neg (not_not.mpr rfl)]
    exact Shows.pure mirrors
  obtain ⟨s', ran, mirrors⟩ := ran
  have cut : Cut forest I X (plug way (.node ⟨r.size, r.chunk, left ++ right⟩ zero one)) := by
    refine Cut.of_ring tries shape rfl ?_
    rw [SizeRing.chunks, SizeRing.chunks, mates]
    exact (List.Perm.swap r.chunk X _).trans (List.perm_middle.symm.cons r.chunk)
  have hole := (Hole.of_linked linked).bridged (bridged_kept tries shape hereF hereR)
  have nonempty : forest I ≠ .nil := by
    intro none
    simp [none] at member
  have sameRoot : root (plug way (.node ⟨r.size, r.chunk, left ++ right⟩ zero one)) =
      root (forest I) := by
    rw [shape]
    exact address_plug_same way rfl
  have bin := tries.kept_bin bound nonempty sameRoot
  have linked' : TreeAt SizeRing.chunk _ _ none
      (plug way (.node ⟨r.size, r.chunk, left ++ right⟩ zero one)) :=
    treeAt_plug.mpr ⟨hole.framed, mate_node node mates, hole.toZero, hole.toOne, hole.inZero,
      hole.inOne⟩
  have new := cut.newBin tries linked' tries.bits (fun i _ => (bin i).1) fun i _ => (bin i).2
  refine ⟨s', ran, cut.perm, new.rebinned tries (tries.room member) mirrors fun j other inside => ?_⟩
  exact other (tries.index_unique inside member)

end Unlink

/-! ## No link to the removed chunk -/

/-- The links an operation follows: roots, rings, children, and the parents of the nodes
that are not roots. -/
inductive Followed (s : Store) (forest : Nat → BinaryTree SizeRing) : Nat → Prop
  | root {i : Nat} (bound : i < 32) : Followed s forest (s.gm.treebins i)
  | next {i p : Nat} (member : p ∈ chunks (forest i)) :
      Followed s forest (s.treeLinks.field .fd p)
  | prev {i p : Nat} (member : p ∈ chunks (forest i)) :
      Followed s forest (s.treeLinks.field .bk p)
  | child {i p : Nat} (side : Bool) (member : p ∈ chunks (forest i)) :
      Followed s forest (s.treeLinks.child side p)
  | parent {i p : Nat} (member : p ∈ chunks (forest i)) (inner : p ≠ s.gm.treebins i) :
      Followed s forest (s.treeLinks.field .parent p)

/-- They lead to chunks in the bins. -/
theorem Tries.followed_mem (tries : Tries s forest) (followed : Followed s forest p) :
    p = 0 ∨ ∃ i, p ∈ chunks (forest i) := by
  induction followed with
  | root bound =>
      rename_i i
      rw [tries.rooted i bound]
      exact (root_mem _).imp_right fun inside => ⟨i, inside⟩
  | next member =>
      rename_i i p
      obtain ⟨r, inItems, inside⟩ := mem_chunks.mp member
      obtain ⟨up, node⟩ := tries.node inItems
      have follows := chain_follow node.ring p inside
      refine Or.inr ⟨i, mem_chunks.mpr ⟨r, inItems, ?_⟩⟩
      simpa [or_comm] using follows
  | prev member =>
      rename_i i p
      obtain ⟨r, inItems, inside⟩ := mem_chunks.mp member
      obtain ⟨up, node⟩ := tries.node inItems
      exact Or.inr ⟨i, mem_chunks.mpr ⟨r, inItems,
        chain_back node.ring p (by simpa [or_comm] using inside)⟩⟩
  | child side member =>
      rename_i i p
      obtain ⟨r, inItems, inside⟩ := mem_chunks.mp member
      rcases SizeRing.mem_chunks.mp inside with rfl | mate
      · refine ((tries.linked i).children r inItems side).imp_right fun found => ?_
        obtain ⟨q, below, leads⟩ := found
        exact ⟨i, leads ▸ chunk_mem below⟩
      · obtain ⟨up, node⟩ := tries.node inItems
        exact Or.inl ((node.mate p mate).2 side)
  | parent member inner =>
      rename_i i p
      obtain ⟨r, inItems, inside⟩ := mem_chunks.mp member
      rcases SizeRing.mem_chunks.mp inside with rfl | mate
      · rcases (tries.linked i).owned r inItems with ⟨atRoot, -⟩ | ⟨q, above, node⟩
        · exact absurd ((tries.rooted i (tries.index_lt inItems)).trans atRoot).symm inner
        · exact Or.inr ⟨i, node.parent ▸ chunk_mem above⟩
      · obtain ⟨up, node⟩ := tries.node inItems
        exact Or.inl (node.mate p mate).1

/-- One node or ring member at a time. -/
theorem unlinked (tries : Tries s forest) (member : X ∈ chunks (forest I)) :
    ∃ tree enough, ∀ fuel ≥ enough, Unlinked s forest I X fuel tree := by
  obtain ⟨r, inItems, inside⟩ := mem_chunks.mp member
  have bound := tries.index_lt inItems
  obtain ⟨way, zero, one, shape⟩ := exists_way inItems []
  have shape' : forest I = plug way (.node r zero one) := shape
  rcases SizeRing.mem_chunks.mp inside with rfl | mate
  · rcases List.eq_nil_or_concat r.mates with alone | ⟨members, last, mates⟩
    · by_cases leaf : zero = .nil ∧ one = .nil
      · exact ⟨_, 0, fun fuel _ => unlinked_leaf tries bound shape' leaf alone fuel⟩
      · obtain ⟨w, zero', one', run⟩ := unlinked_dug tries bound shape' (by tauto) alone
        exact ⟨_, _, run⟩
    · rw [List.concat_eq_append] at mates
      exact ⟨_, 0, fun fuel _ => unlinked_header tries bound shape' mates fuel⟩
  · obtain ⟨left, right, mates⟩ := List.append_of_mem mate
    exact ⟨_, 0, fun fuel _ => unlinked_mate tries bound shape' mates fuel⟩

/-- Every chunk of a bin can be unlinked: for all large enough loop bounds the call returns,
the bin has lost it, and nothing that is followed refers to it. -/
theorem unlinkLargeChunk_removes (tries : Tries s forest) (member : X ∈ chunks (forest I)) :
    ∃ tree enough, ∀ fuel ≥ enough, ∃ s', unlinkLargeChunk fuel X s = .ok () s' ∧
      (X :: chunks tree).Perm (chunks (forest I)) ∧ Rebinned s forest I X tree s' ∧
      (s'.gm.treemap.testBit I = false ↔ chunks tree = []) ∧
      ¬ Followed s' (Function.update forest I tree) X := by
  obtain ⟨tree, enough, run⟩ := unlinked tries member
  refine ⟨tree, enough, fun fuel large => ?_⟩
  obtain ⟨s', ran, perm, rebinned⟩ := run fuel large
  have after := rebinned.tries
  have bin : Function.update forest I tree I = tree := Function.update_self ..
  obtain ⟨r, inItems, -⟩ := mem_chunks.mp member
  have bound := tries.index_lt inItems
  refine ⟨s', ran, perm, rebinned, ?_, fun followed => ?_⟩
  · have notNull : ∀ r ∈ items tree, r.chunk ≠ 0 := by
      intro r inside
      have inNew : r.chunk ∈ chunks (Function.update forest I tree I) := by
        rw [bin]
        exact chunk_mem inside
      exact (after.mapped I _ inNew).1
    rw [Bool.eq_false_iff, Ne, after.marked I bound, after.rooted I bound, bin, not_not,
      root_eq_zero notNull]
    constructor
    · rintro rfl
      rfl
    · intro none
      cases tree with
      | nil => rfl
      | node r zero one => simp [SizeRing.chunks] at none
  · rcases after.followed_mem followed with null | ⟨i, inside⟩
    · exact (tries.mapped I X member).1 null
    · by_cases here : i = I
      · subst here
        rw [bin] at inside
        exact (List.nodup_cons.mp (perm.nodup_iff.mpr (tries.nodup i))).1 inside
      · rw [Function.update_of_ne here] at inside
        exact here (tries.index_unique inside member)

theorem unlinkLargeChunk_removes_first : ∃ s forest, Holding [12288, 8192, 4096] s forest ∧
    ∀ p ∈ [12288, 8192, 4096], ∃ tree enough, ∀ fuel ≥ enough, ∃ s',
      unlinkLargeChunk fuel p s = .ok () s' ∧ (p :: chunks tree).Perm (chunks (forest 0)) ∧
        Rebinned s forest 0 p tree s' ∧ (s'.gm.treemap.testBit 0 = false ↔ chunks tree = []) ∧
        ¬ Followed s' (Function.update forest 0 tree) p := by
  obtain ⟨s, forest, filled⟩ := Store.loose_filled
  exact ⟨s, forest, filled, fun p member =>
    unlinkLargeChunk_removes filled.tries ((filled.binned 0 p).mpr ⟨rfl, member⟩)⟩

end Unimem
