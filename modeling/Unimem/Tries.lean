import Unimem.TreeLinks
import Unimem.LinkedTree
import Unimem.LinkedRing
import Unimem.TreeBins

/-!
Tree bins of any depth. The chunks of one size form a ring, of which one is a
node of the bin's tree; nodes are placed by the leading bits of their size
shifted left for the bin. `Bins` is what the searches rely on; `Tries` adds what
insertion and removal keep: the parent links, the null fields of the other ring
members, and one node for each size.
-/

namespace Unimem

open ByteMemory Memory LinkedRing WordArith MallocState DigitalTree LinkedTree

/-- The chunks of one size: the node in the tree, then the others around the ring. -/
structure SizeRing where
  size : Nat
  chunk : Nat
  mates : List Nat

namespace SizeRing

def chunks (r : SizeRing) : List Nat := r.chunk :: r.mates

@[simp] theorem mem_chunks {r : SizeRing} {p : Nat} :
    p ∈ r.chunks ↔ p = r.chunk ∨ p ∈ r.mates := List.mem_cons

end SizeRing

abbrev root (tree : BinaryTree SizeRing) : Nat := address SizeRing.chunk tree

def chunksOf (rings : List SizeRing) : List Nat := rings.flatMap SizeRing.chunks

def chunks (tree : BinaryTree SizeRing) : List Nat := chunksOf (items tree)

/-- Bit `depth` of `size << leftshift_for_tree_index(i)`, from the left. -/
def keyDigit (i size depth : Nat) : Bool :=
  decide (depth < 64) && (shl64 size (leftshiftForTreeIndex i)).testBit (63 - depth)

/-- A tree node and its ring, as the links show them. -/
structure RingNode (L : TreeLinks) (r : SizeRing) : Prop where
  ring : Ring (L.field .fd) (L.field .bk) r.chunk r.mates
  sized : ∀ p ∈ r.chunks, L.size p = r.size

/-- A root's parent field only has to be non-null. -/
structure TreeNode (L : TreeLinks) (i : Nat) (up : Option Nat) (r : SizeRing) : Prop
    extends RingNode L r where
  nodup : r.chunks.Nodup
  index : ∀ p ∈ r.chunks, L.field .index p = i
  parent : match up with
    | none => L.field .parent r.chunk ≠ 0
    | some p => L.field .parent r.chunk = p
  mate : ∀ p ∈ r.mates, L.field .parent p = 0 ∧ ∀ side, L.child side p = 0

structure Bins (own : Nat → Option Nat → SizeRing → Prop) (s : Store)
    (forest : Nat → BinaryTree SizeRing) : Prop where
  bits : s.gm.treemap < 2 ^ 32
  marked : ∀ i < 32, s.gm.treemap.testBit i = true ↔ s.gm.treebins i ≠ 0
  rooted : ∀ i < 32, s.gm.treebins i = root (forest i)
  linked : ∀ i, TreeAt SizeRing.chunk s.treeLinks.child (own i) none (forest i)
  placed : ∀ i, Digital (fun r => keyDigit i r.size) 0 (forest i)
  sized : ∀ i, ∀ r ∈ items (forest i), minLargeSize ≤ r.size ∧ computeTreeIndex r.size = i
  mapped : ∀ i, ∀ p ∈ chunks (forest i),
    p ≠ 0 ∧ p + 64 ≤ 2 ^ 64 ∧ s.mem.accessible p 64 = true

structure Tries (s : Store) (forest : Nat → BinaryTree SizeRing) : Prop
    extends Bins (TreeNode s.treeLinks) s forest where
  distinct : ∀ i, ((items (forest i)).map SizeRing.size).Nodup
  least : ∀ i, ∀ p ∈ chunks (forest i), s.gm.leastAddr ≤ p
  apart : ∀ i j, ∀ p ∈ chunks (forest i), ∀ q ∈ chunks (forest j),
    p = q ∨ p + 64 ≤ q ∨ q + 64 ≤ p

/-- `X` can hold the fields of a tree chunk without touching those in the bins. -/
structure Room (s : Store) (forest : Nat → BinaryTree SizeRing) (X : Nat) : Prop where
  mapped : X ≠ 0 ∧ X + 64 ≤ 2 ^ 64 ∧ s.mem.accessible X 64 = true
  least : s.gm.leastAddr ≤ X
  apart : ∀ i, ∀ p ∈ chunks (forest i), X = p ∨ X + 64 ≤ p ∨ p + 64 ≤ X

section Chunks

variable {rings rings' : List SizeRing} {r : SizeRing} {p : Nat} {tree : BinaryTree SizeRing}

theorem mem_chunksOf : p ∈ chunksOf rings ↔ ∃ r ∈ rings, p ∈ r.chunks := List.mem_flatMap

@[simp] theorem chunksOf_nil : chunksOf [] = [] := rfl

@[simp] theorem chunksOf_cons : chunksOf (r :: rings) = r.chunks ++ chunksOf rings := rfl

@[simp] theorem chunksOf_append : chunksOf (rings ++ rings') = chunksOf rings ++ chunksOf rings' :=
  List.flatMap_append

theorem mem_chunks : p ∈ chunks tree ↔ ∃ r ∈ items tree, p ∈ r.chunks := mem_chunksOf

@[simp] theorem chunks_nil : chunks .nil = [] := rfl

@[simp] theorem chunks_node {zero one : BinaryTree SizeRing} :
    chunks (.node r zero one) = r.chunks ++ (chunks zero ++ chunks one) := by
  simp [chunks]

theorem chunk_mem (member : r ∈ items tree) : r.chunk ∈ chunks tree :=
  mem_chunks.mpr ⟨r, member, by simp⟩

theorem root_mem (tree : BinaryTree SizeRing) : root tree = 0 ∨ root tree ∈ chunks tree := by
  have found : root tree = 0 ∨ ∃ r ∈ items tree, root tree = r.chunk := address_mem tree
  rcases found with none | ⟨r, member, here⟩
  · exact Or.inl none
  · exact Or.inr (by rw [here]; exact chunk_mem member)

theorem root_eq_zero (nonzero : ∀ r ∈ items tree, r.chunk ≠ 0) : root tree = 0 ↔ tree = .nil := by
  cases tree with
  | nil => simp
  | node r zero one => simpa using nonzero r (by simp)

theorem chunks_plug (way : List (Frame SizeRing)) (tree : BinaryTree SizeRing) :
    (chunks (plug way tree)).Perm (chunksOf (passed way) ++ chunks tree) := by
  rw [chunks, chunks, ← chunksOf_append]
  exact (items_plug way tree).flatMap_right SizeRing.chunks

theorem chunks_plug_node (way : List (Frame SizeRing)) (zero one : BinaryTree SizeRing) :
    (chunks (plug way (.node r zero one))).Perm
      (r.chunks ++ (chunksOf (passed way) ++ (chunks zero ++ chunks one))) := by
  refine (chunks_plug way _).trans ?_
  rw [chunks_node]
  exact List.perm_append_comm_assoc _ _ _

/-- Rings of different sizes share no chunk, since a chunk has one size. -/
theorem nodup_chunksOf {size : Nat → Nat} (sized : ∀ r ∈ rings, ∀ p ∈ r.chunks, size p = r.size)
    (each : ∀ r ∈ rings, r.chunks.Nodup) (distinct : (rings.map SizeRing.size).Nodup) :
    (chunksOf rings).Nodup := by
  induction rings with
  | nil => exact List.nodup_nil
  | cons r rest ih =>
      rw [List.map_cons, List.nodup_cons] at distinct
      rw [chunksOf_cons, List.nodup_append]
      refine ⟨each r (by simp), ih (fun q member => sized q (by simp [member]))
        (fun q member => each q (by simp [member])) distinct.2, ?_⟩
      rintro p inside q outside rfl
      obtain ⟨other, member, there⟩ := mem_chunksOf.mp outside
      have same : r.size = other.size := by
        rw [← sized r (by simp) p inside, sized other (by simp [member]) p there]
      exact distinct.1 (same ▸ List.mem_map_of_mem member)

end Chunks

theorem TreeNode.congr {L L' : TreeLinks} {i : Nat} {up : Option Nat} {r : SizeRing}
    (node : TreeNode L i up r) (sizes : ∀ p ∈ r.chunks, L'.size p = L.size p)
    (fields : ∀ p ∈ r.chunks, ∀ f, ((f = .zero ∨ f = .one) ∧ p = r.chunk) ∨
      L'.field f p = L.field f p) : TreeNode L' i up r := by
  have kept : ∀ p ∈ r.chunks, ∀ f, f ≠ .zero → f ≠ .one → L'.field f p = L.field f p :=
    fun p member f notZero notOne => (fields p member f).resolve_left (by tauto)
  have notHead : ∀ p ∈ r.mates, p ≠ r.chunk := by
    rintro p member rfl
    exact (List.nodup_cons.mp node.nodup).1 member
  refine ⟨⟨?_, fun p member => ?_⟩, node.nodup, fun p member => ?_, ?_, fun p member => ?_⟩
  · exact ring_congr node.ring (fun p member => kept p member .fd (by decide) (by decide))
      fun p member => kept p member .bk (by decide) (by decide)
  · rw [sizes p member, node.sized p member]
  · rw [kept p member .index (by decide) (by decide), node.index p member]
  · have parent := node.parent
    cases up with
    | none => simpa only [kept r.chunk (by simp) .parent (by decide) (by decide)] using parent
    | some p => simpa only [kept r.chunk (by simp) .parent (by decide) (by decide)] using parent
  · have inside : p ∈ r.chunks := by simp [member]
    refine ⟨?_, fun side => ?_⟩
    · rw [kept p inside .parent (by decide) (by decide), (node.mate p member).1]
    · have same := (fields p inside (Field.child side)).resolve_left
        fun changed => notHead p member changed.2
      exact same.trans ((node.mate p member).2 side)

/-! ## Trees whose fields are kept -/

section Kept

variable {L L' : TreeLinks} {i hole hole' : Nat} {up : Option Nat} {tree : BinaryTree SizeRing}
  {way outer : List (Frame SizeRing)} {frame : Frame SizeRing}

theorem treeAt_kept (linked : TreeAt SizeRing.chunk L.child (TreeNode L i) up tree)
    (sizes : L'.size = L.size) (same : ∀ p ∈ chunks tree, ∀ f, L'.field f p = L.field f p) :
    TreeAt SizeRing.chunk L'.child (TreeNode L' i) up tree := by
  refine linked.congr (fun r member up node => node.congr ?_ ?_) fun r member side => ?_
  · exact fun p _ => congrFun sizes p
  · exact fun p inside f => Or.inr (same p (mem_chunks.mpr ⟨r, member, inside⟩) f)
  · exact same _ (chunk_mem member) _

theorem framed_kept (framed : Framed SizeRing.chunk L.child (TreeNode L i) up way hole)
    (sizes : L'.size = L.size)
    (same : ∀ p ∈ chunksOf (passed way), ∀ f, L'.field f p = L.field f p) :
    Framed SizeRing.chunk L'.child (TreeNode L' i) up way hole := by
  refine framed.congr (fun r member up node => node.congr ?_ ?_) fun r member side => ?_
  · exact fun p _ => congrFun sizes p
  · exact fun p inside f => Or.inr (same p (mem_chunksOf.mpr ⟨r, member, inside⟩) f)
  · exact same _ (mem_chunksOf.mpr ⟨r, member, by simp⟩) _

/-- Only the link above the end of the way is written. -/
theorem framed_relinked
    (framed : Framed SizeRing.chunk L.child (TreeNode L i) up (frame :: outer) hole)
    (nodup : (chunksOf (passed (frame :: outer))).Nodup) (sizes : L'.size = L.size)
    (down : L'.child frame.side frame.item.chunk = hole')
    (same : ∀ p ∈ chunksOf (passed (frame :: outer)), ∀ f,
      ¬ (f = Field.child frame.side ∧ p = frame.item.chunk) → L'.field f p = L.field f p) :
    Framed SizeRing.chunk L'.child (TreeNode L' i) up (frame :: outer) hole' := by
  have members : passed (frame :: outer) = frame.item :: (items frame.other ++ passed outer) := rfl
  have distinct : ∀ r ∈ items frame.other ++ passed outer, frame.item.chunk ∉ r.chunks := by
    intro r member inside
    rw [members, chunksOf_cons, List.nodup_append] at nodup
    exact nodup.2.2 _ (by simp) _ (mem_chunksOf.mpr ⟨r, member, inside⟩) rfl
  have isChild : Field.child frame.side = .zero ∨ Field.child frame.side = .one := by
    cases frame.side
    · exact Or.inl rfl
    · exact Or.inr rfl
  have otherSide : Field.child (!frame.side) ≠ Field.child frame.side := by
    cases frame.side <;> decide
  refine framed.relink (fun r member up node => node.congr (fun p _ => congrFun sizes p) ?_)
    down ?_ fun r member side => ?_
  · intro p inside f
    by_cases written : f = Field.child frame.side ∧ p = frame.item.chunk
    · left
      obtain ⟨rfl, rfl⟩ := written
      refine ⟨isChild, ?_⟩
      rw [members, List.mem_cons] at member
      rcases member with rfl | elsewhere
      · rfl
      · exact absurd inside (distinct r elsewhere)
    · exact Or.inr (same p (mem_chunksOf.mpr ⟨r, member, inside⟩) f written)
  · refine same _ (mem_chunksOf.mpr ⟨frame.item, by simp [members], by simp⟩) _ ?_
    exact fun written => otherSide written.1
  · refine same _ (mem_chunksOf.mpr ⟨r, by rw [members]; exact List.mem_cons_of_mem _ member,
      by simp⟩) _ fun written => ?_
    exact distinct r member (by simp [← written.2])

end Kept

/-! ## The digits of a size -/

/-- The size bits still to be used at a depth. -/
def sizebitsAt (i size depth : Nat) : Nat :=
  shl64 (shl64 size (leftshiftForTreeIndex i)) depth

theorem sizebitsAt_zero (i size : Nat) :
    sizebitsAt i size 0 = shl64 size (leftshiftForTreeIndex i) := by
  rw [sizebitsAt, shl64, Nat.shiftLeft_zero, shl64, Nat.mod_mod]

theorem sizebitsAt_succ (i size depth : Nat) :
    shl64 (sizebitsAt i size depth) 1 = sizebitsAt i size (depth + 1) := by
  simp only [sizebitsAt, shl64, Nat.shiftLeft_eq, pow_succ, pow_zero, one_mul, ← Nat.mul_assoc]
  rw [Nat.mod_mul_mod]

theorem sizebitsAt_digit (i size depth : Nat) :
    (sizebitsAt i size depth >>> (sizeTBitsize - sizeTOne)) &&& 1 =
      (keyDigit i size depth).toNat := by
  have width : sizeTBitsize - sizeTOne = 63 := rfl
  have bit : (sizebitsAt i size depth).testBit 63 = keyDigit i size depth := by
    rw [sizebitsAt, shl64, Nat.testBit_mod_two_pow, Nat.testBit_shiftLeft, keyDigit]
    by_cases shallow : depth < 64
    · simp [shallow, Nat.le_of_lt_succ shallow]
    · have deep : ¬ depth ≤ 63 := by omega
      simp [shallow, deep]
  rw [width, Nat.shiftRight_eq_div_pow, Nat.and_one_is_mod, ← bit, Nat.toNat_testBit]

/-! ## Another ring of the same size -/

section SameSize

variable {r q : SizeRing} {way : List (Frame SizeRing)} {zero one : BinaryTree SizeRing} {i : Nat}

theorem sizes_same (zero one : BinaryTree SizeRing) (way : List (Frame SizeRing))
    (same : q.size = r.size) :
    ((items (plug way (.node q zero one))).map SizeRing.size).Perm
      ((items (plug way (.node r zero one))).map SizeRing.size) := by
  have left := (items_plug way (.node q zero one)).map SizeRing.size
  have right := (items_plug way (.node r zero one)).map SizeRing.size
  refine left.trans (List.Perm.trans ?_ right.symm)
  simp [same]

theorem placed_same (same : q.size = r.size)
    (placed : Digital (fun r => keyDigit i r.size) 0 (plug way (.node r zero one))) :
    Digital (fun r => keyDigit i r.size) 0 (plug way (.node q zero one)) := by
  obtain ⟨below, follow, aligned⟩ := digital_plug.mp placed
  refine digital_plug.mpr ⟨below, fun other member => ?_, aligned⟩
  rcases List.mem_cons.mp member with rfl | deeper
  · rw [same]
    exact follow r (by simp)
  · exact follow other (List.mem_cons_of_mem _ deeper)

theorem sizes_hold (holds : Nat → Prop) {tree tree' : BinaryTree SizeRing}
    (fewer : (items tree').map SizeRing.size ⊆ (items tree).map SizeRing.size)
    (all : ∀ r ∈ items tree, holds r.size) : ∀ q ∈ items tree', holds q.size := by
  intro q member
  obtain ⟨r, inside, same⟩ := List.mem_map.mp (fewer (List.mem_map_of_mem member))
  exact same ▸ all r inside

end SameSize

/-! ## Chunks in the bins -/

theorem Bins.index_lt {own : Nat → Option Nat → SizeRing → Prop} {s : Store}
    {forest : Nat → BinaryTree SizeRing} {i : Nat} {r : SizeRing} (bins : Bins own s forest)
    (member : r ∈ items (forest i)) : i < 32 :=
  (bins.sized i r member).2 ▸ computeTreeIndex_lt r.size

namespace Tries

variable {s : Store} {forest : Nat → BinaryTree SizeRing} {i j p X : Nat} {r : SizeRing}

theorem node (tries : Tries s forest) (member : r ∈ items (forest i)) :
    ∃ up, TreeNode s.treeLinks i up r := (tries.linked i).holds r member

theorem nodup (tries : Tries s forest) (i : Nat) : (chunks (forest i)).Nodup := by
  have sized : ∀ r ∈ items (forest i), ∀ p ∈ r.chunks, s.treeLinks.size p = r.size := by
    intro r member
    obtain ⟨up, node⟩ := tries.node member
    exact node.sized
  refine nodup_chunksOf sized (fun r member => ?_) (tries.distinct i)
  obtain ⟨up, node⟩ := tries.node member
  exact node.nodup

/-- A chunk is only in the bin of its size. -/
theorem index_unique (tries : Tries s forest) (left : p ∈ chunks (forest i))
    (right : p ∈ chunks (forest j)) : i = j := by
  obtain ⟨r, member, inside⟩ := mem_chunks.mp left
  obtain ⟨q, member', inside'⟩ := mem_chunks.mp right
  obtain ⟨up, node⟩ := tries.node member
  obtain ⟨up', node'⟩ := tries.node member'
  have same : r.size = q.size := by rw [← node.sized p inside, node'.sized p inside']
  rw [← (tries.sized i r member).2, same, (tries.sized j q member').2]

/-- A bin that keeps its root needs no change of the treemap and the roots. -/
theorem kept_bin {I : Nat} {tree : BinaryTree SizeRing} (tries : Tries s forest) (bound : I < 32)
    (nonempty : forest I ≠ .nil) (same : root tree = root (forest I)) (i : Nat) :
    s.gm.treemap.testBit i = (if i = I then decide (root tree ≠ 0) else s.gm.treemap.testBit i) ∧
      s.gm.treebins i = if i = I then root tree else s.gm.treebins i := by
  by_cases here : i = I
  · subst here
    have notNull : root (forest i) ≠ 0 :=
      mt (root_eq_zero fun r member => (tries.mapped i _ (chunk_mem member)).1).mp nonempty
    have rooted := tries.rooted i bound
    have set := (tries.marked i bound).mpr (by rw [rooted]; exact notNull)
    simp [same, set, rooted, notNull]
  · simp [here]

theorem room (tries : Tries s forest) (member : X ∈ chunks (forest i)) : Room s forest X :=
  ⟨tries.mapped i X member, tries.least i X member,
    fun j p inside => tries.apart i j X member p inside⟩

/-- The chunks an operation on bin `i` with the chunk `X` may touch. -/
def Touched (forest : Nat → BinaryTree SizeRing) (i X p : Nat) : Prop :=
  p = X ∨ p ∈ chunks (forest i)

theorem ground (tries : Tries s forest) (room : Room s forest X) (i : Nat) :
    Ground s (Touched forest i X) := by
  constructor
  · rintro p (rfl | member)
    · exact room.mapped.2
    · exact (tries.mapped i p member).2
  · rintro p q (rfl | left) (rfl | right)
    · exact Or.inl rfl
    · exact room.apart i q right
    · have := room.apart i p left
      tauto
    · exact tries.apart i i p left q right

end Tries

/-! ## Changing one bin -/

/-- Bin `I` holds `tree` instead, made of its chunks and `X`; all other bins, fields and
bytes are as before. -/
structure Rebinned (s : Store) (forest : Nat → BinaryTree SizeRing) (I X : Nat)
    (tree : BinaryTree SizeRing) (s' : Store) : Prop where
  tries : Tries s' (Function.update forest I tree)
  same : s' = { s with
    gm := { s.gm with treemap := s'.gm.treemap, treebins := s'.gm.treebins }
    mem := s'.mem }
  bins : ∀ i < 32, i ≠ I → s'.gm.treebins i = s.gm.treebins i ∧
    s'.gm.treemap.testBit i = s.gm.treemap.testBit i
  frame : AgreesOutside (fun x => ∃ p, Tries.Touched forest I X p ∧ p + 16 ≤ x ∧ x < p + 60)
    s.mem s'.mem

/-- The links `L` hold `tree` in bin `I`, made of that bin's chunks and `X`. -/
structure NewBin (s : Store) (forest : Nat → BinaryTree SizeRing) (I X : Nat) (L : TreeLinks)
    (tree : BinaryTree SizeRing) : Prop where
  bits : L.treemap < 2 ^ 32
  marked : ∀ i < 32, L.treemap.testBit i =
    if i = I then decide (root tree ≠ 0) else s.gm.treemap.testBit i
  rooted : ∀ i < 32, L.treebins i = if i = I then root tree else s.gm.treebins i
  linked : TreeAt SizeRing.chunk L.child (TreeNode L I) none tree
  inside : ∀ p ∈ chunks tree, Tries.Touched forest I X p
  placed : Digital (fun r => keyDigit I r.size) 0 tree
  sized : ∀ r ∈ items tree, minLargeSize ≤ r.size ∧ computeTreeIndex r.size = I
  distinct : ((items tree).map SizeRing.size).Nodup

namespace NewBin

variable {s s' : Store} {forest : Nat → BinaryTree SizeRing} {I X : Nat} {L : TreeLinks}
  {tree : BinaryTree SizeRing}

/-- The fields of the bin are those of `L`. -/
theorem linked_here (tries : Tries s forest) (room : Room s forest X)
    (mirrors : Mirrors s (Tries.Touched forest I X) L s') (new : NewBin s forest I X L tree) :
    TreeAt SizeRing.chunk s'.treeLinks.child (TreeNode s'.treeLinks I) none tree := by
  have shown : ∀ r ∈ items tree, ∀ p ∈ r.chunks, Tries.Touched forest I X p :=
    fun r member p inside => new.inside p (mem_chunks.mpr ⟨r, member, inside⟩)
  refine new.linked.congr (fun r member up node => node.congr ?_ ?_) fun r member side => ?_
  · exact fun p inside => mirrors.size fun q there =>
      (tries.ground room I).apart p q (shown r member p inside) there
  · exact fun p inside f => Or.inr (mirrors.fields p (shown r member p inside) f)
  · exact mirrors.fields _ (shown r member _ (by simp)) _

/-- The other bins keep their fields. -/
theorem linked_elsewhere (tries : Tries s forest) (room : Room s forest X)
    (mirrors : Mirrors s (Tries.Touched forest I X) L s') {j : Nat} (other : j ≠ I)
    (fresh : X ∉ chunks (forest j)) :
    TreeAt SizeRing.chunk s'.treeLinks.child (TreeNode s'.treeLinks j) none (forest j) := by
  have apart : ∀ r ∈ items (forest j), ∀ p ∈ r.chunks, ∀ q, Tries.Touched forest I X q →
      p + 64 ≤ q ∨ q + 64 ≤ p := by
    intro r member p inside q there
    have atJ : p ∈ chunks (forest j) := mem_chunks.mpr ⟨r, member, inside⟩
    rcases there with rfl | atI
    · have differ : q ≠ p := fun same => fresh (same ▸ atJ)
      have := room.apart j p atJ
      omega
    · have differ : p ≠ q := fun same => other (tries.index_unique atJ (same ▸ atI))
      have := tries.apart j I p atJ q atI
      omega
  refine (tries.linked j).congr (fun r member up node => node.congr ?_ ?_) fun r member side => ?_
  · intro p inside
    rw [mirrors.size fun q there => Or.inr (apart r member p inside q there), mirrors.sizes]
  · exact fun p inside f => Or.inr (mirrors.outside (apart r member p inside) f)
  · exact mirrors.outside (apart r member _ (by simp)) _

theorem tries (tries : Tries s forest) (room : Room s forest X)
    (mirrors : Mirrors s (Tries.Touched forest I X) L s') (new : NewBin s forest I X L tree)
    (fresh : ∀ j ≠ I, X ∉ chunks (forest j)) : Tries s' (Function.update forest I tree) := by
  -- a chunk of the new forest is the new one or an old one
  have old : ∀ i, ∀ p ∈ chunks (Function.update forest I tree i),
      p = X ∨ ∃ j, p ∈ chunks (forest j) := by
    intro i p member
    by_cases here : i = I
    · subst here
      rw [Function.update_self] at member
      exact (new.inside p member).imp_right fun inside => ⟨i, inside⟩
    · rw [Function.update_of_ne here] at member
      exact Or.inr ⟨i, member⟩
  have rooms : ∀ i, ∀ p ∈ chunks (Function.update forest I tree i), Room s forest p := by
    intro i p member
    rcases old i p member with rfl | ⟨j, inside⟩
    · exact room
    · exact tries.room inside
  refine ⟨⟨?_, ?_, ?_, ?_, ?_, ?_, ?_⟩, ?_, ?_, ?_⟩
  · rw [mirrors.gm]
    exact new.bits
  · intro i bound
    rw [mirrors.gm]
    simp only [new.marked i bound, new.rooted i bound]
    by_cases here : i = I
    · simp [here]
    · rw [if_neg here, if_neg here]
      exact tries.marked i bound
  · intro i bound
    rw [mirrors.gm]
    simp only [new.rooted i bound]
    by_cases here : i = I
    · subst here
      simp
    · rw [if_neg here, Function.update_of_ne here]
      exact tries.rooted i bound
  · intro i
    by_cases here : i = I
    · subst here
      rw [Function.update_self]
      exact linked_here tries room mirrors new
    · rw [Function.update_of_ne here]
      exact linked_elsewhere tries room mirrors here (fresh i here)
  · intro i
    by_cases here : i = I
    · subst here
      rw [Function.update_self]
      exact new.placed
    · rw [Function.update_of_ne here]
      exact tries.placed i
  · intro i
    by_cases here : i = I
    · subst here
      rw [Function.update_self]
      exact new.sized
    · rw [Function.update_of_ne here]
      exact tries.sized i
  · intro i p member
    rw [mirrors.frame.accessible]
    exact (rooms i p member).mapped
  · intro i
    by_cases here : i = I
    · subst here
      rw [Function.update_self]
      exact new.distinct
    · rw [Function.update_of_ne here]
      exact tries.distinct i
  · intro i p member
    rw [mirrors.gm]
    exact (rooms i p member).least
  · intro i j p left q right
    rcases old j q right with rfl | ⟨k, inside⟩
    · rcases old i p left with rfl | ⟨l, inside'⟩
      · exact Or.inl rfl
      · have := (rooms j q right).apart l p inside'
        omega
    · exact (rooms i p left).apart k q inside

theorem rebinned (tries : Tries s forest) (room : Room s forest X)
    (mirrors : Mirrors s (Tries.Touched forest I X) L s') (new : NewBin s forest I X L tree)
    (fresh : ∀ j ≠ I, X ∉ chunks (forest j)) : Rebinned s forest I X tree s' := by
  refine ⟨new.tries tries room mirrors fresh, ?_, fun i bound other => ?_, mirrors.frame⟩
  · rw [mirrors.gm]
    exact mirrors.same
  · rw [mirrors.gm]
    simp only [new.rooted i bound, new.marked i bound, if_neg other, and_self]

end NewBin

end Unimem
