import Unimem.Tries

/-!
A node of a tree bin and whoever takes its place, in the links alone: the heir
gets the parent, the slot or bin and the children of the node, and the bin is
linked as before. Without an heir the slot is cleared.
-/

namespace Unimem

open LinkedRing WordArith MallocState DigitalTree LinkedTree

variable {L : TreeLinks} {I X R p : Nat} {up : Option Nat} {side : Bool} {f : Field}
  {q : SizeRing} {way : List (Frame SizeRing)} {zero one tree : BinaryTree SizeRing}

/-! ## What is written -/

namespace TreeLinks

/-- `X` taken out between its ring neighbours. -/
def bridged (L : TreeLinks) (F R : Nat) : TreeLinks := (L.set .bk F R).set .fd R F

/-- What led to the removed node leads to `R`. -/
def relinked (L : TreeLinks) (I R : Nat) : List (Frame SizeRing) → TreeLinks
  | [] => if R = 0 then (L.setBin I R).setMap (L.treemap &&& not32 (idx2bit I)) else L.setBin I R
  | frame :: _ => L.set (Field.child frame.side) frame.item.chunk R

def adopted (L : TreeLinks) (R : Nat) (side : Bool) (C : Nat) : TreeLinks :=
  if C = 0 then L else (L.set (Field.child side) R C).set .parent C R

/-- `R` with a parent and two children, the children it had none for left alone. -/
def inherited (L : TreeLinks) (R XP Z O : Nat) : TreeLinks :=
  ((L.set .parent R XP).adopted R false Z).adopted R true O

variable {L : TreeLinks} {I R XP Z O p : Nat} {f : Field} {side : Bool}
  {way : List (Frame SizeRing)}

theorem bridged_other {F : Nat} (notFd : f ≠ .fd) (notBk : f ≠ .bk) :
    (L.bridged F R).field f p = L.field f p := by
  simp [bridged, notFd, notBk]

theorem bridged_apart {F : Nat} (notF : p ≠ F) (notR : p ≠ R) (f : Field) :
    (L.bridged F R).field f p = L.field f p := by
  simp [bridged, notF, notR]

@[simp] theorem relinked_size : (L.relinked I R way).size = L.size := by
  cases way with
  | nil =>
      rw [relinked]
      split <;> rfl
  | cons frame outer => rfl

theorem relinked_other
    (other : ∀ frame ∈ way.head?, ¬ (f = Field.child frame.side ∧ p = frame.item.chunk)) :
    (L.relinked I R way).field f p = L.field f p := by
  cases way with
  | nil =>
      rw [relinked]
      split <;> rfl
  | cons frame outer =>
      have unwritten := other frame (by simp)
      simp [relinked, unwritten]

@[simp] theorem inherited_size : (L.inherited R XP Z O).size = L.size := by
  unfold inherited adopted
  split_ifs <;> rfl

@[simp] theorem inherited_treebins : (L.inherited R XP Z O).treebins = L.treebins := by
  unfold inherited adopted
  split_ifs <;> rfl

@[simp] theorem inherited_treemap : (L.inherited R XP Z O).treemap = L.treemap := by
  unfold inherited adopted
  split_ifs <;> rfl

theorem inherited_other (notR : p ≠ R)
    (notBelow : ¬ (f = .parent ∧ p ≠ 0 ∧ (p = Z ∨ p = O))) :
    (L.inherited R XP Z O).field f p = L.field f p := by
  unfold inherited adopted
  split_ifs <;> simp [notR] <;> grind

theorem inherited_own (notParent : f ≠ .parent) (notZero : f ≠ .zero) (notOne : f ≠ .one) :
    (L.inherited R XP Z O).field f R = L.field f R := by
  unfold inherited adopted
  split_ifs <;> simp [notParent, notZero, notOne]

theorem inherited_parent (notZ : R ≠ Z) (notO : R ≠ O) :
    (L.inherited R XP Z O).field .parent R = XP := by
  unfold inherited adopted
  split_ifs <;> simp [notZ, notO]

theorem inherited_child (bare : L.child side R = 0) :
    (L.inherited R XP Z O).child side R = if side then O else Z := by
  unfold inherited adopted
  cases side <;> split_ifs <;> simp_all [child]

theorem inherited_below (notR : p ≠ R) (notNull : p ≠ 0) (below : p = Z ∨ p = O) :
    (L.inherited R XP Z O).field .parent p = R := by
  unfold inherited adopted
  split_ifs <;> simp [notR] <;> grind

/-- `R` in the removed node's place. -/
def filled (L : TreeLinks) (I R XP Z O : Nat) (way : List (Frame SizeRing)) : TreeLinks :=
  (L.relinked I R way).inherited R XP Z O

/-- `M` differs from `L` by `R` in the place where `way` leads, above `Z` and `O`. -/
structure Fills (L M : TreeLinks) (R XP Z O : Nat) (way : List (Frame SizeRing)) : Prop where
  size : M.size = L.size
  own : ∀ f, f ≠ .parent → f ≠ .zero → f ≠ .one → M.field f R = L.field f R
  parent : M.field .parent R = XP
  child : ∀ side, M.child side R = if side then O else Z
  below : ∀ p, p ≠ R → p ≠ 0 → (p = Z ∨ p = O) → M.field .parent p = R
  down : ∀ frame ∈ way.head?, M.child frame.side frame.item.chunk = R
  other : ∀ p f, p ≠ R → ¬ (f = .parent ∧ p ≠ 0 ∧ (p = Z ∨ p = O)) →
    (∀ frame ∈ way.head?, ¬ (f = Field.child frame.side ∧ p = frame.item.chunk)) →
    M.field f p = L.field f p

theorem filled_fills (bare : ∀ side, L.child side R = 0) (notZ : R ≠ Z) (notO : R ≠ O)
    (notFrame : ∀ frame ∈ way.head?, R ≠ frame.item.chunk) :
    Fills L (L.filled I R XP Z O way) R XP Z O way where
  size := by rw [filled, inherited_size, relinked_size]
  own := fun f notParent notZero notOne => (inherited_own notParent notZero notOne).trans
    (relinked_other fun frame first written => notFrame frame first written.2)
  parent := inherited_parent notZ notO
  child := fun side => inherited_child ((relinked_other fun frame first written =>
    notFrame frame first written.2).trans (bare side))
  below := fun p => inherited_below
  down := by
    intro frame first
    have isChild : Field.child frame.side ≠ .parent := by cases frame.side <;> decide
    rw [filled, TreeLinks.child, inherited_other (Ne.symm (notFrame frame first))
      fun written => isChild written.1]
    cases way with
    | nil => simp at first
    | cons other outer =>
        obtain rfl : other = frame := by simpa using first
        simp [relinked]
  other := fun p f notR notBelow unwritten => (inherited_other notR notBelow).trans
    (relinked_other unwritten)

end TreeLinks

/-! ## A node and its replacement -/

/-- A subtree whose node above is replaced. -/
theorem treeAt_adopted {L L' : TreeLinks}
    (linked : TreeAt SizeRing.chunk L.child (TreeNode L I) up tree) (nodup : (chunks tree).Nodup)
    (sizes : L'.size = L.size) (parent : tree ≠ .nil → L'.field .parent (root tree) = R)
    (same : ∀ p ∈ chunks tree, ∀ f, ¬ (f = .parent ∧ p = root tree) →
      L'.field f p = L.field f p) :
    TreeAt SizeRing.chunk L'.child (TreeNode L' I) (some R) tree := by
  cases tree with
  | nil => exact trivial
  | node r zero one =>
      obtain ⟨node, toZero, toOne, inZero, inOne⟩ := linked
      rw [chunks_node, List.nodup_append', List.nodup_append'] at nodup
      obtain ⟨nodupRing, ⟨nodupZero, nodupOne, -⟩, apart⟩ := nodup
      have away : ∀ p ∈ chunks zero ++ chunks one, p ≠ r.chunk := by
        rintro p member rfl
        exact apart (by simp) member
      have inRing : ∀ p ∈ r.chunks, ∀ f, f ≠ .parent → L'.field f p = L.field f p :=
        fun p member f notParent => same p (by simp [List.mem_append, SizeRing.mem_chunks.mp member])
          f fun written => notParent written.1
      have below : ∀ p ∈ chunks zero ++ chunks one, ∀ f, L'.field f p = L.field f p :=
        fun p member f => same p (by rw [chunks_node]; exact List.mem_append_right _ member) f
          fun written => away p member written.2
      refine ⟨⟨⟨?_, fun p member => ?_⟩, node.nodup, fun p member => ?_, ?_, fun p member => ?_⟩,
        ?_, ?_, treeAt_kept inZero sizes fun p member => ?_,
        treeAt_kept inOne sizes fun p member => ?_⟩
      · exact ring_congr node.ring (fun p member => inRing p member .fd (by decide))
          fun p member => inRing p member .bk (by decide)
      · rw [sizes, node.sized p member]
      · rw [inRing p member .index (by decide), node.index p member]
      · exact parent (by simp)
      · obtain ⟨orphan, childless⟩ := node.mate p member
        have notHead : p ≠ r.chunk := by
          rintro rfl
          exact (List.nodup_cons.mp nodupRing).1 member
        refine ⟨?_, fun side => ?_⟩
        · rw [same p (by simp [member]) .parent (fun written => notHead written.2), orphan]
        · exact (inRing p (by simp [member]) _ (by cases side <;> decide)).trans (childless side)
      · exact (inRing r.chunk (by simp) _ (by decide)).trans toZero
      · exact (inRing r.chunk (by simp) _ (by decide)).trans toOne
      · exact below p (List.mem_append_left _ member)
      · exact below p (List.mem_append_right _ member)

/-- `X` in its place in the bin, whatever has become of its ring. -/
structure Hole (L : TreeLinks) (I X : Nat) (way : List (Frame SizeRing))
    (zero one : BinaryTree SizeRing) : Prop where
  framed : Framed SizeRing.chunk L.child (TreeNode L I) none way X
  parent : match above SizeRing.chunk none way with
    | none => L.field .parent X ≠ 0
    | some p => L.field .parent X = p
  index : L.field .index X = I
  toZero : L.child false X = root zero
  toOne : L.child true X = root one
  inZero : TreeAt SizeRing.chunk L.child (TreeNode L I) (some X) zero
  inOne : TreeAt SizeRing.chunk L.child (TreeNode L I) (some X) one

/-- A node, childless and in no tree. -/
structure Heir (L : TreeLinks) (I : Nat) (q : SizeRing) : Prop extends RingNode L q where
  nodup : q.chunks.Nodup
  index : ∀ p ∈ q.chunks, L.field .index p = I
  mate : ∀ p ∈ q.mates, L.field .parent p = 0 ∧ ∀ side, L.child side p = 0
  bare : ∀ side, L.child side q.chunk = 0

theorem Hole.bridged {F : Nat} (hole : Hole L I X way zero one)
    (kept : ∀ p ∈ chunksOf (passed way) ++ (chunks zero ++ chunks one), ∀ f,
      (L.bridged F R).field f p = L.field f p) : Hole (L.bridged F R) I X way zero one := by
  have other : ∀ f, f ≠ .fd → f ≠ .bk → (L.bridged F R).field f X = L.field f X :=
    fun f => TreeLinks.bridged_other
  refine ⟨framed_kept hole.framed rfl fun p member => ?_, ?_, ?_, ?_, ?_,
    treeAt_kept hole.inZero rfl fun p member => ?_, treeAt_kept hole.inOne rfl fun p member => ?_⟩
  · exact kept p (List.mem_append_left _ member)
  · rw [other .parent (by decide) (by decide)]
    exact hole.parent
  · rw [other .index (by decide) (by decide)]
    exact hole.index
  · exact (other _ (by decide) (by decide)).trans hole.toZero
  · exact (other _ (by decide) (by decide)).trans hole.toOne
  · exact kept p (List.mem_append_right _ (List.mem_append_left _ member))
  · exact kept p (List.mem_append_right _ (List.mem_append_right _ member))

theorem TreeNode.heir (node : TreeNode L I up q) (bare : ∀ side, L.child side q.chunk = 0) :
    Heir L I q := ⟨node.toRingNode, node.nodup, node.index, node.mate, bare⟩

/-- The end of a way is what a first frame has as its item. -/
theorem frame_mem {frame : Frame SizeRing} (first : frame ∈ way.head?) :
    frame.item.chunk ∈ chunksOf (passed way) := by
  cases way with
  | nil => simp at first
  | cons other outer =>
      obtain rfl : other = frame := by simpa using first
      exact mem_chunksOf.mpr ⟨other.item, by simp [Frame.members], by simp⟩

theorem Heir.placed {M : TreeLinks} {Z O : Nat} {way : List (Frame SizeRing)} (heir : Heir L I q)
    (fills : TreeLinks.Fills L M q.chunk (L.field .parent X) Z O way)
    (parent : match up with
      | none => L.field .parent X ≠ 0
      | some p => L.field .parent X = p)
    (apart : ∀ p ∈ q.chunks, p ≠ Z ∧ p ≠ O ∧ p ∉ chunksOf (passed way)) : TreeNode M I up q := by
  have notFrame : ∀ p ∈ q.chunks, ∀ f, ∀ frame ∈ way.head?,
      ¬ (f = Field.child frame.side ∧ p = frame.item.chunk) := by
    rintro p inside f frame first ⟨-, rfl⟩
    exact (apart _ inside).2.2 (frame_mem first)
  have same : ∀ p ∈ q.chunks, p ≠ q.chunk → ∀ f, M.field f p = L.field f p := by
    intro p inside notHead f
    refine fills.other p f notHead ?_ (notFrame p inside f)
    rintro ⟨-, -, atZ | atO⟩
    · exact (apart p inside).1 atZ
    · exact (apart p inside).2.1 atO
  have kept : ∀ p ∈ q.chunks, ∀ f, f ≠ .parent → f ≠ .zero → f ≠ .one →
      M.field f p = L.field f p := by
    intro p inside f notParent notZero notOne
    by_cases here : p = q.chunk
    · exact here ▸ fills.own f notParent notZero notOne
    · exact same p inside here f
  refine ⟨⟨?_, fun p member => ?_⟩, heir.nodup, fun p member => ?_, ?_, fun p member => ?_⟩
  · exact ring_congr heir.ring (fun p member => kept p member .fd (by decide) (by decide) (by decide))
      fun p member => kept p member .bk (by decide) (by decide) (by decide)
  · rw [fills.size, heir.sized p member]
  · rw [kept p member .index (by decide) (by decide) (by decide), heir.index p member]
  · rw [fills.parent]
    exact parent
  · have notHead : p ≠ q.chunk := by
      rintro rfl
      exact (List.nodup_cons.mp heir.nodup).1 member
    obtain ⟨orphan, childless⟩ := heir.mate p member
    have moved := same p (by simp [member]) notHead
    exact ⟨(moved _).trans orphan, fun side => (moved _).trans (childless side)⟩

/-- A subtree below the removed node, below the heir. -/
theorem below_filled {M : TreeLinks} {XP Z O : Nat} {way : List (Frame SizeRing)}
    (fills : TreeLinks.Fills L M R XP Z O way)
    (linked : TreeAt SizeRing.chunk L.child (TreeNode L I) (some X) tree)
    (nodup : (chunks tree).Nodup) (slot : root tree = Z ∨ root tree = O)
    (only : ∀ p ∈ chunks tree, p = Z ∨ p = O → p = root tree)
    (apart : ∀ p ∈ chunks tree, p ≠ 0 ∧ p ≠ R ∧ p ∉ chunksOf (passed way)) :
    TreeAt SizeRing.chunk M.child (TreeNode M I) (some R) tree := by
  refine treeAt_adopted linked nodup fills.size (fun nonempty => ?_) fun p member f unwritten => ?_
  · have inside : root tree ∈ chunks tree := by
      cases tree with
      | nil => exact absurd rfl nonempty
      | node r zero one => simp
    exact fills.below _ (apart _ inside).2.1 (apart _ inside).1 slot
  · refine fills.other p f (apart p member).2.1 ?_ ?_
    · rintro ⟨isParent, -, here⟩
      exact unwritten ⟨isParent, only p member here⟩
    · rintro frame first ⟨-, rfl⟩
      exact (apart _ member).2.2 (frame_mem first)

/-- The bin with the heir in the removed node's place. -/
theorem Hole.fill {M : TreeLinks} (hole : Hole L I X way zero one) (heir : Heir L I q)
    (fills : TreeLinks.Fills L M q.chunk (L.field .parent X) (root zero) (root one) way)
    (notNull : ∀ p ∈ chunks (plug way (.node q zero one)), p ≠ 0)
    (nodup : (chunks (plug way (.node q zero one))).Nodup) :
    TreeAt SizeRing.chunk M.child (TreeNode M I) none (plug way (.node q zero one)) := by
  have moved := chunks_plug_node (r := q) way zero one
  simp only [moved.mem_iff, List.mem_append] at notNull
  rw [moved.nodup_iff] at nodup
  simp only [List.nodup_append', List.disjoint_append_right] at nodup
  obtain ⟨-, ⟨nodupWay, ⟨nodupZero, nodupOne, zeroOne⟩, wayZero, wayOne⟩, ringWay, ringZero,
    ringOne⟩ := nodup
  have head : q.chunk ∈ q.chunks := by simp
  have inRoot : ∀ (tree : BinaryTree SizeRing) (p : Nat), p ≠ 0 → p = root tree →
      p ∈ chunks tree := by
    rintro tree p nonzero rfl
    exact (root_mem tree).resolve_left nonzero
  refine treeAt_plug.mpr ⟨?_, heir.placed fills hole.parent fun p inside => ?_, fills.child false,
    fills.child true, ?_, ?_⟩
  · cases way with
    | nil => exact trivial
    | cons frame outer =>
        refine framed_relinked hole.framed nodupWay fills.size (fills.down frame (by simp)) ?_
        intro p member f unwritten
        refine fills.other p f (fun same => ringWay head (same ▸ member)) ?_ ?_
        · rintro ⟨-, nonzero, atZero | atOne⟩
          · exact wayZero member (inRoot zero p nonzero atZero)
          · exact wayOne member (inRoot one p nonzero atOne)
        · intro frame' first
          obtain rfl : frame = frame' := by simpa using first
          exact unwritten
  · have nonzero := notNull p (Or.inl inside)
    exact ⟨fun same => ringZero inside (inRoot zero p nonzero same),
      fun same => ringOne inside (inRoot one p nonzero same), fun member => ringWay inside member⟩
  · refine below_filled fills hole.inZero nodupZero (Or.inl rfl) ?_ fun p member => ?_
    · rintro p member (atZero | atOne)
      · exact atZero
      · have nonzero := notNull p (Or.inr (Or.inr (Or.inl member)))
        exact (zeroOne member (inRoot one p nonzero atOne)).elim
    · exact ⟨notNull p (Or.inr (Or.inr (Or.inl member))), fun same => ringZero (same ▸ head) member,
        fun inside => wayZero inside member⟩
  · refine below_filled fills hole.inOne nodupOne (Or.inr rfl) ?_ fun p member => ?_
    · rintro p member (atZero | atOne)
      · have nonzero := notNull p (Or.inr (Or.inr (Or.inr member)))
        exact (zeroOne (inRoot zero p nonzero atZero) member).elim
      · exact atOne
    · exact ⟨notNull p (Or.inr (Or.inr (Or.inr member))), fun same => ringOne (same ▸ head) member,
        fun inside => wayOne inside member⟩

/-- The bin with nothing in a removed leaf's place. -/
theorem Hole.clear (hole : Hole L I X way .nil .nil) (nodup : (chunksOf (passed way)).Nodup) :
    TreeAt SizeRing.chunk (L.relinked I 0 way).child (TreeNode (L.relinked I 0 way) I) none
      (plug way .nil) := by
  refine treeAt_plug.mpr ⟨?_, trivial⟩
  cases way with
  | nil => exact trivial
  | cons frame outer =>
      refine framed_relinked hole.framed nodup TreeLinks.relinked_size ?_
        fun p member f unwritten => ?_
      · simp [TreeLinks.relinked]
      · refine TreeLinks.relinked_other fun frame' first => ?_
        obtain rfl : frame = frame' := by simpa using first
        exact unwritten

end Unimem
