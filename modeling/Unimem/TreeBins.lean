import Unimem.SmallBins

/-!
The tree bins in memory. Every tree that can arise has a single level: a root
and the ring of its equals, since a second size never gets linked in below it.
-/

namespace Unimem

open ByteMemory Memory LinkedRing WordArith MallocState

abbrev childAt (m : Memory) (p i : Nat) : Nat := m.load (TreeChunk.childSlot p i) 8
abbrev parentAt (m : Memory) (p : Nat) : Nat := m.load (p + 48) 8
abbrev indexAt (m : Memory) (p : Nat) : Nat := m.load (p + 56) 4

/-- The nodes of one bin: a root and its equals, all without children. -/
structure TreeRing (top : Nat) (m : Memory) (blocks : List Block) (i : Nat) (bin : TreeBin) :
    Prop where
  member : ∀ p ∈ bin.nodes, FreeAt top blocks p bin.size
  sized : bin.nodes ≠ [] → 256 ≤ bin.size ∧ computeTreeIndex bin.size = i
  nodup : bin.nodes.Nodup
  ring : ∀ root rest, bin.nodes = root :: rest → Ring (fdAt m) (bkAt m) root rest
  leaf : ∀ p ∈ bin.nodes, childAt m p 0 = 0 ∧ childAt m p 1 = 0 ∧ indexAt m p = i
  parent : ∀ root rest, bin.nodes = root :: rest →
    parentAt m root ≠ 0 ∧ ∀ p ∈ rest, parentAt m p = 0

structure TreeBins (top : Nat) (g : MallocState) (m : Memory) (blocks : List Block)
    (tree : Nat → TreeBin) : Prop where
  bits : g.treemap < 2 ^ 32
  marked : ∀ i < 32, g.treemap.testBit i = true ↔ (tree i).nodes ≠ []
  root : ∀ i < 32, g.treebins i = (tree i).nodes.headD 0
  bin : ∀ i, TreeRing top m blocks i (tree i)

theorem computeTreeIndex_lt (s : Nat) : computeTreeIndex s < 32 := by
  unfold computeTreeIndex
  simp only [ntreebins]
  split
  · omega
  · split
    · omega
    · rename_i nonzero small
      generalize (s >>> treebinShift) % 2 ^ 32 = x at nonzero small
      have bound : x.log2 < 16 := (Nat.log2_lt nonzero).mpr (by omega)
      have bit : ∀ y : Nat, y &&& 1 < 2 := fun y => by rw [Nat.and_one_is_mod]; omega
      have := bit (s >>> (4 * 8 - 1 - clz32 x + (treebinShift - 1)))
      simp only [clz32, Nat.shiftLeft_eq] at this ⊢
      omega

variable {first stop limit top : Nat} {s : Store} {g : MallocState} {m : Memory}
  {blocks : List Block} {tree : Nat → TreeBin}

/-- A free block large enough to carry the fields of a tree chunk. -/
def LargeAt (top : Nat) (blocks : List Block) (p : Nat) : Prop :=
  ∃ size, FreeAt top blocks p size ∧ 256 ≤ size

/-- The fields of a tree chunk. -/
def TreeWords (p x : Nat) : Prop := p + 16 ≤ x ∧ x < p + 64

namespace LargeAt

theorem node {p : Nat} (large : LargeAt top blocks p) : Node top g blocks p := by
  obtain ⟨size, free, -⟩ := large
  exact Or.inr ⟨size, free⟩

theorem geometry (layout : Layout first stop top blocks) {p : Nat} (large : LargeAt top blocks p) :
    first ≤ p ∧ p + 256 ≤ top ∧ top ≤ stop ∧ 0 < p ∧ stop + 8 ≤ 2 ^ 64 := by
  obtain ⟨size, free, enough⟩ := large
  have := free.geometry layout
  have := layout.positive
  omega

theorem apart (layout : Layout first stop top blocks) {p q : Nat} (one : LargeAt top blocks p)
    (two : LargeAt top blocks q) : p = q ∨ p + 256 ≤ q ∨ q + 256 ≤ p := by
  obtain ⟨size, free, enough⟩ := one
  obtain ⟨size', free', enough'⟩ := two
  have := free.apart layout free'
  omega

theorem accessible (tags : Tags first stop limit top m blocks) {p a n : Nat}
    (large : LargeAt top blocks p) (lower : p ≤ a) (upper : a + n ≤ p + 256) :
    m.accessible a n = true := by
  have := large.geometry tags.layout
  have := tags.top_reach
  exact tags.accessible (by omega) (by omega)

theorem bytes {p x : Nat} (large : LargeAt top blocks p) (inside : TreeWords p x) :
    LargeBytes top blocks x := by
  obtain ⟨size, free, enough⟩ := large
  obtain ⟨lower, upper⟩ := inside
  exact ⟨p, size, free, enough, lower, by omega⟩

end LargeAt

namespace TreeRing

variable {i p : Nat} {bin : TreeBin}

theorem large (ring : TreeRing top m blocks i bin) (member : p ∈ bin.nodes) :
    LargeAt top blocks p :=
  ⟨_, ring.member p member, (ring.sized (List.ne_nil_of_mem member)).1⟩

/-- Memory that keeps the fields of every node keeps the ring. -/
theorem agrees (ring : TreeRing top m blocks i bin) {m' : Memory}
    (kept : ∀ p ∈ bin.nodes, ∀ a n, p + 16 ≤ a → a + n ≤ p + 60 → m'.load a n = m.load a n) :
    TreeRing top m' blocks i bin := by
  refine ⟨ring.member, ring.sized, ring.nodup, fun root rest shape => ?_, fun p member => ?_,
    fun root rest shape => ?_⟩
  · refine ring_congr (ring.ring root rest shape) (fun p member => ?_) fun p member => ?_
    · exact kept p (by rw [shape]; exact member) _ _ (by omega) (by omega)
    · exact kept p (by rw [shape]; exact member) _ _ (by omega) (by omega)
  · have fields := ring.leaf p member
    simp only [childAt, TreeChunk.childSlot, indexAt] at fields ⊢
    rw [kept p member _ _ (by omega) (by omega), kept p member _ _ (by omega) (by omega),
      kept p member _ _ (by omega) (by omega)]
    exact fields
  · obtain ⟨atRoot, others⟩ := ring.parent root rest shape
    refine ⟨?_, fun p member => ?_⟩
    · rw [parentAt, kept root (by simp [shape]) _ _ (by omega) (by omega)]
      exact atRoot
    · rw [parentAt, kept p (by simp [shape, member]) _ _ (by omega) (by omega)]
      exact others p member

end TreeRing

namespace TreeBins

theorem index_lt (bins : TreeBins top g m blocks tree) {i p : Nat} (member : p ∈ (tree i).nodes) :
    i < 32 := by
  rw [← ((bins.bin i).sized (List.ne_nil_of_mem member)).2]
  exact computeTreeIndex_lt _

/-- A free block can only be in the tree bin of its size. -/
theorem index_eq (layout : Layout first stop top blocks) (bins : TreeBins top g m blocks tree)
    {i p size : Nat} (member : p ∈ (tree i).nodes) (free : FreeAt top blocks p size) :
    (tree i).size = size ∧ i = computeTreeIndex size := by
  have same := FreeAt.unique layout ((bins.bin i).member p member) free
  exact ⟨same, same ▸ ((bins.bin i).sized (List.ne_nil_of_mem member)).2.symm⟩

theorem index_unique (layout : Layout first stop top blocks) (bins : TreeBins top g m blocks tree)
    {i j p : Nat} (left : p ∈ (tree i).nodes) (right : p ∈ (tree j).nodes) : i = j := by
  rw [(bins.index_eq layout left ((bins.bin j).member p right)).2,
    ((bins.bin j).sized (List.ne_nil_of_mem right)).2]

theorem agrees (bins : TreeBins top g m blocks tree)
    {W : Nat → Prop} {m' : Memory} (agrees : AgreesOutside W m m')
    (outside : ∀ x, LargeBytes top blocks x → ¬ W x) : TreeBins top g m' blocks tree := by
  refine ⟨bins.bits, bins.marked, bins.root, fun i => (bins.bin i).agrees ?_⟩
  intro p member a n lower upper
  exact agrees.load a n fun x low high =>
    outside x (((bins.bin i).large member).bytes ⟨by omega, by omega⟩)

/-- One bin changes; the nodes of the others keep their fields. -/
theorem update (bins : TreeBins top g m blocks tree) {I : Nat} {new : TreeBin} {g' : MallocState}
    {m' : Memory} (fits : g'.treemap < 2 ^ 32)
    (marks : ∀ i < 32, g'.treemap.testBit i =
      if i = I then decide (new.nodes ≠ []) else g.treemap.testBit i)
    (root : ∀ i < 32, g'.treebins i = if i = I then new.nodes.headD 0 else g.treebins i)
    (ring : TreeRing top m' blocks I new)
    (kept : ∀ i ≠ I, ∀ p ∈ (tree i).nodes, ∀ a n, p + 16 ≤ a → a + n ≤ p + 60 →
      m'.load a n = m.load a n) :
    TreeBins top g' m' blocks (Function.update tree I new) := by
  refine ⟨fits, fun i bound => ?_, fun i bound => ?_, fun i => ?_⟩
  all_goals by_cases same : i = I
  · subst same
    simp [marks i bound]
  · rw [Function.update_of_ne same, marks i bound, if_neg same]
    exact bins.marked i bound
  · subst same
    simp [root i bound]
  · rw [Function.update_of_ne same, root i bound, if_neg same]
    exact bins.root i bound
  · subst same
    rw [Function.update_self]
    exact ring
  · rw [Function.update_of_ne same]
    exact (bins.bin i).agrees (kept i same)

end TreeBins

/-! ## Filing -/

/-- `X->index = I; X->child[0] = X->child[1] = 0`. -/
def leafed (m : Memory) (X I : Nat) : Memory :=
  ((m.store (X + 56) 4 I).store (X + 40) 8 0).store (X + 32) 8 0

@[simp] theorem leafed_accessible (m : Memory) (X I a n : Nat) :
    (leafed m X I).accessible a n = m.accessible a n := rfl

theorem leafed_agrees (m : Memory) (X I : Nat) :
    AgreesOutside (fun x => X + 32 ≤ x ∧ x < X + 60) m (leafed m X I) := by
  refine AgreesOutside.store (AgreesOutside.store (AgreesOutside.store
    (AgreesOutside.refl m) _ _ _ ?_) _ _ _ ?_) _ _ _ ?_
  all_goals
    intro x lower upper
    omega

theorem leafed_fields (m : Memory) (X : Nat) {I : Nat} (bound : I < 32) :
    childAt (leafed m X I) X 0 = 0 ∧ childAt (leafed m X I) X 1 = 0 ∧
      indexAt (leafed m X I) X = I := by
  simp only [childAt, TreeChunk.childSlot, indexAt, leafed]
  refine ⟨load_store_same _ _ 8 0 (by decide), ?_, ?_⟩
  · rw [load_store_disjoint _ _ _ _ _ _ (by omega)]
    exact load_store_same _ _ 8 0 (by decide)
  · rw [load_store_disjoint _ _ _ _ _ _ (by omega), load_store_disjoint _ _ _ _ _ _ (by omega)]
    exact load_store_same _ _ 4 I (by omega)

/-- The memory after filing `X`: its own fields, and its links between `T` and `F`. -/
def filed (m : Memory) (T F X I parent : Nat) : Memory :=
  (thread (leafed m X I) T F X).store (X + 48) 8 parent

section Filed

variable {T F X z I parent : Nat}

theorem filed_agrees (m : Memory) (T F X I parent : Nat) :
    AgreesOutside (fun x => LinkWords T x ∨ LinkWords F x ∨ TreeWords X x) m
      (filed m T F X I parent) := by
  refine AgreesOutside.store ?_ _ _ _ fun x lower upper => Or.inr (Or.inr ⟨by omega, by omega⟩)
  refine ((leafed_agrees m X I).mono fun x inside => ?_).trans
    ((thread_agrees (leafed m X I) T F X).mono fun x inside => ?_)
  · exact Or.inr (Or.inr ⟨by omega, by omega⟩)
  · rcases inside with atT | atF | ⟨lower, upper⟩
    · exact Or.inl atT
    · exact Or.inr (Or.inl atF)
    · exact Or.inr (Or.inr ⟨lower, by omega⟩)

theorem filed_links (layout : Layout first stop top blocks) (largeT : LargeAt top blocks T)
    (largeF : LargeAt top blocks F) (largeX : LargeAt top blocks X)
    (largeZ : LargeAt top blocks z) (m : Memory) (I parent : Nat) :
    fdAt (filed m T F X I parent) z =
        (if z = X then F else if z = T then X else fdAt m z) ∧
      bkAt (filed m T F X I parent) z =
        (if z = X then T else if z = F then X else bkAt m z) := by
  have placeT := largeT.geometry layout
  have placeF := largeF.geometry layout
  have placeX := largeX.geometry layout
  have apartX := largeX.apart layout largeZ
  have apartT := largeT.apart layout largeZ
  have apartF := largeF.apart layout largeZ
  obtain ⟨forth, back⟩ := thread_links (m := leafed m X I) (B := T) (F := F) (P := X) (z := z)
    (by omega) (by omega) (by omega) (by omega) (by omega) (by omega)
  have keptFd : fdAt (leafed m X I) z = fdAt m z :=
    (leafed_agrees m X I).load _ _ fun x _ _ inside => by omega
  have keptBk : bkAt (leafed m X I) z = bkAt m z :=
    (leafed_agrees m X I).load _ _ fun x _ _ inside => by omega
  rw [keptFd] at forth
  rw [keptBk] at back
  constructor
  · rw [← forth]
    exact load_store_disjoint _ _ _ _ _ _ (by omega)
  · rw [← back]
    exact load_store_disjoint _ _ _ _ _ _ (by omega)

theorem filed_own (layout : Layout first stop top blocks) (largeT : LargeAt top blocks T)
    (largeF : LargeAt top blocks F) (largeX : LargeAt top blocks X) (bound : I < 32)
    (fits : parent < 2 ^ 64) :
    childAt (filed m T F X I parent) X 0 = 0 ∧ childAt (filed m T F X I parent) X 1 = 0 ∧
      indexAt (filed m T F X I parent) X = I ∧ parentAt (filed m T F X I parent) X = parent := by
  have apartT := largeT.apart layout largeX
  have apartF := largeF.apart layout largeX
  obtain ⟨child0, child1, index⟩ := leafed_fields m X bound
  have kept : ∀ a n, X + 32 ≤ a → a + n ≤ X + 48 ∨ X + 56 ≤ a → a + n ≤ X + 64 →
      (filed m T F X I parent).load a n = (leafed m X I).load a n := by
    intro a n lower middle upper
    rw [filed, load_store_disjoint _ _ _ _ _ _ (by omega)]
    refine (thread_agrees (leafed m X I) T F X).load a n fun x low high inside => ?_
    simp only [LinkWords] at inside
    omega
  simp only [childAt, TreeChunk.childSlot, indexAt] at child0 child1 index ⊢
  refine ⟨?_, ?_, ?_, load_store_same _ _ 8 _ (by omega)⟩
  · rw [kept _ _ (by omega) (by omega) (by omega), child0]
  · rw [kept _ _ (by omega) (by omega) (by omega), child1]
  · rw [kept _ _ (by omega) (by omega) (by omega), index]

theorem filed_other (layout : Layout first stop top blocks) (largeT : LargeAt top blocks T)
    (largeF : LargeAt top blocks F) (largeX : LargeAt top blocks X)
    (largeZ : LargeAt top blocks z) (differ : z ≠ X) {a n : Nat} (lower : z + 32 ≤ a)
    (upper : a + n ≤ z + 64) : (filed m T F X I parent).load a n = m.load a n := by
  have apartX := largeX.apart layout largeZ
  have apartT := largeT.apart layout largeZ
  have apartF := largeF.apart layout largeZ
  refine (filed_agrees m T F X I parent).load a n fun x low high inside => ?_
  simp only [LinkWords, TreeWords] at inside
  omega

end Filed

theorem mem_addNode {p z : Nat} {nodes : List Nat} :
    z ∈ addNode p nodes ↔ z = p ∨ z ∈ nodes := by
  cases nodes with
  | nil => simp [addNode]
  | cons root rest =>
      simp only [addNode, List.mem_cons]
      tauto

theorem addNode_ne_nil (p : Nat) (nodes : List Nat) : addNode p nodes ≠ [] := by
  cases nodes <;> simp [addNode]

theorem headD_addNode (p q : Nat) (nodes : List Nat) :
    (addNode p nodes).headD q = nodes.headD p := by
  cases nodes <;> rfl

theorem nodup_addNode {p : Nat} {nodes : List Nat} (nodup : nodes.Nodup) (fresh : p ∉ nodes) :
    (addNode p nodes).Nodup := by
  cases nodes with
  | nil => simp [addNode]
  | cons root rest =>
      simp only [List.nodup_cons, List.mem_cons, not_or, addNode] at nodup fresh ⊢
      exact ⟨⟨Ne.symm fresh.1, nodup.1⟩, fresh.2, nodup.2⟩

/-- A new node goes in behind the root. -/
theorem TreeRing.filed_ring (layout : Layout first stop top blocks) {bin : TreeBin}
    {P T F I parent : Nat} {rest : List Nat} (ring : TreeRing top m blocks I bin)
    (largeP : LargeAt top blocks P) (fresh : P ∉ bin.nodes) (nodes : bin.nodes = T :: rest)
    (atF : F = fdAt m T) (largeF : LargeAt top blocks F) :
    Ring (fdAt (filed m T F P I parent)) (bkAt (filed m T F P I parent)) T (P :: rest) := by
  have old := ring.ring T rest nodes
  have next := chain_next old
  have nodup := ring.nodup
  rw [nodes] at nodup fresh
  have members : ∀ z ∈ T :: rest, LargeAt top blocks z := fun z member =>
    ring.large (by rw [nodes]; exact member)
  have largeT := members T (by simp)
  have links := fun z (large : LargeAt top blocks z) =>
    filed_links layout largeT largeF largeP large m I parent
  have differ : ∀ z ∈ T :: rest, z ≠ P := fun z member same => fresh (same ▸ member)
  have PneT : P ≠ T := (differ T (by simp)).symm
  have PneF : F ≠ P := by
    rw [atF, next]
    cases rest with
    | nil => exact PneT.symm
    | cons y more => exact differ y (by simp)
  -- the new chunk goes in behind the root, in front of what the root led to
  refine ring_insert nodup fresh (fun _ => old) ?_ ?_ ?_ ?_ ?_ ?_
  · simp [(links T largeT).1, PneT.symm]
  · simp [(links P largeP).2]
  · rw [(links P largeP).1, if_pos rfl, atF, next]
  · rw [← next, ← atF, (links F largeF).2, if_neg PneF, if_pos rfl]
  · intro z member
    have notT : z ≠ T := by
      rintro rfl
      exact (List.nodup_cons.mp nodup).1 member
    rw [(links z (members z (by simp [member]))).1, if_neg (differ z (by simp [member])),
      if_neg notT]
  · intro z member notHead
    rw [← next, ← atF] at notHead
    rw [(links z (members z member)).2, if_neg (differ z member), if_neg notHead]

/-- The ring of a bin once `P` of its size is filed: alone, or behind the root. -/
theorem TreeRing.file (layout : Layout first stop top blocks) {bin : TreeBin} {P S I : Nat}
    (ring : TreeRing top m blocks I bin) (free : FreeAt top blocks P S) (isLarge : 256 ≤ S)
    (index : computeTreeIndex S = I) (fresh : P ∉ bin.nodes)
    (accepted : bin.nodes = [] ∨ bin.size = S) {T F parent : Nat}
    (atT : T = bin.nodes.headD P) (atF : F = if bin.nodes = [] then P else fdAt m T)
    (largeT : LargeAt top blocks T) (largeF : LargeAt top blocks F)
    (fits : parent < 2 ^ 64) (orphan : parent = 0 ↔ bin.nodes ≠ []) :
    TreeRing top (filed m T F P I parent) blocks I ⟨S, addNode P bin.nodes⟩ := by
  have bound : I < 32 := index ▸ computeTreeIndex_lt S
  have largeP : LargeAt top blocks P := ⟨S, free, isLarge⟩
  obtain ⟨ownLeft, ownRight, ownIndex, ownParent⟩ :=
    filed_own (m := m) layout largeT largeF largeP bound fits
  have links := fun z (large : LargeAt top blocks z) =>
    filed_links layout largeT largeF largeP large m I parent
  have old : ∀ z ∈ bin.nodes, z ≠ P := fun z member same => fresh (same ▸ member)
  have others : ∀ z ∈ bin.nodes, ∀ a n, z + 32 ≤ a → a + n ≤ z + 64 →
      (filed m T F P I parent).load a n = m.load a n := fun z member a n =>
    filed_other layout largeT largeF largeP (ring.large member) (old z member)
  refine ⟨fun p member => ?_, fun _ => ⟨isLarge, index⟩, nodup_addNode ring.nodup fresh,
    fun root rest shape => ?_, fun p member => ?_, fun root rest shape => ?_⟩
  · rcases mem_addNode.mp member with rfl | inBin
    · exact free
    · rcases accepted with empty | equal
      · simp [empty] at inBin
      · exact equal ▸ ring.member p inBin
  · cases nodes : bin.nodes with
    | nil =>
        simp only [nodes, List.headD_nil] at atT
        simp only [nodes, if_true] at atF
        simp only [nodes, addNode, List.cons.injEq] at shape
        obtain ⟨rfl, rfl⟩ := shape
        rw [atT, atF] at links
        rw [atT, atF]
        exact ⟨by simp [(links P largeP).1], by simp [(links P largeP).2]⟩
    | cons oldRoot oldRest =>
        simp only [nodes, List.headD_cons] at atT
        simp only [nodes, reduceCtorEq, if_false] at atF
        simp only [nodes, addNode, List.cons.injEq] at shape
        obtain ⟨rfl, rfl⟩ := shape
        subst atT
        exact ring.filed_ring layout largeP fresh nodes atF largeF
  · rcases mem_addNode.mp member with rfl | inBin
    · exact ⟨ownLeft, ownRight, ownIndex⟩
    · have fields := ring.leaf p inBin
      simp only [childAt, TreeChunk.childSlot, indexAt] at fields ⊢
      have kept := others p inBin
      rwa [kept _ _ (by omega) (by omega), kept _ _ (by omega) (by omega),
        kept _ _ (by omega) (by omega)]
  · cases nodes : bin.nodes with
    | nil =>
        simp only [nodes, addNode, List.cons.injEq] at shape
        obtain ⟨rfl, rfl⟩ := shape
        simp only [nodes, ne_eq, not_true_eq_false, iff_false] at orphan
        refine ⟨?_, by simp⟩
        rw [ownParent]
        exact orphan
    | cons oldRoot oldRest =>
        simp only [nodes, addNode, List.cons.injEq] at shape
        obtain ⟨rfl, rfl⟩ := shape
        obtain ⟨atRoot, atOthers⟩ := ring.parent oldRoot oldRest nodes
        simp only [nodes, ne_eq, reduceCtorEq, not_false_eq_true, iff_true] at orphan
        refine ⟨?_, fun p member => ?_⟩
        · rw [parentAt, others oldRoot (by simp [nodes]) _ _ (by omega) (by omega)]
          exact atRoot
        · rcases List.mem_cons.mp member with rfl | inRest
          · exact ownParent.trans orphan
          · rw [parentAt, others p (by simp [nodes, inRest]) _ _ (by omega) (by omega)]
            exact atOthers p inRest

section Runs

variable {P I : Nat}

theorem childSlot_zero (p : Nat) : TreeChunk.childSlot p 0 = p + 32 := rfl
theorem childSlot_one (p : Nat) : TreeChunk.childSlot p 1 = p + 40 := rfl

theorem LargeAt.child_run (tags : Tags first stop limit top s.mem blocks)
    (large : LargeAt top blocks P) {i : Nat} (bound : i < 2) :
    TreeChunk.child P i s = .ok (childAt s.mem P i) s := by
  refine run_loadN (large.accessible tags ?_ ?_)
  all_goals
    unfold TreeChunk.childSlot
    omega

theorem LargeAt.parent_run (tags : Tags first stop limit top s.mem blocks)
    (large : LargeAt top blocks P) : TreeChunk.parent P s = .ok (parentAt s.mem P) s :=
  run_loadN (large.accessible tags (by omega) (by omega))

theorem LargeAt.index_run (tags : Tags first stop limit top s.mem blocks)
    (large : LargeAt top blocks P) : TreeChunk.index P s = .ok (indexAt s.mem P) s :=
  run_loadN (large.accessible tags (by omega) (by omega))

theorem LargeAt.fd_run (tags : Tags first stop limit top s.mem blocks)
    (large : LargeAt top blocks P) : Chunk.fd P s = .ok (fdAt s.mem P) s :=
  run_loadN (large.accessible tags (by omega) (by omega))

theorem LargeAt.bk_run (tags : Tags first stop limit top s.mem blocks)
    (large : LargeAt top blocks P) : Chunk.bk P s = .ok (bkAt s.mem P) s :=
  run_loadN (large.accessible tags (by omega) (by omega))

theorem LargeAt.ok_run (layout : Layout first stop top blocks)
    (placed : Placed first stop s.gm s.mem) (large : LargeAt top blocks P) :
    okAddress P s = .ok true s := by
  have := large.geometry layout
  have := placed.leastLe
  rw [okAddress_run, decide_eq_true (by omega)]

theorem okAddress_null (placed : Placed first stop s.gm s.mem) : okAddress 0 s = .ok false s := by
  have := placed.leastPos
  rw [okAddress_run, decide_eq_false (by omega)]

theorem insertLargeChunk_start (tags : Tags first stop limit top s.mem blocks)
    (large : LargeAt top blocks P) (fuel S : Nat) :
    insertLargeChunk fuel P S s =
      (if s.gm.treemap &&& idx2bit (computeTreeIndex S) = 0 then do
        markTreemap (computeTreeIndex S)
        setTreebin (computeTreeIndex S) P
        TreeChunk.setParent P (← treebin (computeTreeIndex S))
        Chunk.setBk P P
        Chunk.setFd P P
      else insertLargeChunk.descend P S fuel (s.gm.treebins (computeTreeIndex S),
        shl64 S (leftshiftForTreeIndex (computeTreeIndex S))))
        { s with mem := leafed s.mem P (computeTreeIndex S) } := by
  have acc := fun a n => large.accessible (a := a) (n := n) tags
  simp [insertLargeChunk, TreeChunk.setIndex, TreeChunk.setChild, childSlot_zero, childSlot_one,
    store32, store64, run_storeN, acc, leafed, treemapIsMarked, treebin]

end Runs

/-- The store after a tree chunk is filed or taken out. -/
def TreeChange (top : Nat) (s : Store) (blocks : List Block) (tree : Nat → TreeBin)
    (result : Outcome Unit) : Prop :=
  ∃ bitmap roots m', result =
      .ok () { s with gm := { s.gm with treemap := bitmap, treebins := roots }, mem := m' } ∧
    TreeBins top { s.gm with treemap := bitmap, treebins := roots } m' blocks tree ∧
    AgreesOutside (LargeBytes top blocks) s.mem m'

section Filing

variable {P S I : Nat}

theorem filed_bytes {T F parent : Nat} (largeT : LargeAt top blocks T)
    (largeF : LargeAt top blocks F) (largeP : LargeAt top blocks P) :
    AgreesOutside (LargeBytes top blocks) m (filed m T F P I parent) := by
  refine (filed_agrees m T F P I parent).mono fun x inside => ?_
  rcases inside with ⟨lower, upper⟩ | ⟨lower, upper⟩ | atP
  · exact largeT.bytes ⟨lower, by omega⟩
  · exact largeF.bytes ⟨lower, by omega⟩
  · exact largeP.bytes atP

/-- The bins after filing, from the ring of the one bin that changes. -/
theorem TreeBins.file (layout : Layout first stop top blocks)
    (bins : TreeBins top g m blocks tree) (free : FreeAt top blocks P S) (isLarge : 256 ≤ S)
    (index : computeTreeIndex S = I) (fresh : P ∉ (tree I).nodes)
    (accepted : (tree I).nodes = [] ∨ (tree I).size = S) (T F parent : Nat)
    (atT : T = (tree I).nodes.headD P) (atF : F = if (tree I).nodes = [] then P else fdAt m T)
    (fits : parent < 2 ^ 64) (orphan : parent = 0 ↔ (tree I).nodes ≠ []) {bitmap : Nat}
    {roots : Nat → Nat} (marks : bitmap = g.treemap ||| idx2bit I)
    (root : roots = Function.update g.treebins I T) :
    TreeBins top { g with treemap := bitmap, treebins := roots } (filed m T F P I parent) blocks
        (Function.update tree I ⟨S, addNode P (tree I).nodes⟩) ∧
      AgreesOutside (LargeBytes top blocks) m (filed m T F P I parent) := by
  subst marks root
  have bound : I < 32 := index ▸ computeTreeIndex_lt S
  have largeP : LargeAt top blocks P := ⟨S, free, isLarge⟩
  have known : ∀ z, z = P ∨ z ∈ (tree I).nodes → LargeAt top blocks z := by
    rintro z (rfl | member)
    · exact largeP
    · exact (bins.bin I).large member
  -- what is written to is the new chunk and members of its bin
  have kindT : T = P ∨ T ∈ (tree I).nodes := by
    cases shape : (tree I).nodes <;> simp [atT, shape]
  have kindF : F = P ∨ F ∈ (tree I).nodes := by
    cases shape : (tree I).nodes with
    | nil => exact Or.inl (by simp [atF, shape])
    | cons root rest =>
        have next := chain_next ((bins.bin I).ring root rest shape)
        simp only [shape, List.headD_cons] at atT
        simp only [shape, reduceCtorEq, if_false, atT, next] at atF
        cases rest <;> simp [atF]
  have largeT := known T kindT
  have largeF := known F kindF
  refine ⟨bins.update (mark_lt bins.bits bound) (fun i inRange => ?_) (fun i inRange => ?_)
    ((bins.bin I).file layout free isLarge index fresh accepted atT atF largeT largeF fits orphan)
    fun i differ p member a n lower upper => ?_, filed_bytes largeT largeF largeP⟩
  · rw [testBit_mark bound]
    by_cases same : i = I
    · subst same
      simp [addNode_ne_nil]
    · simp [same, Ne.symm same]
  · by_cases same : i = I
    · subst same
      simp only [Function.update_self, if_true, headD_addNode, atT]
    · simp [same]
  · -- nodes of other bins are none of the blocks written to
    have notP : p ≠ P := by
      rintro rfl
      exact differ (index ▸ (bins.index_eq layout member free).2)
    have notKnown : ∀ y, y = P ∨ y ∈ (tree I).nodes → p ≠ y := by
      rintro y (rfl | inBin)
      · exact notP
      · rintro rfl
        exact differ (bins.index_unique layout member inBin)
    have large := (bins.bin i).large member
    have apartT := (largeT.apart layout large).resolve_left (notKnown T kindT).symm
    have apartF := (largeF.apart layout large).resolve_left (notKnown F kindF).symm
    have apartP := (largeP.apart layout large).resolve_left notP.symm
    refine (filed_agrees m T F P I parent).load a n fun x low high inside => ?_
    simp only [LinkWords, TreeWords] at inside
    omega

/-- Filing a first node links it to itself. -/
theorem filed_single (m : Memory) (P I parent : Nat) :
    (((leafed m P I).store (P + 48) 8 parent).store (P + 24) 8 P).store (P + 16) 8 P =
      filed m P P P I parent := by
  generalize hL : leafed m P I = L
  rw [filed, hL, thread, store_comm (L.store (P + 16) 8 P) (P + 24) 8 P (P + 16) 8 P (by omega),
    store_store, store_store, store_comm L (P + 48) 8 parent (P + 24) 8 P (by omega),
    store_comm (L.store (P + 24) 8 P) (P + 48) 8 parent (P + 16) 8 P (by omega),
    store_comm L (P + 24) 8 P (P + 16) 8 P (by omega)]

theorem Tags.leafed (tags : Tags first stop limit top m blocks)
    (placed : Placed first stop g m) (large : LargeAt top blocks P) :
    Tags first stop limit top (leafed m P I) blocks :=
  tags.links placed ((leafed_agrees m P I).mono fun _ inside =>
    Or.inr (large.bytes ⟨by omega, by omega⟩))

theorem insertLargeChunk_spec (tags : Tags first stop limit top s.mem blocks)
    (placed : Placed first stop s.gm s.mem) (bins : TreeBins top s.gm s.mem blocks tree)
    (free : FreeAt top blocks P S) (isLarge : 256 ≤ S) (index : computeTreeIndex S = I)
    (fresh : P ∉ (tree I).nodes) (accepted : (tree I).nodes = [] ∨ (tree I).size = S)
    (fuel : Nat) :
    TreeChange top s blocks (Function.update tree I ⟨S, addNode P (tree I).nodes⟩)
      (insertLargeChunk (fuel + 1) P S s) := by
  have layout := tags.layout
  have bound : I < 32 := index ▸ computeTreeIndex_lt S
  have large : LargeAt top blocks P := ⟨S, free, isLarge⟩
  have place := large.geometry layout
  have marked := bins.marked I bound
  have root := bins.root I bound
  have tags' := tags.leafed (I := I) placed large
  have acc := fun a n => large.accessible (a := a) (n := n) tags
  rw [insertLargeChunk_start tags large, index]
  cases shape : (tree I).nodes with
  | nil =>
      have clear : s.gm.treemap &&& idx2bit I = 0 := by
        rw [marked_iff bound]
        simpa [shape] using marked
      obtain ⟨kept, agrees⟩ := bins.file layout free isLarge index
        fresh accepted P P P (by simp [shape]) (by simp [shape]) (by omega)
        (by simp [shape]; omega) rfl rfl
      rw [← filed_single] at kept agrees
      refine ⟨_, _, _, ?_, shape ▸ kept, agrees⟩
      simp [clear, markTreemap, setTreebin, treebin, TreeChunk.setParent, Chunk.setBk, Chunk.setFd,
        store64, run_storeN, acc]
  | cons T rest =>
      -- the bin is in use: the root has the size, the loop ends at once
      have set : ¬ s.gm.treemap &&& idx2bit I = 0 := by
        rw [marked_iff bound]
        simpa [shape] using marked
      have same : s.gm.treemap ||| idx2bit I = s.gm.treemap := by
        apply Nat.eq_of_testBit_eq
        intro j
        rw [testBit_mark bound]
        by_cases equal : I = j
        · subst equal
          simpa [shape] using marked
        · simp [equal]
      have atRoot : s.gm.treebins I = T := by rw [root, shape]; rfl
      have sameRoots : s.gm.treebins = Function.update s.gm.treebins I T := by
        rw [← atRoot, Function.update_eq_self]
      have inBin : T ∈ (tree I).nodes := by simp [shape]
      have sizes : (tree I).size = S := accepted.resolve_left (by simp [shape])
      have largeT := (bins.bin I).large inBin
      have freeT := sizes ▸ (bins.bin I).member T inBin
      have differ : T ≠ P := fun equal => fresh (equal ▸ inBin)
      have apartT := (largeT.apart layout large).resolve_left differ
      obtain ⟨kept, agrees⟩ := bins.file layout free isLarge index
        fresh accepted T (fdAt s.mem T) 0 (by simp [shape]) (by simp [shape]) (by omega)
          (by simp [shape])
        same.symm sameRoots
      have largeF : LargeAt top blocks (fdAt s.mem T) := by
        have next := chain_next ((bins.bin I).ring T rest shape)
        rw [next]
        cases rest with
        | nil => exact largeT
        | cons y rest => exact (bins.bin I).large (by simp [shape])
      have keptF : fdAt (leafed s.mem P I) T = fdAt s.mem T :=
        (leafed_agrees s.mem P I).load _ _ fun x _ _ inside => by omega
      refine ⟨_, _, _, ?_, shape ▸ kept, agrees⟩
      have placeT := largeT.geometry layout
      have accT := fun a n => largeT.accessible (a := a) (n := n) tags
      have accF := fun a n => largeF.accessible (a := a) (n := n) tags
      obtain ⟨s', start⟩ : ∃ s' : Store, s' = { s with mem := leafed s.mem P I } := ⟨_, rfl⟩
      have mem' : s'.mem = leafed s.mem P I := by rw [start]
      rw [← mem'] at tags' keptF
      have placed' : Placed first stop s'.gm s'.mem := by
        rw [start]
        exact placed.agrees (leafed_agrees s.mem P I)
      rw [← start, run_ite, if_neg set, atRoot, insertLargeChunk.descend]
      have check : (okAddress T <&&> okAddress (fdAt s.mem T)) s' = .ok true s' := by
        simp [largeT.ok_run layout placed', largeF.ok_run layout placed']
      simp only [Fuelled.bind_run, freeT.chunksize_run tags', ne_eq, not_true_eq_false, if_false,
        largeT.fd_run tags', keptF, check, run_ite, if_true]
      simp [start, Chunk.setBk, Chunk.setFd, TreeChunk.setParent, store64, run_storeN, acc, accT,
        accF, filed, thread]
      have apartF := largeF.apart layout largeT
      rw [store_comm (leafed s.mem P I) (fdAt s.mem T + 24) 8 P (T + 16) 8 P (by omega)]

/-- A second size is refused: the empty child slot fails ok_address. -/
theorem insertLargeChunk_refused (tags : Tags first stop limit top s.mem blocks)
    (placed : Placed first stop s.gm s.mem) (bins : TreeBins top s.gm s.mem blocks tree)
    (free : FreeAt top blocks P S) (isLarge : 256 ≤ S) (index : computeTreeIndex S = I)
    (taken : (tree I).nodes ≠ []) (other : (tree I).size ≠ S) (fuel : Nat) :
    ∃ s', insertLargeChunk (fuel + 1) P S s = .error .corrupted s' ∧
      Tags first stop limit top s'.mem blocks := by
  have layout := tags.layout
  have bound : I < 32 := index ▸ computeTreeIndex_lt S
  have large : LargeAt top blocks P := ⟨S, free, isLarge⟩
  obtain ⟨T, rest, shape⟩ := List.exists_cons_of_ne_nil taken
  have inBin : T ∈ (tree I).nodes := by simp [shape]
  have set : ¬ s.gm.treemap &&& idx2bit I = 0 := by
    rw [marked_iff bound]
    simpa [shape] using bins.marked I bound
  have atRoot : s.gm.treebins I = T := by
    rw [bins.root I bound, shape]
    rfl
  have largeT := (bins.bin I).large inBin
  have freeT := (bins.bin I).member T inBin
  have differ : T ≠ P := by
    rintro rfl
    exact other (FreeAt.unique layout freeT free)
  have apartT := (largeT.apart layout large).resolve_left differ
  have tags' := tags.leafed (I := I) placed large
  obtain ⟨s', start⟩ : ∃ s' : Store, s' = { s with mem := leafed s.mem P I } := ⟨_, rfl⟩
  have mem' : s'.mem = leafed s.mem P I := by rw [start]
  rw [← mem'] at tags'
  have placed' : Placed first stop s'.gm s'.mem := by
    rw [start]
    exact placed.agrees (leafed_agrees s.mem P I)
  -- the root's child slots are null, and null fails ok_address
  have childless : ∀ K, childAt s'.mem T ((K >>> (sizeTBitsize - sizeTOne)) &&& 1) = 0 ∧
      (K >>> (sizeTBitsize - sizeTOne)) &&& 1 < 2 := by
    intro K
    rw [Nat.and_one_is_mod]
    obtain ⟨left, right, -⟩ := (bins.bin I).leaf T inBin
    have kept : ∀ i < 2, childAt s'.mem T i = childAt s.mem T i := by
      intro i side
      rw [mem']
      refine (leafed_agrees s.mem P I).load _ _ fun x _ _ inside => ?_
      simp only [TreeChunk.childSlot] at *
      omega
    rcases Nat.mod_two_eq_zero_or_one (K >>> (sizeTBitsize - sizeTOne)) with side | side
    · rw [side, kept 0 (by omega), left]
      exact ⟨rfl, by omega⟩
    · rw [side, kept 1 (by omega), right]
      exact ⟨rfl, by omega⟩
  rw [insertLargeChunk_start tags large, index, ← start, run_ite, if_neg set, atRoot,
    insertLargeChunk.descend]
  obtain ⟨none, side⟩ := childless (shl64 S (leftshiftForTreeIndex I))
  refine ⟨s', ?_, tags'⟩
  simp only [Fuelled.bind_run, freeT.chunksize_run tags', run_ite, ne_eq, other, not_false_eq_true,
    if_true, largeT.child_run tags' side, none, not_true_eq_false, if_false,
    okAddress_null placed', Bool.false_eq_true, run_throw]

end Filing

/-! ## Removal -/

section Removal

variable {P S I : Nat} {bin : TreeBin}

namespace TreeRing

/-- The neighbours of a node are nodes, and point back at it. -/
theorem neighbours (ring : TreeRing top m blocks I bin) (member : P ∈ bin.nodes) :
    fdAt m P ∈ bin.nodes ∧ bkAt m P ∈ bin.nodes ∧ fdAt m (bkAt m P) = P ∧
      bkAt m (fdAt m P) = P := by
  obtain ⟨root, rest, shape⟩ := List.exists_cons_of_ne_nil (List.ne_nil_of_mem member)
  have links := ring.ring root rest shape
  rw [shape] at member ⊢
  rcases List.mem_cons.mp member with rfl | inRest
  · obtain ⟨next, prev, back, forth⟩ := ring_header links
    refine ⟨?_, ?_, by rw [prev, back], by rw [next, forth]⟩
    · rw [next]
      cases rest <;> simp
    · rw [prev]
      rcases List.eq_nil_or_concat rest with rfl | ⟨most, last, rfl⟩ <;> simp
  · obtain ⟨left, right, rfl⟩ := List.append_of_mem inRest
    obtain ⟨next, prev, back, forth⟩ := ring_neighbours links
    refine ⟨?_, ?_, by rw [prev, back], by rw [next, forth]⟩
    · rw [next]
      cases right <;> simp
    · rw [prev]
      rcases List.eq_nil_or_concat left with rfl | ⟨most, last, rfl⟩ <;> simp

/-- Only a node without equals is its own neighbour. -/
theorem alone (ring : TreeRing top m blocks I bin) (member : P ∈ bin.nodes)
    (self : bkAt m P = P) : bin.nodes = [P] := by
  obtain ⟨root, rest, shape⟩ := List.exists_cons_of_ne_nil (List.ne_nil_of_mem member)
  have links := ring.ring root rest shape
  have nodup := ring.nodup
  rw [shape] at member nodup ⊢
  by_cases isRoot : P = root
  · subst isRoot
    have prev := (ring_header links).2.1
    rcases List.eq_nil_or_concat rest with rfl | ⟨most, last, rfl⟩
    · rfl
    · have same : P = last := by simpa [self] using prev
      simp [same] at nodup
  · obtain ⟨left, right, rfl⟩ := List.append_of_mem ((List.mem_cons.mp member).resolve_left isRoot)
    have prev := (ring_neighbours links).2.1
    rcases List.eq_nil_or_concat left with rfl | ⟨most, last, rfl⟩
    · exact absurd (self.symm.trans prev) isRoot
    · have same : P = last := by simpa [self] using prev
      have distinct := (List.nodup_append.mp (List.nodup_cons.mp nodup).2).2.2
      exact absurd rfl (distinct P (by simp [same]) P (by simp))

/-- Bridging over a node keeps every node's own fields and all links but two. -/
theorem bridge_fields (layout : Layout first stop top blocks) (ring : TreeRing top m blocks I bin)
    (member : P ∈ bin.nodes) {z : Nat} (large : LargeAt top blocks z) :
    (fdAt (bridge m (fdAt m P) (bkAt m P)) z = if z = bkAt m P then fdAt m P else fdAt m z) ∧
      (bkAt (bridge m (fdAt m P) (bkAt m P)) z = if z = fdAt m P then bkAt m P else bkAt m z) ∧
      ∀ a n, z + 32 ≤ a → a + n ≤ z + 64 →
        (bridge m (fdAt m P) (bkAt m P)).load a n = m.load a n := by
  obtain ⟨inF, inB, -, -⟩ := ring.neighbours member
  have largeF := ring.large inF
  have largeB := ring.large inB
  have placeF := largeF.geometry layout
  have placeB := largeB.geometry layout
  have apartF := largeF.apart layout large
  have apartB := largeB.apart layout large
  obtain ⟨forth, back⟩ := bridge_links (m := m) (F := fdAt m P) (B := bkAt m P) (z := z)
    (by omega) (by omega) (by omega) (by omega)
  refine ⟨forth, back, fun a n lower upper => ?_⟩
  refine (bridge_agrees m _ _).load a n fun x low high inside => ?_
  simp only [LinkWords] at inside
  omega

theorem remove_member (layout : Layout first stop top blocks) (ring : TreeRing top m blocks I bin)
    {root : Nat} {rest : List Nat} (shape : bin.nodes = root :: rest) (member : P ∈ rest) :
    TreeRing top (bridge m (fdAt m P) (bkAt m P)) blocks I ⟨bin.size, root :: rest.erase P⟩ := by
  have nodup := ring.nodup
  rw [shape] at nodup
  obtain ⟨left, right, rfl⟩ := List.append_of_mem member
  have notLeft : P ∉ left := fun inLeft =>
    (List.nodup_append.mp (List.nodup_cons.mp nodup).2).2.2 P inLeft P (by simp) rfl
  have removed : (left ++ P :: right).erase P = left ++ right := by
    rw [List.erase_append_right _ notLeft, List.erase_cons_head]
  have inNodes : ∀ z ∈ root :: (left ++ right), z ∈ bin.nodes := by
    intro z inside
    rw [shape]
    simp only [List.mem_cons, List.mem_append] at inside ⊢
    tauto
  have fields := fun z inside => ring.bridge_fields layout (P := P) (by simp [shape])
    (ring.large (inNodes z inside))
  obtain ⟨next, prev, -, -⟩ := ring_neighbours (ring.ring root _ shape)
  obtain ⟨inF, inB, -, -⟩ := ring.neighbours (P := P) (by simp [shape])
  rw [removed]
  refine ⟨fun p inside => ring.member p (inNodes p inside), fun _ => ring.sized (by simp [shape]),
    ?_, ?_, fun p inside => ?_, ?_⟩
  · rw [← removed]
    exact nodup.sublist ((List.erase_sublist).cons_cons root)
  · rintro r others same
    obtain ⟨rfl, rfl⟩ := List.cons.inj same
    have linksAt := ring.ring root _ shape
    refine ring_remove nodup linksAt ?_ ?_ ?_ ?_
    · rw [← prev, ((ring.bridge_fields layout (by simp [shape]) (ring.large inB)).1), if_pos rfl,
        next]
    · rw [← next, ((ring.bridge_fields layout (by simp [shape]) (ring.large inF)).2.1), if_pos rfl,
        prev]
    · intro z inside different
      rw [(fields z inside).1, if_neg (by rw [prev]; exact different)]
    · intro z inside different
      rw [(fields z inside).2.1, if_neg (by rw [next]; exact different)]
  · have old := ring.leaf p (inNodes p inside)
    simp only [childAt, TreeChunk.childSlot, indexAt] at old ⊢
    have kept := (fields p inside).2.2
    rwa [kept _ _ (by omega) (by omega), kept _ _ (by omega) (by omega),
      kept _ _ (by omega) (by omega)]
  · rintro r others same
    obtain ⟨rfl, rfl⟩ := List.cons.inj same
    obtain ⟨atRoot, atOthers⟩ := ring.parent root _ shape
    refine ⟨?_, fun p inside => ?_⟩
    · rw [parentAt, (fields root (by simp)).2.2 _ _ (by omega) (by omega)]
      exact atRoot
    · rw [parentAt, (fields p (List.mem_cons_of_mem _ inside)).2.2 _ _ (by omega) (by omega)]
      refine atOthers p ?_
      rcases List.mem_append.mp inside with inLeft | inRight
      · exact List.mem_append_left _ inLeft
      · exact List.mem_append_right _ (List.mem_cons_of_mem _ inRight)

/-- The last node takes the place of the root, and its parent field. -/
theorem remove_root (layout : Layout first stop top blocks) (ring : TreeRing top m blocks I bin)
    {last parent : Nat} {most : List Nat} (shape : bin.nodes = P :: (most ++ [last]))
    (fits : parent < 2 ^ 64) (nonzero : parent ≠ 0) :
    TreeRing top ((bridge m (fdAt m P) (bkAt m P)).store (last + 48) 8 parent) blocks I
      ⟨bin.size, last :: most⟩ := by
  have nodup := ring.nodup
  rw [shape] at nodup
  have inNodes : ∀ z ∈ last :: most, z ∈ bin.nodes := by
    intro z inside
    rw [shape]
    rcases List.mem_cons.mp inside with rfl | inMost
    · simp
    · simp [inMost]
  have largeLast := ring.large (inNodes last (by simp))
  obtain ⟨next, prev, -, -⟩ := ring_header (ring.ring P _ shape)
  have atLast : bkAt m P = last := by simpa using prev
  have atFirst : fdAt m P = most.headD last := by
    rw [next]
    cases most <;> rfl
  obtain ⟨inF, -, -, -⟩ := ring.neighbours (P := P) (by simp [shape])
  have largeF := ring.large inF
  have fields := fun z large => ring.bridge_fields layout (P := P) (z := z) (by simp [shape]) large
  have kept : ∀ z ∈ last :: most, ∀ a n, z + 16 ≤ a → a + n ≤ z + 48 ∨ z + 56 ≤ a →
      a + n ≤ z + 64 →
      ((bridge m (fdAt m P) (bkAt m P)).store (last + 48) 8 parent).load a n =
        (bridge m (fdAt m P) (bkAt m P)).load a n := by
    intro z inside a n lower middle upper
    have apart := largeLast.apart layout (ring.large (inNodes z inside))
    exact load_store_disjoint _ _ _ _ _ _ (by omega)
  refine ⟨fun p inside => ring.member p (inNodes p inside), fun _ => ring.sized (by simp [shape]),
    ?_, ?_, fun p inside => ?_, ?_⟩
  · have := (List.nodup_cons.mp nodup).2
    rw [List.nodup_append] at this
    exact List.nodup_cons.mpr ⟨fun inMost => this.2.2 last inMost last (by simp) rfl, this.1⟩
  · rintro r others same
    obtain ⟨rfl, rfl⟩ := List.cons.inj same
    have keptFd : ∀ z ∈ last :: most, fdAt _ z = fdAt _ z := fun z inside =>
      kept z inside (z + 16) 8 (by omega) (by omega) (by omega)
    have keptBk : ∀ z ∈ last :: most, bkAt _ z = bkAt _ z := fun z inside =>
      kept z inside (z + 24) 8 (by omega) (by omega) (by omega)
    refine ring_remove_header nodup (ring.ring P _ shape) ?_ ?_ ?_ ?_
    · rw [keptFd last (by simp), (fields last largeLast).1, if_pos atLast.symm, atFirst]
    · have inside : most.headD last ∈ last :: most := by cases most <;> simp
      rw [keptBk _ inside, ← atFirst, (fields _ largeF).2.1, if_pos rfl, atLast]
    · intro z inMost
      have differ : z ≠ last := by
        rintro rfl
        exact (List.nodup_append.mp (List.nodup_cons.mp nodup).2).2.2 z inMost z (by simp) rfl
      have inside : z ∈ last :: most := List.mem_cons_of_mem _ inMost
      rw [keptFd z inside, (fields z (ring.large (inNodes z inside))).1,
        if_neg (by rw [atLast]; exact differ)]
    · intro z inRest different
      have inside : z ∈ last :: most := by
        rcases List.mem_append.mp inRest with inMost | atEnd
        · exact List.mem_cons_of_mem _ inMost
        · simp [List.mem_singleton.mp atEnd]
      rw [keptBk z inside, (fields z (ring.large (inNodes z inside))).2.1,
        if_neg (by rw [atFirst]; exact different)]
  · have old := ring.leaf p (inNodes p inside)
    have same := (fields p (ring.large (inNodes p inside))).2.2
    simp only [childAt, TreeChunk.childSlot, indexAt] at old ⊢
    have kept := kept p inside
    rwa [kept _ _ (by omega) (by omega) (by omega), kept _ _ (by omega) (by omega) (by omega),
      kept _ _ (by omega) (by omega) (by omega), same _ _ (by omega) (by omega),
      same _ _ (by omega) (by omega), same _ _ (by omega) (by omega)]
  · rintro r others same
    obtain ⟨rfl, rfl⟩ := List.cons.inj same
    refine ⟨?_, fun p inMost => ?_⟩
    · rw [parentAt, load_store_same _ _ 8 _ (by omega)]
      exact nonzero
    · have large := ring.large (inNodes p (List.mem_cons_of_mem _ inMost))
      have differ : last ≠ p := by
        rintro rfl
        exact (List.nodup_append.mp (List.nodup_cons.mp nodup).2).2.2 last inMost last (by simp) rfl
      have apart := (largeLast.apart layout large).resolve_left differ
      rw [parentAt, load_store_disjoint _ _ _ _ _ _ (by omega)]
      rw [(fields p large).2.2 _ _ (by omega) (by omega)]
      exact (ring.parent P _ shape).2 p (List.mem_append_left _ inMost)

end TreeRing

theorem bridge_bytes {F B : Nat} (largeF : LargeAt top blocks F) (largeB : LargeAt top blocks B) :
    AgreesOutside (LargeBytes top blocks) m (bridge m F B) := by
  refine (bridge_agrees m F B).mono fun x inside => ?_
  rcases inside with ⟨lower, upper⟩ | ⟨lower, upper⟩
  · exact largeF.bytes ⟨lower, by omega⟩
  · exact largeB.bytes ⟨lower, by omega⟩

/-- The replacement of a node with equals: its predecessor in the ring. -/
theorem replacement_ring (tags : Tags first stop limit top s.mem blocks)
    (placed : Placed first stop s.gm s.mem) (ring : TreeRing top s.mem blocks I bin)
    (member : P ∈ bin.nodes) (several : bkAt s.mem P ≠ P) (fuel : Nat) :
    unlinkLargeChunk.replacement fuel P s = .ok (bkAt s.mem P)
      { s with mem := bridge s.mem (fdAt s.mem P) (bkAt s.mem P) } := by
  have layout := tags.layout
  obtain ⟨inF, inB, back, forth⟩ := ring.neighbours member
  have large := ring.large member
  have largeF := ring.large inF
  have largeB := ring.large inB
  have check : (okAddress (fdAt s.mem P) <&&> (do return (← Chunk.bk (fdAt s.mem P)) == P) <&&>
      do return (← Chunk.fd (bkAt s.mem P)) == P) s = .ok true s := by
    simp [largeF.ok_run layout placed, largeF.bk_run tags, largeB.fd_run tags, back, forth]
  have accF := fun a n => largeF.accessible (a := a) (n := n) tags
  have accB := fun a n => largeB.accessible (a := a) (n := n) tags
  simp only [unlinkLargeChunk.replacement, Fuelled.bind_run, large.bk_run tags, large.fd_run tags,
    run_ite, ne_eq, several, not_false_eq_true, if_true, check]
  simp [Chunk.setBk, Chunk.setFd, store64, run_storeN, accF, accB, bridge]

/-- A node without equals or children has no replacement. -/
theorem replacement_none (tags : Tags first stop limit top s.mem blocks)
    (ring : TreeRing top s.mem blocks I bin) (member : P ∈ bin.nodes) (single : bkAt s.mem P = P)
    (fuel : Nat) : unlinkLargeChunk.replacement fuel P s = .ok 0 s := by
  have large := ring.large member
  obtain ⟨left, right, -⟩ := ring.leaf P member
  simp only [unlinkLargeChunk.replacement, Fuelled.bind_run, large.bk_run tags, run_ite, ne_eq,
    single, not_true_eq_false, if_false, large.child_run tags (i := 1) (by omega),
    large.child_run tags (i := 0) (by omega), left, right, run_pure]

/-- Writing to nodes of one bin leaves the fields of all others. -/
theorem TreeBins.foreign (layout : Layout first stop top blocks)
    (bins : TreeBins top g m blocks tree) {m' : Memory}
    (agrees : AgreesOutside (fun x => ∃ z ∈ (tree I).nodes, TreeWords z x) m m') :
    ∀ i ≠ I, ∀ p ∈ (tree i).nodes, ∀ a n, p + 16 ≤ a → a + n ≤ p + 60 →
      m'.load a n = m.load a n := by
  intro i differ p member a n lower upper
  refine agrees.load a n fun x low high => ?_
  rintro ⟨z, inBin, inside⟩
  have different : z ≠ p := by
    rintro rfl
    exact differ (bins.index_unique layout member inBin)
  have apart := (((bins.bin I).large inBin).apart layout ((bins.bin i).large member)).resolve_left
    different
  simp only [TreeWords] at inside
  omega

theorem TreeBins.bridge_nodes (bins : TreeBins top s.gm s.mem blocks tree)
    (member : P ∈ (tree I).nodes) :
    AgreesOutside (fun x => ∃ z ∈ (tree I).nodes, TreeWords z x) s.mem
        (bridge s.mem (fdAt s.mem P) (bkAt s.mem P)) ∧
      AgreesOutside (LargeBytes top blocks) s.mem
        (bridge s.mem (fdAt s.mem P) (bkAt s.mem P)) := by
  have ring := bins.bin I
  obtain ⟨inF, inB, -, -⟩ := ring.neighbours member
  refine ⟨(bridge_agrees s.mem _ _).mono fun x inside => ?_,
    bridge_bytes (ring.large inF) (ring.large inB)⟩
  rcases inside with ⟨lower, upper⟩ | ⟨lower, upper⟩
  · exact ⟨_, inF, lower, by omega⟩
  · exact ⟨_, inB, lower, by omega⟩

section Unlink

variable (tags : Tags first stop limit top s.mem blocks)
  (bins : TreeBins top s.gm s.mem blocks tree)

include tags bins

/-- The only block of a bin: the bin is emptied. -/
theorem unlink_single (shape : (tree I).nodes = [P]) (fuel : Nat) :
    TreeChange top s blocks (Function.update tree I ⟨(tree I).size, dropNode P (tree I).nodes⟩)
      (unlinkLargeChunk fuel P s) := by
  have ring := bins.bin I
  have member : P ∈ (tree I).nodes := by simp [shape]
  have bound := bins.index_lt member
  have large := ring.large member
  have atRoot := bins.root I bound
  rw [shape, List.headD_cons] at atRoot
  have parent := (ring.parent P [] shape).1
  obtain ⟨left, right, index⟩ := ring.leaf P member
  have acc := fun a n => large.accessible (a := a) (n := n) tags
  have self : bkAt s.mem P = P := (ring_header (ring.ring P [] shape)).2.1
  refine ⟨s.gm.treemap &&& not32 (idx2bit I), Function.update s.gm.treebins I 0, s.mem, ?_, ?_,
    AgreesOutside.refl _⟩
  · simp only [unlinkLargeChunk, Fuelled.bind_run, large.parent_run tags,
      replacement_none tags ring member self, run_ite, ne_eq, parent, not_false_eq_true, if_true,
      large.index_run tags, index, treebin, run_readGm, run_pure, atRoot, setTreebin,
      run_writeGm]
    simp [unlinkLargeChunk.inherit, TreeChunk.index, load32, run_loadN, acc, index, clearTreemap]
  · rw [shape]
    refine bins.update (clear_lt bins.bits) (fun i inRange => ?_) (fun i inRange => ?_) ?_
      fun _ _ _ _ _ _ _ _ => rfl
    · rw [testBit_clear bins.bits bound]
      by_cases same : i = I
      · simp [same, dropNode]
      · simp [same, Ne.symm same]
    · by_cases same : i = I
      · simp [same, dropNode]
      · simp [same]
    · constructor <;> simp [dropNode]

variable (placed : Placed first stop s.gm s.mem)

include placed

/-- A ring's node with equals: the last of them becomes the node. -/
theorem unlink_root {last : Nat} {most : List Nat} (shape : (tree I).nodes = P :: (most ++ [last]))
    (fuel : Nat) :
    TreeChange top s blocks (Function.update tree I ⟨(tree I).size, dropNode P (tree I).nodes⟩)
      (unlinkLargeChunk fuel P s) := by
  have layout := tags.layout
  have ring := bins.bin I
  have member : P ∈ (tree I).nodes := by simp [shape]
  have inLast : last ∈ (tree I).nodes := by simp [shape]
  have bound := bins.index_lt member
  have large := ring.large member
  have largeLast := ring.large inLast
  have placeLast := largeLast.geometry layout
  have atRoot := bins.root I bound
  rw [shape, List.headD_cons] at atRoot
  have parent := (ring.parent P _ shape).1
  obtain ⟨left, right, index⟩ := ring.leaf P member
  have acc := fun a n => large.accessible (a := a) (n := n) tags
  obtain ⟨inNodes, bytes⟩ := bins.bridge_nodes member
  have atLast : bkAt s.mem P = last := by simpa using (ring_header (ring.ring P _ shape)).2.1
  have differ : last ≠ P := by
    rintro rfl
    have nodup := ring.nodup
    rw [shape] at nodup
    exact (List.nodup_cons.mp nodup).1 (by simp)
  have apart := (largeLast.apart layout large).resolve_left differ
  have several : bkAt s.mem P ≠ P := atLast ▸ differ
  have fits := s.mem.load_lt (P + 48) 8
  have fresh := ring.remove_root layout shape fits parent
  have own := (ring.bridge_fields layout member large).2.2
  have leastLe := placed.leastLe
  have write : AgreesOutside (fun x => TreeWords last x)
      (bridge s.mem (fdAt s.mem P) (bkAt s.mem P))
      ((bridge s.mem (fdAt s.mem P) (bkAt s.mem P)).store (last + 48) 8 (parentAt s.mem P)) :=
    (AgreesOutside.refl _).store _ _ _ fun x lower upper => ⟨by omega, by omega⟩
  refine ⟨s.gm.treemap, Function.update s.gm.treebins I last, _, ?_, ?_,
    bytes.trans (write.mono fun x inside => largeLast.bytes inside)⟩
  · generalize bridged : bridge s.mem (fdAt s.mem P) (bkAt s.mem P) = m' at own bytes write ⊢
    have accIndex := (bytes.accessible _ _).trans (acc (P + 56) 4 (by omega) (by omega))
    have accLeft := (bytes.accessible _ _).trans (acc (P + 32 + 8 * 0) 8 (by omega) (by omega))
    have accRight := (bytes.accessible _ _).trans (acc (P + 32 + 8 * 1) 8 (by omega) (by omega))
    have notNull : ¬ last = 0 := by omega
    have okLast : s.gm.leastAddr ≤ last := by omega
    have accLast : m'.accessible (last + 48) 8 = true :=
      (bytes.accessible _ _).trans (largeLast.accessible tags (by omega) (by omega))
    have index' : m'.load (P + 56) 4 = I := (own _ _ (by omega) (by omega)).trans index
    -- `P` has no children to hand on
    have child : ∀ i < 2, (m'.store (last + 48) 8 (parentAt s.mem P)).load (P + 32 + 8 * i) 8 = 0 := by
      intro i side
      rw [load_store_disjoint _ _ _ _ _ _ (by omega), own _ _ (by omega) (by omega)]
      rcases Nat.lt_or_ge 0 i with one | zero
      · rw [show i = 1 by omega]
        exact right
      · rw [show i = 0 by omega]
        exact left
    have child0 := child 0 (by omega)
    have child1 := child 1 (by omega)
    simp only [Nat.mul_zero, Nat.mul_one, Nat.add_zero] at accLeft accRight child0 child1
    simp only [unlinkLargeChunk, Fuelled.bind_run, large.parent_run tags, ne_eq, parent,
      replacement_ring tags placed ring member several, bridged, run_ite, not_false_eq_true,
      if_true]
    simp [TreeChunk.index, load32, run_loadN, accIndex, index', treebin, atRoot, setTreebin,
      atLast, notNull, okLast, unlinkLargeChunk.inherit, unlinkLargeChunk.adopt, okAddress_run,
      TreeChunk.setParent, store64, run_storeN, accLast, TreeChunk.child, TreeChunk.childSlot,
      load64, accLeft, accRight, child0, child1]
  · have drop : dropNode P (P :: (most ++ [last])) = last :: most := by simp [dropNode]
    rw [shape, drop]
    refine bins.update bins.bits (fun i inRange => ?_) (fun i inRange => ?_) fresh
      (bins.foreign layout (inNodes.trans (write.mono fun x inside => ⟨last, inLast, inside⟩)))
    · by_cases same : i = I
      · subst same
        simp [bins.marked i inRange, shape]
      · simp [same]
    · by_cases same : i = I
      · simp [same]
      · simp [same]

/-- A member that is not the node only leaves the ring. -/
theorem unlink_rest {root : Nat} {rest : List Nat} (shape : (tree I).nodes = root :: rest)
    (inRest : P ∈ rest) (notRoot : P ≠ root) (fuel : Nat) :
    TreeChange top s blocks (Function.update tree I ⟨(tree I).size, dropNode P (tree I).nodes⟩)
      (unlinkLargeChunk fuel P s) := by
  have layout := tags.layout
  have ring := bins.bin I
  have member : P ∈ (tree I).nodes := by simp [shape, inRest]
  have large := ring.large member
  have atRoot := bins.root I (bins.index_lt member)
  rw [shape, List.headD_cons] at atRoot
  obtain ⟨inNodes, bytes⟩ := bins.bridge_nodes member
  have several : bkAt s.mem P ≠ P := by
    intro self
    have single := ring.alone member self
    rw [shape] at single
    simp [(List.cons.inj single).2] at inRest
  have orphan := (ring.parent root rest shape).2 P inRest
  refine ⟨s.gm.treemap, s.gm.treebins, bridge s.mem (fdAt s.mem P) (bkAt s.mem P), ?_, ?_, bytes⟩
  · simp only [unlinkLargeChunk, Fuelled.bind_run, large.parent_run tags, orphan,
      replacement_ring tags placed ring member several, ne_eq, not_true_eq_false,
      if_false, run_pure]
  · have drop : dropNode P (root :: rest) = root :: rest.erase P := by
      simp [dropNode, Ne.symm notRoot]
    rw [shape, drop]
    refine bins.update bins.bits (fun i inRange => ?_) (fun i inRange => ?_)
      (ring.remove_member layout shape inRest) (bins.foreign layout inNodes)
    · by_cases same : i = I
      · subst same
        simp [bins.marked i inRange, shape]
      · simp [same]
    · by_cases same : i = I
      · subst same
        simp [atRoot]
      · simp [same]

end Unlink

theorem unlinkLargeChunk_spec (tags : Tags first stop limit top s.mem blocks)
    (placed : Placed first stop s.gm s.mem) (bins : TreeBins top s.gm s.mem blocks tree)
    (member : P ∈ (tree I).nodes) (fuel : Nat) :
    TreeChange top s blocks
      (Function.update tree I ⟨(tree I).size, dropNode P (tree I).nodes⟩)
      (unlinkLargeChunk fuel P s) := by
  obtain ⟨root, rest, shape⟩ := List.exists_cons_of_ne_nil (List.ne_nil_of_mem member)
  by_cases isRoot : P = root
  · subst isRoot
    rcases List.eq_nil_or_concat rest with rfl | ⟨most, last, rfl⟩
    · exact unlink_single tags bins shape fuel
    · rw [List.concat_eq_append] at shape
      exact unlink_root tags bins placed shape fuel
  · rw [shape] at member
    have inRest := (List.mem_cons.mp member).resolve_left isRoot
    exact unlink_rest tags bins placed shape inRest isRoot fuel

end Removal

end Unimem
