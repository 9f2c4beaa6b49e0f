import Unimem.Free

/-!
What a Free makes of the blocks, on the heap alone: the freed block and its free
neighbours become one block, which is top, dv or filed.
-/

namespace Unimem

open Tiling MallocState

/-- The used block `b`, with the free block in front of it if there is one: together
they start at `low` and have `size` bytes. -/
inductive Front (b : Block) : List Block → Nat → Nat → Prop
  | alone : b.pinuse = true → Front b [b] b.addr b.size
  | behind (q : Block) : b.pinuse = false → q.cinuse = false → q.stop = b.addr →
      Front b [q, b] q.addr (b.size + q.size)

/-- The blocks `mid` that end in a freed block, and `n` behind them if it is free, become
one block from `low` on. -/
structure Merges (h h' : Heap) (below mid above : List Block) (n : Block) (low size : Nat) :
    Prop where
  shape : h.blocks = below ++ mid ++ n :: above
  blocks : h'.blocks = below ++
    if n.cinuse then ⟨low, size, false, true⟩ :: { n with pinuse := false } :: above
    else ⟨low, size + n.size, false, true⟩ :: above
  atTop : n.cinuse = false → n.addr = h.top → h'.top = low ∧
    h'.dv = (if low = h.dv then 0 else h.dv) ∧ h'.dvsize = if low = h.dv then 0 else h.dvsize
  top : n.cinuse = true ∨ n.addr ≠ h.top → h'.top = h.top
  joins : n.cinuse = true ∨ n.addr ≠ h.top → low = h.dv ∨ n.cinuse = false ∧ n.addr = h.dv →
    h'.dv = low ∧ h'.dvsize = size + if n.cinuse then 0 else n.size
  apart : n.cinuse = true ∨ n.addr ≠ h.top → low ≠ h.dv → n.cinuse = true ∨ n.addr ≠ h.dv →
    h'.dv = h.dv ∧ h'.dvsize = h.dvsize

section Merging

variable {first stop limit low size : Nat} {s : Store} {h h₁ h' : Heap}
  {below mid above : List Block}
  {b n : Block}

/-- A relay of the group, in any heap with the same blocks. -/
theorem Layout.relay_group {top : Nat} (layout : Layout first stop top (below ++ mid ++ n :: above))
    (lower : TilesBlocks first below low) (shape : h.blocks = below ++ mid ++ n :: above)
    (fresh : List Block) : (h.relay low n.stop fresh).blocks = below ++ fresh ++ above := by
  obtain ⟨middle, upper⟩ := layout.low_eq lower
  have whole : h.blocks = below ++ (mid ++ [n]) ++ above := by simp [shape]
  have inner : TilesBlocks low (mid ++ [n]) n.stop := tiles_append.mpr ⟨n.addr, middle, rfl, rfl⟩
  have nonempty := layout.nonempty
  refine Layout.relay_blocks lower inner upper (fun b member => nonempty b ?_) fresh h whole
  simpa using member

/-- What is the same in two heaps that differ in their bins only. -/
structure SameBlocks (h h₁ : Heap) : Prop where
  blocks : h₁.blocks = h.blocks
  top : h₁.top = h.top
  dv : h₁.dv = h.dv
  dvsize : h₁.dvsize = h.dvsize

theorem freeForward_merges {top : Nat} (layout : Layout first stop top (below ++ mid ++ n :: above))
    (lower : TilesBlocks first below low) (shape : h.blocks = below ++ mid ++ n :: above)
    (same : SameBlocks h h₁) (dvsize : n.addr = h.dv → n.cinuse = false → h.dvsize = n.size)
    (out : n.cinuse = true → low ≠ h.dv) (freed : h₁.freeForward low size n = some h') :
    Merges h h' below mid above n low size := by
  have whole : ∀ {h₂ : Heap}, h₂.blocks = h.blocks →
      (h₂.freed low size n).blocks =
        below ++ ⟨low, size, false, true⟩ :: { n with pinuse := false } :: above ∧
      (h₂.merged low size n).blocks = below ++ ⟨low, size + n.size, false, true⟩ :: above := by
    intro h₂ alike
    have one := layout.relay_group lower (alike.trans shape)
      [⟨low, size, false, true⟩, { n with pinuse := false }]
    have two := layout.relay_group lower (alike.trans shape) [⟨low, size + n.size, false, true⟩]
    rw [List.append_assoc] at one two
    exact ⟨one, two⟩
  cases used : n.cinuse with
  | true =>
      rw [Heap.freeForward, if_pos used] at freed
      obtain ⟨blocks, top, dv, dvsize'⟩ := link_same freed
      refine ⟨shape, ?_, by simp [used], fun _ => top.trans same.top, fun _ joined => ?_,
        fun _ _ _ => ⟨dv.trans same.dv, dvsize'.trans same.dvsize⟩⟩
      · rw [if_pos used, blocks]
        exact (whole same.blocks).1
      · simp only [used, Bool.true_eq_false, false_and, or_false] at joined
        exact absurd joined (out used)
  | false =>
      rw [Heap.freeForward, used, if_neg (by simp)] at freed
      simp only [same.top, same.dv, same.dvsize] at freed
      have merged := (whole same.blocks).2
      -- the order of the tests in Free: top, then dv, then a binned successor
      split at freed
      · rename_i atTop
        have outcome := Option.some.inj freed
        refine ⟨shape, ?_, fun _ _ => ?_, fun away => ?_, fun away => ?_, fun away => ?_⟩
        · rw [if_neg (by simp [used]), ← merged, ← outcome]
          split <;> rfl
        · rw [← outcome]
          by_cases isDv : low = h.dv
          · simp [isDv, Heap.setDv]
          · simp [isDv, Heap.merged, Heap.relay, same.dv, same.dvsize]
        all_goals exact absurd atTop (away.resolve_left (by simp [used]))
      · rename_i notTop
        split at freed
        · rename_i isDv
          obtain rfl := Option.some.inj freed
          refine ⟨shape, ?_, fun _ atTop => absurd atTop notTop, fun _ => same.top, fun _ _ => ?_,
            fun _ _ differ => ?_⟩
          · rw [if_neg (by simp [used])]
            exact merged
          · simp only [used, Heap.setDv, dvsize isDv used, Bool.false_eq_true, if_false, true_and]
            exact Nat.add_comm _ _
          · exact absurd isDv (differ.resolve_left (by simp [used]))
        · rename_i notDv
          obtain ⟨sameBlocks, sameTop, sameDv, sameSize⟩ :=
            Represents.unlink_blocks h₁ n.addr n.size
          have merged := (whole (sameBlocks.trans same.blocks)).2
          split at freed
          · rename_i isDv
            obtain rfl := Option.some.inj freed
            refine ⟨shape, ?_, fun _ atTop => absurd atTop notTop, fun _ => sameTop.trans same.top,
              fun _ _ => ⟨rfl, by simp [used, Heap.setDv]⟩, fun _ differ => absurd isDv differ⟩
            rw [if_neg (by simp [used])]
            exact merged
          · rename_i differ
            obtain ⟨blocks, top, dv, dvsize'⟩ := link_same freed
            refine ⟨shape, ?_, fun _ atTop => absurd atTop notTop,
              fun _ => top.trans (sameTop.trans same.top), fun _ joined => ?_,
              fun _ _ _ => ⟨dv.trans (sameDv.trans same.dv),
                dvsize'.trans (sameSize.trans same.dvsize)⟩⟩
            · rw [if_neg (by simp [used]), blocks]
              exact merged
            · rcases joined with isDv | ⟨-, isDv⟩
              · exact absurd isDv differ
              · exact absurd isDv notDv

/-- The heap a Free goes forward with: the block in front is out of the bins. -/
structure Ahead (h h₁ : Heap) (low : Nat) : Prop extends SameBlocks h h₁ where
  nodup : ∀ i, (h₁.tree i).nodes.Nodup
  nodes : ∀ i z, z ∈ (h₁.tree i).nodes ↔ z ∈ (h.tree i).nodes ∧ z ≠ low
  size : ∀ i, (h₁.tree i).size = (h.tree i).size

/-- How a Free of the used block `b` goes on, and from where. -/
structure Freeing (first : Nat) (h : Heap) (below mid above : List Block) (b n : Block)
    (low size : Nat) : Prop where
  shape : h.blocks = below ++ mid ++ n :: above
  front : Front b mid low size
  member : b ∈ h.blocks
  used : b.cinuse = true
  next : n.addr = b.stop
  pinuse : n.pinuse = true
  lower : TilesBlocks first below low
  dvsize : n.addr = h.dv → n.cinuse = false → h.dvsize = n.size
  goes : (∃ h₁, Ahead h h₁ low ∧ (n.cinuse = true → low ≠ h.dv) ∧
      h.free b.addr = h₁.freeForward low size n) ∨
    low = h.dv ∧ n.cinuse = true ∧ h.free b.addr = some ((h.freed low size n).setDv low size)

theorem nodup_dropNode {p : Nat} {nodes : List Nat} (nodup : nodes.Nodup) :
    (dropNode p nodes).Nodup := by
  cases nodes with
  | nil => exact List.nodup_nil
  | cons root rest =>
      obtain ⟨fresh, restNodup⟩ := List.nodup_cons.mp nodup
      by_cases isRoot : root = p
      · rcases List.eq_nil_or_concat rest with rfl | ⟨most, last, rfl⟩
        · simp [dropNode, isRoot]
        · have turned : (last :: most).Nodup := by
            rw [List.concat_eq_append] at restNodup
            exact (List.perm_append_singleton last most).nodup_iff.mp restNodup
          simpa [dropNode, isRoot] using turned
      · simp only [dropNode, if_neg isRoot, List.nodup_cons]
        exact ⟨fun member => fresh (List.mem_of_mem_erase member), restNodup.erase _⟩

/-- Taking a block out of its bin takes it out of the nodes, and no other block. -/
theorem unlink_nodes {p r : Nat} (nodup : ∀ i, (h.tree i).nodes.Nodup)
    (place : ∀ i, p ∈ (h.tree i).nodes → 256 ≤ r ∧ i = computeTreeIndex r) (i : Nat) :
    ((h.unlink p r).tree i).nodes.Nodup ∧
      (∀ z, z ∈ ((h.unlink p r).tree i).nodes ↔ z ∈ (h.tree i).nodes ∧ z ≠ p) ∧
        ((h.unlink p r).tree i).size = (h.tree i).size := by
  have away : p ∉ (h.tree i).nodes → ∀ z, z ∈ (h.tree i).nodes ↔ z ∈ (h.tree i).nodes ∧ z ≠ p := by
    intro absent z
    refine ⟨fun member => ⟨member, ?_⟩, And.left⟩
    rintro rfl
    exact absent member
  by_cases few : r < 256
  · have same : (h.unlink p r).tree = h.tree := by simp only [Heap.unlink, if_pos few]
    rw [same]
    refine ⟨nodup i, away fun member => ?_, rfl⟩
    have := (place i member).1
    omega
  · simp only [Heap.unlink, if_neg few]
    by_cases same : i = computeTreeIndex r
    · subst same
      rw [Function.update_self]
      exact ⟨nodup_dropNode (nodup _), fun z => mem_dropNode (nodup _), rfl⟩
    · rw [Function.update_of_ne same]
      exact ⟨nodup i, away fun member => same (place i member).2, rfl⟩

namespace Represents

/-- A free block is a node of no tree bin but that of its size. -/
theorem node_place (rep : Represents first stop limit s h []) {p r : Nat}
    (free : FreeAt h.top h.blocks p r) (i : Nat) (member : p ∈ (h.tree i).nodes) :
    256 ≤ r ∧ i = computeTreeIndex r := by
  obtain ⟨size, index⟩ := rep.tree.index_eq rep.layout member free
  have sized := (rep.tree.bin i).sized (List.ne_nil_of_mem member)
  exact ⟨size ▸ sized.1, index⟩

theorem unlink_ahead (rep : Represents first stop limit s h []) {p r : Nat}
    (free : FreeAt h.top h.blocks p r) : Ahead h (h.unlink p r) p := by
  obtain ⟨blocks, top, dv, dvsize⟩ := unlink_blocks h p r
  have nodes := unlink_nodes (fun i => (rep.tree.bin i).nodup) (rep.node_place free)
  exact ⟨⟨blocks, top, dv, dvsize⟩, fun i => (nodes i).1, fun i => (nodes i).2.1,
    fun i => (nodes i).2.2⟩

theorem freeing (rep : Represents first stop limit s h []) {a k : Nat} (used : h.Used a k) :
    ∃ below mid above b n low size, Freeing first h below mid above b n low size ∧ b.addr = a ∧
      b.size = k := by
  obtain ⟨notTop, b, member, rfl, rfl, inuse⟩ := used
  obtain ⟨below, n, above, shape, next⟩ := rep.layout.successor member notTop
  have positive := rep.layout.positive
  have notDv : ∀ c ∈ h.blocks, c.addr = h.dv → c.cinuse = false ∧ c.size = h.dvsize := by
    intro c inC isDv
    have bounds := (rep.layout.bounds inC).1
    obtain ⟨-, d, inD, here, size, unused⟩ := rep.filed.dvFree (show h.dv ≠ 0 by omega)
    obtain rfl := rep.layout.addr_inj inD inC (here.trans isDv.symm)
    exact ⟨unused, size⟩
  have atB := rep.layout.blockAt_eq rfl member
  have inN : n ∈ h.blocks := by simp [shape]
  have atN := rep.layout.blockAt_eq rfl inN
  rw [next] at atN
  have flagN : n.pinuse = true := by
    have layout := rep.layout
    rw [shape] at layout
    refine layout.pinuseUsed b n ?_ inuse
    rw [adjacent_append]
    exact Or.inr (Or.inr (Or.inl ⟨rfl, rfl⟩))
  have outcome : h.free b.addr =
      h.freeBlock b n (if b.pinuse then none else h.blockEnding b.addr) := by
    simp only [Heap.free, atB, atN]
  -- the group is the block alone, or the block and a free one in front
  cases flag : b.pinuse with
  | true =>
      rw [flag, if_pos rfl, Heap.freeBlock] at outcome
      refine ⟨below, [b], above, b, n, b.addr, b.size, ?_, rfl, rfl⟩
      refine ⟨by simp [shape], Front.alone flag, member, inuse, next, flagN, (rep.group shape).1,
        fun isDv _ => (notDv n inN isDv).2.symm,
        Or.inl ⟨h, ⟨⟨rfl, rfl, rfl, rfl⟩, fun i => (rep.tree.bin i).nodup, fun i z => ?_,
          fun i => rfl⟩, fun _ isDv => ?_, outcome⟩⟩
      · refine ⟨fun inBin => ⟨inBin, ?_⟩, And.left⟩
        rintro rfl
        obtain ⟨-, c, inC, here, -, unused⟩ := (rep.tree.bin i).member _ inBin
        rw [rep.layout.addr_inj inC member here, inuse] at unused
        cases unused
      · rw [(notDv b member isDv).1] at inuse
        cases inuse
  | false =>
      obtain ⟨most, q, rfl, unused, flagQ, finish, qNotTop, -⟩ := rep.free_before shape flag
      have inQ : q ∈ h.blocks := by simp [shape]
      have ending := rep.layout.blockEnding_eq rfl inQ
      rw [finish] at ending
      have group : h.blocks = most ++ [q, b] ++ n :: above := by simp [shape]
      have lower : TilesBlocks first most q.addr := by
        have tiles : TilesBlocks first (most ++ q :: b :: n :: above) stop := by
          simpa [shape] using rep.layout.tiles
        exact (tiles_split tiles).1
      have freeQ : FreeAt h.top h.blocks q.addr q.size := ⟨qNotTop, q, inQ, rfl, rfl, unused⟩
      rw [flag, if_neg (by simp), ending, Heap.freeBlock] at outcome
      refine ⟨most, [q, b], above, b, n, q.addr, b.size + q.size, ?_, rfl, rfl⟩
      refine ⟨group, Front.behind q flag unused finish, member, inuse, next, flagN, lower,
        fun isDv _ => (notDv n inN isDv).2.symm, ?_⟩
      by_cases isDv : q.addr = h.dv
      · -- dv is in no bin, so nothing is unlinked
        rw [if_neg (not_not.mpr isDv)] at outcome
        cases usedN : n.cinuse with
        | true =>
            rw [if_pos usedN] at outcome
            exact Or.inr ⟨isDv, rfl, outcome⟩
        | false =>
            rw [if_neg (by simp [usedN])] at outcome
            refine Or.inl ⟨h, ⟨⟨rfl, rfl, rfl, rfl⟩, fun i => (rep.tree.bin i).nodup,
              fun i z => ⟨fun inBin => ⟨inBin, ?_⟩, And.left⟩, fun i => rfl⟩, by simp, outcome⟩
            rintro rfl
            exact rep.filed.dvOut.1 (isDv ▸ ⟨i, Or.inr inBin⟩)
      · rw [if_pos isDv] at outcome
        exact Or.inl ⟨h.unlink q.addr q.size, rep.unlink_ahead freeQ, fun _ => isDv, outcome⟩

/-- A Free that succeeds merges the chunk with its free neighbours. -/
theorem free_merges (rep : Represents first stop limit s h [])
    (freeing : Freeing first h below mid above b n low size) (freed : h.free b.addr = some h') :
    Merges h h' below mid above n low size := by
  have layout := rep.layout
  rw [freeing.shape] at layout
  rcases freeing.goes with ⟨h₁, ahead, out, outcome⟩ | ⟨isDv, usedN, outcome⟩
  · exact freeForward_merges layout freeing.lower freeing.shape ahead.toSameBlocks freeing.dvsize out
      (outcome.symm.trans freed)
  · obtain rfl := Option.some.inj (outcome.symm.trans freed)
    have whole := layout.relay_group freeing.lower freeing.shape
      [⟨low, size, false, true⟩, { n with pinuse := false }]
    rw [List.append_assoc] at whole
    refine ⟨freeing.shape, ?_, by simp [usedN], fun _ => rfl,
      fun _ _ => ⟨rfl, by simp [usedN, Heap.setDv]⟩,
      fun _ differ => absurd isDv differ⟩
    rw [if_pos usedN]
    exact whole

end Represents

theorem link_none {p r : Nat} : h.link p r = none ↔
    256 ≤ r ∧ (h.tree (computeTreeIndex r)).nodes ≠ [] ∧
      (h.tree (computeTreeIndex r)).size ≠ r := by
  unfold Heap.link
  split
  · simp only [reduceCtorEq, false_iff, not_and]
    omega
  · rename_i large
    simp only [ite_eq_right_iff, reduceCtorEq, imp_false, not_or]
    exact ⟨fun refused => ⟨Nat.le_of_not_lt large, refused⟩, And.right⟩

/-- A second size in the tree bin of size `r`, other than at `p` and `q`. -/
def Heap.Crowded (h : Heap) (p q r : Nat) : Prop :=
  256 ≤ r ∧ (h.tree (computeTreeIndex r)).size ≠ r ∧
    ∃ z ∈ (h.tree (computeTreeIndex r)).nodes, z ≠ p ∧ z ≠ q

/-- Filing is refused where the bin holds a second size, apart from the blocks
    merged with the one to be filed. -/
theorem link_crowded {g : Heap} {low q r : Nat}
    (members : ∀ i z, z ∈ (g.tree i).nodes ↔ z ∈ (h.tree i).nodes ∧ z ≠ low ∧ z ≠ q)
    (sizes : ∀ i, (g.tree i).size = (h.tree i).size) :
    g.link low r = none ↔ h.Crowded low q r := by
  rw [link_none, sizes]
  constructor
  · rintro ⟨large, some, differ⟩
    obtain ⟨z, member⟩ := List.exists_mem_of_ne_nil _ some
    exact ⟨large, differ, z, (members _ z).mp member⟩
  · rintro ⟨large, differ, z, member⟩
    exact ⟨large, List.ne_nil_of_mem ((members _ z).mpr member), differ⟩

namespace Represents

/-- A Free is refused exactly where its block is to be filed in a bin of another size. -/
theorem free_refused (rep : Represents first stop limit s h [])
    (freeing : Freeing first h below mid above b n low size) :
    h.free b.addr = none ↔ (n.cinuse = true ∨ n.addr ≠ h.top) ∧ low ≠ h.dv ∧
      (n.cinuse = true ∨ n.addr ≠ h.dv) ∧
        h.Crowded low n.addr (size + if n.cinuse then 0 else n.size) := by
  have inN : n ∈ h.blocks := by simp [freeing.shape]
  rcases freeing.goes with ⟨h₁, ahead, out, outcome⟩ | ⟨isDv, usedN, outcome⟩
  · rw [outcome, Heap.freeForward]
    cases used : n.cinuse with
    | true =>
        -- a used successor is in no tree bin
        have away : ∀ i, n.addr ∉ (h.tree i).nodes := by
          intro i inBin
          obtain ⟨-, c, inC, here, -, unused⟩ := (rep.tree.bin i).member _ inBin
          rw [rep.layout.addr_inj inC inN here, used] at unused
          cases unused
        have members : ∀ i z, z ∈ (h₁.tree i).nodes ↔
            z ∈ (h.tree i).nodes ∧ z ≠ low ∧ z ≠ n.addr := by
          intro i z
          rw [ahead.nodes]
          refine and_congr_right fun inBin => (and_iff_left ?_).symm
          rintro rfl
          exact away i inBin
        rw [if_pos rfl, link_crowded (g := h₁.freed low size n) members ahead.size]
        simp [out used]
    | false =>
        rw [if_neg (by simp), ahead.top, ahead.dv]
        split
        · rename_i atTop
          simp [atTop]
        · rename_i notTop
          split
          · rename_i isDv
            simp [isDv]
          · rename_i notDv
            split
            · rename_i isDv
              simp [isDv]
            · rename_i notLow
              have freeN : FreeAt h.top h.blocks n.addr n.size := ⟨notTop, n, inN, rfl, rfl, used⟩
              -- the successor has left its bin by the time the block is filed
              have after := unlink_nodes ahead.nodup (p := n.addr) (r := n.size) fun i member =>
                rep.node_place freeN i ((ahead.nodes i _).mp member).1
              have members : ∀ i z, z ∈ ((h₁.unlink n.addr n.size).tree i).nodes ↔
                  z ∈ (h.tree i).nodes ∧ z ≠ low ∧ z ≠ n.addr := by
                intro i z
                rw [(after i).2.1, ahead.nodes, and_assoc]
              show ((h₁.unlink n.addr n.size).merged low size n).link low _ = none ↔ _
              rw [link_crowded (g := (h₁.unlink n.addr n.size).merged low size n) members
                fun i => (after i).2.2.trans (ahead.size i)]
              simp [notTop, notDv, notLow]
  · rw [outcome]
    simp [isDv]

end Represents

/-- Blocks away from the merged ones are free as before. -/
theorem Merges.free_iff (merges : Merges h h' below mid above n low size)
    (front : Front b mid low size)
    (used : b.cinuse = true) {p r : Nat} (notLow : p ≠ low) (notNext : p ≠ n.addr) :
    FreeAt h'.top h'.blocks p r ↔ FreeAt h.top h.blocks p r := by
  have inMid : ∀ c ∈ mid, c.addr = p → c.cinuse = true := by
    intro c member here
    cases front with
    | alone =>
        rw [List.mem_singleton.mp member]
        exact used
    | behind q =>
        rcases List.mem_cons.mp member with rfl | isB
        · exact absurd here (Ne.symm notLow)
        · rw [List.mem_singleton.mp isB]
          exact used
  have blocks : (∃ c ∈ h'.blocks, c.addr = p ∧ c.size = r ∧ c.cinuse = false) ↔
      ∃ c ∈ h.blocks, c.addr = p ∧ c.size = r ∧ c.cinuse = false := by
    rw [merges.blocks, merges.shape]
    constructor
    · rintro ⟨c, member, rfl, rfl, unused⟩
      refine ⟨c, ?_, rfl, rfl, unused⟩
      cases usedN : n.cinuse <;> simp only [usedN, Bool.false_eq_true, if_false, if_true] at member
      all_goals
        simp only [List.mem_append, List.mem_cons] at member ⊢
      · rcases member with inBelow | rfl | inAbove
        · exact Or.inl (Or.inl inBelow)
        · exact absurd rfl notLow
        · exact Or.inr (Or.inr inAbove)
      · rcases member with inBelow | rfl | rfl | inAbove
        · exact Or.inl (Or.inl inBelow)
        · exact absurd rfl notLow
        · exact absurd rfl notNext
        · exact Or.inr (Or.inr inAbove)
    · rintro ⟨c, member, rfl, rfl, unused⟩
      simp only [List.mem_append, List.mem_cons] at member
      refine ⟨c, ?_, rfl, rfl, unused⟩
      rcases member with (inBelow | inside) | rfl | inAbove
      · exact List.mem_append_left _ inBelow
      · rw [inMid c inside rfl] at unused
        cases unused
      · exact absurd rfl notNext
      · cases n.cinuse <;> simp [inAbove]
  have tops : p ≠ h'.top ↔ p ≠ h.top := by
    by_cases away : n.cinuse = true ∨ n.addr ≠ h.top
    · rw [merges.top away]
    · simp only [not_or, Bool.not_eq_true, not_not] at away
      rw [(merges.atTop away.1 away.2).1, ← away.2]
      exact ⟨fun _ => notNext, fun _ => notLow⟩
  rw [FreeAt, FreeAt, tops, blocks]

/-- Away from top, the merged block is free. -/
theorem Merges.freed (merges : Merges h h' below mid above n low size)
    (lowTop : low ≠ h.top) (away : n.cinuse = true ∨ n.addr ≠ h.top) :
    FreeAt h'.top h'.blocks low (size + if n.cinuse then 0 else n.size) := by
  refine ⟨by rw [merges.top away]; exact lowTop, ?_⟩
  rw [merges.blocks]
  cases n.cinuse
  · exact ⟨⟨low, size + n.size, false, true⟩, by simp, rfl, by simp, rfl⟩
  · exact ⟨⟨low, size, false, true⟩, by simp, rfl, by simp, rfl⟩

end Merging

end Unimem
