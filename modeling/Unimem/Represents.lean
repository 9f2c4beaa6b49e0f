import Unimem.TreeBins

/-!
The store represents a heap: tags, bins and fields agree with the block list and
the free store. `loose` lists free blocks that are filed nowhere for the moment,
in the middle of an operation; `Keeps` is what an operation leaves alone.
-/

namespace Unimem

open Tiling ByteMemory Memory MallocState

namespace Heap

def Binned (h : Heap) (p : Nat) : Prop := ∃ i, p ∈ h.small i ∨ p ∈ (h.tree i).nodes

/-- An allocated chunk and its size. Top is none, however it reads. -/
def Used (h : Heap) (a n : Nat) : Prop :=
  a ≠ h.top ∧ ∃ c ∈ h.blocks, c.addr = a ∧ c.size = n ∧ c.cinuse = true

end Heap

/-- Every free block other than top is dv, filed, or loose, and only one of these. -/
structure Filed (h : Heap) (loose : List Nat) : Prop where
  dvNone : h.dv = 0 ↔ h.dvsize = 0
  dvFree : h.dv ≠ 0 → FreeAt h.top h.blocks h.dv h.dvsize
  dvOut : ¬ h.Binned h.dv ∧ h.dv ∉ loose
  looseOut : ∀ p ∈ loose, ¬ h.Binned p
  cover : ∀ p size, FreeAt h.top h.blocks p size → p = h.dv ∨ h.Binned p ∨ p ∈ loose

structure Represents (first stop limit : Nat) (s : Store) (h : Heap) (loose : List Nat) : Prop where
  tags : Tags first stop limit h.top s.mem h.blocks
  placed : Placed first stop s.gm s.mem
  small : SmallBins h.top s.gm s.mem h.blocks h.small h.lastOut
  tree : TreeBins h.top s.gm s.mem h.blocks h.tree
  top : s.gm.top = h.top
  topsize : h.top + s.gm.topsize = stop
  dv : s.gm.dv = h.dv
  dvsize : s.gm.dvsize = h.dvsize
  filed : Filed h loose

/-- The fields that only InitOrExpand sets. -/
structure SameSettings (g g' : MallocState) : Prop where
  this : g'.this = g.this
  leastAddr : g'.leastAddr = g.leastAddr
  trimCheck : g'.trimCheck = g.trimCheck
  releaseChecks : g'.releaseChecks = g.releaseChecks
  magic : g'.magic = g.magic

theorem SameSettings.trans {g g' g'' : MallocState} (one : SameSettings g g')
    (two : SameSettings g' g'') : SameSettings g g'' :=
  ⟨two.this.trans one.this, two.leastAddr.trans one.leastAddr, two.trimCheck.trans one.trimCheck,
    two.releaseChecks.trans one.releaseChecks, two.magic.trans one.magic⟩

/-- What lies between two stores and their heaps: `freed` chunks are no longer
used, `served` ones are now, and all others keep their payload bytes. -/
structure Keeps (freed : Nat → Prop) (served : Nat → Nat → Prop) (h h' : Heap) (s s' : Store) :
    Prop where
  allocator : s'.underlyingAllocator = s.underlyingAllocator
  calls : s'.underlyingCalls = s.underlyingCalls
  size : s'.increasingSize = s.increasingSize
  step : s'.increasingStep = s.increasingStep
  settings : SameSettings s.gm s'.gm
  mapped : s'.mem.mapped = s.mem.mapped
  used : ∀ a n, h'.Used a n ↔ (h.Used a n ∧ ¬ freed a) ∨ served a n
  bytes : ∀ a n, h.Used a n → ¬ freed a →
    ∀ x, a + 16 ≤ x → x < a + n + 8 → s'.mem.byte x = s.mem.byte x

/-- No chunk becomes used or unused. -/
abbrev KeepsAll (h h' : Heap) (s s' : Store) : Prop :=
  Keeps (fun _ => False) (fun _ _ => False) h h' s s'

namespace Keeps

variable {freed : Nat → Prop} {served : Nat → Nat → Prop} {h h' h'' : Heap} {s s' s'' : Store}

theorem after (before : KeepsAll h h' s s') (keeps : Keeps freed served h' h'' s' s'') :
    Keeps freed served h h'' s s'' := by
  have same : ∀ a n, h'.Used a n ↔ h.Used a n := fun a n => by simp [before.used a n]
  refine ⟨keeps.allocator.trans before.allocator, keeps.calls.trans before.calls,
    keeps.size.trans before.size, keeps.step.trans before.step,
      before.settings.trans keeps.settings,
    keeps.mapped.trans before.mapped, fun a n => ?_, fun a n used kept x lower upper => ?_⟩
  · rw [keeps.used, same]
  · rw [keeps.bytes a n ((same a n).mpr used) kept x lower upper,
      before.bytes a n used not_false x lower upper]

theorem before (keeps : Keeps freed served h h' s s') (later : KeepsAll h' h'' s' s'') :
    Keeps freed served h h'' s s'' := by
  refine ⟨later.allocator.trans keeps.allocator, later.calls.trans keeps.calls,
    later.size.trans keeps.size, later.step.trans keeps.step, keeps.settings.trans later.settings,
    later.mapped.trans keeps.mapped, fun a n => ?_, fun a n used kept x lower upper => ?_⟩
  · rw [later.used, ← keeps.used]
    simp
  · have still := (keeps.used a n).mpr (Or.inl ⟨used, kept⟩)
    rw [later.bytes a n still not_false x lower upper, keeps.bytes a n used kept x lower upper]

theorem congr (keeps : Keeps freed served h h' s s') {freed' : Nat → Prop}
    {served' : Nat → Nat → Prop} (sameFreed : ∀ a, freed' a ↔ freed a)
    (sameServed : ∀ a n, served' a n ↔ served a n) : Keeps freed' served' h h' s s' := by
  have one : freed' = freed := funext fun a => propext (sameFreed a)
  have two : served' = served := funext fun a => funext fun n => propext (sameServed a n)
  rw [one, two]
  exact keeps

end Keeps

section Bytes

variable {first stop top : Nat} {m : Memory} {g : MallocState} {blocks : List Block}

theorem small_large_apart (layout : Layout first stop top blocks) (placed : Placed first stop g m)
    {x : Nat} (large : LargeBytes top blocks x) : ¬ SmallBytes g.this top blocks x := by
  obtain ⟨p, size, free, enough, lower, upper⟩ := large
  have place := free.geometry layout
  rintro (header | ⟨q, size', free', few, lower', upper'⟩)
  · have := placed.apart
    omega
  · rcases free.apart layout free' with rfl | before | after
    · have := FreeAt.unique layout free free'
      omega
    · omega
    · omega

/-- Links are written outside all payloads. -/
theorem payload_apart (layout : Layout first stop top blocks) (placed : Placed first stop g m)
    {c : Block} (member : c ∈ blocks) (notTop : c.addr ≠ top) (used : c.cinuse = true) {x : Nat}
    (lower : c.addr + 16 ≤ x) (upper : x < c.stop + 8) :
    ¬ SmallBytes g.this top blocks x ∧ ¬ LargeBytes top blocks x := by
  have inSegment := layout.bounds member
  have below := layout.stop_le_top member notTop
  have foreign : ∀ p size, FreeAt top blocks p size → p + 16 ≤ x → x < p + size → False := by
    rintro p size ⟨-, b, inBlocks, rfl, rfl, free⟩ low high
    rcases layout.ordered member inBlocks with rfl | before | after
    · simp [used] at free
    · omega
    · simp only [Block.stop] at after
      omega
  constructor
  · rintro (header | ⟨p, size, free, -, low, high⟩)
    · have := placed.apart
      obtain ⟨t, inTop, here, finish⟩ := layout.topBlock
      simp only [Block.stop] at *
      omega
    · exact foreign p size free low high
  · rintro ⟨p, size, free, -, low, high⟩
    exact foreign p size free low high

end Bytes

theorem mem_dropNode {p z : Nat} {nodes : List Nat} (nodup : nodes.Nodup) :
    z ∈ dropNode p nodes ↔ z ∈ nodes ∧ z ≠ p := by
  cases nodes with
  | nil => simp [dropNode]
  | cons root rest =>
      have notRoot := (List.nodup_cons.mp nodup).1
      have restNodup := (List.nodup_cons.mp nodup).2
      by_cases isRoot : root = p
      · subst isRoot
        rcases List.eq_nil_or_concat rest with rfl | ⟨most, last, rfl⟩
        · simp [dropNode]
        · simp only [List.concat_eq_append] at notRoot ⊢
          simp only [dropNode, if_true, List.getLast?_concat, List.dropLast_concat]
          constructor
          · intro inside
            have inRest : z ∈ most ++ [last] := by simpa [or_comm] using inside
            exact ⟨List.mem_cons_of_mem _ inRest, fun same => notRoot (same ▸ inRest)⟩
          · rintro ⟨inside, differ⟩
            simpa [differ, or_comm] using inside
      · simp only [dropNode, if_neg isRoot, List.mem_cons, restNodup.mem_erase_iff]
        constructor
        · rintro (rfl | ⟨differ, inRest⟩)
          · exact ⟨Or.inl rfl, isRoot⟩
          · exact ⟨Or.inr inRest, differ⟩
        · rintro ⟨rfl | inRest, differ⟩
          · exact Or.inl rfl
          · exact Or.inr ⟨differ, inRest⟩

/-! ## Filing and taking out -/

/-- The fields that filing and taking out never touch. -/
structure SameFields (g g' : MallocState) : Prop extends SameSettings g g' where
  top : g'.top = g.top
  topsize : g'.topsize = g.topsize

namespace Represents

variable {first stop limit : Nat} {s : Store} {h : Heap} {loose : List Nat}

theorem layout (rep : Represents first stop limit s h loose) :
    Layout first stop h.top h.blocks := rep.tags.layout

theorem reindex (rep : Represents first stop limit s h loose) (g' : MallocState) {m' : Memory}
    {h' : Heap} {loose' : List Nat} (filed : Filed h' loose') (blocks : h'.blocks = h.blocks)
    (top : h'.top = h.top) (fields : SameFields s.gm g')
    (agrees : AgreesOutside
      (fun x => SmallBytes s.gm.this h.top h.blocks x ∨ LargeBytes h.top h.blocks x) s.mem m')
    (small : SmallBins h.top g' m' h.blocks h'.small h'.lastOut)
    (tree : TreeBins h.top g' m' h.blocks h'.tree)
    (dv : g'.dv = h'.dv) (dvsize : g'.dvsize = h'.dvsize) :
    Represents first stop limit { s with gm := g', mem := m' } h' loose' ∧
      KeepsAll h h' s { s with gm := g', mem := m' } := by
  have placed := rep.placed
  constructor
  · exact
      { tags := by rw [blocks, top]; exact rep.tags.links placed agrees
        placed := ⟨by rw [fields.this]; exact placed.aligned,
          by rw [fields.this]; exact placed.bound,
          by rw [fields.this]; exact (placed.agrees agrees).mapped,
          by rw [fields.this]; exact placed.apart, by rw [fields.leastAddr]; exact placed.leastPos,
          by rw [fields.leastAddr]; exact placed.leastLe⟩
        small := by rw [blocks, top]; exact small
        tree := by rw [blocks, top]; exact tree
        top := by rw [top, ← rep.top]; exact fields.top
        topsize := by rw [top, ← rep.topsize]; exact congrArg _ fields.topsize
        dv := dv
        dvsize := dvsize
        filed := filed }
  · refine ⟨rfl, rfl, rfl, rfl, fields.toSameSettings, agrees.mapped, fun a n => ?_, ?_⟩
    · simp [Heap.Used, blocks, top]
    · rintro a n ⟨notTop, c, inBlocks, rfl, rfl, used⟩ - x lower upper
      obtain ⟨notSmall, notLarge⟩ :=
        payload_apart rep.layout placed inBlocks notTop used lower upper
      exact agrees.byte x (by tauto)

/-- A filed block is in the bin of its size. -/
theorem binned_iff (rep : Represents first stop limit s h loose) {p size : Nat}
    (free : FreeAt h.top h.blocks p size) :
    h.Binned p ↔ if size < 256 then p ∈ h.small (size / 8)
      else p ∈ (h.tree (computeTreeIndex size)).nodes := by
  constructor
  · rintro ⟨i, inSmall | inTree⟩
    · have bin := rep.small.member i p inSmall
      have same := FreeAt.unique rep.layout bin.2 free
      have index : size / 8 = i := by omega
      rw [if_pos (by omega), index]
      exact inSmall
    · have large := (rep.tree.bin i).sized (List.ne_nil_of_mem inTree)
      obtain ⟨same, index⟩ := rep.tree.index_eq rep.layout inTree free
      rw [if_neg (by omega), ← index]
      exact inTree
  · split
    · exact fun inBin => ⟨_, Or.inl inBin⟩
    · exact fun inBin => ⟨_, Or.inr inBin⟩

/-- Taking a block out of the free store leaves it loose. -/
theorem binned_unlink (rep : Represents first stop limit s h loose) {p size : Nat}
    (free : FreeAt h.top h.blocks p size) (q : Nat) :
    (h.unlink p size).Binned q ↔ h.Binned q ∧ q ≠ p := by
  -- a chunk's size fixes its bin, so it is in no other
  have onlySmall : ∀ i, p ∈ h.small i → i = size / 8 ∧ size < 256 := by
    intro i member
    have bin := rep.small.member i p member
    have same := FreeAt.unique rep.layout bin.2 free
    omega
  have onlyTree : ∀ i, p ∈ (h.tree i).nodes → i = computeTreeIndex size ∧ 256 ≤ size := by
    intro i member
    obtain ⟨same, index⟩ := rep.tree.index_eq rep.layout member free
    exact ⟨index, same ▸ ((rep.tree.bin i).sized (List.ne_nil_of_mem member)).1⟩
  simp only [Heap.Binned]
  by_cases isSmall : size < 256
  · simp only [Heap.unlink, if_pos isSmall]
    rw [← exists_and_right]
    refine exists_congr fun i => ?_
    have treeSide : q ∈ (h.tree i).nodes → q ≠ p := by
      rintro inTree rfl
      have := (onlyTree i inTree).2
      omega
    by_cases here : i = size / 8
    · subst here
      rw [Function.update_self, (rep.small.nodup _).mem_erase_iff]
      tauto
    · rw [Function.update_of_ne here]
      have smallSide : q ∈ h.small i → q ≠ p := by
        rintro inSmall rfl
        exact here (onlySmall i inSmall).1
      tauto
  · simp only [Heap.unlink, if_neg isSmall]
    rw [← exists_and_right]
    refine exists_congr fun i => ?_
    have smallSide : q ∈ h.small i → q ≠ p := by
      rintro inSmall rfl
      exact isSmall (onlySmall i inSmall).2
    by_cases here : i = computeTreeIndex size
    · subst here
      rw [Function.update_self, mem_dropNode (rep.tree.bin _).nodup]
      tauto
    · rw [Function.update_of_ne here]
      have treeSide : q ∈ (h.tree i).nodes → q ≠ p := by
        rintro inTree rfl
        exact here (onlyTree i inTree).1
      tauto

theorem filed_unlink (rep : Represents first stop limit s h loose) {p size : Nat}
    (free : FreeAt h.top h.blocks p size) (binned : h.Binned p) :
    Filed (h.unlink p size) (p :: loose) := by
  have filed := rep.filed
  have after := rep.binned_unlink free
  have dv : (h.unlink p size).dv = h.dv := by unfold Heap.unlink; split <;> rfl
  have dvsize : (h.unlink p size).dvsize = h.dvsize := by unfold Heap.unlink; split <;> rfl
  have blocks : (h.unlink p size).blocks = h.blocks := by unfold Heap.unlink; split <;> rfl
  have top : (h.unlink p size).top = h.top := by unfold Heap.unlink; split <;> rfl
  refine ⟨by rw [dv, dvsize]; exact filed.dvNone,
    by rw [dv, dvsize, blocks, top]; exact filed.dvFree, ⟨?_, ?_⟩, fun q member => ?_, ?_⟩
  · rw [after, dv]
    exact fun inBin => filed.dvOut.1 inBin.1
  · rw [dv]
    rintro member
    rcases List.mem_cons.mp member with same | inLoose
    · exact filed.dvOut.1 (same ▸ binned)
    · exact filed.dvOut.2 inLoose
  · rw [after]
    rcases List.mem_cons.mp member with rfl | inLoose
    · exact fun inBin => inBin.2 rfl
    · exact fun inBin => filed.looseOut q inLoose inBin.1
  · rw [blocks, top, dv]
    intro q r freeQ
    rw [after, List.mem_cons]
    rcases filed.cover q r freeQ with isDv | inBin | inLoose
    · exact Or.inl isDv
    · by_cases same : q = p
      · exact Or.inr (Or.inr (Or.inl same))
      · exact Or.inr (Or.inl ⟨inBin, same⟩)
    · exact Or.inr (Or.inr (Or.inr inLoose))

end Represents

/-- Running `program` ends normally in a store that represents `h'`. -/
def Performs {α : Type} (first stop limit : Nat) (freed : Nat → Prop) (served : Nat → Nat → Prop)
    (s : Store) (h : Heap) (program : Prog α) (value : α) (h' : Heap) (loose : List Nat) : Prop :=
  ∃ s', program s = .ok value s' ∧ Represents first stop limit s' h' loose ∧
    Keeps freed served h h' s s'

/-- Running `program` ends with MemoryCorruptedException; the tags are still those of `h`. -/
def Refused {α : Type} (first stop limit : Nat) (s : Store) (h : Heap) (program : Prog α) : Prop :=
  ∃ s', program s = .error .corrupted s' ∧ Tags first stop limit h.top s'.mem h.blocks

/-- Some chunk's head in `s'` is not what `h` says of it. -/
def Disturbed (h : Heap) (s' : Store) : Prop :=
  ∃ c ∈ h.blocks, c.addr ≠ h.top ∧ ¬ HeadWord h.top c (s'.mem.load (c.addr + 8) 8)

abbrev Reaches {α : Type} (first stop limit : Nat) (s : Store) (h : Heap) (program : Prog α)
    (value : α) (h' : Heap) (loose : List Nat) : Prop :=
  Performs first stop limit (fun _ => False) (fun _ _ => False) s h program value h' loose

/-- The chunk at `a` of size `k` is handed out. -/
abbrev Serves {α : Type} (first stop limit : Nat) (s : Store) (h : Heap) (program : Prog α)
    (value : α) (a k : Nat) (h' : Heap) (loose : List Nat) : Prop :=
  Performs first stop limit (fun _ => False) (fun a' k' => a' = a ∧ k' = k) s h program value h'
    loose

theorem Performs.pure {α β : Type} {first stop limit : Nat} {freed : Nat → Prop}
    {served : Nat → Nat → Prop} {s : Store} {h h' : Heap} {loose : List Nat} {start : Prog α}
    {middle : α} (one : Performs first stop limit freed served s h start middle h' loose)
    (value : β) :
    Performs first stop limit freed served s h (start >>= fun _ => Pure.pure value) value
      h' loose := by
  obtain ⟨s₁, ran, rep, keeps⟩ := one
  exact ⟨s₁, by rw [Fuelled.bind_run, ran]; rfl, rep, keeps⟩

namespace Represents

variable {first stop limit : Nat} {s : Store} {h : Heap} {loose : List Nat}

theorem unlinkSmall (rep : Represents first stop limit s h loose) {p size : Nat}
    (free : FreeAt h.top h.blocks p size) (isSmall : size < 256) (binned : h.Binned p)
    {program : Prog Unit}
    (removal : SmallRemoval h.top s h.blocks h.small h.lastOut (size / 8) p (program s)) :
    Reaches first stop limit s h program () (h.unlink p size) (p :: loose) := by
  obtain ⟨bitmap, m', ran, bins, agrees⟩ := removal
  have filed := rep.filed_unlink free binned
  have tree := rep.tree.agrees agrees fun x => small_large_apart rep.layout rep.placed
  have same : h.unlink p size =
      { h with small := Function.update h.small (size / 8) ((h.small (size / 8)).erase p)
               lastOut := Function.update h.lastOut (size / 8) (some p) } := by
    simp only [Heap.unlink, if_pos isSmall]
  rw [same] at filed ⊢
  obtain ⟨after, keeps⟩ := rep.reindex { s.gm with smallmap := bitmap } filed
    rfl rfl ⟨⟨rfl, rfl, rfl, rfl, rfl⟩, rfl, rfl⟩ (agrees.mono fun _ => Or.inl) bins
    ⟨tree.bits, tree.marked, tree.root, tree.bin⟩ rep.dv rep.dvsize
  exact ⟨_, ran, after, keeps⟩

theorem unlinkLarge (rep : Represents first stop limit s h loose) {p size : Nat}
    (free : FreeAt h.top h.blocks p size) (isLarge : 256 ≤ size) (binned : h.Binned p)
    (fuel : Nat) :
    Reaches first stop limit s h (unlinkLargeChunk fuel p) () (h.unlink p size) (p :: loose) := by
  have inBin := (rep.binned_iff free).mp binned
  rw [if_neg (by omega)] at inBin
  obtain ⟨bitmap, roots, m', ran, bins, agrees⟩ :=
    unlinkLargeChunk_spec rep.tags rep.placed rep.tree inBin fuel
  have filed := rep.filed_unlink free binned
  have small := rep.small.agrees rep.layout rep.placed agrees fun x inSmall inLarge =>
    small_large_apart rep.layout rep.placed inLarge inSmall
  have same : h.unlink p size =
      { h with tree := (Function.update h.tree (computeTreeIndex size)
        ⟨(h.tree (computeTreeIndex size)).size,
          dropNode p (h.tree (computeTreeIndex size)).nodes⟩) } := by
    simp only [Heap.unlink, if_neg (Nat.not_lt.mpr isLarge)]
  rw [same] at filed ⊢
  obtain ⟨after, keeps⟩ := rep.reindex { s.gm with treemap := bitmap, treebins := roots }
    filed rfl rfl ⟨⟨rfl, rfl, rfl, rfl, rfl⟩, rfl, rfl⟩ (agrees.mono fun _ => Or.inr)
    ⟨small.bits, small.marked, small.member, small.nodup, small.ring, small.idle⟩
      bins rep.dv rep.dvsize
  exact ⟨_, ran, after, keeps⟩

theorem isSmall_iff (size : Nat) : isSmall size = true ↔ size < 256 := by
  simp only [isSmall, smallbinShift, nsmallbins, Nat.shiftRight_eq_div_pow, decide_eq_true_eq]
  omega

theorem unlink (rep : Represents first stop limit s h loose) {p size : Nat}
    (free : FreeAt h.top h.blocks p size) (binned : h.Binned p) (fuel : Nat) :
    Reaches first stop limit s h (unlinkChunk fuel p size) () (h.unlink p size) (p :: loose) := by
  by_cases few : size < 256
  · have inBin := (rep.binned_iff free).mp binned
    rw [if_pos few] at inBin
    refine rep.unlinkSmall free few binned ?_
    simp only [unlinkChunk, (isSmall_iff size).mpr few, if_true]
    exact unlinkSmallChunk_spec rep.tags rep.placed rep.small free few inBin
  · have none : ¬ isSmall size = true := fun yes => few ((isSmall_iff size).mp yes)
    simp only [unlinkChunk, none]
    exact rep.unlinkLarge free (Nat.le_of_not_lt few) binned fuel

end Represents

/-! ## Filing -/

section Link

variable {h h' : Heap} {p size : Nat}

theorem link_same (linked : h.link p size = some h') :
    h'.blocks = h.blocks ∧ h'.top = h.top ∧ h'.dv = h.dv ∧ h'.dvsize = h.dvsize := by
  unfold Heap.link at linked
  split at linked
  · obtain rfl := Option.some.inj linked
    exact ⟨rfl, rfl, rfl, rfl⟩
  · simp only [Option.ite_none_right_eq_some] at linked
    obtain rfl := Option.some.inj linked.2
    exact ⟨rfl, rfl, rfl, rfl⟩

theorem binned_link (linked : h.link p size = some h') (q : Nat) :
    h'.Binned q ↔ q = p ∨ h.Binned q := by
  unfold Heap.link at linked
  simp only [Heap.Binned]
  split at linked
  · obtain rfl := Option.some.inj linked
    constructor
    · rintro ⟨i, inSmall | inTree⟩
      · by_cases here : i = size / 8
        · subst here
          simp only [Function.update_self, List.mem_cons] at inSmall
          exact inSmall.imp_right fun old => ⟨_, Or.inl old⟩
        · simp only [Function.update_of_ne here] at inSmall
          exact Or.inr ⟨i, Or.inl inSmall⟩
      · exact Or.inr ⟨i, Or.inr inTree⟩
    · rintro (rfl | ⟨i, inSmall | inTree⟩)
      · exact ⟨size / 8, Or.inl (by simp)⟩
      · refine ⟨i, Or.inl ?_⟩
        by_cases here : i = size / 8
        · subst here
          simp [inSmall]
        · simpa only [Function.update_of_ne here] using inSmall
      · exact ⟨i, Or.inr inTree⟩
  · simp only [Option.ite_none_right_eq_some] at linked
    obtain rfl := Option.some.inj linked.2
    constructor
    · rintro ⟨i, inSmall | inTree⟩
      · exact Or.inr ⟨i, Or.inl inSmall⟩
      · by_cases here : i = computeTreeIndex size
        · subst here
          simp only [Function.update_self, mem_addNode] at inTree
          exact inTree.imp_right fun old => ⟨_, Or.inr old⟩
        · simp only [Function.update_of_ne here] at inTree
          exact Or.inr ⟨i, Or.inr inTree⟩
    · rintro (rfl | ⟨i, inSmall | inTree⟩)
      · exact ⟨computeTreeIndex size, Or.inr (by simp [mem_addNode])⟩
      · exact ⟨i, Or.inl inSmall⟩
      · refine ⟨i, Or.inr ?_⟩
        by_cases here : i = computeTreeIndex size
        · subst here
          simp [mem_addNode, inTree]
        · simpa only [Function.update_of_ne here] using inTree

end Link

/-- The store after filing, before anything is said about dv. -/
structure Linked (s : Store) (h h' : Heap) (g' : MallocState) (m' : Memory) : Prop where
  fields : SameFields s.gm g'
  dv : g'.dv = s.gm.dv
  dvsize : g'.dvsize = s.gm.dvsize
  agrees : AgreesOutside
    (fun x => SmallBytes s.gm.this h.top h.blocks x ∨ LargeBytes h.top h.blocks x) s.mem m'
  small : SmallBins h.top g' m' h.blocks h'.small h'.lastOut
  tree : TreeBins h.top g' m' h.blocks h'.tree

namespace Represents

variable {first stop limit : Nat} {s : Store} {h h' : Heap} {loose : List Nat} {p size : Nat}

theorem insertSmall (rep : Represents first stop limit s h loose)
    (free : FreeAt h.top h.blocks p size) (few : size < 256) (fresh : ¬ h.Binned p)
    (linked : h.link p size = some h') :
    ∃ g' m', insertSmallChunk p size s = .ok () { s with gm := g', mem := m' } ∧
      Linked s h h' g' m' := by
  rw [Heap.link, if_pos few, Option.some.injEq] at linked
  subst linked
  obtain ⟨bitmap, m', ran, bins, agrees⟩ := insertSmallChunk_spec rep.tags rep.placed rep.small free
    few fun member => fresh ⟨_, Or.inl member⟩
  have tree := rep.tree.agrees agrees fun x => small_large_apart rep.layout rep.placed
  exact ⟨{ s.gm with smallmap := bitmap }, m', ran, ⟨⟨rfl, rfl, rfl, rfl, rfl⟩, rfl, rfl⟩, rfl, rfl,
    agrees.mono fun _ => Or.inl, bins, tree.bits, tree.marked, tree.root, tree.bin⟩

theorem insert (rep : Represents first stop limit s h loose)
    (free : FreeAt h.top h.blocks p size) (fresh : ¬ h.Binned p)
    (linked : h.link p size = some h') (fuel : Nat) :
    ∃ g' m', insertChunk (fuel + 1) p size s = .ok () { s with gm := g', mem := m' } ∧
      Linked s h h' g' m' := by
  by_cases few : size < 256
  · simp only [insertChunk, (isSmall_iff size).mpr few, if_true]
    exact rep.insertSmall free few fresh linked
  · have none : ¬ isSmall size = true := fun yes => few ((isSmall_iff size).mp yes)
    simp only [insertChunk, none]
    simp only [Heap.link, if_neg few, Option.ite_none_right_eq_some] at linked
    obtain ⟨accepted, same⟩ := linked
    obtain rfl := Option.some.inj same
    obtain ⟨bitmap, roots, m', ran, bins, agrees⟩ := insertLargeChunk_spec rep.tags rep.placed
      rep.tree free (Nat.le_of_not_lt few) rfl (fun member => fresh ⟨_, Or.inr member⟩) accepted fuel
    have small := rep.small.agrees rep.layout rep.placed agrees fun x inSmall inLarge =>
      small_large_apart rep.layout rep.placed inLarge inSmall
    exact ⟨{ s.gm with treemap := bitmap, treebins := roots }, m', ran,
      ⟨⟨rfl, rfl, rfl, rfl, rfl⟩, rfl, rfl⟩, rfl,
      rfl, agrees.mono fun _ => Or.inr,
      ⟨small.bits, small.marked, small.member, small.nodup, small.ring, small.idle⟩, bins⟩

theorem refused (rep : Represents first stop limit s h loose)
    (free : FreeAt h.top h.blocks p size) (none : h.link p size = none) (fuel : Nat) :
    Refused first stop limit s h (insertChunk (fuel + 1) p size) := by
  unfold Heap.link at none
  split at none
  · cases none
  · rename_i many
    have large : ¬ isSmall size = true := fun yes => many ((isSmall_iff size).mp yes)
    simp only [ite_eq_right_iff, reduceCtorEq, imp_false, not_or] at none
    simp only [Refused, insertChunk, large]
    exact insertLargeChunk_refused rep.tags rep.placed rep.tree free (Nat.le_of_not_lt many) rfl
      none.1 none.2 fuel

/-- The loose block gets filed. -/
theorem link (rep : Represents first stop limit s h [p]) (free : FreeAt h.top h.blocks p size)
    (linked : h.link p size = some h') (fuel : Nat) :
    Reaches first stop limit s h (insertChunk (fuel + 1) p size) () h' [] := by
  have filed := rep.filed
  obtain ⟨g', m', ran, done⟩ := rep.insert free (filed.looseOut p (by simp)) linked fuel
  obtain ⟨blocks, top, dv, dvsize⟩ := link_same linked
  have binned := binned_link linked
  have filed' : Filed h' [] := by
    refine ⟨by rw [dv, dvsize]; exact filed.dvNone,
      by rw [blocks, top, dv, dvsize]; exact filed.dvFree, ⟨?_, by simp⟩, by simp, ?_⟩
    · rw [dv, binned]
      rintro (same | inBin)
      · exact filed.dvOut.2 (by simp [same])
      · exact filed.dvOut.1 inBin
    · rw [blocks, top, dv]
      intro q r freeQ
      rw [binned]
      rcases filed.cover q r freeQ with isDv | inBin | inLoose
      · exact Or.inl isDv
      · exact Or.inr (Or.inl (Or.inr inBin))
      · exact Or.inr (Or.inl (Or.inl (List.mem_singleton.mp inLoose)))
  obtain ⟨after, keeps⟩ := rep.reindex g' filed' blocks top done.fields done.agrees done.small
    done.tree (done.dv.trans (rep.dv.trans dv.symm))
      (done.dvsize.trans (rep.dvsize.trans dvsize.symm))
  exact ⟨_, ran, after, keeps⟩

/-- The loose block becomes dv, in place of none. -/
theorem setDv (rep : Represents first stop limit s h [p]) (free : FreeAt h.top h.blocks p size)
    (none : h.dv = 0) :
    Represents first stop limit { s with gm := { s.gm with dv := p, dvsize := size } }
        (h.setDv p size) [] ∧
      KeepsAll h (h.setDv p size) s { s with gm := { s.gm with dv := p, dvsize := size } } := by
  have filed := rep.filed
  have place := free.geometry rep.layout
  have positive := rep.layout.positive
  have filed' : Filed (h.setDv p size) [] := by
    refine ⟨?_, fun _ => free, ⟨filed.looseOut p (by simp), by simp⟩, by simp, fun q r freeQ => ?_⟩
    · simp only [Heap.setDv]
      omega
    · rcases filed.cover q r freeQ with isDv | inBin | inLoose
      · have := freeQ.geometry rep.layout
        omega
      · exact Or.inr (Or.inl inBin)
      · exact Or.inl (List.mem_singleton.mp inLoose)
  have small := rep.small
  have tree := rep.tree
  exact rep.reindex { s.gm with dv := p, dvsize := size } filed' rfl rfl
    ⟨⟨rfl, rfl, rfl, rfl, rfl⟩, rfl, rfl⟩ (AgreesOutside.refl _)
    ⟨small.bits, small.marked, small.member, small.nodup, small.ring, small.idle⟩
    ⟨tree.bits, tree.marked, tree.root, tree.bin⟩ rfl rfl

theorem not_binned_null (rep : Represents first stop limit s h loose) : ¬ h.Binned 0 := by
  have positive := rep.layout.positive
  rintro ⟨i, inSmall | inTree⟩
  · have := (rep.small.member i 0 inSmall).2.geometry rep.layout
    omega
  · have := ((rep.tree.bin i).member 0 inTree).geometry rep.layout
    omega

/-- dv becomes a loose block. -/
theorem dropDv (rep : Represents first stop limit s h loose) (some : h.dv ≠ 0)
    (proper : 0 ∉ loose) :
    Represents first stop limit { s with gm := { s.gm with dv := 0, dvsize := 0 } }
        (h.setDv 0 0) (h.dv :: loose) ∧
      KeepsAll h (h.setDv 0 0) s { s with gm := { s.gm with dv := 0, dvsize := 0 } } := by
  have filed := rep.filed
  have filed' : Filed (h.setDv 0 0) (h.dv :: loose) := by
    refine ⟨by simp [Heap.setDv], fun none => absurd rfl none, ⟨rep.not_binned_null, ?_⟩,
      fun q member => ?_, fun q r freeQ => ?_⟩
    · exact fun member => (List.mem_cons.mp member).elim (fun same => some same.symm) proper
    · rcases List.mem_cons.mp member with rfl | inLoose
      · exact filed.dvOut.1
      · exact filed.looseOut q inLoose
    · rcases filed.cover q r freeQ with isDv | inBin | inLoose
      · exact Or.inr (Or.inr (by simp [isDv]))
      · exact Or.inr (Or.inl inBin)
      · exact Or.inr (Or.inr (List.mem_cons_of_mem _ inLoose))
  have small := rep.small
  have tree := rep.tree
  exact rep.reindex { s.gm with dv := 0, dvsize := 0 } filed' rfl rfl
    ⟨⟨rfl, rfl, rfl, rfl, rfl⟩, rfl, rfl⟩ (AgreesOutside.refl _)
    ⟨small.bits, small.marked, small.member, small.nodup, small.ring, small.idle⟩
    ⟨tree.bits, tree.marked, tree.root, tree.bin⟩ rfl rfl

/-- The old dv gets filed, the loose block is the new one. -/
theorem changeDv (rep : Represents first stop limit s h [p])
    (free : FreeAt h.top h.blocks p size) (few : h.dvsize < 256) (filedDv : h.fileDv = some h') :
    Reaches first stop limit s h (replaceDv p size) () (h'.setDv p size) [] := by
  have filed := rep.filed
  have place := free.geometry rep.layout
  have positive := rep.layout.positive
  have dvSmall : isSmall s.gm.dvsize = true := by
    rw [rep.dvsize]
    exact (isSmall_iff _).mpr few
  -- ReplaceDv files the old dv only when there is one
  by_cases none : h.dvsize = 0
  · rw [Heap.fileDv, if_pos none, Option.some.injEq] at filedDv
    subst filedDv
    obtain ⟨after, keeps⟩ := rep.setDv free (filed.dvNone.mpr none)
    refine ⟨_, ?_, after, keeps⟩
    have empty : s.gm.dvsize = 0 := rep.dvsize.trans none
    simp [replaceDv, empty, show isSmall 0 = true from rfl]
  · rw [Heap.fileDv, if_neg none] at filedDv
    have present : h.dv ≠ 0 := fun zero => none (filed.dvNone.mp zero)
    obtain ⟨g', m', ran, done⟩ := rep.insertSmall (filed.dvFree present) few filed.dvOut.1 filedDv
    obtain ⟨blocks, top, dv, dvsize⟩ := link_same filedDv
    have binned := binned_link filedDv
    have differ : p ≠ h.dv := fun same => filed.dvOut.2 (by simp [same])
    have filed' : Filed (h'.setDv p size) [] := by
      refine ⟨?_, fun _ => ?_, ⟨?_, by simp⟩, by simp, ?_⟩
      · simp only [Heap.setDv]
        omega
      · show FreeAt h'.top h'.blocks p size
        rw [blocks, top]
        exact free
      · show ¬ h'.Binned p
        rw [binned]
        exact fun inBin => inBin.elim differ (filed.looseOut p (by simp))
      · show ∀ q r, FreeAt h'.top h'.blocks q r → q = p ∨ h'.Binned q ∨ q ∈ []
        rw [blocks, top]
        intro q r freeQ
        rw [binned]
        rcases filed.cover q r freeQ with isDv | inBin | inLoose
        · exact Or.inr (Or.inl (Or.inl isDv))
        · exact Or.inr (Or.inl (Or.inr inBin))
        · exact Or.inl (List.mem_singleton.mp inLoose)
    have small := done.small
    have tree := done.tree
    have same := done.fields.toSameSettings
    obtain ⟨after, keeps⟩ := rep.reindex { g' with dv := p, dvsize := size } filed' blocks top
      ⟨⟨same.this, same.leastAddr, same.trimCheck, same.releaseChecks, same.magic⟩,
        done.fields.top, done.fields.topsize⟩ done.agrees
      ⟨small.bits, small.marked, small.member, small.nodup, small.ring, small.idle⟩
      ⟨tree.bits, tree.marked, tree.root, tree.bin⟩ rfl rfl
    refine ⟨_, ?_, after, keeps⟩
    have present' : ¬ s.gm.dvsize = 0 := by rw [rep.dvsize]; exact none
    rw [← rep.dv, ← rep.dvsize] at ran
    simp [replaceDv, dvSmall, present', ran]

end Represents

end Unimem
