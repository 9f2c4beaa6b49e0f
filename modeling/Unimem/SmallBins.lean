import Unimem.Links

/-!
The small bins in memory: one ring of equal-sized free blocks through each
marked header. An unmarked header still links to the block taken out last.
-/

namespace Unimem

open ByteMemory Memory LinkedRing WordArith MallocState

structure SmallBins (top : Nat) (g : MallocState) (m : Memory) (blocks : List Block)
    (small : Nat → List Nat) (out : Nat → Option Nat) : Prop where
  bits : g.smallmap < 2 ^ 32
  marked : ∀ i < 32, g.smallmap.testBit i = true ↔ small i ≠ []
  member : ∀ i, ∀ p ∈ small i, i < 32 ∧ FreeAt top blocks p (8 * i)
  nodup : ∀ i, (small i).Nodup
  ring : ∀ i, small i ≠ [] → Ring (fdAt m) (bkAt m) (g.smallbinAt i) (small i)
  idle : ∀ i < 32, small i = [] → fdAt m (g.smallbinAt i) = (out i).getD (g.smallbinAt i) ∧
    bkAt m (g.smallbinAt i) = (out i).getD (g.smallbinAt i)

variable {first stop limit top : Nat} {s : Store} {blocks : List Block} {small : Nat → List Nat}
  {out : Nat → Option Nat}

namespace SmallBins

theorem node (bins : SmallBins top s.gm s.mem blocks small out) {i p : Nat} (member : p ∈ small i) :
    Node top s.gm blocks p := Or.inr ⟨_, (bins.member i p member).2⟩

theorem header (bins : SmallBins top s.gm s.mem blocks small out) {i p : Nat}
    (member : p ∈ small i) :
    Node top s.gm blocks (s.gm.smallbinAt i) := Or.inl ⟨i, (bins.member i p member).1, rfl⟩

theorem header_ne (layout : Layout first stop top blocks) (placed : Placed first stop s.gm s.mem)
    (bins : SmallBins top s.gm s.mem blocks small out) {i p : Nat} (bound : i < 32)
    {j : Nat} (member : p ∈ small j) : s.gm.smallbinAt i ≠ p := by
  have free := (bins.member j p member).2
  have := header_ne_free layout placed bound free
  have := free.geometry layout
  omega

theorem ring_nodup (layout : Layout first stop top blocks) (placed : Placed first stop s.gm s.mem)
    (bins : SmallBins top s.gm s.mem blocks small out) {i : Nat} (bound : i < 32) :
    (s.gm.smallbinAt i :: small i).Nodup :=
  List.nodup_cons.mpr
    ⟨fun member => bins.header_ne layout placed bound member rfl, bins.nodup i⟩

/-- Blocks of different bins differ, as their sizes do. -/
theorem index_unique (layout : Layout first stop top blocks)
    (bins : SmallBins top s.gm s.mem blocks small out) {i j p : Nat} (left : p ∈ small i)
    (right : p ∈ small j) : i = j := by
  have := FreeAt.unique layout (bins.member i p left).2 (bins.member j p right).2
  omega

/-- Memory that keeps the links of every small node keeps the bins. -/
theorem agrees (layout : Layout first stop top blocks) (placed : Placed first stop s.gm s.mem)
    (bins : SmallBins top s.gm s.mem blocks small out) {W : Nat → Prop} {m' : Memory}
    (agrees : AgreesOutside W s.mem m')
    (outside : ∀ x, (SmallBytes s.gm.this top blocks x) → ¬ W x) :
    SmallBins top s.gm m' blocks small out := by
  refine ⟨bins.bits, bins.marked, bins.member, bins.nodup, fun i nonempty => ?_,
    fun i bound empty => ?_⟩
  all_goals
    have kept : ∀ i < 32, ∀ z ∈ s.gm.smallbinAt i :: small i, ∀ x, z + 16 ≤ x → x < z + 32 →
        ¬ W x := by
      intro i bound z member x lower upper
      apply outside
      rcases List.mem_cons.mp member with rfl | inBin
      · have := header_geometry placed bound
        exact Or.inl (by omega)
      · have free := (bins.member i z inBin).2
        have := free.geometry layout
        exact Or.inr ⟨z, _, free, by omega, lower, by omega⟩
    have sameFd : ∀ i < 32, ∀ z ∈ s.gm.smallbinAt i :: small i, fdAt m' z = fdAt s.mem z :=
      fun i bound z member => agrees.load _ 8 fun x lower upper =>
        kept i bound z member x (by omega) (by omega)
    have sameBk : ∀ i < 32, ∀ z ∈ s.gm.smallbinAt i :: small i, bkAt m' z = bkAt s.mem z :=
      fun i bound z member => agrees.load _ 8 fun x lower upper =>
        kept i bound z member x (by omega) (by omega)
  · obtain ⟨p, member⟩ := List.exists_mem_of_ne_nil _ nonempty
    have bound := (bins.member i p member).1
    exact ring_congr (bins.ring i nonempty) (sameFd i bound) (sameBk i bound)
  · rw [sameFd i bound _ List.mem_cons_self, sameBk i bound _ List.mem_cons_self]
    exact bins.idle i bound empty

/-- One bin gets other members; the links of all others stay. -/
theorem update (bins : SmallBins top s.gm s.mem blocks small out) {I bitmap : Nat} {m' : Memory}
    {list : List Nat} {out' : Nat → Option Nat} (bound : I < 32) (bits : bitmap < 2 ^ 32)
    (marks : ∀ i < 32, bitmap.testBit i =
      if i = I then decide (list ≠ []) else s.gm.smallmap.testBit i)
    (members : ∀ p ∈ list, FreeAt top blocks p (8 * I)) (nodup : list.Nodup)
    (ring : list ≠ [] → Ring (fdAt m') (bkAt m') (s.gm.smallbinAt I) list)
    (idle : list = [] → fdAt m' (s.gm.smallbinAt I) = (out' I).getD (s.gm.smallbinAt I) ∧
      bkAt m' (s.gm.smallbinAt I) = (out' I).getD (s.gm.smallbinAt I))
    (outs : ∀ i ≠ I, out' i = out i)
    (kept : ∀ i < 32, i ≠ I → ∀ z ∈ s.gm.smallbinAt i :: small i,
      fdAt m' z = fdAt s.mem z ∧ bkAt m' z = bkAt s.mem z) :
    SmallBins top { s.gm with smallmap := bitmap } m' blocks (Function.update small I list) out' := by
  refine ⟨bits, fun i inRange => ?_, fun i p member => ?_, fun i => ?_, fun i nonempty => ?_,
    fun i inRange none => ?_⟩
  all_goals by_cases here : i = I
  · subst here
    simp [marks i inRange]
  · rw [Function.update_of_ne here]
    simpa [marks i inRange, here] using bins.marked i inRange
  · subst here
    rw [Function.update_self] at member
    exact ⟨bound, members p member⟩
  · rw [Function.update_of_ne here] at member
    exact bins.member i p member
  · subst here
    rw [Function.update_self]
    exact nodup
  · rw [Function.update_of_ne here]
    exact bins.nodup i
  · subst here
    rw [Function.update_self] at nonempty ⊢
    exact ring nonempty
  · rw [Function.update_of_ne here] at nonempty ⊢
    obtain ⟨w, inBin⟩ := List.exists_mem_of_ne_nil _ nonempty
    have inRange := (bins.member i w inBin).1
    exact ring_congr (bins.ring i nonempty) (fun z member => (kept i inRange here z member).1)
      fun z member => (kept i inRange here z member).2
  · subst here
    rw [Function.update_self] at none
    exact idle none
  · rw [Function.update_of_ne here] at none
    obtain ⟨fd, bk⟩ := kept i inRange here _ List.mem_cons_self
    rw [outs i here]
    exact ⟨fd.trans (bins.idle i inRange none).1, bk.trans (bins.idle i inRange none).2⟩

/-- The nodes of two bins differ, headers included. -/
theorem bins_apart (layout : Layout first stop top blocks) (placed : Placed first stop s.gm s.mem)
    (bins : SmallBins top s.gm s.mem blocks small out) {i I z : Nat} (inRange : i < 32)
    (bound : I < 32) (differ : i ≠ I) (member : z ∈ s.gm.smallbinAt i :: small i) :
    Node top s.gm blocks z ∧ ∀ y ∈ s.gm.smallbinAt I :: small I, z ≠ y := by
  rcases List.mem_cons.mp member with rfl | inBin
  · refine ⟨Or.inl ⟨i, inRange, rfl⟩, fun y inI => ?_⟩
    rcases List.mem_cons.mp inI with rfl | inI
    · rw [smallbinAt_eq, smallbinAt_eq]
      omega
    · exact bins.header_ne layout placed inRange inI
  · refine ⟨bins.node inBin, fun y inI => ?_⟩
    rcases List.mem_cons.mp inI with rfl | inI
    · exact (bins.header_ne layout placed bound inBin).symm
    · rintro rfl
      exact differ (bins.index_unique layout inBin inI)

theorem link_run {B F P : Nat}
    (accB : s.mem.accessible (B + 16) 8 = true ∧ s.mem.accessible (B + 24) 8 = true)
    (accF : s.mem.accessible (F + 16) 8 = true ∧ s.mem.accessible (F + 24) 8 = true)
    (accP : s.mem.accessible (P + 16) 8 = true ∧ s.mem.accessible (P + 24) 8 = true) :
    insertSmallChunk.link B F P s = .ok () { s with mem := thread s.mem B F P } := by
  simp [insertSmallChunk.link, Chunk.setFd, Chunk.setBk, store64, run_storeN, accB, accF, accP,
    thread]

theorem bridge_run {B F : Nat} (accB : s.mem.accessible (B + 16) 8 = true)
    (accF : s.mem.accessible (F + 24) 8 = true) :
    (do Chunk.setBk F B; Chunk.setFd B F) s = .ok () { s with mem := bridge s.mem F B } := by
  simp [Chunk.setFd, Chunk.setBk, store64, run_storeN, accB, accF, bridge]

theorem link_bytes (layout : Layout first stop top blocks)
    (bins : SmallBins top s.gm s.mem blocks small out) {i p x : Nat} (member : p ∈ small i)
    (inside : LinkWords p x) : SmallBytes s.gm.this top blocks x := by
  obtain ⟨bound, free⟩ := bins.member i p member
  have := free.geometry layout
  exact Or.inr ⟨p, _, free, by omega, inside.1, by have := inside.2; omega⟩

theorem smallIndex_eq {p q : Nat} (layout : Layout first stop top blocks)
    (free : FreeAt top blocks p q) (isSmall : q < 256) :
    smallIndex q = q / 8 ∧ q / 8 < 32 ∧ 8 * (q / 8) = q := by
  have := free.geometry layout
  simp only [smallIndex, smallbinShift, Nat.shiftRight_eq_div_pow]
  omega

/-! ## Filing -/

/-- The first block of a bin, or the header of an empty one. -/
def front (g : MallocState) (small : Nat → List Nat) (i : Nat) : Nat :=
  (small i).headD (g.smallbinAt i)

theorem front_cases (g : MallocState) (small : Nat → List Nat) (i : Nat) :
    (small i = [] ∧ front g small i = g.smallbinAt i) ∨
      ∃ rest, small i = front g small i :: rest := by
  unfold front
  cases small i with
  | nil => exact Or.inl ⟨rfl, rfl⟩
  | cons x rest => exact Or.inr ⟨rest, rfl⟩

theorem front_mem (g : MallocState) (small : Nat → List Nat) (i : Nat) :
    front g small i ∈ g.smallbinAt i :: small i := by
  rcases front_cases g small i with ⟨-, here⟩ | ⟨rest, here⟩
  · simp [here]
  · exact List.mem_cons_of_mem _ (by rw [here]; exact List.mem_cons_self)

section Filing

variable {I P : Nat} (tags : Tags first stop limit top s.mem blocks)
  (placed : Placed first stop s.gm s.mem) (bins : SmallBins top s.gm s.mem blocks small out)
  (bound : I < 32) (free : FreeAt top blocks P (8 * I)) (fresh : P ∉ small I)

include bins bound in
theorem front_node : Node top s.gm blocks (front s.gm small I) := by
  rcases front_cases s.gm small I with ⟨-, here⟩ | ⟨rest, here⟩
  · exact here ▸ Or.inl ⟨I, bound, rfl⟩
  · exact bins.node (i := I) (by rw [here]; exact List.mem_cons_self)

include placed bound free

theorem fresh_ring (layout : Layout first stop top blocks) (fresh : P ∉ small I) :
    P ∉ s.gm.smallbinAt I :: small I := by
  have := header_ne_free layout placed bound free
  have := free.geometry layout
  simp only [List.mem_cons, not_or]
  exact ⟨by omega, fresh⟩

theorem front_ne (layout : Layout first stop top blocks) (fresh : P ∉ small I) :
    P ≠ front s.gm small I := by
  have notRing := fresh_ring placed bound free layout fresh
  rintro here
  rcases front_cases s.gm small I with ⟨-, atHeader⟩ | ⟨rest, atFirst⟩
  · exact notRing (by simp [here, atHeader])
  · exact notRing (by rw [here, atFirst]; simp)

include bins

/-- The links of every node after `P` is threaded in behind the header. -/
theorem thread_node (layout : Layout first stop top blocks) {z : Nat}
    (node : Node top s.gm blocks z) :
    fdAt (thread s.mem (s.gm.smallbinAt I) (front s.gm small I) P) z =
        (if z = P then front s.gm small I else if z = s.gm.smallbinAt I then P
          else fdAt s.mem z) ∧
      bkAt (thread s.mem (s.gm.smallbinAt I) (front s.gm small I) P) z =
        if z = P then s.gm.smallbinAt I else if z = front s.gm small I then P
          else bkAt s.mem z := by
  have nodeB : Node top s.gm blocks (s.gm.smallbinAt I) := Or.inl ⟨I, bound, rfl⟩
  have nodeP : Node top s.gm blocks P := Or.inr ⟨8 * I, free⟩
  have nodeF := front_node bins bound
  exact thread_links (node_bound layout placed nodeB).2 (node_bound layout placed nodeF).2
    (node_bound layout placed nodeP).2 (node_apart layout placed nodeB node)
    (node_apart layout placed nodeF node) (node_apart layout placed nodeP node)

/-- The nodes of other bins are none of the three whose links are written. -/
theorem thread_other (layout : Layout first stop top blocks) {i z : Nat} (inRange : i < 32)
    (differ : i ≠ I) (member : z ∈ s.gm.smallbinAt i :: small i) :
    fdAt (thread s.mem (s.gm.smallbinAt I) (front s.gm small I) P) z = fdAt s.mem z ∧
      bkAt (thread s.mem (s.gm.smallbinAt I) (front s.gm small I) P) z = bkAt s.mem z := by
  obtain ⟨node, apart⟩ := bins.bins_apart layout placed inRange bound differ member
  have notB := apart _ List.mem_cons_self
  have notF := apart _ (front_mem s.gm small I)
  have notP : z ≠ P := by
    rcases List.mem_cons.mp member with rfl | inBin
    · have := header_ne_free layout placed inRange free
      omega
    · rintro rfl
      have := FreeAt.unique layout (bins.member i z inBin).2 free
      omega
  simp [thread_node placed bins bound free layout node, notB, notF, notP]

/-- The ring of the bin itself, `P` first. -/
theorem thread_ring (layout : Layout first stop top blocks) (fresh : P ∉ small I) :
    Ring (fdAt (thread s.mem (s.gm.smallbinAt I) (front s.gm small I) P))
      (bkAt (thread s.mem (s.gm.smallbinAt I) (front s.gm small I) P))
      (s.gm.smallbinAt I) (P :: small I) := by
  have nodup := bins.ring_nodup layout placed bound
  have freshRing := fresh_ring placed bound free layout fresh
  have notFront := front_ne placed bound free layout fresh
  have after := fun {z : Nat} => thread_node (z := z) placed bins bound free layout
  have nodeB : Node top s.gm blocks (s.gm.smallbinAt I) := Or.inl ⟨I, bound, rfl⟩
  have nodeP : Node top s.gm blocks P := Or.inr ⟨8 * I, free⟩
  have notP : s.gm.smallbinAt I ≠ P := fun same => freshRing (by simp [same])
  have members : ∀ z ∈ small I, Node top s.gm blocks z ∧ z ≠ s.gm.smallbinAt I ∧ z ≠ P := by
    intro z member
    refine ⟨bins.node member, ?_, ?_⟩
    · rintro rfl
      exact (List.nodup_cons.mp nodup).1 member
    · rintro rfl
      exact fresh member
  refine ring_insert nodup freshRing (fun some => bins.ring I some) ?_ ?_ ?_ ?_ ?_ ?_
  · simp [after nodeB, notP]
  · simp [after nodeP]
  · rw [(after nodeP).1, if_pos rfl, front]
  · have ahead := (after (front_node bins bound)).2
    rw [if_neg notFront.symm, if_pos rfl] at ahead
    exact ahead
  · intro z member
    obtain ⟨node, notB, notNew⟩ := members z member
    simp [after node, notB, notNew]
  · intro z member notHead
    have notF : z ≠ front s.gm small I := notHead
    rcases List.mem_cons.mp member with rfl | inBin
    · simp [after nodeB, notF, notP]
    · obtain ⟨node, -, notNew⟩ := members z inBin
      simp [after node, notF, notNew]

theorem file (layout : Layout first stop top blocks) (fresh : P ∉ small I) :
    SmallBins top { s.gm with smallmap := s.gm.smallmap ||| idx2bit I }
      (thread s.mem (s.gm.smallbinAt I) (front s.gm small I) P) blocks
      (Function.update small I (P :: small I)) out := by
  refine bins.update bound (mark_lt bins.bits bound) (fun i inRange => ?_) (fun p member => ?_)
    (List.nodup_cons.mpr ⟨fresh, bins.nodup I⟩)
    (fun _ => thread_ring placed bins bound free layout fresh) (fun empty => ?_) (fun _ _ => rfl)
    fun i inRange differ z => thread_other placed bins bound free layout inRange differ
  · rw [testBit_mark bound]
    by_cases here : i = I
    · simp [here]
    · simp [here, Ne.symm here]
  · rcases List.mem_cons.mp member with rfl | old
    · exact free
    · exact (bins.member I p old).2
  · cases empty

theorem file_bytes (layout : Layout first stop top blocks) (isSmall : 8 * I < 256) :
    AgreesOutside (SmallBytes s.gm.this top blocks) s.mem
      (thread s.mem (s.gm.smallbinAt I) (front s.gm small I) P) := by
  have geometry := free.geometry layout
  refine (thread_agrees _ _ _ _).mono fun x inside => ?_
  have headerBytes : LinkWords (s.gm.smallbinAt I) x → SmallBytes s.gm.this top blocks x := by
    rintro ⟨lower, upper⟩
    have := header_geometry placed bound
    exact Or.inl (by omega)
  rcases inside with atB | atF | ⟨lower, upper⟩
  · exact headerBytes atB
  · rcases front_cases s.gm small I with ⟨-, here⟩ | ⟨rest, here⟩
    · exact headerBytes (here ▸ atF)
    · exact bins.link_bytes layout (i := I) (by rw [here]; exact List.mem_cons_self) atF
  · exact Or.inr ⟨P, _, free, isSmall, lower, by omega⟩

include tags

theorem file_run (isSmall : 8 * I < 256) :
    insertSmallChunk P (8 * I) s = .ok ()
      { s with
        gm := { s.gm with smallmap := s.gm.smallmap ||| idx2bit I }
        mem := thread s.mem (s.gm.smallbinAt I) (front s.gm small I) P } := by
  have layout := tags.layout
  have geometry := free.geometry layout
  obtain ⟨index, -⟩ := smallIndex_eq layout free isSmall
  rw [Nat.mul_div_cancel_left I (by decide)] at index
  have accB := node_accessible tags placed (Or.inl ⟨I, bound, rfl⟩ : Node top s.gm blocks _)
  have accF := node_accessible tags placed (front_node bins bound)
  have accP := node_accessible tags placed (Or.inr ⟨8 * I, free⟩ : Node top s.gm blocks P)
  have assertion : ¬ 8 * I < minChunkSize := by
    have : minChunkSize = 32 := by decide
    omega
  have marked := bins.marked I bound
  rcases front_cases s.gm small I with ⟨empty, here⟩ | ⟨rest, here⟩
  · have clear : s.gm.smallmap &&& idx2bit I = 0 := by
      rw [marked_iff bound]
      simpa [empty] using marked
    simp [insertSmallChunk, index, here, smallmapIsMarked, clear, assertion, markSmallmap,
      link_run (s := { s with gm := { s.gm with smallmap := s.gm.smallmap ||| idx2bit I } })
        accB accB accP]
  · have used : s.gm.smallmap.testBit I = true := marked.mpr (by simp [here])
    have set : ¬ s.gm.smallmap &&& idx2bit I = 0 := by
      rw [marked_iff bound, used]
      decide
    -- the bit is set already
    have same : s.gm.smallmap ||| idx2bit I = s.gm.smallmap := by
      apply Nat.eq_of_testBit_eq
      intro j
      rw [testBit_mark bound]
      by_cases equal : I = j
      · subst equal
        simp [used]
      · simp [equal]
    have header := chain_next (bins.ring I (by simp [here]))
    rw [here, List.headD_cons] at header
    have okF : s.gm.leastAddr ≤ front s.gm small I := by
      have := (bins.member I _ (by rw [here]; exact List.mem_cons_self)).2.geometry layout
      have := placed.leastLe
      omega
    simp [insertSmallChunk, index, smallmapIsMarked, set, assertion, same, Chunk.fd, load64,
      run_loadN accB.1, header, okAddress_run, okF, link_run accB accF accP]

end Filing

end SmallBins

open SmallBins

/-- Filing a free block in front of its small bin. -/
theorem insertSmallChunk_spec (tags : Tags first stop limit top s.mem blocks)
    (placed : Placed first stop s.gm s.mem) (bins : SmallBins top s.gm s.mem blocks small out)
    {P S : Nat} (free : FreeAt top blocks P S) (isSmall : S < 256) (fresh : P ∉ small (S / 8)) :
    ∃ bitmap m', insertSmallChunk P S s =
        .ok () { s with gm := { s.gm with smallmap := bitmap }, mem := m' } ∧
      SmallBins top { s.gm with smallmap := bitmap } m' blocks
        (Function.update small (S / 8) (P :: small (S / 8))) out ∧
      AgreesOutside (SmallBytes s.gm.this top blocks) s.mem m' := by
  have layout := tags.layout
  obtain ⟨-, bound, size⟩ := smallIndex_eq layout free isSmall
  rw [← size] at free isSmall
  refine ⟨_, _, ?_, file placed bins bound free layout fresh,
    file_bytes placed bins bound free layout isSmall⟩
  have run := file_run tags placed bins bound free isSmall
  rwa [size] at run

/-! ## Removal -/

namespace SmallBins

/-- What the links of a member say about its neighbours. -/
theorem neighbours (layout : Layout first stop top blocks) (placed : Placed first stop s.gm s.mem)
    (bins : SmallBins top s.gm s.mem blocks small out) {I P : Nat} (member : P ∈ small I) :
    ∃ left right, small I = left ++ P :: right ∧ P ∉ left ∧
      fdAt s.mem P = right.headD (s.gm.smallbinAt I) ∧
      bkAt s.mem P = left.getLastD (s.gm.smallbinAt I) ∧
      fdAt s.mem (bkAt s.mem P) = P ∧ bkAt s.mem (fdAt s.mem P) = P ∧
      (bkAt s.mem P = fdAt s.mem P ↔ small I = [P]) := by
  obtain ⟨left, right, same⟩ := List.append_of_mem member
  have nodup := bins.ring_nodup layout placed (bins.member I P member).1
  have ring := bins.ring I (List.ne_nil_of_mem member)
  rw [same] at ring nodup
  obtain ⟨next, prev, back, forth⟩ := ring_neighbours ring
  have notLeft : P ∉ left := by
    intro inLeft
    exact (List.nodup_append.mp (List.nodup_cons.mp nodup).2).2.2 P inLeft P (by simp) rfl
  refine ⟨left, right, same, notLeft, next, prev, by rw [prev, back], by rw [next, forth], ?_⟩
  rw [next, prev, same]
  constructor
  · intro equal
    rcases List.eq_nil_or_concat left with rfl | ⟨most, last, rfl⟩ <;> cases right with
    | nil => grind
    | cons y rest => grind
  · intro single
    cases left <;> cases right <;> simp_all

/-- A neighbour is the header or another member. -/
theorem neighbour_cases (layout : Layout first stop top blocks)
    (placed : Placed first stop s.gm s.mem) (bins : SmallBins top s.gm s.mem blocks small out)
    {I P z : Nat} (member : P ∈ small I)
    (near : z = fdAt s.mem P ∨ z = bkAt s.mem P) :
    (z = s.gm.smallbinAt I ∨ z ∈ small I) ∧ Node top s.gm blocks z ∧
      (z = s.gm.smallbinAt I ∨ s.gm.leastAddr ≤ z) := by
  have kind : z = s.gm.smallbinAt I ∨ z ∈ small I := by
    obtain ⟨left, right, same, -, next, prev, -⟩ := bins.neighbours layout placed member
    rcases near with ahead | behind
    · rw [ahead, next, same]
      cases right with
      | nil => exact Or.inl rfl
      | cons first rest => exact Or.inr (List.mem_append_right _ (by simp))
    · rw [behind, prev, same]
      rcases List.mem_cons.mp List.getLastD_mem_cons with header | inLeft
      · exact Or.inl header
      · exact Or.inr (List.mem_append_left _ inLeft)
  refine ⟨kind, ?_⟩
  rcases kind with rfl | inBin
  · exact ⟨bins.header member, Or.inl rfl⟩
  · refine ⟨bins.node inBin, Or.inr ?_⟩
    have := (bins.member I z inBin).2.geometry layout
    have := placed.leastLe
    omega

theorem remove_last (bins : SmallBins top s.gm s.mem blocks small out) {I P : Nat}
    (single : small I = [P]) :
    SmallBins top { s.gm with smallmap := s.gm.smallmap &&& not32 (idx2bit I) } s.mem blocks
      (Function.update small I ((small I).erase P)) (Function.update out I (some P)) := by
  have bound := (bins.member I P (by simp [single])).1
  have empty : (small I).erase P = [] := by simp [single]
  have ring := bins.ring I (by simp [single])
  rw [single] at ring
  rw [empty]
  refine bins.update bound (clear_lt bins.bits) (fun i inRange => ?_) (by simp) List.nodup_nil
    (fun nonempty => absurd rfl nonempty) (fun _ => ?_)
    (fun i differ => Function.update_of_ne differ _ _) fun _ _ _ _ _ => ⟨rfl, rfl⟩
  · rw [testBit_clear bins.bits bound]
    by_cases here : i = I
    · simp [here]
    · simp [here, Ne.symm here]
  · -- the header goes on pointing at `P`
    rw [Function.update_self, Option.getD_some]
    exact ⟨chain_next ring, chain_prev ring⟩

section Bridging

variable (layout : Layout first stop top blocks) (placed : Placed first stop s.gm s.mem)
  (bins : SmallBins top s.gm s.mem blocks small out) {I P : Nat} (member : P ∈ small I)

include layout placed bins member

theorem bridge_node {z : Nat} (node : Node top s.gm blocks z) :
    (fdAt (bridge s.mem (fdAt s.mem P) (bkAt s.mem P)) z =
        if z = bkAt s.mem P then fdAt s.mem P else fdAt s.mem z) ∧
      bkAt (bridge s.mem (fdAt s.mem P) (bkAt s.mem P)) z =
        if z = fdAt s.mem P then bkAt s.mem P else bkAt s.mem z := by
  obtain ⟨-, forward, -⟩ := bins.neighbour_cases layout placed member (Or.inl rfl)
  obtain ⟨-, backward, -⟩ := bins.neighbour_cases layout placed member (Or.inr rfl)
  exact bridge_links (node_bound layout placed forward).2 (node_bound layout placed backward).2
    (node_apart layout placed forward node) (node_apart layout placed backward node)

theorem bridge_other {i z : Nat} (inRange : i < 32) (differ : i ≠ I)
    (inRing : z ∈ s.gm.smallbinAt i :: small i) :
    fdAt (bridge s.mem (fdAt s.mem P) (bkAt s.mem P)) z = fdAt s.mem z ∧
      bkAt (bridge s.mem (fdAt s.mem P) (bkAt s.mem P)) z = bkAt s.mem z := by
  have bound := (bins.member I P member).1
  obtain ⟨node, apart⟩ := bins.bins_apart layout placed inRange bound differ inRing
  have forward := (bins.neighbour_cases layout placed member (Or.inl rfl)).1
  have backward := (bins.neighbour_cases layout placed member (Or.inr rfl)).1
  obtain ⟨fd, bk⟩ := bins.bridge_node layout placed member node
  rw [fd, bk, if_neg (apart _ (List.mem_cons.mpr backward)),
    if_neg (apart _ (List.mem_cons.mpr forward))]
  exact ⟨rfl, rfl⟩

/-- The ring without `P`. -/
theorem bridge_ring : Ring (fdAt (bridge s.mem (fdAt s.mem P) (bkAt s.mem P)))
    (bkAt (bridge s.mem (fdAt s.mem P) (bkAt s.mem P))) (s.gm.smallbinAt I)
    ((small I).erase P) := by
  obtain ⟨left, right, same, notLeft, next, prev, -⟩ := bins.neighbours layout placed member
  have nodup := bins.ring_nodup layout placed (bins.member I P member).1
  have ring := bins.ring I (List.ne_nil_of_mem member)
  have removed : (small I).erase P = left ++ right := by
    rw [same, List.erase_append_right _ notLeft, List.erase_cons_head]
  obtain ⟨-, forward, -⟩ := bins.neighbour_cases layout placed member (Or.inl rfl)
  obtain ⟨-, backward, -⟩ := bins.neighbour_cases layout placed member (Or.inr rfl)
  have links := fun {z : Nat} => bins.bridge_node (z := z) layout placed member
  have nodes : ∀ z ∈ s.gm.smallbinAt I :: (left ++ right), Node top s.gm blocks z := by
    intro z inRing
    rw [← removed] at inRing
    rcases List.mem_cons.mp inRing with rfl | inBin
    · exact bins.header member
    · exact bins.node (List.mem_of_mem_erase inBin)
  rw [same] at nodup ring
  rw [removed]
  refine ring_remove nodup ring ?_ ?_ ?_ ?_
  · rw [← prev, (links backward).1, if_pos rfl, next]
  · rw [← next, (links forward).2, if_pos rfl, prev]
  · intro z inRing different
    rw [(links (nodes z inRing)).1, if_neg (by rw [prev]; exact different)]
  · intro z inRing different
    rw [(links (nodes z inRing)).2, if_neg (by rw [next]; exact different)]

theorem bridge_bytes_small : AgreesOutside (SmallBytes s.gm.this top blocks) s.mem
    (bridge s.mem (fdAt s.mem P) (bkAt s.mem P)) := by
  have bound := (bins.member I P member).1
  have bytes : ∀ z, z = s.gm.smallbinAt I ∨ z ∈ small I → ∀ x, LinkWords z x →
      SmallBytes s.gm.this top blocks x := by
    rintro z (rfl | inBin) x inside
    · have := header_geometry placed bound
      obtain ⟨lower, upper⟩ := inside
      exact Or.inl (by omega)
    · exact bins.link_bytes layout inBin inside
  have forward := (bins.neighbour_cases layout placed member (Or.inl rfl)).1
  have backward := (bins.neighbour_cases layout placed member (Or.inr rfl)).1
  refine (bridge_agrees s.mem _ _).mono fun x inside => ?_
  rcases inside with atF | atB
  · exact bytes _ forward x atF
  · exact bytes _ backward x atB

theorem remove_bridge (several : small I ≠ [P]) :
    SmallBins top s.gm (bridge s.mem (fdAt s.mem P) (bkAt s.mem P)) blocks
      (Function.update small I ((small I).erase P)) (Function.update out I (some P)) := by
  have bound := (bins.member I P member).1
  have nonempty : (small I).erase P ≠ [] := by
    intro empty
    rcases List.erase_eq_nil_iff.mp empty with none | single
    · exact List.ne_nil_of_mem member none
    · exact several single
  refine bins.update bound bins.bits (fun i inRange => ?_) (fun p inBin => ?_)
    ((bins.nodup I).erase P) (fun _ => bins.bridge_ring layout placed member)
    (fun empty => absurd empty nonempty) (fun i differ => Function.update_of_ne differ _ _)
    fun i inRange differ z => bins.bridge_other layout placed member inRange differ
  · by_cases here : i = I
    · subst here
      simpa [nonempty] using (bins.marked i inRange).mpr (List.ne_nil_of_mem member)
    · simp [here]
  · exact (bins.member I p (List.mem_of_mem_erase inBin)).2

end Bridging

end SmallBins

/-- What both removals do: the bin loses the node, everything else stays. -/
def SmallRemoval (top : Nat) (s : Store) (blocks : List Block) (small : Nat → List Nat)
    (out : Nat → Option Nat) (I P : Nat) (result : Outcome Unit) : Prop :=
  ∃ bitmap m', result = .ok () { s with gm := { s.gm with smallmap := bitmap }, mem := m' } ∧
    SmallBins top { s.gm with smallmap := bitmap } m' blocks
      (Function.update small I ((small I).erase P)) (Function.update out I (some P)) ∧
    AgreesOutside (SmallBytes s.gm.this top blocks) s.mem m'

/-- The source's check of a neighbour passes at the header and at a linked node. -/
theorem linked_run {z header P : Nat} {link : Prog Nat} (read : link s = .ok P s)
    (ok : z = header ∨ s.gm.leastAddr ≤ z) :
    (pure (z == header) <||> (okAddress z <&&> do return (← link) == P)) s = .ok true s := by
  by_cases same : z = header
  · simp [same]
  · have above := ok.resolve_left same
    have miss : (z == header) = false := by simp [same]
    simp [miss, okAddress_run, read, above]

theorem unlinkSmallChunk_spec (tags : Tags first stop limit top s.mem blocks)
    (placed : Placed first stop s.gm s.mem) (bins : SmallBins top s.gm s.mem blocks small out)
    {P S : Nat} (free : FreeAt top blocks P S) (isSmall : S < 256) (member : P ∈ small (S / 8)) :
    SmallRemoval top s blocks small out (S / 8) P (unlinkSmallChunk P S s) := by
  have layout := tags.layout
  obtain ⟨index, -, -⟩ := smallIndex_eq layout free isSmall
  obtain ⟨accFd, accBk⟩ := node_accessible tags placed (bins.node member)
  obtain ⟨-, -, -, -, -, -, back, forth, single⟩ := bins.neighbours layout placed member
  obtain ⟨-, nodeF, okF⟩ := bins.neighbour_cases layout placed member (Or.inl rfl)
  obtain ⟨-, nodeB, okB⟩ := bins.neighbour_cases layout placed member (Or.inr rfl)
  obtain ⟨accFdF, accBkF⟩ := node_accessible tags placed nodeF
  obtain ⟨accFdB, accBkB⟩ := node_accessible tags placed nodeB
  have checkF := linked_run (forth ▸ bk_run accBkF) okF
  have checkB := linked_run (back ▸ fd_run accFdB) okB
  have start : unlinkSmallChunk P S s =
      (if bkAt s.mem P = fdAt s.mem P then clearSmallmap (S / 8)
        else do
          Chunk.setBk (fdAt s.mem P) (bkAt s.mem P)
          Chunk.setFd (bkAt s.mem P) (fdAt s.mem P)) s := by
    simp only [unlinkSmallChunk, Fuelled.bind_run, fd_run accFd, bk_run accBk, run_readGm, index,
      checkF, run_ite, if_true, checkB]
  by_cases last : small (S / 8) = [P]
  · refine ⟨_, _, ?_, bins.remove_last last, AgreesOutside.refl _⟩
    rw [start, if_pos (single.mpr last)]
    rfl
  · refine ⟨s.gm.smallmap, _, ?_, bins.remove_bridge layout placed member last,
      bins.bridge_bytes_small layout placed member⟩
    rw [start, if_neg fun same => last (single.mp same), bridge_run accFdB accBkF]

theorem unlinkFirstSmallChunk_spec (tags : Tags first stop limit top s.mem blocks)
    (placed : Placed first stop s.gm s.mem) (bins : SmallBins top s.gm s.mem blocks small out)
    {I P : Nat} {rest : List Nat} (members : small I = P :: rest) :
    SmallRemoval top s blocks small out I P (unlinkFirstSmallChunk (s.gm.smallbinAt I) P I s) := by
  have layout := tags.layout
  have member : P ∈ small I := by simp [members]
  obtain ⟨accFd, -⟩ := node_accessible tags placed (bins.node member)
  obtain ⟨left, right, shape, notLeft, -, prev, -, forth, single⟩ :=
    bins.neighbours layout placed member
  obtain ⟨-, nodeF, okF⟩ := bins.neighbour_cases layout placed member (Or.inl rfl)
  obtain ⟨accFdH, -⟩ := node_accessible tags placed (bins.header member)
  obtain ⟨-, accBkF⟩ := node_accessible tags placed nodeF
  have atHead : bkAt s.mem P = s.gm.smallbinAt I := by
    cases left with
    | nil => exact prev
    | cons x most =>
        rw [members, List.cons_append, List.cons.injEq] at shape
        simp [shape.1] at notLeft
  rw [atHead] at single
  by_cases last : small I = [P]
  · refine ⟨_, _, ?_, bins.remove_last last, AgreesOutside.refl _⟩
    simp only [unlinkFirstSmallChunk, Fuelled.bind_run, fd_run accFd, run_ite,
      if_pos (single.mpr last), clearSmallmap, run_writeGm]
  · have kept := bins.remove_bridge layout placed member last
    have agrees := bins.bridge_bytes_small layout placed member
    rw [atHead] at kept agrees
    refine ⟨s.gm.smallmap, _, ?_, kept, agrees⟩
    have differ : ¬ s.gm.smallbinAt I = fdAt s.mem P := fun same => last (single.mp same)
    have above := okF.resolve_left (Ne.symm differ)
    have check : (okAddress (fdAt s.mem P) <&&> do return (← Chunk.bk (fdAt s.mem P)) == P) s =
        .ok true s := by
      simp [okAddress_run, above, bk_run accBkF, forth]
    simp only [unlinkFirstSmallChunk, Fuelled.bind_run, fd_run accFd, run_ite, if_neg differ, check,
      if_true]
    exact bridge_run accFdH accBkF

end Unimem
