import Unimem.Alloc

/-!
Which bytes an entry of Alloc takes, on the heap alone: what the pick fits, and
which blocks stand where after it.
-/

namespace Unimem

open Tiling MallocState

section Picks

variable {first stop limit bytes nb i p size mem : Nat} {s : Store} {h h' : Heap}

theorem nextSmall_some (next : h.nextSmall nb = some i) :
    nb < i ∧ i < 32 ∧ h.small i ≠ [] ∧ ∀ k < i, nb < k → h.small k = [] := by
  obtain ⟨here, inRange, before⟩ := List.find?_range_eq_some.mp next
  rw [List.mem_range] at inRange
  simp only [Bool.and_eq_true, decide_eq_true_eq, Bool.not_eq_eq_eq_not, Bool.not_true]
    at here before
  refine ⟨here.1, inRange, fun empty => ?_, fun k lower later => ?_⟩
  · simp [empty] at here
  · simpa [later] using before k lower

theorem nextSmall_none : h.nextSmall nb = none ↔ ∀ k < 32, nb < k → h.small k = [] := by
  simp only [Heap.nextSmall, List.find?_eq_none, List.mem_range, Bool.and_eq_true,
    decide_eq_true_eq, Bool.not_eq_eq_eq_not, Bool.not_true, not_and]
  refine forall₂_congr fun k bound => forall_congr' fun later => ?_
  cases h.small k <;> simp

theorem pickRest_cases (h : Heap) (nb : Nat) :
    (nb ≤ h.dvsize ∧ h.pickRest nb = .dv) ∨
      (h.dvsize < nb ∧ nb < h.topsize ∧ h.pickRest nb = .top) ∨
      (h.dvsize < nb ∧ h.topsize ≤ nb ∧ h.pickRest nb = .expand) := by
  unfold Heap.pickRest
  split
  · exact Or.inl ⟨‹_›, rfl⟩
  · split
    · exact Or.inr (Or.inl ⟨by omega, ‹_›, rfl⟩)
    · exact Or.inr (Or.inr ⟨by omega, by omega, rfl⟩)

namespace Represents

/-- The root of a tree bin, as the pick names it. -/
theorem pickTree_fits (rep : Represents first stop limit s h []) (nonempty : (h.tree i).nodes ≠ [])
    (picked : h.pickTree i = .bin p size) :
    FreeAt h.top h.blocks p size ∧ 256 ≤ size ∧ h.Binned p ∧ size = (h.tree i).size ∧
      p ∈ (h.tree i).nodes := by
  obtain ⟨root, rest, shape⟩ := List.exists_cons_of_ne_nil nonempty
  rw [Heap.pickTree, shape, List.headD_cons] at picked
  obtain ⟨rfl, rfl⟩ := Heap.Pick.bin.inj picked
  obtain ⟨-, -, free, large, -, binned, -⟩ := rep.root_run shape
  exact ⟨free, large, binned, rfl, by simp [shape]⟩

/-- A binned block that is picked fits. -/
theorem pick_bin (rep : Represents first stop limit s h []) (picked : h.pick bytes = .bin p size) :
    FreeAt h.top h.blocks p size ∧ paddedRequest bytes ≤ size ∧ h.Binned p := by
  -- what is left when the bins do not serve never takes from a bin
  have rest : ∀ nb, h.pickRest nb ≠ .bin p size := by
    intro nb same
    rcases pickRest_cases h nb with ⟨-, pick⟩ | ⟨-, -, pick⟩ | ⟨-, -, pick⟩ <;> simp [pick] at same
  unfold Heap.pick at picked
  simp only at picked
  split at picked
  · rename_i few
    obtain ⟨least, most, multiple, -⟩ := paddedRequest_small few
    unfold Heap.pickSmall at picked
    split at picked
    · rename_i q tail shape
      obtain ⟨rfl, rfl⟩ := Heap.Pick.bin.inj picked
      have member : q ∈ h.small (paddedRequest bytes / 8) := by simp [shape]
      obtain ⟨-, free⟩ := rep.small.member _ q member
      rw [show 8 * (paddedRequest bytes / 8) = paddedRequest bytes by omega] at free
      exact ⟨free, Nat.le_refl _, _, Or.inl member⟩
    · split at picked
      · cases picked
      · split at picked
        · rename_i j next
          obtain ⟨later, bound, nonempty, -⟩ := nextSmall_some next
          obtain ⟨q, tail, shape⟩ := List.exists_cons_of_ne_nil nonempty
          rw [shape, List.headD_cons] at picked
          obtain ⟨rfl, rfl⟩ := Heap.Pick.bin.inj picked
          have member : q ∈ h.small j := by simp [shape]
          exact ⟨(rep.small.member j q member).2, by omega, j, Or.inl member⟩
        · split at picked
          · rename_i j next
            obtain ⟨free, large, binned, -⟩ := rep.pickTree_fits (nextTree_some next).2.2.1 picked
            exact ⟨free, by omega, binned⟩
          · exact absurd picked (rest _)
  · split at picked
    · exact absurd picked (rest _)
    · unfold Heap.pickLarge at picked
      split at picked
      · rename_i j fit
        split at picked
        · obtain ⟨enough, nonempty⟩ := largeFit_some fit
          obtain ⟨free, -, binned, same, -⟩ := rep.pickTree_fits nonempty picked
          exact ⟨free, by omega, binned⟩
        · exact absurd picked (rest _)
      · exact absurd picked (rest _)

end Represents

theorem pick_not_bin (picked : h.pick bytes = .dv ∨ h.pick bytes = .top ∨ h.pick bytes = .expand) :
    (h.pick bytes = .dv ∧ paddedRequest bytes ≤ h.dvsize) ∨
      (h.dvsize < paddedRequest bytes ∧ h.pick bytes = h.pickRest (paddedRequest bytes)) := by
  have rest : ∀ pick, pick = h.pickRest (paddedRequest bytes) →
      (pick = .dv ∧ paddedRequest bytes ≤ h.dvsize) ∨
        (h.dvsize < paddedRequest bytes ∧ pick = h.pickRest (paddedRequest bytes)) := by
    rintro pick rfl
    rcases pickRest_cases h (paddedRequest bytes) with ⟨fits, pick⟩ | ⟨small, -⟩ | ⟨small, -⟩
    · exact Or.inl ⟨pick, fits⟩
    · exact Or.inr ⟨small, rfl⟩
    · exact Or.inr ⟨small, rfl⟩
  revert picked
  generalize same : h.pick bytes = pick
  unfold Heap.pick at same
  intro picked
  simp only at same
  split at same
  · unfold Heap.pickSmall at same
    split at same
    · simp [← same] at picked
    · split at same
      · exact Or.inl ⟨same.symm, ‹_›⟩
      · split at same
        · simp [← same] at picked
        · split at same
          · simp [← same, Heap.pickTree] at picked
          · exact rest pick same.symm
  · split at same
    · exact rest pick same.symm
    · unfold Heap.pickLarge at same
      split at same
      · split at same
        · simp [← same, Heap.pickTree] at picked
        · exact rest pick same.symm
      · exact rest pick same.symm

theorem pick_dv (picked : h.pick bytes = .dv) : paddedRequest bytes ≤ h.dvsize := by
  rcases pick_not_bin (Or.inl picked) with ⟨-, fits⟩ | ⟨small, rest⟩
  · exact fits
  · rcases pickRest_cases h (paddedRequest bytes) with ⟨fits, -⟩ | ⟨-, -, pick⟩ | ⟨-, -, pick⟩
    · exact fits
    · simp [← rest, picked] at pick
    · simp [← rest, picked] at pick

theorem pick_top (picked : h.pick bytes = .top) :
    h.dvsize < paddedRequest bytes ∧ paddedRequest bytes < h.topsize := by
  rcases pick_not_bin (Or.inr (Or.inl picked)) with ⟨dv, -⟩ | ⟨small, rest⟩
  · simp [picked] at dv
  · rcases pickRest_cases h (paddedRequest bytes) with ⟨-, pick⟩ | ⟨-, fits, -⟩ | ⟨-, -, pick⟩
    · simp [← rest, picked] at pick
    · exact ⟨small, fits⟩
    · simp [← rest, picked] at pick

/-- How the blocks change when `nb` bytes at `p` are handed out. -/
inductive Carved (h h' : Heap) (nb p : Nat) : Prop
  | whole (below above : List Block) (b n : Block) :
      h.blocks = below ++ b :: n :: above → b.cinuse = false → b.addr = p → b.addr ≠ h.top →
      nb ≤ b.size → b.size < nb + 32 →
      h'.blocks = below ++ ⟨p, b.size, true, true⟩ :: { n with pinuse := true } :: above →
      h'.top = h.top → Carved h h' nb p
  | part (below above : List Block) (b n : Block) :
      h.blocks = below ++ b :: n :: above → b.cinuse = false → b.addr = p → b.addr ≠ h.top →
      nb + 32 ≤ b.size →
      h'.blocks = below ++ ⟨p, nb, true, true⟩ :: ⟨p + nb, b.size - nb, false, true⟩ :: n :: above →
      h'.top = h.top → Carved h h' nb p
  | top (below : List Block) (t : Block) :
      h.blocks = below ++ [t] → t.addr = h.top → p = h.top → nb < t.size →
      h'.blocks = below ++ [⟨p, nb, true, true⟩, ⟨p + nb, t.size - nb, t.cinuse, true⟩] →
      h'.top = p + nb → Carved h h' nb p

theorem keepRest_blocks {size : Nat} (kept : h.keepRest bytes p size = some h') :
    h'.blocks = h.blocks ∧ h'.top = h.top := by
  unfold Heap.keepRest Heap.fileDv at kept
  split at kept
  · split at kept
    · obtain rfl := Option.some.inj kept
      exact ⟨rfl, rfl⟩
    · obtain ⟨h₁, linked, rfl⟩ := Option.map_eq_some_iff.mp kept
      exact ⟨(link_same linked).1, (link_same linked).2.1⟩
  · exact ⟨(link_same kept).1, (link_same kept).2.1⟩

namespace Represents

variable {below above : List Block} {b n : Block}

theorem use_carved (rep : Represents first stop limit s h [])
    (shape : h.blocks = below ++ b :: n :: above) (unused : b.cinuse = false) (fits : nb ≤ b.size)
    (few : b.size - nb < 32) {h₁ : Heap} (same : h₁.blocks = h.blocks) (top : h₁.top = h.top)
    (blocks : h'.blocks = (h₁.use b n).blocks) (top' : h'.top = (h₁.use b n).top) :
    Carved h h' nb b.addr := by
  have whole := congrArg Heap.blocks (rep.use_eq shape)
  refine Carved.whole below above b n shape unused rfl (rep.group shape).2.2.1 fits (by omega) ?_
    (top'.trans top)
  refine blocks.trans (Eq.trans ?_ whole)
  simp only [Heap.use, Heap.relay, same]

theorem split_carved (rep : Represents first stop limit s h [])
    (shape : h.blocks = below ++ b :: n :: above) (unused : b.cinuse = false)
    (many : ¬ b.size - nb < 32) {h₁ : Heap} (same : h₁.blocks = h.blocks) (top : h₁.top = h.top)
    (blocks : h'.blocks = (h₁.split b n nb).blocks) (top' : h'.top = (h₁.split b n nb).top) :
    Carved h h' nb b.addr := by
  have whole := congrArg Heap.blocks (rep.split_eq shape nb)
  refine Carved.part below above b n shape unused rfl (rep.group shape).2.2.1 (by omega) ?_
    (top'.trans top)
  refine blocks.trans (Eq.trans ?_ whole)
  simp only [Heap.split, Heap.relay, same]

/-- A served request takes its bytes from one free block or from top. -/
theorem alloc_carved (rep : Represents first stop limit s h [])
    (served : h.alloc bytes = .served mem h') :
    ∃ p, mem = p + 32 ∧ Carved h h' (paddedRequest bytes) p := by
  rw [Heap.alloc] at served
  cases picked : h.pick bytes with
  | bin p size =>
      obtain ⟨free, fits, binned⟩ := rep.pick_bin picked
      obtain ⟨below, b, n, above, shape, rfl, rfl, unused, atB, atN⟩ := rep.successor free
      obtain ⟨same, top, -⟩ := unlink_blocks h b.addr b.size
      rw [picked] at served
      simp only [Heap.serve, atB, atN, Heap.serveBin] at served
      split at served
      · obtain ⟨rfl, rfl⟩ := Heap.Reply.served.inj served
        exact ⟨b.addr, rfl, rep.use_carved shape unused fits ‹_› same top rfl rfl⟩
      · split at served
        · rename_i h₂ kept
          obtain ⟨rfl, rfl⟩ := Heap.Reply.served.inj served
          obtain ⟨blocks, top'⟩ := keepRest_blocks kept
          exact ⟨b.addr, rfl, rep.split_carved shape unused ‹_› same top blocks top'⟩
        · cases served
  | dv =>
      have fits := pick_dv picked
      have proper := paddedRequest_proper bytes
      have present : h.dv ≠ 0 := fun none => by
        have := rep.filed.dvNone.mp none
        omega
      obtain ⟨below, b, n, above, shape, here, size, unused, atB, atN⟩ :=
        rep.successor (rep.filed.dvFree present)
      rw [picked] at served
      simp only [Heap.serve, atB, atN] at served
      obtain ⟨rfl, rfl⟩ := Heap.Reply.served.inj served
      refine ⟨h.dv, rfl, ?_⟩
      rw [← here, Heap.serveDv]
      split
      · exact rep.use_carved shape unused (by omega) (by omega) rfl rfl rfl rfl
      · exact rep.split_carved shape unused (by omega) rfl rfl rfl rfl
  | top =>
      obtain ⟨-, fits⟩ := pick_top picked
      obtain ⟨below, t, shape, atTop⟩ := rep.layout.last
      have member : t ∈ h.blocks := by simp [shape]
      have atT := rep.layout.blockAt_eq rfl member
      rw [atTop] at atT
      have size : h.topsize = t.size := by simp [Heap.topsize, atT]
      rw [picked] at served
      simp only [Heap.serve, atT] at served
      obtain ⟨rfl, rfl⟩ := Heap.Reply.served.inj served
      refine ⟨h.top, rfl, Carved.top below t shape atTop rfl (by omega) ?_ ?_⟩
      · rw [rep.splitTop_eq shape, atTop]
      · rw [Heap.splitTop, atTop]
  | expand =>
      rw [picked] at served
      cases served

end Represents

end Picks

end Unimem
