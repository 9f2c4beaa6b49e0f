import Unimem.Twins
import Unimem.Throwing
import Unimem.Selection

/-!
What clients may do with what they were given. A payload starts 32 bytes behind
its chunk, while the padding of a request counts 8 bytes of overhead: the last
bytes of a payload lie over the next chunk's head, unless the request was tiny or
its chunk has 16 bytes to spare.
-/

namespace Unimem

open ByteMemory Memory MallocState Transitions

namespace Store

/-- A small request is served from a chunk of `nb + 16` bytes: dv, or a binned one. -/
def SmallSpare (s : Store) (first nb : Nat) : Prop :=
  (∀ q, ¬ (s.freeSpace first).binned q nb) ∧
    (s.gm.dvsize = nb + 16 ∨ s.gm.dvsize < nb ∧ ∃ q, (s.freeSpace first).binned q (nb + 16))

/-- A larger request is served from a chunk of `nb + 16` bytes: a tree bin's, or dv. -/
def LargeSpare (s : Store) (nb : Nat) : Prop :=
  (∃ j, s.LargeBin nb j ∧ s.sizeAt (s.gm.treebins j) = nb + 16 ∧
      (nb + 16 < s.gm.dvsize ∨ s.gm.dvsize < nb)) ∨
    s.gm.dvsize = nb + 16 ∧ ∀ j, s.LargeBin nb j → nb + 16 ≤ s.sizeAt (s.gm.treebins j)

/-- The request leaves the next chunk's head alone. -/
def Ample (s : Store) (first bytes : Nat) : Prop :=
  bytes ≤ 8 ∨ (bytes ≤ maxSmallRequest ∧ s.SmallSpare first (paddedRequest bytes)) ∨
    (maxSmallRequest < bytes ∧ bytes < maxRequest ∧ s.LargeSpare (paddedRequest bytes))

end Store

/-- The size of the free chunk that a pick names; top is split exactly. -/
def Heap.taken (h : Heap) : Heap.Pick → Option Nat
  | .bin _ size => some size
  | .dv => some h.dvsize
  | .top => none
  | .expand => none

section Spare

variable {first stop limit bytes nb p k size : Nat} {s : Store} {h h' : Heap}

/-- What the padding leaves behind a request's bytes. -/
theorem paddedRequest_slack (proper : bytes < maxRequest) :
    paddedRequest bytes % 16 = 0 ∧ bytes + 8 ≤ paddedRequest bytes ∧
      (bytes + 24 ≤ paddedRequest bytes ↔ bytes ≤ 8) := by
  have minimum : minRequest = 23 := rfl
  have least : minChunkSize = 32 := by decide
  rw [maxRequest_eq] at proper
  rw [paddedRequest, maxSmallRequest_eq, maxRequest_eq, minimum, least, padRequest_eq (by omega)]
  split
  · split <;> omega
  · rw [if_neg (by omega)]
    omega

theorem rest_taken (small : h.dvsize < nb) : h.taken (h.pickRest nb) = none := by
  rcases pickRest_cases h nb with ⟨fits, -⟩ | ⟨-, -, pick⟩ | ⟨-, -, pick⟩
  · omega
  · rw [pick, Heap.taken]
  · rw [pick, Heap.taken]

namespace Represents

theorem small_taken (rep : Represents first stop limit s h []) (few : bytes ≤ maxSmallRequest) :
    h.taken (h.pickSmall (paddedRequest bytes)) = some (paddedRequest bytes + 16) ↔
      s.SmallSpare first (paddedRequest bytes) := by
  obtain ⟨least, most, multiple, -⟩ := paddedRequest_small few
  generalize paddedRequest bytes = nb at least most multiple
  rw [Store.SmallSpare, rep.dvsize]
  unfold Heap.pickSmall
  split
  · rename_i q tail shape
    have binned : (s.freeSpace first).binned q nb :=
      rep.binned_cases.mpr (Or.inl ⟨nb / 8, by omega, by simp [shape], by omega⟩)
    refine iff_of_false (by simp [Heap.taken]) fun spare => spare.1 q binned
  · rename_i empty
    have inexact := rep.noExact_of_empty (show nb < 256 by omega) empty
    simp only [inexact, not_false_eq_true, implies_true, true_and]
    split
    · rename_i enough
      have dv : ¬ h.dvsize < nb := Nat.not_lt_of_le enough
      simp [Heap.taken, dv]
    · rename_i few
      have differ : h.dvsize ≠ nb + 16 := by omega
      have below : h.dvsize < nb := by omega
      simp only [differ, false_or, below, true_and]
      split
      · rename_i i next
        obtain ⟨later, bound, nonempty, before⟩ := nextSmall_some next
        simp only [Heap.taken, Option.some.injEq]
        constructor
        · intro same
          obtain ⟨q, member⟩ := List.exists_mem_of_ne_nil _ nonempty
          exact ⟨q, rep.binned_cases.mpr (Or.inl ⟨i, bound, member, same.symm⟩)⟩
        · rintro ⟨q, binned⟩
          obtain ⟨r, inI⟩ := List.exists_mem_of_ne_nil _ nonempty
          have sized := rep.small_sized inI
          rcases rep.binned_cases.mp binned with ⟨k, -, member, same⟩ | ⟨k, -, member, same⟩
          · by_contra differ
            rw [before k (by omega) (by omega)] at member
            cases member
          · -- no small bin's size lies between 240 and 256
            have := (rep.tree_sized member).1
            omega
      · rename_i noSmall
        split
        · rename_i i next
          obtain ⟨bound, -, nonempty, before⟩ := nextTree_some next
          rw [Heap.pickTree, Heap.taken, Option.some.injEq]
          constructor
          · intro same
            obtain ⟨q, member⟩ := List.exists_mem_of_ne_nil _ nonempty
            exact ⟨q, rep.binned_cases.mpr (Or.inr ⟨i, bound, member, same.symm⟩)⟩
          · rintro ⟨q, binned⟩
            rcases rep.binned_cases.mp binned with ⟨k, few, member, same⟩ | ⟨k, -, member, same⟩
            · rw [nextSmall_none.mp noSmall k few (by omega)] at member
              cases member
            · -- only 256 is left, which goes to the first tree bin
              obtain ⟨large, index, -, -⟩ := rep.tree_sized member
              have lowest : computeTreeIndex 256 = 0 := by decide
              rw [show (h.tree k).size = 256 by omega, lowest] at index
              obtain rfl : i = k := by
                by_contra other
                rw [before k (by omega) (Nat.zero_le k)] at member
                cases member
              exact same.symm
        · rename_i noTree
          rw [rest_taken below]
          refine iff_of_false (by simp) ?_
          rintro ⟨q, binned⟩
          have less := rep.noneFits_of_empty empty noSmall noTree q _ binned
          omega

theorem large_taken (rep : Represents first stop limit s h []) :
    h.taken (h.pickLarge nb) = some (nb + 16) ↔ s.LargeSpare nb := by
  have size : ∀ {j}, h.largeFit nb = some j → s.sizeAt (s.gm.treebins j) = (h.tree j).size := by
    intro j fit
    obtain ⟨-, nonempty⟩ := largeFit_some fit
    exact (rep.root_cases (rep.largeBin_iff.mpr fit).1).2 nonempty
  rw [Store.LargeSpare, rep.dvsize]
  simp only [rep.largeBin_iff]
  unfold Heap.pickLarge
  cases fit : h.largeFit nb with
  | none =>
      simp only [reduceCtorEq, false_and, exists_false, false_or, false_implies, implies_true,
        and_true]
      rcases pickRest_cases h nb with ⟨fits, pick⟩ | ⟨small, -⟩ | ⟨small, -⟩
      · rw [pick, Heap.taken, Option.some.injEq]
      · rw [rest_taken small]
        simp only [reduceCtorEq, false_iff]
        omega
      · rw [rest_taken small]
        simp only [reduceCtorEq, false_iff]
        omega
  | some i =>
      have enough := (largeFit_some fit).1
      have same := size fit
      simp only [Option.some.injEq, exists_eq_left', forall_eq', same]
      split
      · rename_i better
        rw [Heap.pickTree, Heap.taken, Option.some.injEq]
        omega
      · rename_i worse
        rw [Heap.pickRest, if_pos (by omega), Heap.taken, Option.some.injEq]
        omega

theorem taken_iff (rep : Represents first stop limit s h []) (proper : bytes < maxRequest)
    (many : ¬ bytes ≤ 8) :
    h.taken (h.pick bytes) = some (paddedRequest bytes + 16) ↔ s.Ample first bytes := by
  have huge : ¬ bytes ≥ maxRequest := Nat.not_le_of_lt proper
  rw [Store.Ample, Heap.pick]
  by_cases few : bytes ≤ maxSmallRequest
  · have small : ¬ maxSmallRequest < bytes := Nat.not_lt_of_le few
    rw [if_pos few, rep.small_taken few]
    simp [few, many, small]
  · have large : maxSmallRequest < bytes := Nat.lt_of_not_le few
    rw [if_neg few, if_neg huge, rep.large_taken]
    simp [few, many, large, proper]

end Represents

/-- A free chunk is handed out whole unless 32 bytes of it are left over. -/
theorem Carved.size_of_free (carved : Carved h h' nb p)
    (layout : Layout first stop h.top h.blocks) (layout' : Layout first stop h'.top h'.blocks)
    (free : FreeAt h.top h.blocks p size) (used : h'.Used p k) :
    k = if size < nb + 32 then size else nb := by
  obtain ⟨notTop, c, inC, here, rfl, -⟩ := free
  obtain ⟨-, d, inD, there, rfl, -⟩ := used
  cases carved with
  | whole below above b n shape _ at_ _ _ few after =>
      have same := layout.addr_inj inC (by simp [shape] : b ∈ h.blocks) (here.trans at_.symm)
      have handed := layout'.addr_inj inD (by simp [after] : ⟨p, b.size, true, true⟩ ∈ h'.blocks) there
      rw [handed, same, if_pos few]
  | part below above b n shape _ at_ _ many after =>
      have same := layout.addr_inj inC (by simp [shape] : b ∈ h.blocks) (here.trans at_.symm)
      have handed := layout'.addr_inj inD (by simp [after] : ⟨p, nb, true, true⟩ ∈ h'.blocks) there
      rw [handed, same, if_neg (Nat.not_lt_of_le many)]
  | top below t _ _ isTop => exact absurd isTop notTop

/-- Of top exactly the padded request is handed out. -/
theorem Carved.size_of_top (carved : Carved h h' nb p)
    (layout' : Layout first stop h'.top h'.blocks) (atTop : p = h.top) (used : h'.Used p k) :
    k = nb := by
  obtain ⟨-, d, inD, there, rfl, -⟩ := used
  cases carved with
  | whole below above b n shape _ at_ notTop => exact absurd (at_.trans atTop) notTop
  | part below above b n shape _ at_ notTop => exact absurd (at_.trans atTop) notTop
  | top below t shape _ _ _ after =>
      rw [layout'.addr_inj inD (by simp [after] : ⟨p, nb, true, true⟩ ∈ h'.blocks) there]

/-- The chunk handed out reaches 24 bytes behind the bytes asked for exactly there. -/
theorem Represents.alloc_ample (rep : Represents first stop limit s h [])
    (layout' : Layout first stop h'.top h'.blocks)
    (served : h.alloc bytes = .served (p + 32) h') (used : h'.Used p k) :
    bytes + 24 ≤ k ↔ s.Ample first bytes := by
  have layout := rep.layout
  obtain ⟨q, same, carved⟩ := rep.alloc_carved served
  obtain rfl : q = p := by omega
  obtain ⟨r, chosen, same⟩ := serve_chosen served
  obtain rfl : r = q := by omega
  -- 16 bytes more than asked are kept exactly if the chosen block has them over
  have taken : k = paddedRequest bytes + 16 ↔
      h.taken (h.pick bytes) = some (paddedRequest bytes + 16) := by
    cases picked : h.pick bytes with
    | bin q size =>
        rw [picked] at chosen
        obtain rfl := Option.some.inj chosen
        have free := (rep.pick_bin picked).1
        have exactly := carved.size_of_free layout layout' free used
        have multiple := free.geometry layout
        rw [Heap.taken, Option.some.injEq]
        split at exactly <;> omega
    | dv =>
        rw [picked] at chosen
        obtain rfl := Option.some.inj chosen
        have fits := pick_dv picked
        have some := paddedRequest_proper bytes
        have present : h.dv ≠ 0 := fun none => by
          have := rep.filed.dvNone.mp none
          omega
        have exactly := carved.size_of_free layout layout' (rep.filed.dvFree present) used
        rw [Heap.taken, Option.some.injEq]
        split at exactly <;> omega
    | top =>
        rw [picked] at chosen
        have exactly := carved.size_of_top layout' (Option.some.inj chosen).symm used
        rw [Heap.taken]
        simp only [reduceCtorEq, iff_false]
        omega
    | expand =>
        rw [picked] at chosen
        cases chosen
  obtain ⟨c, inNew, here, least, most, notTop, inUse, -⟩ := carved.handed layout layout'
  have same : c.size = k := Heap.Used.unique layout' ⟨here ▸ notTop, c, inNew, here, rfl, inUse⟩ used
  have inside := layout'.bounds inNew
  have bound := layout'.bound
  have multiple := (layout'.sized c inNew notTop).2
  simp only [Block.stop] at inside
  have proper : bytes < maxRequest := by
    by_contra huge
    have := paddedRequest_huge (Nat.le_of_not_lt huge)
    omega
  obtain ⟨rounded, reaches, tiny⟩ := paddedRequest_slack proper
  by_cases few : bytes ≤ 8
  · exact iff_of_true (by omega) (Or.inl few)
  · rw [← rep.taken_iff proper few, ← taken]
    omega

end Spare

section Bytes

variable {first stop limit a k x : Nat} {s : Store} {h : Heap}

/-- From the links of a chunk in use to its next chunk's head nothing is bookkeeping. -/
theorem Represents.used_outside (rep : Represents first stop limit s h []) (used : h.Used a k)
    (object : ¬ (s.gm.this ≤ x ∧ x < s.gm.this + mallocStateSize)) (lower : a + 16 ≤ x)
    (upper : x < a + k + 8) : ¬ s.Bookkeeping first x := by
  have layout := rep.layout
  obtain ⟨notTop, b, member, rfl, rfl, inUse⟩ := used
  have foreign : ∀ p size, FreeAt h.top h.blocks p size →
      p + size ≤ b.addr ∨ b.addr + b.size ≤ p := by
    rintro p size ⟨-, c, inC, rfl, rfl, free⟩
    rcases layout.ordered member inC with rfl | before | after
    · rw [inUse] at free
      cases free
    · exact Or.inr before
    · exact Or.inl after
  rw [rep.bookkeeping_iff]
  rintro (inObject | ⟨c, inC, low, high⟩ | ⟨p, size, free, low, high⟩ | ⟨i, p, inBin, low, high⟩ |
    ⟨i, p, inBin, low, high⟩)
  · exact object inObject
  · rcases layout.ordered member inC with rfl | before | after
    · omega
    · simp only [Block.stop] at before
      omega
    · have positive := layout.nonempty c inC
      simp only [Block.stop] at after
      omega
  · have apart := foreign p size free
    have inside := free.geometry layout
    omega
  · have free := (rep.small.member i p inBin).2
    have inside := free.geometry layout
    have apart := foreign p _ free
    omega
  · have free := (rep.tree.bin i).member p inBin
    have large := (rep.tree_sized inBin).1
    have apart := foreign p _ free
    omega

/-- Behind them is the next chunk's head. -/
theorem Represents.next_head (rep : Represents first stop limit s h []) (used : h.Used a k)
    (lower : a + k + 8 ≤ x) (upper : x < a + k + 16) : s.Bookkeeping first x := by
  obtain ⟨notTop, b, member, rfl, rfl, -⟩ := used
  obtain ⟨below, n, above, shape, next⟩ := rep.layout.successor member notTop
  simp only [Block.stop] at next
  refine (rep.bookkeeping_iff x).mpr (Or.inr (Or.inl ⟨n, by simp [shape], ?_, ?_⟩))
  · omega
  · omega

end Bytes

/-- A byte of some live allocation. -/
def World.Owned (w : World) (x : Nat) : Prop :=
  ∃ mem bytes, (mem, bytes) ∈ w.live ∧ mem ≤ x ∧ x < mem + bytes

/-- Every live allocation leaves the next chunk's head alone. -/
def Setup.Roomy (setup : Setup) (w : World) : Prop :=
  ∀ mem bytes, (mem, bytes) ∈ w.live →
    ∃ a k, mem = a + 32 ∧ w.store.UsedChunk setup.first a k ∧ bytes + 24 ≤ k

/-- Clients store into what they were given, or outside the bookkeeping, and every Alloc
leaves the next chunk's head alone. -/
def Setup.Careful (setup : Setup) (w : World) (event : Event) (w' : World) : Prop :=
  Step (fun w x => w.Owned x ∨ setup.Outside w x) w event w' ∧
    ∀ bytes mem, event = .call (.alloc bytes) mem → w.store.Ample setup.first bytes

section Careful

variable {setup : Setup} {w w' : World} {h : Heap} {call : Call} {value bytes mem : Nat}
  {s s' : Store} {event : Event}

theorem Setup.object_apart {x : Nat} (holds : setup.Holds)
    (this : w.store.gm.this = setup.raw.this) (lower : setup.first ≤ x)
    (upper : x < setup.stop + 8) :
    ¬ (w.store.gm.this ≤ x ∧ x < w.store.gm.this + mallocStateSize) := by
  have apart := setup.apart
  have foot : topFootSize = 8 := rfl
  have base : setup.tbase = setup.underlyingAllocator 0 setup.increasingSize := rfl
  rw [Setup.Holds] at holds
  rw [Setup.first] at lower
  rw [Setup.stop] at upper
  omega

namespace Runs

theorem owned_outside (runs : Runs setup w h) (holds : setup.Holds)
    (this : w.store.gm.this = setup.raw.this) (roomy : setup.Roomy w) {x : Nat}
    (owned : w.Owned x) : setup.Outside w x := by
  obtain ⟨mem, bytes, member, lower, upper⟩ := owned
  obtain ⟨a, k, rfl, chunk, room⟩ := roomy mem bytes member
  have used := (runs.rep.usedChunk_iff a k).mp chunk
  have layout := runs.rep.layout
  obtain ⟨notTop, b, inBlocks, rfl, rfl, -⟩ := id used
  have inside := layout.bounds inBlocks
  simp only [Block.stop] at inside
  exact runs.rep.used_outside used
    (Setup.object_apart holds this (by omega) (by omega)) (by omega) (by omega)

/-- The payload handed out is apart from the bookkeeping exactly where the request is ample. -/
theorem alloc_apart_iff (runs : Runs setup w h) (holds : setup.Holds)
    (this : w.store.gm.this = setup.raw.this)
    (returned : (Call.alloc bytes).Returns w.store mem s') :
    (∀ x, mem ≤ x → x < mem + bytes → ¬ s'.Bookkeeping setup.first x) ↔
      w.store.Ample setup.first bytes := by
  obtain ⟨h', answered, runs', kept, p, k, rfl, -, -, used⟩ :=
    runs.returned (show w.permits (.alloc bytes) from trivial) returned
  have rep' : Represents setup.first setup.stop (setup.stop + 16) s' h' [] := runs'.rep
  have handed := (used p k).mpr (Or.inr ⟨rfl, rfl⟩)
  rw [← runs.rep.alloc_ample rep'.layout answered handed]
  obtain ⟨notTop, b, inBlocks, rfl, rfl, -⟩ := id handed
  have inside := rep'.layout.bounds inBlocks
  have large := rep'.layout.sized b inBlocks notTop
  simp only [Block.stop] at inside
  constructor
  · intro apart
    by_contra short
    exact apart (b.addr + b.size + 8) (by omega) (by omega)
      (rep'.next_head handed (Nat.le_refl _) (by omega))
  · intro room x lower upper
    have this' : s'.gm.this = setup.raw.this := kept.settings.this.trans this
    exact rep'.used_outside handed
      (Setup.object_apart (w := ⟨s', []⟩) holds this' (by omega) (by omega)) (by omega) (by omega)

theorem roomy_after (runs : Runs setup w h) (roomy : setup.Roomy w) (permitted : w.permits call)
    (returned : call.Returns w.store value s')
    (ample : ∀ bytes, call = .alloc bytes → w.store.Ample setup.first bytes) :
    setup.Roomy (w.after call value s') := by
  obtain ⟨h', answered, runs', -, served⟩ := runs.returned permitted returned
  have rep' : Represents setup.first setup.stop (setup.stop + 16) s' h' [] := by
    have after := runs'.rep
    rwa [World.after_store] at after
  have old : ∀ a k, w.store.UsedChunk setup.first a k → h.Used a k := fun a k =>
    (runs.rep.usedChunk_iff a k).mp
  have new : ∀ a k, h'.Used a k → s'.UsedChunk setup.first a k := fun a k =>
    (rep'.usedChunk_iff a k).mpr
  intro mem bytes member
  rw [World.after_store]
  cases call with
  | alloc other =>
      obtain ⟨p, k, rfl, -, -, used⟩ := served
      rcases List.mem_cons.mp member with isNew | isOld
      · obtain ⟨rfl, rfl⟩ := Prod.mk.inj isNew
        have handed := (used p k).mpr (Or.inr ⟨rfl, rfl⟩)
        exact ⟨p, k, rfl, new p k handed,
          (runs.rep.alloc_ample rep'.layout answered handed).mpr (ample bytes rfl)⟩
      · obtain ⟨a, k, rfl, chunk, room⟩ := roomy mem bytes isOld
        exact ⟨a, k, rfl, new a k ((used a k).mpr (Or.inl (old a k chunk))), room⟩
  | free freed =>
      obtain ⟨isOld, differ⟩ := List.mem_filter.mp member
      obtain ⟨a, k, rfl, chunk, room⟩ := roomy mem bytes isOld
      have stays : h'.Used a k ↔ h.Used a k ∧ a + 32 ≠ freed := served a k
      exact ⟨a, k, rfl, new a k (stays.mpr ⟨old a k chunk, by simpa using differ⟩), room⟩
  | expand =>
      obtain rfl : h' = h := served
      obtain ⟨a, k, rfl, chunk, room⟩ := roomy mem bytes member
      exact ⟨a, k, rfl, new a k (old a k chunk), room⟩

end Runs

/-- With nothing filed a request comes out of top, with nothing to spare. -/
theorem Unfiled.ample_iff {first : Nat} (unfiled : Unfiled s.gm) :
    s.Ample first bytes ↔ bytes ≤ 8 := by
  have dvsize := unfiled.dvsize
  have noBin : ∀ q size, ¬ (s.freeSpace first).binned q size := by
    rintro q size ⟨-, i, bound, inSmall | inTree⟩
    · exact unfiled.no_smallbin i inSmall
    · exact unfiled.no_treebin bound inTree
  have noTree : ∀ j, ¬ s.LargeBin (paddedRequest bytes) j := fun j bin =>
    bin.2.1 (unfiled.treebins j bin.1)
  constructor
  · rintro (few | ⟨-, -, dv | ⟨-, q, binned⟩⟩ | ⟨-, -, ⟨j, bin, -⟩ | ⟨dv, -⟩⟩)
    · exact few
    · omega
    · exact absurd binned (noBin q _)
    · exact absurd bin (noTree j)
    · omega
  · exact Or.inl

/-- The first Alloc works on the segment that InitOrExpand has just set up. -/
theorem Fresh.alloc_enters (fresh : Fresh setup w) (holds : setup.Holds) (clean : Clean setup.raw)
    (returned : (Call.alloc bytes).Returns w.store value s') :
    ∃ s₁ h₁, Runs setup ⟨s₁, []⟩ h₁ ∧ s₁.gm.this = setup.raw.this ∧ Unfiled s₁.gm ∧
      (Call.alloc bytes).Returns s₁ value s' := by
  obtain ⟨s₁, opened, later⟩ := alloc_opens (fresh.gm ▸ clean) returned
  obtain ⟨gm, ⟨-, rep⟩ | ⟨-, narrow⟩⟩ := fresh.opened holds clean opened
  · refine ⟨s₁, _, ⟨rep, tracked_init _ _⟩, by rw [gm, initGm], ?_, later⟩
    rw [gm]
    exact ⟨clean.smallmap, clean.treemap, clean.treebins, clean.dv, clean.dvsize⟩
  · exact absurd later ((narrow.alloc_diverges bytes).only.1 value s')

namespace Phase

theorem alloc_apart_iff (phase : Phase setup w) (holds : setup.Holds) (clean : Clean setup.raw)
    (this : w.store.gm.this = setup.raw.this)
    (returned : (Call.alloc bytes).Returns w.store mem s') :
    (∀ x, mem ≤ x → x < mem + bytes → ¬ s'.Bookkeeping setup.first x) ↔
      w.store.Ample setup.first bytes := by
  cases phase with
  | fresh fresh =>
      obtain ⟨s₁, h₁, runs, this', unfiled, later⟩ := fresh.alloc_enters holds clean returned
      have same : Unfiled w.store.gm := fresh.gm ▸ clean.toUnfiled
      rw [runs.alloc_apart_iff holds this' later, unfiled.ample_iff, same.ample_iff]
  | narrow _ narrow => exact absurd returned ((narrow.alloc_diverges bytes).only.1 mem s')
  | running h runs => exact runs.alloc_apart_iff holds this returned

theorem roomy_after (phase : Phase setup w) (holds : setup.Holds) (clean : Clean setup.raw)
    (this : w.store.gm.this = setup.raw.this) (roomy : setup.Roomy w) (permitted : w.permits call)
    (returned : call.Returns w.store value s')
    (ample : ∀ bytes, call = .alloc bytes → w.store.Ample setup.first bytes) :
    s'.gm.this = setup.raw.this ∧ setup.Roomy (w.after call value s') := by
  have none : w.live = [] → ∀ t, setup.Roomy ⟨t, w.live⟩ := by
    intro empty t mem bytes member
    rw [show World.live ⟨t, w.live⟩ = [] from empty] at member
    cases member
  cases phase with
  | fresh fresh =>
      cases call with
      | alloc bytes =>
          obtain ⟨s₁, h₁, runs, this', unfiled, later⟩ := fresh.alloc_enters holds clean returned
          have permitted' : World.permits ⟨s₁, []⟩ (.alloc bytes) := trivial
          have same : Unfiled w.store.gm := fresh.gm ▸ clean.toUnfiled
          have few := same.ample_iff.mp (ample bytes rfl)
          obtain ⟨h', -, -, kept, -⟩ := runs.returned permitted' later
          have room := runs.roomy_after (fun _ _ member => (List.not_mem_nil member).elim)
            permitted' later fun other isThis => by
              obtain rfl := Call.alloc.inj isThis
              exact Or.inl few
          refine ⟨kept.settings.this.trans this', ?_⟩
          simpa only [World.after, fresh.none] using room
      | free mem => simp [World.permits, fresh.none] at permitted
      | expand =>
          obtain ⟨opened, rfl⟩ := expand_returns returned
          have gm := (fresh.opened holds clean opened).1
          exact ⟨by rw [gm, initGm], none fresh.none s'⟩
  | narrow _ narrow empty =>
      cases call with
      | alloc bytes => exact absurd returned ((narrow.alloc_diverges bytes).only.1 value s')
      | free mem => simp [World.permits, empty] at permitted
      | expand =>
          obtain ⟨opened, rfl⟩ := expand_returns returned
          rw [initOrExpand_again narrow.present] at opened
          obtain ⟨-, rfl⟩ := EStateM.Result.ok.inj opened
          exact ⟨this, none empty _⟩
  | running h runs =>
      obtain ⟨h', -, -, kept, -⟩ := runs.returned permitted returned
      exact ⟨kept.settings.this.trans this, runs.roomy_after roomy permitted returned ample⟩

end Phase

theorem SamePhase.left {setup' : Setup} (same : SamePhase setup setup' w w') : Phase setup w := by
  cases same with
  | fresh fresh => exact Phase.fresh fresh
  | narrow small narrow _ _ _ none => exact Phase.narrow small narrow none
  | running h runs => exact Phase.running h runs

/-- Payloads lie in the block, apart from the bookkeeping, and calls on other pointers leave
their bytes alone. -/
structure PayloadsKept (setup : Setup) (w : World) : Prop where
  inside : ∀ mem bytes, (mem, bytes) ∈ w.live →
    setup.tbase ≤ mem ∧ mem + bytes ≤ setup.tbase + setup.increasingSize
  apart : ∀ x, w.Owned x → ¬ w.store.Bookkeeping setup.first x
  unchanged : ∀ call value s', w.permits call → call.Returns w.store value s' →
    ∀ mem bytes, (mem, bytes) ∈ w.live → call ≠ .free mem →
      ∀ x, mem ≤ x → x < mem + bytes → s'.mem.byte x = w.store.mem.byte x

/-- What holds of a careful run, beside a run of the same calls with no stores at all. -/
structure Unmarred (setup : Setup) (w w₀ : World) : Prop where
  paired : Paired setup setup w w₀
  this : w.store.gm.this = setup.raw.this
  roomy : setup.Roomy w

theorem Setup.kin_refl (setup : Setup) : setup.Kin setup := ⟨rfl, rfl, rfl, rfl⟩

namespace Unmarred

variable {w₀ : World}

theorem outside (unmarred : Unmarred setup w w₀) (holds : setup.Holds) {x : Nat}
    (writable : w.Owned x ∨ setup.Outside w x) : setup.Outside w x := by
  rcases writable with owned | outside
  · cases unmarred.paired.phase.left with
    | running h runs => exact runs.owned_outside holds unmarred.this unmarred.roomy owned
    | fresh fresh =>
        obtain ⟨mem, bytes, member, -⟩ := owned
        rw [fresh.none] at member
        cases member
    | narrow _ _ none =>
        obtain ⟨mem, bytes, member, -⟩ := owned
        rw [none] at member
        cases member
  · exact outside

theorem called (unmarred : Unmarred setup w w₀) (holds : setup.Holds) (clean : Clean setup.raw)
    (careful : setup.Careful w (.call call value) w') :
    ∃ w₁, Step (fun _ _ => False) w₀ (.call call value) w₁ ∧ Unmarred setup w' w₁ := by
  obtain ⟨step, ample⟩ := careful
  cases step with
  | call permitted returned =>
      obtain ⟨t, returned', paired⟩ :=
        unmarred.paired.returns setup.kin_refl holds clean clean permitted returned
      obtain ⟨this, roomy⟩ := unmarred.paired.phase.left.roomy_after holds clean unmarred.this
        unmarred.roomy permitted returned fun bytes isThis => ample bytes value (by rw [isThis])
      refine ⟨_, Step.call (unmarred.paired.permits permitted) returned', paired, ?_, roomy⟩
      rwa [World.after_store]

theorem poked (unmarred : Unmarred setup w w₀) (holds : setup.Holds) {x : Nat} {v : UInt8}
    (careful : setup.Careful w (.poke x v) w') : Unmarred setup w' w₀ := by
  obtain ⟨step, -⟩ := careful
  cases step with
  | poke _ writable =>
      have outside := unmarred.outside holds writable
      refine ⟨unmarred.paired.poke outside v, unmarred.this, fun mem bytes member => ?_⟩
      obtain ⟨a, k, rfl, chunk, room⟩ := unmarred.roomy mem bytes member
      refine ⟨a, k, rfl, ?_, room⟩
      cases unmarred.paired.phase.left with
      | running h runs =>
          have used := (runs.rep.usedChunk_iff a k).mp chunk
          exact ((runs.rep.poke outside v).usedChunk_iff a k).mpr used
      | fresh fresh =>
          have empty : (a + 32, bytes) ∈ w.live := member
          rw [fresh.none] at empty
          cases empty
      | narrow _ _ none =>
          have empty : (a + 32, bytes) ∈ w.live := member
          rw [none] at empty
          cases empty

end Unmarred

/-- A run in which clients store into their payloads goes as one without any stores. -/
theorem Setup.Careful.unmarred {events : List Event}
    (run : Run setup.Careful setup.start events w) (holds : setup.Holds) (clean : Clean setup.raw) :
    ∃ w₀, Run (Step fun _ _ => False) setup.start (events.filter fun event => event.asked.isSome) w₀ ∧
      Unmarred setup w w₀ := by
  have start : Unmarred setup setup.start setup.start :=
    ⟨setup.kin_refl.start, rfl, fun mem bytes member => (List.not_mem_nil member).elim⟩
  refine run.muted _ start ?_ ?_
  · intro state state' label after unmarred careful heard
    cases label with
    | call call value => exact unmarred.called holds clean careful
    | poke x v => cases heard
  · intro state state' label after unmarred careful heard
    cases label with
    | call call value => cases heard
    | poke x v => exact unmarred.poked holds careful

theorem Runs.payloadsKept (runs : Runs setup w h) (holds : setup.Holds)
    (this : w.store.gm.this = setup.raw.this) (roomy : setup.Roomy w) : PayloadsKept setup w := by
  have layout := runs.rep.layout
  refine ⟨fun mem bytes member => ?_, fun x owned => runs.owned_outside holds this roomy owned, ?_⟩
  · obtain ⟨a, k, rfl, chunk, room⟩ := roomy mem bytes member
    obtain ⟨notTop, b, inBlocks, rfl, rfl, -⟩ := (runs.rep.usedChunk_iff a k).mp chunk
    have inside := layout.bounds inBlocks
    have large := layout.sized b inBlocks notTop
    have foot : topFootSize = 8 := rfl
    rw [Setup.Holds] at holds
    rw [Setup.first, Setup.stop] at inside
    simp only [Block.stop] at inside
    omega
  · intro call value s' permitted returned mem bytes member other x lower upper
    obtain ⟨a, k, rfl, chunk, room⟩ := roomy mem bytes member
    obtain ⟨h', -, -, kept, -⟩ := runs.returned permitted returned
    have used := (runs.rep.usedChunk_iff a k).mp chunk
    exact kept.bytes a k used other x (by omega) (by omega)

theorem PayloadsKept.of_none (none : w.live = []) : PayloadsKept setup w := by
  refine ⟨fun mem bytes member => ?_, ?_, fun call value s' _ _ mem bytes member => ?_⟩
  · rw [none] at member
    cases member
  · rintro x ⟨mem, bytes, member, -⟩
    rw [none] at member
    cases member
  · rw [none] at member
    cases member

/-- Where every Alloc is ample, payloads are kept apart from the bookkeeping and from one
another's calls, and what clients store there changes no answer. An Alloc that is not
ample hands out bytes of the bookkeeping. -/
theorem reached_payload (zeroed : Zeroed setup.raw) (aligned : setup.Aligned) {events : List Event}
    (run : Run setup.Careful setup.start events w) :
    PayloadsKept setup w ∧
    (∃ w₀, Run (Step fun _ _ => False) setup.start
        (events.filter fun event => event.asked.isSome) w₀ ∧ w₀.live = w.live ∧
      ∀ call, w.permits call → call.EndsAlike w.store w₀.store) ∧
    ∀ bytes mem s', (Call.alloc bytes).Returns w.store mem s' →
      ((∀ x, mem ≤ x → x < mem + bytes → ¬ s'.Bookkeeping setup.first x) ↔
        w.store.Ample setup.first bytes) := by
  obtain ⟨holds, wide, -⟩ := aligned.bounds
  have clean := zeroed.toClean
  obtain ⟨w₀, quiet, unmarred⟩ := Setup.Careful.unmarred run holds clean
  have phase := unmarred.paired.phase.left
  refine ⟨?_, ⟨w₀, quiet, unmarred.paired.live, fun call permitted => ?_⟩, ?_⟩
  · cases phase with
    | fresh fresh => exact PayloadsKept.of_none fresh.none
    | narrow _ _ none => exact PayloadsKept.of_none none
    | running h runs => exact runs.payloadsKept holds unmarred.this unmarred.roomy
  · exact unmarred.paired.endsAlike setup.kin_refl holds clean clean permitted
  · intro bytes mem s' returned
    exact phase.alloc_apart_iff holds clean unmarred.this returned

theorem Setup.sample_alloc {h' : Heap}
    (served : (Heap.init 4096 5112).alloc bytes = .served value h') :
    ∃ s, (Call.alloc bytes).Returns (Setup.sample 1024 (by decide)).start.store value s := by
  have clean := (Setup.sample_zeroed 1024 (by decide)).toClean
  have aligned := (Setup.sample_regular (by decide : 1024 ≤ 2 ^ 32) (by decide) (by decide)).aligned
  obtain ⟨holds, wide, -⟩ := aligned.bounds
  obtain ⟨s₁, opened, runs⟩ :=
    (Setup.sample 1024 (by decide)).start_fresh.opens holds clean wide rfl
  rw [aligned.first_eq] at runs
  obtain ⟨s, ⟨fuel, ran⟩, -⟩ :=
    runs.serves (show World.permits ⟨s₁, []⟩ (.alloc bytes) from trivial) served
  exact ⟨s, fuel + 1, (alloc_after clean opened fuel).trans ran⟩

/-- The first 24 bytes handed out reach over the next chunk's head. -/
theorem alloc_overlaps :
    ∃ s, (Call.alloc 24).Returns (Setup.sample 1024 (by decide)).start.store 4128 s ∧
      ∃ x, 4128 ≤ x ∧ x < 4128 + 24 ∧ s.Bookkeeping 4096 x := by
  have clean := (Setup.sample_zeroed 1024 (by decide)).toClean
  have aligned := (Setup.sample_regular (by decide : 1024 ≤ 2 ^ 32) (by decide) (by decide)).aligned
  have first : (Setup.sample 1024 (by decide)).first = 4096 := aligned.first_eq
  obtain ⟨h', served⟩ : ∃ h', (Heap.init 4096 5112).alloc 24 = .served 4128 h' := ⟨_, rfl⟩
  obtain ⟨s, returned⟩ := Setup.sample_alloc served
  refine ⟨s, returned, ?_⟩
  by_contra none
  have phase := Phase.fresh (Setup.sample 1024 (by decide)).start_fresh
  have apart := phase.alloc_apart_iff aligned.bounds.1 clean rfl returned
  rw [first] at apart
  have unfiled : Unfiled (Setup.sample 1024 (by decide)).start.store.gm := clean.toUnfiled
  have few := unfiled.ample_iff.mp
    (apart.mp fun x lower upper inside => none ⟨x, lower, upper, inside⟩)
  exact absurd few (by decide)

/-- A client that stores into its 8 bytes. -/
theorem reached_payload_sample : ∃ w, Run (Setup.sample 1024 (by decide)).Careful
    (Setup.sample 1024 (by decide)).start [.call (.alloc 8) 4128, .poke 4130 7] w ∧
      PayloadsKept (Setup.sample 1024 (by decide)) w := by
  have aligned := (Setup.sample_regular (by decide : 1024 ≤ 2 ^ 32) (by decide) (by decide)).aligned
  obtain ⟨h', served⟩ : ∃ h', (Heap.init 4096 5112).alloc 8 = .served 4128 h' := ⟨_, rfl⟩
  obtain ⟨s, returned⟩ := Setup.sample_alloc served
  have asked : (Setup.sample 1024 (by decide)).Careful (Setup.sample 1024 (by decide)).start
      (.call (.alloc 8) 4128) ⟨s, [(4128, 8)]⟩ := by
    refine ⟨Step.call trivial returned, fun bytes mem same => ?_⟩
    cases same
    exact Or.inl (Nat.le_refl 8)
  have stored : (Setup.sample 1024 (by decide)).Careful ⟨s, [(4128, 8)]⟩ (.poke 4130 7)
      (World.poke ⟨s, [(4128, 8)]⟩ 4130 7) := by
    refine ⟨Step.poke 7 (Or.inl ⟨4128, 8, by simp, by decide, by decide⟩), fun bytes mem same => ?_⟩
    cases same
  have run := (Run.nil.snoc asked).snoc stored
  exact ⟨_, run, (reached_payload (Setup.sample_zeroed 1024 (by decide)) aligned run).1⟩

end Careful

end Unimem
