import Unimem.Effects

/-!
When a call throws, and what it has done by then. A call throws exactly where it
has to put a chunk into a tree bin that holds another size: the slot below the
other node is empty, and the check looks at the slot's null.
-/

namespace Unimem

open ByteMemory Memory WordArith MallocState

namespace Store

/-- The tree bin of size `r` holds another size, at other chunks than `p` and `q`. -/
def Crowded (s : Store) (p q r : Nat) : Prop :=
  256 ≤ r ∧ ∃ z, s.InTreebin (computeTreeIndex r) z ∧ z ≠ p ∧ z ≠ q ∧ s.sizeAt z ≠ r

/-- The tree bin a large request is served from: its own, or the next one up that holds a
chunk, if its chunks are large enough. -/
def LargeBin (s : Store) (nb j : Nat) : Prop :=
  j < 32 ∧ s.gm.treebins j ≠ 0 ∧ nb ≤ s.sizeAt (s.gm.treebins j) ∧
    (j = computeTreeIndex nb ∨ computeTreeIndex nb < j ∧
      (s.gm.treebins (computeTreeIndex nb) = 0 ∨
        s.sizeAt (s.gm.treebins (computeTreeIndex nb)) < nb) ∧
      ∀ k, computeTreeIndex nb < k → k < j → s.gm.treebins k = 0)

/-- What the call has to file goes into an empty tree bin, or one of its size, or elsewhere. -/
def Fileable (s : Store) : Call → Prop
  | .alloc bytes => maxSmallRequest < bytes → bytes < maxRequest →
      ∀ j, s.LargeBin (paddedRequest bytes) j →
        s.sizeAt (s.gm.treebins j) < s.gm.dvsize ∨ s.gm.dvsize < paddedRequest bytes →
          ¬ s.Crowded (s.gm.treebins j) (s.gm.treebins j)
            (s.sizeAt (s.gm.treebins j) - paddedRequest bytes)
  | .free mem => s.nextOf (mem2chunk mem) ≠ s.gm.top → s.extentStart (mem2chunk mem) ≠ s.gm.dv →
      s.nextOf (mem2chunk mem) ≠ s.gm.dv →
        ¬ s.Crowded (s.extentStart (mem2chunk mem)) (s.nextOf (mem2chunk mem))
          (s.extentEnd (mem2chunk mem) - s.extentStart (mem2chunk mem))
  | .expand => True

/-- The MallocState and every bookkeeping byte are as before. -/
def Unchanged (s : Store) (first : Nat) (s' : Store) : Prop :=
  s'.gm = s.gm ∧ ∀ x, s.Bookkeeping first x → s'.mem.byte x = s.mem.byte x

end Store

section Refusals

variable {first stop limit bytes nb i j p q r size : Nat} {s : Store} {h : Heap}

namespace Represents

theorem sizeAt_free (rep : Represents first stop limit s h []) (free : FreeAt h.top h.blocks p r) :
    s.sizeAt p = r := by
  obtain ⟨notTop, b, member, rfl, rfl, -⟩ := free
  exact rep.sizeAt_eq member notTop

theorem crowded_iff (rep : Represents first stop limit s h []) :
    s.Crowded p q r ↔ h.Crowded p q r := by
  rw [Store.Crowded, Heap.Crowded]
  have inside : ∀ z, s.InTreebin (computeTreeIndex r) z ↔
      z ∈ (h.tree (computeTreeIndex r)).nodes := fun z => rep.treebin_iff (computeTreeIndex_lt r) z
  have size : ∀ z ∈ (h.tree (computeTreeIndex r)).nodes,
      s.sizeAt z = (h.tree (computeTreeIndex r)).size := fun z member =>
    rep.sizeAt_free ((rep.tree.bin _).member z member)
  refine and_congr_right fun _ => ?_
  constructor
  · rintro ⟨z, member, notP, notQ, differ⟩
    rw [inside] at member
    rw [size z member] at differ
    exact ⟨differ, z, member, notP, notQ⟩
  · rintro ⟨differ, z, member, notP, notQ⟩
    exact ⟨z, (inside z).mpr member, notP, notQ, by rwa [size z member]⟩

/-- The root slots, by the nodes of the bins. -/
theorem root_cases (rep : Represents first stop limit s h []) (bound : i < 32) :
    (s.gm.treebins i = 0 ↔ (h.tree i).nodes = []) ∧
      ((h.tree i).nodes ≠ [] → s.sizeAt (s.gm.treebins i) = (h.tree i).size) := by
  cases shape : (h.tree i).nodes with
  | nil =>
      have root := rep.tree.root i bound
      rw [shape] at root
      exact ⟨by simpa using root, by simp⟩
  | cons root rest =>
      obtain ⟨same, nonzero, free, -⟩ := rep.root_run shape
      rw [same]
      exact ⟨by simpa using nonzero, fun _ => rep.sizeAt_free free⟩

theorem largeBin_iff (rep : Represents first stop limit s h []) :
    s.LargeBin nb j ↔ h.largeFit nb = some j := by
  have own := rep.root_cases (computeTreeIndex_lt nb)
  have roots := fun k (bound : k < 32) => (rep.root_cases (i := k) bound).1
  rw [Store.LargeBin]
  unfold Heap.largeFit
  simp only
  split
  · rename_i here
    obtain ⟨nonempty, enough⟩ := here
    have size := own.2 nonempty
    constructor
    · rintro ⟨-, -, -, rfl | ⟨-, none | small, -⟩⟩
      · rfl
      · exact absurd (own.1.mp none) nonempty
      · omega
    · rintro same
      obtain rfl := Option.some.inj same
      exact ⟨computeTreeIndex_lt nb, fun none => nonempty (own.1.mp none), by omega, Or.inl rfl⟩
  · rename_i absent
    have small : s.gm.treebins (computeTreeIndex nb) = 0 ∨
        s.sizeAt (s.gm.treebins (computeTreeIndex nb)) < nb := by
      by_cases empty : (h.tree (computeTreeIndex nb)).nodes = []
      · exact Or.inl (own.1.mpr empty)
      · right
        rw [own.2 empty]
        by_contra enough
        exact absent ⟨empty, Nat.le_of_not_lt enough⟩
    rw [Option.filter_eq_some_iff, decide_eq_true_eq]
    constructor
    · rintro ⟨bound, some, enough, rfl | ⟨above, -, between⟩⟩
      · rcases small with none | few
        · exact absurd none some
        · omega
      · have nonempty : (h.tree j).nodes ≠ [] := fun none => some ((roots j bound).mpr none)
        rw [(rep.root_cases bound).2 nonempty] at enough
        refine ⟨?_, enough⟩
        rw [Heap.nextTree, List.find?_range_eq_some]
        refine ⟨by simp [show computeTreeIndex nb + 1 ≤ j from above, nonempty],
          List.mem_range.mpr bound, fun k lower => ?_⟩
        by_cases later : computeTreeIndex nb < k
        · have none := (roots k (by omega)).mp (between k later lower)
          simp [none]
        · simp [show ¬ computeTreeIndex nb + 1 ≤ k by omega]
    · rintro ⟨next, enough⟩
      obtain ⟨bound, above, nonempty, before⟩ := nextTree_some next
      refine ⟨bound, fun none => nonempty ((roots j bound).mp none), ?_, Or.inr ⟨above, small, ?_⟩⟩
      · rw [(rep.root_cases bound).2 nonempty]
        exact enough
      · exact fun k later lower => (roots k (by omega)).mpr (before k lower later)

/-- A served bin's remainder is refused by the tree bin it belongs to, or not at all. -/
theorem serveBin_refused (rep : Represents first stop limit s h [])
    (many : ¬ bytes ≤ maxSmallRequest)
    (free : FreeAt h.top h.blocks p size) {b n : Block} :
    h.serveBin bytes p size b n = .corrupted ↔
      h.Crowded p p (size - paddedRequest bytes) := by
  have nodes := unlink_nodes (fun i => (rep.tree.bin i).nodup) (rep.node_place free)
  rw [Heap.serveBin]
  simp only [Heap.keepRest, if_neg many]
  have refused : ((h.unlink p size).split b n (paddedRequest bytes)).link
      (p + paddedRequest bytes) (size - paddedRequest bytes) = none ↔
        h.Crowded p p (size - paddedRequest bytes) := by
    rw [link_none]
    generalize size - paddedRequest bytes = r
    show 256 ≤ r ∧ ((h.unlink p size).tree _).nodes ≠ [] ∧ ((h.unlink p size).tree _).size ≠ r ↔ _
    rw [(nodes _).2.2, Heap.Crowded]
    refine and_congr_right fun _ => ?_
    rw [and_comm]
    refine and_congr_right fun _ => ?_
    constructor
    · intro some
      obtain ⟨z, member⟩ := List.exists_mem_of_ne_nil _ some
      obtain ⟨inBin, differ⟩ := ((nodes _).2.1 z).mp member
      exact ⟨z, inBin, differ, differ⟩
    · rintro ⟨z, inBin, differ, -⟩
      exact List.ne_nil_of_mem (((nodes _).2.1 z).mpr ⟨inBin, differ⟩)
  split
  · rename_i few
    simp only [reduceCtorEq, false_iff]
    rintro ⟨enough, -⟩
    omega
  · rw [← refused]
    split
    · rename_i kept
      simp [kept]
    · rename_i none
      simp [none]

/-- What a pick of a free block finds behind it. -/
theorem serve_bin (rep : Represents first stop limit s h []) (free : FreeAt h.top h.blocks p size)
    (bytes : Nat) : ∃ b n, h.serve bytes (.bin p size) = h.serveBin bytes p size b n := by
  obtain ⟨below, b, n, above, -, -, -, -, atB, atN⟩ := rep.successor free
  exact ⟨b, n, by simp only [Heap.serve, atB, atN]⟩

/-- dv and top are split or handed out, with nothing to file. -/
theorem rest_served (rep : Represents first stop limit s h []) (bytes nb : Nat)
    (some : nb ≤ h.dvsize → h.dv ≠ 0) : h.serve bytes (h.pickRest nb) ≠ .corrupted := by
  rcases pickRest_cases h nb with ⟨fits, pick⟩ | ⟨-, -, pick⟩ | ⟨-, -, pick⟩
  · obtain ⟨below, b, n, above, -, -, -, -, atB, atN⟩ :=
      rep.successor (rep.filed.dvFree (some fits))
    rw [pick]
    simp [Heap.serve, atB, atN]
  · obtain ⟨t, inTop, atTop, -⟩ := rep.layout.topBlock
    have found := rep.layout.blockAt_eq rfl inTop
    rw [atTop] at found
    rw [pick]
    simp [Heap.serve, found]
  · rw [pick]
    simp [Heap.serve]

theorem dv_some (rep : Represents first stop limit s h [])
    (fits : paddedRequest bytes ≤ h.dvsize) : h.dv ≠ 0 := by
  intro none
  have := rep.filed.dvNone.mp none
  have := paddedRequest_proper bytes
  omega

/-- Small requests are never refused: their remainder becomes dv, and the old dv is small. -/
theorem small_served (rep : Represents first stop limit s h []) (few : bytes ≤ maxSmallRequest) :
    h.alloc bytes ≠ .corrupted := by
  obtain ⟨-, most, -, -⟩ := paddedRequest_small few
  have kept : ∀ p size, FreeAt h.top h.blocks p size → size = paddedRequest bytes ∨
      h.dvsize < paddedRequest bytes → h.serve bytes (.bin p size) ≠ .corrupted := by
    intro p size free remainder
    obtain ⟨b, n, same⟩ := rep.serve_bin free bytes
    rw [same, Heap.serveBin]
    split
    · simp
    · rename_i many
      have below : h.dvsize < 256 := by omega
      obtain ⟨-, -, dv, dvsize⟩ := unlink_blocks h p size
      have filed : ((h.unlink p size).split b n (paddedRequest bytes)).fileDv ≠ none := by
        show (if (h.unlink p size).dvsize = 0 then _ else
          Heap.link _ (h.unlink p size).dv (h.unlink p size).dvsize) ≠ none
        split
        · simp
        · rw [ne_eq, link_none, dvsize]
          omega
      obtain ⟨h', found⟩ := Option.ne_none_iff_exists'.mp filed
      simp [Heap.keepRest, if_pos few, found]
  have rest := rep.rest_served bytes (paddedRequest bytes) rep.dv_some
  rw [Heap.alloc, Heap.pick, if_pos few]
  unfold Heap.pickSmall
  split
  · rename_i p tail shape
    have member : p ∈ h.small (paddedRequest bytes / 8) := by simp [shape]
    obtain ⟨least, -, multiple, -⟩ := paddedRequest_small few
    have free := (rep.small.member _ p member).2
    rw [show 8 * (paddedRequest bytes / 8) = paddedRequest bytes by omega] at free
    exact kept _ _ free (Or.inl rfl)
  · split
    · rename_i fits
      have dv := rest
      rwa [Heap.pickRest, if_pos fits] at dv
    · rename_i small
      split
      · rename_i i next
        obtain ⟨-, -, nonempty, -⟩ := nextSmall_some next
        obtain ⟨q, tail, shape⟩ := List.exists_cons_of_ne_nil nonempty
        rw [shape, List.headD_cons]
        exact kept _ _ (rep.small.member i q (by simp [shape])).2 (Or.inr (by omega))
      · split
        · rename_i i next
          have tree := (rep.pickTree_fits (nextTree_some next).2.2.1 rfl).1
          exact kept _ _ tree (Or.inr (by omega))
        · exact rest

theorem alloc_refused (rep : Represents first stop limit s h []) :
    h.alloc bytes = .corrupted ↔ maxSmallRequest < bytes ∧ bytes < maxRequest ∧
      ∃ j, h.largeFit (paddedRequest bytes) = some j ∧
        ((h.tree j).size < h.dvsize ∨ h.dvsize < paddedRequest bytes) ∧
          h.Crowded ((h.tree j).nodes.headD 0) ((h.tree j).nodes.headD 0)
            ((h.tree j).size - paddedRequest bytes) := by
  have rest := rep.rest_served bytes (paddedRequest bytes) rep.dv_some
  by_cases few : bytes ≤ maxSmallRequest
  · constructor
    · intro refused
      exact absurd refused (rep.small_served few)
    · rintro ⟨many, -⟩
      exact absurd few (Nat.not_le_of_lt many)
  · rw [Heap.alloc, Heap.pick, if_neg few]
    by_cases huge : bytes ≥ maxRequest
    · rw [if_pos huge]
      constructor
      · intro refused
        exact absurd refused rest
      · rintro ⟨-, proper, -⟩
        exact absurd huge (Nat.not_le_of_lt proper)
    · rw [if_neg huge, Heap.pickLarge]
      have many : maxSmallRequest < bytes := Nat.lt_of_not_le few
      have proper : bytes < maxRequest := Nat.lt_of_not_le huge
      cases fit : h.largeFit (paddedRequest bytes) with
      | none => simp [rest]
      | some j =>
          obtain ⟨-, nonempty⟩ := largeFit_some fit
          have free := (rep.pickTree_fits nonempty rfl).1
          obtain ⟨b, n, same⟩ := rep.serve_bin free bytes
          simp only [many, proper, true_and, Option.some.injEq, exists_eq_left']
          by_cases better : (h.tree j).size < h.dvsize ∨ h.dvsize < paddedRequest bytes
          · rw [if_pos better, Heap.pickTree, same, rep.serveBin_refused few free]
            simp [better]
          · rw [if_neg better]
            simp [better, rest]

end Represents

end Refusals

section Reached

variable {setup : Setup} {w : World} {call : Call} {s' : Store} {h : Heap}

/-- In a running world a call throws exactly where the heap refuses. -/
theorem Runs.throws_iff (runs : Runs setup w h) (permitted : w.permits call) :
    (∃ s', call.Throws w.store s') ↔ h.answer call = .corrupted := by
  have obeys := runs.obeys permitted
  cases answered : h.answer call with
  | served value h' =>
      rw [answered] at obeys
      obtain ⟨s', ran, -⟩ := obeys
      have ends := call.outcomes w.store (ran 3 (Nat.le_refl 3)) Call.ok_ends
      refine ⟨?_, fun never => by cases never⟩
      rintro ⟨s'', threw⟩
      cases (ends.2.1 s'').mp threw
  | corrupted =>
      rw [answered] at obeys
      obtain ⟨s', ran, -⟩ := obeys
      exact ⟨fun _ => rfl, fun _ => ⟨s', 3, ran 3 (Nat.le_refl 3)⟩⟩
  | expand =>
      rw [answered] at obeys
      refine ⟨?_, fun never => by cases never⟩
      rintro ⟨s'', threw⟩
      exact absurd threw (obeys.only.2.1 s'')

theorem Runs.fileable_iff (runs : Runs setup w h) (topFree : TopFree setup.stop)
    (permitted : w.permits call) : h.answer call = .corrupted ↔ ¬ w.store.Fileable call := by
  have rep := runs.rep
  cases call with
  | alloc bytes =>
      rw [Heap.answer, rep.alloc_refused]
      simp only [Store.Fileable, not_forall, not_not, exists_prop]
      refine and_congr_right fun _ => and_congr_right fun _ => exists_congr fun j => ?_
      rw [rep.largeBin_iff]
      refine and_congr_right fun fit => ?_
      have nonempty := (largeFit_some fit).2
      obtain ⟨r, inBin⟩ := List.exists_mem_of_ne_nil _ nonempty
      have bound := rep.tree.index_lt inBin
      rw [(rep.root_cases bound).2 nonempty, rep.tree.root j bound, rep.crowded_iff, rep.dvsize]
  | free mem =>
      obtain ⟨⟨_, bytes⟩, member, rfl⟩ := List.mem_map.mp permitted
      obtain ⟨a, k, rfl, back, used, -⟩ := runs.pointer member
      obtain ⟨below, mid, above, b, n, low, size, freeing, rfl, rfl⟩ := rep.freeing used
      have inN : n ∈ h.blocks := by simp [freeing.shape]
      obtain ⟨step, start, finish, whole, -, -, -, -, atTop⟩ :=
        freeing.front.ends rep topFree freeing.shape freeing.member freeing.next
      have total : low + size + (if n.cinuse then 0 else n.size) - low =
          size + if n.cinuse then 0 else n.size := by
        rw [Nat.add_assoc, Nat.add_sub_cancel_left]
      -- top is free, so the flag of the successor adds nothing to the test
      have away : n.cinuse = true ∨ n.addr ≠ h.top ↔ n.addr ≠ h.top := by
        refine ⟨?_, Or.inr⟩
        rintro (inuse | notTop) isTop
        · rw [(atTop isTop).1] at inuse
          cases inuse
        · exact notTop isTop
      have notDv : n.cinuse = true ∨ n.addr ≠ h.dv ↔ n.addr ≠ h.dv := by
        refine ⟨?_, Or.inr⟩
        rintro (inuse | differ) isDv
        · have positive := rep.layout.positive
          have bounds := (rep.layout.bounds inN).1
          obtain ⟨-, c, inC, here, -, unused⟩ := rep.filed.dvFree (show h.dv ≠ 0 by omega)
          rw [rep.layout.addr_inj inC inN (here.trans isDv.symm), inuse] at unused
          cases unused
        · exact differ isDv
      have refused := rep.free_refused freeing
      rw [away, notDv] at refused
      rw [Heap.answer, Nat.add_sub_cancel]
      simp only [Store.Fileable, not_forall, not_not, exists_prop]
      rw [back, step, start, finish, total, rep.top, rep.dv, rep.crowded_iff, ← refused]
      cases h.free b.addr <;> simp
  | expand => simp [Heap.answer, Store.Fileable]

theorem Fresh.fileable (fresh : Fresh setup w) (clean : Clean setup.raw)
    (permitted : w.permits call) : w.store.Fileable call := by
  have unfiled : Unfiled w.store.gm := fresh.gm ▸ clean.toUnfiled
  cases call with
  | alloc bytes => exact fun _ _ j bin => absurd (unfiled.treebins j bin.1) bin.2.1
  | free mem => simp [World.permits, fresh.none] at permitted
  | expand => trivial

/-- Nothing throws while the heap is still to be set up. -/
theorem Fresh.no_throw (fresh : Fresh setup w) (holds : setup.Holds) (clean : Clean setup.raw)
    (permitted : w.permits call) : ¬ call.Throws w.store s' := by
  -- initialising either succeeds or faults at the foot's word
  have opens : ∀ {s stop}, initOrExpand w.store = .error stop s → stop = .fault := by
    intro s stop ran
    have site := fresh.site holds clean.top
    by_cases spill : w.store.mem.accessible (setup.tbase + setup.increasingSize) 8 = true
    · obtain ⟨m', done, -⟩ := initOrExpand_fresh site spill
      rw [ran] at done
      cases done
    · obtain ⟨s'', done⟩ := initOrExpand_fault site spill
      rw [ran] at done
      exact (EStateM.Result.error.inj done).1
  rintro ⟨fuel, ran⟩
  cases call with
  | alloc bytes =>
      cases fuel with
      | zero => cases ran
      | succ fuel =>
          rw [alloc_clean (fresh.gm ▸ clean), Fuelled.bind_run] at ran
          cases opened : initOrExpand w.store with
          | error stop s =>
              rw [opened] at ran
              obtain ⟨rfl, -⟩ := EStateM.Result.error.inj ran
              cases opens opened
          | ok _ s =>
              rw [opened] at ran
              have threw : (Call.alloc bytes).Throws s s' := ⟨fuel, ran⟩
              obtain ⟨-, ⟨-, rep⟩ | ⟨-, narrow⟩⟩ := fresh.opened holds clean opened
              · have runs : Runs setup ⟨s, []⟩ (Heap.init setup.first setup.stop) :=
                  ⟨rep, tracked_init _ _⟩
                have permitted : World.permits ⟨s, []⟩ (.alloc bytes) := trivial
                obtain ⟨-, -, j, fit, -⟩ :=
                  rep.alloc_refused.mp ((runs.throws_iff permitted).mp ⟨s', threw⟩)
                exact (largeFit_some fit).2 rfl
              · exact (narrow.alloc_diverges bytes).only.2.1 s' threw
  | free mem => simp [World.permits, fresh.none] at permitted
  | expand =>
      rw [Call.run, Fuelled.bind_run] at ran
      cases opened : initOrExpand w.store with
      | error stop s =>
          rw [opened] at ran
          obtain ⟨rfl, -⟩ := EStateM.Result.error.inj ran
          cases opens opened
      | ok _ s =>
          rw [opened] at ran
          cases ran

/-- A call throws exactly where what it has to file meets another size in its tree bin. -/
theorem reached_throws_iff (zeroed : Zeroed setup.raw) (aligned : setup.Aligned)
    {events : List Event} (run : setup.Reaches events w) (permitted : w.permits call) :
    (¬ ∃ s', call.Throws w.store s') ↔ w.store.Fileable call := by
  rcases run.either zeroed aligned with fresh | ⟨h, runs⟩
  · exact iff_of_true
      (fun ⟨s', threw⟩ => fresh.no_throw aligned.bounds.1 zeroed.toClean permitted threw)
      (fresh.fileable zeroed.toClean permitted)
  · rw [runs.throws_iff permitted, runs.fileable_iff aligned.bounds.2.2 permitted, not_not]

/-- The calls of the two-sizes run, and its last Free. -/
theorem twoSizes_refused :
    ((Heap.init 4096 (4096 + 4096 - 8)).replay []
      [.alloc 500, .alloc 10, .alloc 520, .alloc 10, .free 4128]).map
        (fun found => (found.2, (found.1.answer (.free 4672)).ending)) =
      some ([(5200, 10), (4672, 520), (4640, 10)], .throws) := by decide

/-- Two freed chunks of 512 and 528 bytes belong to one tree bin: the second Free throws. -/
theorem reached_throws : ∃ events w, (Setup.sample 4096 (by decide)).Reaches events w ∧
    events.map Event.asked =
      [Call.alloc 500, .alloc 10, .alloc 520, .alloc 10, .free 4128].map some ∧
    w.permits (.free 4672) ∧ ∃ s', (Call.free 4672).Throws w.store s' := by
  obtain ⟨events, w, h, run, -, live, threw, -, happened⟩ :=
    Setup.sample_asks (by decide) (by decide) (by decide) _ _ twoSizes_refused
      fun s => by simp [World.permits]
  exact ⟨events, w, run, happened, by simp [World.permits, live], threw⟩

/-- There the freed chunk could be filed before its neighbour in size was. -/
theorem reached_throws_iff_sample : ∃ w : World, w.live = [(4672, 520), (4640, 10), (4128, 500)] ∧
    ((¬ ∃ s', (Call.free 4128).Throws w.store s') ↔ w.store.Fileable (.free 4128)) := by
  have replayed : ((Heap.init 4096 (4096 + 4096 - 8)).replay []
      [.alloc 500, .alloc 10, .alloc 520]).map Prod.snd =
      some [(4672, 520), (4640, 10), (4128, 500)] := by decide
  obtain ⟨events, w, h, run, -, live, -⟩ :=
    Setup.sample_replays (by decide) (by decide) (by decide) _ replayed
  exact ⟨w, live, reached_throws_iff (Setup.sample_zeroed 4096 (by decide))
    (Setup.sample_regular (by decide) (by decide) (by decide)).aligned run
    (by simp [World.permits, live])⟩

/-- Heads are bookkeeping. -/
theorem Store.Unchanged.head {s : Store} {first p : Nat} (same : s.Unchanged first s')
    (chunk : s.IsChunk first p) : s'.headAt p = s.headAt p :=
  load_congr _ _ _ _ fun x lower upper =>
    same.2 x (Or.inr (Or.inl ⟨p, chunk, lower, by omega⟩))

/-- A call that throws in a running world has already rewritten a head. -/
theorem Runs.head_changes (runs : Runs setup w h) (permitted : w.permits call)
    (threw : call.Throws w.store s') : ¬ w.store.Unchanged setup.first s' := by
  intro same
  have obeys := runs.obeys permitted
  rw [(runs.throws_iff permitted).mp ⟨s', threw⟩] at obeys
  obtain ⟨s'', ran, c, member, notTop, differs⟩ := obeys
  have ends := call.outcomes w.store (ran 3 (Nat.le_refl 3)) (Call.error_ends (by decide))
  obtain ⟨-, rfl⟩ := EStateM.Result.error.inj ((ends.2.1 s').mp threw)
  have head := same.head ((runs.rep.chunk_iff c.addr).mpr ⟨c, member, rfl⟩)
  have word := runs.rep.tags.head c member
  rw [Store.headAt, Store.headAt] at head
  exact differs (by rwa [head])

/-- No call that throws leaves things as they were. -/
theorem reached_throw_changes (zeroed : Zeroed setup.raw) (holds : setup.Holds)
    {events : List Event} (run : setup.Reaches events w) (permitted : w.permits call)
    (threw : call.Throws w.store s') : ¬ w.store.Unchanged setup.first s' := by
  have phase := run.phase holds zeroed.toClean
  cases phase with
  | fresh fresh => exact absurd threw (fresh.no_throw holds zeroed.toClean permitted)
  | running h runs => exact runs.head_changes permitted threw
  | narrow _ narrow none =>
      cases call with
      | alloc bytes => exact absurd threw ((narrow.alloc_diverges bytes).only.2.1 s')
      | free mem => simp [World.permits, none] at permitted
      | expand =>
          obtain ⟨fuel, ran⟩ := threw
          rw [Call.run, Fuelled.bind_run, initOrExpand_again narrow.present] at ran
          cases ran

/-- The Free that throws has rewritten heads by then. -/
theorem throw_changes : ∃ events w s', (Setup.sample 4096 (by decide)).Reaches events w ∧
    events.map Event.asked =
      [Call.alloc 500, .alloc 10, .alloc 520, .alloc 10, .free 4128].map some ∧
    w.permits (.free 4672) ∧ (Call.free 4672).Throws w.store s' ∧ ¬ w.store.Unchanged 4096 s' := by
  have least : 64 ≤ 4096 := by decide
  have aligned := (Setup.sample_regular (by decide) (by decide) least).aligned
  obtain ⟨events, w, h, run, runs, live, ⟨s', threw⟩, -, happened⟩ :=
    Setup.sample_asks (by decide) (by decide) least _ _ twoSizes_refused
      fun s => by simp [World.permits]
  have permitted : w.permits (.free 4672) := by simp [World.permits, live]
  have changed := runs.head_changes permitted threw
  rw [aligned.first_eq] at changed
  exact ⟨events, w, s', run, happened, permitted, threw, changed⟩

/-- There the freed chunk's neighbours were in use. -/
theorem reached_throw_changes_sample : ∃ w : World, w.live = [(5200, 10), (4672, 520), (4640, 10)] ∧
    ∃ s', (Call.free 4672).Throws w.store s' ∧ ¬ w.store.Unchanged 4096 s' := by
  have least : 64 ≤ 4096 := by decide
  have aligned := (Setup.sample_regular (by decide) (by decide) least).aligned
  obtain ⟨events, w, h, run, runs, live, ⟨s', threw⟩, -⟩ :=
    Setup.sample_asks (by decide) (by decide) least _ _ twoSizes_refused
      fun s => by simp [World.permits]
  have changed := reached_throw_changes (Setup.sample_zeroed 4096 (by decide)) aligned.bounds.1 run
    (by simp [World.permits, live]) threw
  rw [aligned.first_eq] at changed
  exact ⟨w, live, s', threw, changed⟩

end Reached

end Unimem
