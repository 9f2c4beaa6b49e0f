import Unimem.TreeIndex
import Unimem.FreeStore

/-!
Which free chunk an entry of Alloc takes. The policy is stated on the set of
free chunks alone, with no bins, bitmaps or trees; an entry of Alloc follows it,
and goes to InitOrExpand only where no chunk is large enough.
-/

namespace Unimem

open ByteMemory Memory MallocState

/-- The free chunks, by address and size: those in bins, dv and top. -/
structure FreeSpace where
  binned : Nat → Nat → Prop
  dv : Nat
  dvsize : Nat
  top : Nat
  topsize : Nat

namespace FreeSpace

def NoneFits (f : FreeSpace) (nb : Nat) : Prop := ∀ q size, f.binned q size → size < nb

def Exhausted (f : FreeSpace) (nb : Nat) : Prop := f.NoneFits nb ∧ f.dvsize < nb ∧ f.topsize ≤ nb

/-- The chunk a small request is served from. -/
inductive SmallChoice (f : FreeSpace) (nb : Nat) : Option Nat → Prop
  | exact {p : Nat} : f.binned p nb → SmallChoice f nb (some p)
  | dv : (∀ q, ¬ f.binned q nb) → nb ≤ f.dvsize → SmallChoice f nb (some f.dv)
  | next {p size : Nat} : (∀ q, ¬ f.binned q nb) → f.dvsize < nb → f.binned p size → nb < size →
      (∀ q other, f.binned q other → nb < other → size ≤ other) → SmallChoice f nb (some p)
  | top : f.NoneFits nb → f.dvsize < nb → nb < f.topsize → SmallChoice f nb (some f.top)
  | expand : f.Exhausted nb → SmallChoice f nb none

/-- The chunk a larger request is served from. -/
inductive LargeChoice (f : FreeSpace) (nb : Nat) : Option Nat → Prop
  | tree {p size : Nat} : f.binned p size → nb ≤ size →
      (∀ q other, f.binned q other → nb ≤ other → size ≤ other) →
      size < f.dvsize ∨ f.dvsize < nb → LargeChoice f nb (some p)
  | dv : (∀ q size, f.binned q size → nb ≤ size → f.dvsize ≤ size) → nb ≤ f.dvsize →
      LargeChoice f nb (some f.dv)
  | top : f.NoneFits nb → f.dvsize < nb → nb < f.topsize → LargeChoice f nb (some f.top)
  | expand : f.Exhausted nb → LargeChoice f nb none

end FreeSpace

open FreeSpace

def Store.freeSpace (s : Store) (first : Nat) : FreeSpace where
  binned p size := s.FreeChunk first p size ∧ s.Binned p
  dv := s.gm.dv
  dvsize := s.gm.dvsize
  top := s.gm.top
  topsize := s.gm.topsize

/-- The chunk a pick names. -/
def Heap.chosen (h : Heap) : Heap.Pick → Option Nat
  | .bin p _ => some p
  | .dv => some h.dv
  | .top => some h.top
  | .expand => none

section Policy

variable {first stop limit bytes nb i j p size : Nat} {s : Store} {h : Heap}

theorem serve_chosen {pick : Heap.Pick} {mem : Nat} {h' : Heap}
    (served : h.serve bytes pick = .served mem h') :
    ∃ p, h.chosen pick = some p ∧ mem = p + 32 := by
  cases pick with
  | bin p size =>
      simp only [Heap.serve] at served
      split at served
      · rw [Heap.serveBin] at served
        split at served
        · exact ⟨p, rfl, (Heap.Reply.served.inj served).1.symm⟩
        · split at served
          · exact ⟨p, rfl, (Heap.Reply.served.inj served).1.symm⟩
          · cases served
      · cases served
  | dv =>
      simp only [Heap.serve] at served
      split at served
      · exact ⟨h.dv, rfl, (Heap.Reply.served.inj served).1.symm⟩
      · cases served
  | top =>
      simp only [Heap.serve] at served
      split at served
      · exact ⟨h.top, rfl, (Heap.Reply.served.inj served).1.symm⟩
      · cases served
  | expand => cases served

theorem serve_expand {pick : Heap.Pick} (expands : h.serve bytes pick = .expand) :
    pick = .expand := by
  cases pick with
  | bin p size =>
      simp only [Heap.serve, Heap.serveBin] at expands
      split at expands
      · split at expands
        · cases expands
        · split at expands <;> cases expands
      · cases expands
  | dv =>
      simp only [Heap.serve] at expands
      split at expands <;> cases expands
  | top =>
      simp only [Heap.serve] at expands
      split at expands <;> cases expands
  | expand => rfl

namespace Represents

theorem topsize_eq (rep : Represents first stop limit s h []) : s.gm.topsize = h.topsize := by
  have one := rep.topsize
  have two := rep.layout.topsize_eq rfl rfl
  omega

/-- The binned chunks, bin by bin. -/
theorem binned_cases (rep : Represents first stop limit s h []) :
    (s.freeSpace first).binned p size ↔
      (∃ i < 32, p ∈ h.small i ∧ size = 8 * i) ∨
        ∃ i < 32, p ∈ (h.tree i).nodes ∧ size = (h.tree i).size := by
  constructor
  · rintro ⟨free, binned⟩
    have freeAt := (rep.freeChunk_iff p size).mp free
    obtain ⟨i, inSmall | inTree⟩ := (rep.binned_words p).mp binned
    · obtain ⟨bound, free'⟩ := rep.small.member i p inSmall
      exact Or.inl ⟨i, bound, inSmall, FreeAt.unique rep.layout freeAt free'⟩
    · exact Or.inr ⟨i, rep.tree.index_lt inTree, inTree,
        FreeAt.unique rep.layout freeAt ((rep.tree.bin i).member p inTree)⟩
  · rintro (⟨i, -, member, rfl⟩ | ⟨i, -, member, rfl⟩)
    · exact ⟨(rep.freeChunk_iff p _).mpr (rep.small.member i p member).2,
        (rep.binned_words p).mpr ⟨i, Or.inl member⟩⟩
    · exact ⟨(rep.freeChunk_iff p _).mpr ((rep.tree.bin i).member p member),
        (rep.binned_words p).mpr ⟨i, Or.inr member⟩⟩

theorem tree_sized (rep : Represents first stop limit s h []) (member : p ∈ (h.tree i).nodes) :
    256 ≤ (h.tree i).size ∧ computeTreeIndex (h.tree i).size = i ∧ i < 32 ∧
      (h.tree i).size ≤ stop - first := by
  obtain ⟨large, index⟩ := (rep.tree.bin i).sized (List.ne_nil_of_mem member)
  have inside := ((rep.tree.bin i).member p member).geometry rep.layout
  exact ⟨large, index, rep.tree.index_lt member, by omega⟩

theorem small_sized (rep : Represents first stop limit s h []) (member : p ∈ h.small i) :
    32 ≤ 8 * i ∧ 8 * i % 16 = 0 ∧ 8 * i < 256 := by
  obtain ⟨bound, free⟩ := rep.small.member i p member
  have inside := free.geometry rep.layout
  omega

/-- Bins further up hold larger sizes. -/
theorem tree_ordered (rep : Represents first stop limit s h []) (short : stop - first < 2 ^ 40)
    {q : Nat} (inI : p ∈ (h.tree i).nodes) (inJ : q ∈ (h.tree j).nodes) (later : i < j) :
    (h.tree i).size < (h.tree j).size := by
  obtain ⟨-, indexI, -, fitsI⟩ := rep.tree_sized inI
  obtain ⟨largeJ, indexJ, -, -⟩ := rep.tree_sized inJ
  by_contra order
  have mono := computeTreeIndex_mono largeJ (Nat.le_of_not_lt order) (by omega)
  omega

/-- Only the small bin of a size holds exact fits. -/
theorem noExact_of_empty (rep : Represents first stop limit s h []) (few : nb < 256)
    (own : h.small (nb / 8) = []) (q : Nat) : ¬ (s.freeSpace first).binned q nb := by
  intro binned
  rcases rep.binned_cases.mp binned with ⟨i, -, member, same⟩ | ⟨i, -, member, same⟩
  · rw [show i = nb / 8 by omega, own] at member
    cases member
  · have := (rep.tree_sized member).1
    omega

/-- Nothing fits where neither the bin of the size nor a later one is in use. -/
theorem noneFits_of_empty (rep : Represents first stop limit s h []) (own : h.small (nb / 8) = [])
    (noSmall : h.nextSmall (nb / 8) = none) (noTree : h.nextTree 0 = none) :
    (s.freeSpace first).NoneFits nb := by
  intro q size binned
  by_contra bigger
  rcases rep.binned_cases.mp binned with ⟨k, bound, member, rfl⟩ | ⟨k, bound, member, rfl⟩
  · by_cases here : nb / 8 = k
    · rw [← here, own] at member
      cases member
    · rw [nextSmall_none.mp noSmall k bound (by omega)] at member
      cases member
  · rw [nextTree_none.mp noTree k bound (Nat.zero_le k)] at member
    cases member

theorem rest_chosen (rep : Represents first stop limit s h [])
    (none : (s.freeSpace first).NoneFits nb) (few : h.dvsize < nb) :
    (nb < s.gm.topsize ∧ h.chosen (h.pickRest nb) = some s.gm.top) ∨
      ((s.freeSpace first).Exhausted nb ∧ h.pickRest nb = .expand) := by
  rcases pickRest_cases h nb with ⟨fits, -⟩ | ⟨-, fits, pick⟩ | ⟨-, full, pick⟩
  · omega
  · exact Or.inl ⟨by rw [rep.topsize_eq]; exact fits, by rw [pick, rep.top]; rfl⟩
  · refine Or.inr ⟨⟨none, ?_, ?_⟩, pick⟩
    · show s.gm.dvsize < nb
      rw [rep.dvsize]
      exact few
    · show s.gm.topsize ≤ nb
      rw [rep.topsize_eq]
      exact full

theorem pick_smallChoice (rep : Represents first stop limit s h []) (short : stop - first < 2 ^ 40)
    (few : bytes ≤ maxSmallRequest) :
    SmallChoice (s.freeSpace first) (paddedRequest bytes) (h.chosen (h.pick bytes)) := by
  obtain ⟨least, most, multiple, -⟩ := paddedRequest_small few
  rw [Heap.pick, if_pos few]
  generalize paddedRequest bytes = nb at least most multiple
  have dvsize := rep.dvsize
  unfold Heap.pickSmall
  split
  · rename_i p tail shape
    refine SmallChoice.exact (rep.binned_cases.mpr (Or.inl ⟨nb / 8, by omega, by simp [shape], ?_⟩))
    omega
  · rename_i empty
    have inexact := rep.noExact_of_empty (show nb < 256 by omega) empty
    split
    · rename_i enough
      rw [Heap.chosen, ← rep.dv]
      exact SmallChoice.dv inexact (show nb ≤ s.gm.dvsize by omega)
    · rename_i small
      have below : s.gm.dvsize < nb := by omega
      split
      · rename_i i next
        obtain ⟨later, bound, nonempty, before⟩ := nextSmall_some next
        obtain ⟨q, tail, shape⟩ := List.exists_cons_of_ne_nil nonempty
        rw [shape, List.headD_cons]
        have picked : (s.freeSpace first).binned q (8 * i) :=
          rep.binned_cases.mpr (Or.inl ⟨i, bound, by simp [shape], rfl⟩)
        refine SmallChoice.next inexact below picked (by omega) ?_
        intro r other binned bigger
        -- a smaller fit would sit in a bin the map reports empty
        rcases rep.binned_cases.mp binned with ⟨k, -, member, rfl⟩ | ⟨k, -, member, rfl⟩
        · by_contra smaller
          have := before k (by omega) (by omega)
          rw [this] at member
          cases member
        · have := (rep.tree_sized member).1
          omega
      · rename_i noSmall
        split
        · rename_i i next
          obtain ⟨bound, -, nonempty, before⟩ := nextTree_some next
          obtain ⟨q, tail, shape⟩ := List.exists_cons_of_ne_nil nonempty
          have inI : q ∈ (h.tree i).nodes := by simp [shape]
          have large := (rep.tree_sized inI).1
          rw [Heap.pickTree, shape, List.headD_cons]
          have picked : (s.freeSpace first).binned q (h.tree i).size :=
            rep.binned_cases.mpr (Or.inr ⟨i, bound, inI, rfl⟩)
          refine SmallChoice.next inexact below picked (by omega) ?_
          intro r other binned bigger
          rcases rep.binned_cases.mp binned with ⟨k, few, member, rfl⟩ | ⟨k, -, member, rfl⟩
          · rw [nextSmall_none.mp noSmall k few (by omega)] at member
            cases member
          -- sizes grow with the tree index
          · rcases Nat.lt_trichotomy i k with later | rfl | earlier
            · exact Nat.le_of_lt (rep.tree_ordered short inI member later)
            · exact Nat.le_refl _
            · rw [before k earlier (Nat.zero_le k)] at member
              cases member
        · rename_i noTree
          have none := rep.noneFits_of_empty empty noSmall noTree
          rcases rep.rest_chosen none (by omega) with ⟨fits, chosen⟩ | ⟨exhausted, pick⟩
          · rw [chosen]
            exact SmallChoice.top none below fits
          · rw [pick]
            exact SmallChoice.expand exhausted

/-- The bin the search settles on holds a smallest fitting chunk. -/
theorem largeFit_least (rep : Represents first stop limit s h []) (short : stop - first < 2 ^ 40)
    (large : 256 ≤ nb) :
    (∀ i, h.largeFit nb = some i → ∀ q other, (s.freeSpace first).binned q other → nb ≤ other →
      (h.tree i).size ≤ other) ∧ (h.largeFit nb = none → (s.freeSpace first).NoneFits nb) := by
  -- a binned chunk that fits lies in a tree bin from the bin of `nb` on
  have fitting : ∀ q other, (s.freeSpace first).binned q other → nb ≤ other →
      ∃ k < 32, q ∈ (h.tree k).nodes ∧ other = (h.tree k).size ∧ computeTreeIndex nb ≤ k := by
    intro q other binned bigger
    rcases rep.binned_cases.mp binned with ⟨k, -, member, rfl⟩ | ⟨k, bound, member, rfl⟩
    · have := rep.small_sized member
      omega
    · obtain ⟨-, index, -, fits⟩ := rep.tree_sized member
      have mono := computeTreeIndex_mono large bigger (by omega)
      exact ⟨k, bound, member, rfl, by omega⟩
  unfold Heap.largeFit
  simp only
  split
  · rename_i here
    obtain ⟨nonempty, enough⟩ := here
    obtain ⟨r, inBin⟩ := List.exists_mem_of_ne_nil _ nonempty
    refine ⟨fun i same q other binned bigger => ?_, fun none => by cases none⟩
    obtain rfl := Option.some.inj same
    obtain ⟨k, -, member, rfl, from_⟩ := fitting q other binned bigger
    rcases Nat.lt_or_eq_of_le from_ with later | rfl
    · exact Nat.le_of_lt (rep.tree_ordered short inBin member later)
    · exact Nat.le_refl _
  · rename_i absent
    have beyond : ∀ q other, (s.freeSpace first).binned q other → nb ≤ other →
        ∃ k < 32, q ∈ (h.tree k).nodes ∧ other = (h.tree k).size ∧ computeTreeIndex nb < k := by
      intro q other binned bigger
      obtain ⟨k, bound, member, rfl, from_⟩ := fitting q other binned bigger
      refine ⟨k, bound, member, rfl, Nat.lt_of_le_of_ne from_ ?_⟩
      rintro rfl
      exact absent ⟨List.ne_nil_of_mem member, bigger⟩
    constructor
    · intro i fit q other binned bigger
      obtain ⟨next, -⟩ := Option.filter_eq_some_iff.mp fit
      obtain ⟨-, -, nonempty, before⟩ := nextTree_some next
      obtain ⟨r, inI⟩ := List.exists_mem_of_ne_nil _ nonempty
      obtain ⟨k, -, member, rfl, from_⟩ := beyond q other binned bigger
      rcases Nat.lt_trichotomy i k with later | rfl | earlier
      · exact Nat.le_of_lt (rep.tree_ordered short inI member later)
      · exact Nat.le_refl _
      · rw [before k earlier from_] at member
        cases member
    · intro none q other binned
      by_contra bigger
      obtain ⟨k, bound, member, rfl, from_⟩ := beyond q other binned (Nat.le_of_not_lt bigger)
      rw [Option.filter_eq_none_iff] at none
      cases next : h.nextTree (computeTreeIndex nb + 1) with
      | none =>
          rw [nextTree_none.mp next k bound from_] at member
          cases member
      | some i =>
          -- the next bin is above that of `nb`, so what it holds is larger than `nb`
          obtain ⟨-, above, nonempty, -⟩ := nextTree_some next
          obtain ⟨r, inI⟩ := List.exists_mem_of_ne_nil _ nonempty
          obtain ⟨large', index, -, -⟩ := rep.tree_sized inI
          have refused := none i next
          rw [decide_eq_true_eq] at refused
          have fits := (rep.tree_sized member).2.2.2
          have mono :=
            computeTreeIndex_mono large' (Nat.le_of_lt (Nat.lt_of_not_le refused)) (by omega)
          omega

theorem pick_largeChoice (rep : Represents first stop limit s h []) (short : stop - first < 2 ^ 40)
    (many : ¬ bytes ≤ maxSmallRequest) (proper : ¬ bytes ≥ maxRequest) :
    LargeChoice (s.freeSpace first) (paddedRequest bytes) (h.chosen (h.pick bytes)) := by
  have large := (paddedRequest_large many proper).1
  rw [Heap.pick, if_neg many, if_neg proper]
  generalize paddedRequest bytes = nb at large
  have dvsize := rep.dvsize
  obtain ⟨least, none⟩ := rep.largeFit_least short large
  unfold Heap.pickLarge
  split
  · rename_i i fit
    obtain ⟨enough, nonempty⟩ := largeFit_some fit
    obtain ⟨root, rest, shape⟩ := List.exists_cons_of_ne_nil nonempty
    have inI : root ∈ (h.tree i).nodes := by simp [shape]
    split
    · rename_i better
      rw [Heap.pickTree, shape, List.headD_cons]
      refine LargeChoice.tree (rep.binned_cases.mpr
        (Or.inr ⟨i, (rep.tree_sized inI).2.2.1, inI, rfl⟩)) enough (least i fit) ?_
      show (h.tree i).size < s.gm.dvsize ∨ s.gm.dvsize < nb
      omega
    · rename_i worse
      rw [Heap.pickRest, if_pos (by omega), Heap.chosen, ← rep.dv]
      refine LargeChoice.dv (fun q other binned bigger => ?_) (show nb ≤ s.gm.dvsize by omega)
      have smallest := least i fit q other binned bigger
      show s.gm.dvsize ≤ other
      omega
  · rename_i absent
    have noFit := none absent
    by_cases enough : nb ≤ h.dvsize
    · rw [Heap.pickRest, if_pos enough, Heap.chosen, ← rep.dv]
      refine LargeChoice.dv (fun q other binned bigger => ?_) (show nb ≤ s.gm.dvsize by omega)
      exact absurd (noFit q other binned) (Nat.not_lt_of_le bigger)
    · rcases rep.rest_chosen noFit (by omega) with ⟨fits, chosen⟩ | ⟨exhausted, pick⟩
      · rw [chosen]
        exact LargeChoice.top noFit (show s.gm.dvsize < nb by omega) fits
      · rw [pick]
        exact LargeChoice.expand exhausted

end Represents

end Policy

section Reached

variable {setup : Setup} {w : World} {bytes fuel nb : Nat} {choice : Option Nat} {s' : Store}
  {f : FreeSpace}

namespace FreeSpace

theorem SmallChoice.expand_iff (chosen : SmallChoice f nb choice) :
    choice = none ↔ f.Exhausted nb := by
  cases chosen with
  | exact fits => simpa using fun none : f.Exhausted nb => Nat.lt_irrefl _ (none.1 _ _ fits)
  | dv _ fits => simpa using fun none : f.Exhausted nb => Nat.not_lt_of_le fits none.2.1
  | next _ _ binned fits =>
      simpa using fun none : f.Exhausted nb => Nat.not_lt_of_lt fits (none.1 _ _ binned)
  | top _ _ fits => simpa using fun none : f.Exhausted nb => Nat.not_le_of_lt fits none.2.2
  | expand exhausted => simpa using exhausted

theorem LargeChoice.expand_iff (chosen : LargeChoice f nb choice) :
    choice = none ↔ f.Exhausted nb := by
  cases chosen with
  | tree binned fits =>
      simpa using fun none : f.Exhausted nb => Nat.not_lt_of_le fits (none.1 _ _ binned)
  | dv _ fits => simpa using fun none : f.Exhausted nb => Nat.not_lt_of_le fits none.2.1
  | top _ _ fits => simpa using fun none : f.Exhausted nb => Nat.not_le_of_lt fits none.2.2
  | expand exhausted => simpa using exhausted

end FreeSpace

/-- An entry of Alloc: the chunk it takes, by the policy for its request. -/
structure BestFit (f : FreeSpace) (bytes : Nat) (choice : Option Nat) : Prop where
  small : bytes ≤ maxSmallRequest → SmallChoice f (paddedRequest bytes) choice
  large : maxSmallRequest < bytes → bytes < maxRequest → LargeChoice f (paddedRequest bytes) choice
  expands : choice = none ↔ f.Exhausted (paddedRequest bytes)

theorem BestFit.of_exhausted (exhausted : f.Exhausted (paddedRequest bytes)) :
    BestFit f bytes none :=
  ⟨fun _ => SmallChoice.expand exhausted, fun _ _ => LargeChoice.expand exhausted,
    by simpa using exhausted⟩

theorem Runs.bestFit {h : Heap} (runs : Runs setup w h) (short : setup.increasingSize < 2 ^ 40)
    (entry : tryAlloc fuel bytes w.store = .ok choice s') :
    BestFit (w.store.freeSpace setup.first) bytes (choice.map mem2chunk) := by
  have rep := runs.rep
  have segment : setup.stop - setup.first < 2 ^ 40 := by
    rw [Setup.stop, Setup.first]
    omega
  have refines := rep.tryAlloc_refines bytes 0
  -- the answer does not depend on the fuel
  have same : ∀ {result}, tryAlloc 2 bytes w.store = result → Fuelled.Ends Stop.fuel result →
      result = .ok choice s' := by
    rintro result rfl ends
    exact ((tryAlloc_steady bytes).unique ends (entry ▸ Call.ok_ends)).trans entry
  have chosen : choice.map mem2chunk = h.chosen (h.pick bytes) := by
    cases reply : h.alloc bytes with
    | served mem h' =>
        rw [reply] at refines
        obtain ⟨q, k, at_, least, -, s₁, ran, rep', keeps⟩ := refines
        obtain ⟨rfl, -⟩ := EStateM.Result.ok.inj (same ran Call.ok_ends)
        obtain ⟨p, pick, rfl⟩ := serve_chosen reply
        obtain ⟨-, c, inNew, here, size, -⟩ := (keeps.used q k).mpr (Or.inr ⟨rfl, rfl⟩)
        have bounds := rep'.layout.bounds inNew
        have bound := rep'.layout.bound
        have proper := paddedRequest_proper bytes
        have distance : twoSizeTSizes = 32 := rfl
        simp only [Block.stop] at bounds
        rw [pick, Option.map_some, mem2chunk, distance,
          WordArith.sub64_of_le (by omega) (by omega), Nat.add_sub_cancel]
    | corrupted =>
        rw [reply] at refines
        obtain ⟨s₁, ran, -⟩ := refines
        cases same ran (Call.error_ends (by decide))
    | expand =>
        rw [reply] at refines
        obtain ⟨rfl, -⟩ := EStateM.Result.ok.inj (same refines Call.ok_ends)
        rw [serve_expand reply]
        rfl
  rw [chosen]
  by_cases few : bytes ≤ maxSmallRequest
  · have choose := rep.pick_smallChoice segment few
    exact ⟨fun _ => choose, fun many => absurd few (Nat.not_le_of_lt many), choose.expand_iff⟩
  · by_cases huge : bytes ≥ maxRequest
    · -- no chunk is as large as MAX_SIZE_T
      have padded := paddedRequest_huge huge
      have bound := rep.layout.bound
      have fits := rep.filed
      have none : (w.store.freeSpace setup.first).Exhausted (paddedRequest bytes) := by
        refine ⟨fun q size binned => ?_, ?_, ?_⟩
        · have inside := ((rep.freeChunk_iff q size).mp binned.1).geometry rep.layout
          omega
        · show w.store.gm.dvsize < paddedRequest bytes
          rw [rep.dvsize, padded]
          by_cases some : h.dv = 0
          · rw [fits.dvNone.mp some]
            decide
          · have inside := (fits.dvFree some).geometry rep.layout
            omega
        · show w.store.gm.topsize ≤ paddedRequest bytes
          have topsize := rep.topsize
          omega
      have pick : h.pick bytes = .expand := by
        rw [Heap.pick, if_neg few, if_pos huge]
        rcases rep.rest_chosen none.1 (rep.dvsize ▸ none.2.1) with ⟨fits, -⟩ | ⟨-, pick⟩
        · exact absurd none.2.2 (Nat.not_le_of_lt fits)
        · exact pick
      rw [pick]
      exact BestFit.of_exhausted none
    · have choose := rep.pick_largeChoice segment few huge
      exact ⟨fun small => absurd small few, fun _ _ => choose, choose.expand_iff⟩

/-- The entry of Alloc that serves a request. -/
theorem Runs.entry {h : Heap} (runs : Runs setup w h) {mem : Nat}
    (ending : (h.answer (.alloc bytes)).ending = .returns mem) :
    ∃ s', tryAlloc 2 bytes w.store = .ok (some mem) s' := by
  have refines := runs.rep.tryAlloc_refines bytes 0
  rw [Heap.answer] at ending
  cases reply : h.alloc bytes with
  | served value h' =>
      rw [reply] at refines ending
      obtain ⟨p, k, -, -, -, s', ran, -⟩ := refines
      cases ending
      exact ⟨s', ran⟩
  | corrupted =>
      rw [reply] at ending
      cases ending
  | expand =>
      rw [reply] at ending
      cases ending

/-- An entry of Alloc throws, or it returns and follows the policy. -/
theorem Runs.follows {h : Heap} (runs : Runs setup w h) (short : setup.increasingSize < 2 ^ 40)
    (fuel bytes : Nat) : (∃ s', tryAlloc (fuel + 2) bytes w.store = .error .corrupted s') ∨
      ∃ choice s', tryAlloc (fuel + 2) bytes w.store = .ok choice s' ∧
        BestFit (w.store.freeSpace setup.first) bytes (choice.map mem2chunk) := by
  have refines := runs.rep.tryAlloc_refines bytes fuel
  cases reply : h.alloc bytes with
  | served mem h' =>
      rw [reply] at refines
      obtain ⟨p, k, -, -, -, s', ran, -⟩ := refines
      exact Or.inr ⟨some mem, s', ran, runs.bestFit short ran⟩
  | corrupted =>
      rw [reply] at refines
      obtain ⟨s', ran, -⟩ := refines
      exact Or.inl ⟨s', ran⟩
  | expand =>
      rw [reply] at refines
      exact Or.inr ⟨none, w.store, refines, runs.bestFit short refines⟩

/-- Before the first InitOrExpand nothing is free, and the entry falls through. -/
theorem fresh_follows (fresh : Fresh setup w) (zeroed : Zeroed setup.raw) (fuel bytes : Nat) :
    tryAlloc fuel bytes w.store = .ok none w.store ∧
      BestFit (w.store.freeSpace setup.first) bytes none := by
  have clean : Clean w.store.gm := fresh.gm ▸ zeroed.toClean
  have topsize : w.store.gm.topsize = 0 := by rw [fresh.gm, zeroed.topsizeZero]
  have dvsize : w.store.gm.dvsize = 0 := clean.dvsize
  have proper := paddedRequest_proper bytes
  refine ⟨tryAlloc_clean clean fuel bytes, BestFit.of_exhausted
    ⟨fun q size binned => absurd binned.1.1 (no_chunk clean.top), ?_, ?_⟩⟩
  · show w.store.gm.dvsize < paddedRequest bytes
    omega
  · show w.store.gm.topsize ≤ paddedRequest bytes
    omega

/-- Every entry of Alloc in every state reached comes to an end: it throws, or it follows
the policy. -/
theorem reached_bestFit (zeroed : Zeroed setup.raw) (aligned : setup.Aligned)
    (short : setup.increasingSize < 2 ^ 40) {events : List Event} (run : setup.Reaches events w)
    (fuel bytes : Nat) : (∃ s', tryAlloc (fuel + 2) bytes w.store = .error .corrupted s') ∨
      ∃ choice s', tryAlloc (fuel + 2) bytes w.store = .ok choice s' ∧
        BestFit (w.store.freeSpace setup.first) bytes (choice.map mem2chunk) := by
  rcases run.either zeroed aligned with fresh | ⟨h, runs⟩
  · obtain ⟨ran, fits⟩ := fresh_follows fresh zeroed (fuel + 2) bytes
    exact Or.inr ⟨none, w.store, ran, fits⟩
  · exact runs.follows short fuel bytes

/-- The smaller of two freed chunks is taken, though the larger one was freed last. -/
theorem reached_bestFit_sample : ∃ (w : World) (s' : Store),
    tryAlloc 2 40 w.store = .ok (some 4192) s' ∧
      BestFit (w.store.freeSpace 4096) 40 (some (mem2chunk 4192)) := by
  have asked : ((Heap.init 4096 (4096 + 1024 - 8)).replay []
      [.alloc 24, .alloc 8, .alloc 100, .alloc 8, .alloc 200, .alloc 8, .free 4192, .free 4336]).map
        (fun found => (found.2, (found.1.answer (.alloc 40)).ending)) =
      some ([(4544, 8), (4304, 8), (4160, 8), (4128, 24)], .returns 4192) := by decide
  obtain ⟨events, w, h, run, runs, live, -, ending, -⟩ :=
    Setup.sample_asks (by decide) (by decide) (by decide) _ _ asked fun _ => trivial
  obtain ⟨s', entry⟩ := runs.entry ending
  have aligned := (Setup.sample_regular (by decide : 1024 ≤ 2 ^ 32) (by decide) (by decide)).aligned
  have first : (Setup.sample 1024 (by decide)).first = 4096 := aligned.first_eq
  have follows := reached_bestFit (Setup.sample_zeroed 1024 (by decide)) aligned
    (show 1024 < 2 ^ 40 by decide) run 0 40
  rcases follows with ⟨s₁, threw⟩ | ⟨choice, s₁, ran, fits⟩
  · cases entry.symm.trans threw
  · obtain ⟨rfl, -⟩ := EStateM.Result.ok.inj (entry.symm.trans ran)
    rw [first] at fits
    exact ⟨w, s', entry, fits⟩

end Reached

end Unimem
