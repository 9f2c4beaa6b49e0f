import Unimem.MallocState

/-!
The tree bins as a pointer structure: the treemap, the roots, and the fields of
the tree chunks as functions of the chunk. Among chunks that lie apart, the
accessors of tree_chunk.h and chunk.h read and write exactly these functions, so
a run over such chunks is followed on the pointer structure alone.
-/

namespace Unimem

open ByteMemory Memory WordArith MallocState

/-- The fields that link a chunk into a tree bin. -/
inductive Field where
  | fd
  | bk
  | zero
  | one
  | parent
  | index
  deriving DecidableEq

namespace Field

def offset : Field → Nat
  | fd => 16
  | bk => 24
  | zero => 32
  | one => 40
  | parent => 48
  | index => 56

def width : Field → Nat
  | index => 4
  | _ => 8

def child (side : Bool) : Field := if side then one else zero

end Field

structure TreeLinks where
  treemap : Nat
  treebins : Nat → Nat
  size : Nat → Nat
  field : Field → Nat → Nat

def Store.treeLinks (s : Store) : TreeLinks where
  treemap := s.gm.treemap
  treebins := s.gm.treebins
  size := fun p => s.mem.load (p + 8) 8 &&& not64 flagBits
  field := fun f p => s.mem.load (p + f.offset) f.width

namespace TreeLinks

def child (L : TreeLinks) (side : Bool) (p : Nat) : Nat := L.field (Field.child side) p

def set (L : TreeLinks) (f : Field) (p v : Nat) : TreeLinks :=
  { L with field := fun g q => if g = f ∧ q = p then v else L.field g q }

def setBin (L : TreeLinks) (i v : Nat) : TreeLinks :=
  { L with treebins := Function.update L.treebins i v }

def setMap (L : TreeLinks) (bits : Nat) : TreeLinks := { L with treemap := bits }

variable {L : TreeLinks} {f g : Field} {p q v i bits : Nat} {side : Bool}

@[simp] theorem set_field :
    (L.set f p v).field g q = if g = f ∧ q = p then v else L.field g q := rfl

@[simp] theorem set_child : (L.set f p v).child side q =
    if Field.child side = f ∧ q = p then v else L.child side q := rfl

@[simp] theorem set_size : (L.set f p v).size = L.size := rfl
@[simp] theorem set_treebins : (L.set f p v).treebins = L.treebins := rfl
@[simp] theorem set_treemap : (L.set f p v).treemap = L.treemap := rfl
@[simp] theorem setBin_field : (L.setBin i v).field = L.field := rfl
@[simp] theorem setBin_child : (L.setBin i v).child = L.child := rfl
@[simp] theorem setBin_size : (L.setBin i v).size = L.size := rfl
@[simp] theorem setBin_treebins : (L.setBin i v).treebins = Function.update L.treebins i v := rfl
@[simp] theorem setBin_treemap : (L.setBin i v).treemap = L.treemap := rfl
@[simp] theorem setMap_field : (L.setMap bits).field = L.field := rfl
@[simp] theorem setMap_child : (L.setMap bits).child = L.child := rfl
@[simp] theorem setMap_size : (L.setMap bits).size = L.size := rfl
@[simp] theorem setMap_treebins : (L.setMap bits).treebins = L.treebins := rfl
@[simp] theorem setMap_treemap : (L.setMap bits).treemap = bits := rfl

end TreeLinks

@[simp] theorem Field.child_false : Field.child false = .zero := rfl
@[simp] theorem Field.child_true : Field.child true = .one := rfl

/-- Chunks that the fields of a tree chunk fit in, apart from each other. -/
structure Ground (base : Store) (among : Nat → Prop) : Prop where
  reach : ∀ p, among p → p + 64 ≤ 2 ^ 64 ∧ base.mem.accessible p 64 = true
  apart : ∀ p q, among p → among q → p = q ∨ p + 64 ≤ q ∨ q + 64 ≤ p

/-- `s` came from `base` by writing tree fields of the chunks among, and shows
the links `L` there. -/
structure Mirrors (base : Store) (among : Nat → Prop) (L : TreeLinks) (s : Store) : Prop where
  same : s = { base with
    gm := { base.gm with treemap := L.treemap, treebins := L.treebins }
    mem := s.mem }
  frame : AgreesOutside (fun x => ∃ p, among p ∧ p + 16 ≤ x ∧ x < p + 60) base.mem s.mem
  fields : ∀ p, among p → ∀ f, s.mem.load (p + f.offset) f.width = L.field f p
  sizes : L.size = base.treeLinks.size

theorem Field.extent (f : Field) : 16 ≤ f.offset ∧ f.offset + f.width ≤ 60 ∧ f.width ≤ 8 := by
  cases f <;> decide

theorem Field.apart {f g : Field} (differ : f ≠ g) :
    f.offset + f.width ≤ g.offset ∨ g.offset + g.width ≤ f.offset := by
  cases f <;> cases g <;> first | exact absurd rfl differ | decide

namespace Mirrors

variable {base s : Store} {among : Nat → Prop} {L : TreeLinks} {p v : Nat} {f : Field}

theorem refl (base : Store) (among : Nat → Prop) : Mirrors base among base.treeLinks base :=
  ⟨rfl, AgreesOutside.refl _, fun _ _ _ => rfl, rfl⟩

theorem accessible (ground : Ground base among) (mirrors : Mirrors base among L s) (here : among p)
    {a n : Nat} (lower : p ≤ a) (upper : a + n ≤ p + 64) : s.mem.accessible a n = true := by
  rw [mirrors.frame.accessible]
  have whole := (accessible_iff _ _ _).mp (ground.reach p here).2
  exact (accessible_iff _ _ _).mpr fun x low high => whole x (by omega) (by omega)

theorem load (ground : Ground base among) (mirrors : Mirrors base among L s) (here : among p)
    (f : Field) : loadN f.width (p + f.offset) s = .ok (L.field f p) s := by
  have extent := f.extent
  rw [run_loadN (mirrors.accessible ground here (by omega) (by omega)), mirrors.fields p here f]

theorem store (ground : Ground base among) (mirrors : Mirrors base among L s) (here : among p)
    (f : Field) (fits : v < 256 ^ f.width) :
    ∃ after, storeN f.width (p + f.offset) v s = .ok () after ∧
      Mirrors base among (L.set f p v) after := by
  have extent := f.extent
  refine ⟨_, run_storeN (mirrors.accessible ground here (by omega) (by omega)), ?_, ?_, ?_, ?_⟩
  · have same := mirrors.same
    generalize s.mem = m at same ⊢
    rw [same]
    rfl
  · exact mirrors.frame.store _ _ _ fun x lower upper => ⟨p, here, by omega, by omega⟩
  · intro q there g
    have extent' := g.extent
    rw [TreeLinks.set_field]
    by_cases target : g = f ∧ q = p
    · obtain ⟨rfl, rfl⟩ := target
      simpa using load_store_same _ _ _ _ fits
    · rw [if_neg target, ← mirrors.fields q there g]
      apply load_store_disjoint
      rcases ground.apart p q here there with rfl | before | after
      · have differ : f ≠ g := fun sameField => target ⟨sameField.symm, rfl⟩
        have := Field.apart differ
        omega
      · omega
      · omega
  · exact mirrors.sizes

theorem fd (ground : Ground base among) (mirrors : Mirrors base among L s) (here : among p) :
    Chunk.fd p s = .ok (L.field .fd p) s := mirrors.load ground here .fd

theorem bk (ground : Ground base among) (mirrors : Mirrors base among L s) (here : among p) :
    Chunk.bk p s = .ok (L.field .bk p) s := mirrors.load ground here .bk

theorem parent (ground : Ground base among) (mirrors : Mirrors base among L s) (here : among p) :
    TreeChunk.parent p s = .ok (L.field .parent p) s := mirrors.load ground here .parent

theorem index (ground : Ground base among) (mirrors : Mirrors base among L s) (here : among p) :
    TreeChunk.index p s = .ok (L.field .index p) s := mirrors.load ground here .index

theorem child (ground : Ground base among) (mirrors : Mirrors base among L s) (here : among p)
    (side : Bool) : TreeChunk.child p side.toNat s = .ok (L.child side p) s := by
  cases side with
  | false => exact mirrors.load ground here .zero
  | true => exact mirrors.load ground here .one

/-- Sizes are never written. -/
theorem size (mirrors : Mirrors base among L s)
    (apart : ∀ q, among q → p = q ∨ p + 64 ≤ q ∨ q + 64 ≤ p) :
    s.treeLinks.size p = L.size p := by
  rw [mirrors.sizes]
  refine congrArg (· &&& not64 flagBits) (mirrors.frame.load _ _ fun x lower upper written => ?_)
  obtain ⟨q, there, low, high⟩ := written
  have := apart q there
  omega

/-- Nor is anything of a chunk that lies apart. -/
theorem outside (mirrors : Mirrors base among L s)
    (apart : ∀ q, among q → p + 64 ≤ q ∨ q + 64 ≤ p) (f : Field) :
    s.treeLinks.field f p = base.treeLinks.field f p := by
  refine mirrors.frame.load _ _ fun x lower upper written => ?_
  obtain ⟨q, there, low, high⟩ := written
  have := apart q there
  have := f.extent
  omega

theorem chunksize (ground : Ground base among) (mirrors : Mirrors base among L s)
    (here : among p) : Chunk.chunksize p s = .ok (L.size p) s := by
  have mapped : s.mem.accessible (p + 8) 8 = true :=
    mirrors.accessible ground here (by omega) (by omega)
  rw [← mirrors.size fun q there => ground.apart p q here there]
  simp only [Chunk.chunksize, Chunk.head, load64, Fuelled.bind_run, run_loadN mapped, run_pure]
  rfl

theorem gm (mirrors : Mirrors base among L s) :
    s.gm = { base.gm with treemap := L.treemap, treebins := L.treebins } :=
  congrArg Store.gm mirrors.same

theorem treebin (mirrors : Mirrors base among L s) (i : Nat) :
    treebin i s = .ok (L.treebins i) s := by
  simp only [MallocState.treebin, Fuelled.bind_run, run_readGm, run_pure, mirrors.gm]

theorem treemapIsMarked (mirrors : Mirrors base among L s) (i : Nat) :
    treemapIsMarked i s = .ok (L.treemap &&& idx2bit i) s := by
  simp only [MallocState.treemapIsMarked, Fuelled.bind_run, run_readGm, run_pure, mirrors.gm]

theorem okAddress (mirrors : Mirrors base among L s) (a : Nat) :
    okAddress a s = .ok (decide (a ≥ base.gm.leastAddr)) s := by
  simp only [MallocState.okAddress, Fuelled.bind_run, run_readGm, run_pure, mirrors.gm]

end Mirrors

/-! ## Runs on the links -/

/-- The program returns `value`, and the links are `L` then. -/
def Shows {α : Type} (base : Store) (among : Nat → Prop) (program : Prog α) (s : Store)
    (value : α) (L : TreeLinks) : Prop :=
  ∃ after, program s = .ok value after ∧ Mirrors base among L after

namespace Shows

variable {α β : Type} {base s : Store} {among : Nat → Prop} {L L' : TreeLinks} {p v i : Nat}
  {value : α} {value' : β} {first : Prog α} {rest : α → Prog β}

theorem pure (mirrors : Mirrors base among L s) : Shows base among (pure value) s value L :=
  ⟨s, rfl, mirrors⟩

theorem bind (head : Shows base among first s value L)
    (tail : ∀ after, Mirrors base among L after →
      Shows base among (rest value) after value' L') :
    Shows base among (first >>= rest) s value' L' := by
  obtain ⟨after, ran, mirrors⟩ := head
  obtain ⟨last, ran', mirrors'⟩ := tail after mirrors
  exact ⟨last, by rw [Fuelled.bind_run, ran]; exact ran', mirrors'⟩

theorem read (ran : first s = .ok value s)
    (tail : Shows base among (rest value) s value' L') :
    Shows base among (first >>= rest) s value' L' := by
  obtain ⟨last, ran', mirrors⟩ := tail
  exact ⟨last, by rw [Fuelled.bind_run, ran]; exact ran', mirrors⟩

theorem setFd (ground : Ground base among) (mirrors : Mirrors base among L s) (here : among p)
    (fits : v < 2 ^ 64) : Shows base among (Chunk.setFd p v) s () (L.set .fd p v) :=
  mirrors.store ground here .fd fits

theorem setBk (ground : Ground base among) (mirrors : Mirrors base among L s) (here : among p)
    (fits : v < 2 ^ 64) : Shows base among (Chunk.setBk p v) s () (L.set .bk p v) :=
  mirrors.store ground here .bk fits

theorem setParent (ground : Ground base among) (mirrors : Mirrors base among L s)
    (here : among p) (fits : v < 2 ^ 64) :
    Shows base among (TreeChunk.setParent p v) s () (L.set .parent p v) :=
  mirrors.store ground here .parent fits

theorem setIndex (ground : Ground base among) (mirrors : Mirrors base among L s)
    (here : among p) (fits : v < 2 ^ 32) :
    Shows base among (TreeChunk.setIndex p v) s () (L.set .index p v) :=
  mirrors.store ground here .index fits

theorem setChild (ground : Ground base among) (mirrors : Mirrors base among L s)
    (here : among p) (side : Bool) (fits : v < 2 ^ 64) :
    Shows base among (TreeChunk.setChild p side.toNat v) s ()
      (L.set (Field.child side) p v) := by
  cases side with
  | false => exact mirrors.store ground here .zero fits
  | true => exact mirrors.store ground here .one fits

theorem setTreebin (mirrors : Mirrors base among L s) :
    Shows base among (setTreebin i v) s () (L.setBin i v) := by
  refine ⟨_, rfl, ?_, mirrors.frame, mirrors.fields, mirrors.sizes⟩
  have same := mirrors.same
  generalize s.mem = m at same ⊢
  rw [same]
  rfl

theorem markTreemap (mirrors : Mirrors base among L s) :
    Shows base among (markTreemap i) s () (L.setMap (L.treemap ||| idx2bit i)) := by
  refine ⟨_, rfl, ?_, mirrors.frame, mirrors.fields, mirrors.sizes⟩
  have same := mirrors.same
  generalize s.mem = m at same ⊢
  rw [same]
  rfl

theorem clearTreemap (mirrors : Mirrors base among L s) :
    Shows base among (clearTreemap i) s () (L.setMap (L.treemap &&& not32 (idx2bit i))) := by
  refine ⟨_, rfl, ?_, mirrors.frame, mirrors.fields, mirrors.sizes⟩
  have same := mirrors.same
  generalize s.mem = m at same ⊢
  rw [same]
  rfl

end Shows

end Unimem
