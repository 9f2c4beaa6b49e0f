import Mathlib.Tactic
import Unimem.Tiling

/-!
Joining free neighbours. Blocks that tile an interval are coalesced from the
right: each free block is joined with a free block next to it. The result tiles
the same interval, has the same used blocks and no two free neighbours. Where
only one block has become free, at most its two neighbours are concerned.
-/

namespace Coalescing

open Tiling

variable {Block : Type} (used : Block → Bool) (join : Block → Block → Block)

def push (block : Block) : List Block → List Block
  | [] => [block]
  | next :: rest =>
      if used block || used next then block :: next :: rest else join block next :: rest

def coalesce (blocks : List Block) : List Block := blocks.foldr (push used join) []

variable {used join} {block next : Block} {blocks below above rest : List Block}

@[simp] theorem push_nil : push used join block [] = [block] := rfl

theorem push_cons : push used join block (next :: rest) =
    if used block || used next then block :: next :: rest else join block next :: rest := rfl

theorem push_used (isUsed : used block = true) :
    push used join block blocks = block :: blocks := by
  cases blocks <;> simp [push, isUsed]

theorem push_before_used (isUsed : used next = true) :
    push used join block (next :: rest) = block :: next :: rest := by
  simp [push, isUsed]

theorem push_free (free : used block = false) (freeNext : used next = false) :
    push used join block (next :: rest) = join block next :: rest := by
  simp [push, free, freeNext]

theorem coalesce_cons :
    coalesce used join (block :: blocks) = push used join block (coalesce used join blocks) := rfl

theorem coalesce_append : coalesce used join (below ++ above) =
    below.foldr (push used join) (coalesce used join above) := List.foldr_append

/-- Blocks without free neighbours stay as they are. -/
theorem foldr_push (sparse : Sparse used (below ++ above)) :
    below.foldr (push used join) above = below ++ above := by
  induction below with
  | nil => rfl
  | cons first rest ih =>
      rw [List.foldr_cons, ih sparse.tail, List.cons_append]
      cases together : rest ++ above with
      | nil => rfl
      | cons second later =>
          have oneUsed : used first = true ∨ used second = true := by
            refine sparse first second ?_
            rw [List.cons_append, together]
            exact Or.inl ⟨rfl, rfl⟩
          rcases oneUsed with isUsed | isUsed
          · exact push_used isUsed
          · exact push_before_used isUsed

theorem coalesce_of_sparse (sparse : Sparse used blocks) : coalesce used join blocks = blocks := by
  have whole : Sparse used (blocks ++ []) := by rwa [List.append_nil]
  have same := @foldr_push _ _ join _ _ whole
  rwa [List.append_nil] at same

theorem sparse_split (sparse : Sparse used (below ++ block :: above)) :
    Sparse used below ∧ Sparse used above := by
  constructor
  · exact fun b c pair => sparse b c (adjacent_append.mpr (Or.inl pair))
  · exact fun b c pair => sparse b c (adjacent_append.mpr (Or.inr (Or.inr (by
      cases above with
      | nil => exact pair.elim
      | cons next rest => exact Or.inr pair))))

/-- Used blocks may stand anywhere. -/
theorem sparse_append (lower : Sparse used below) (upper : Sparse used (block :: above))
    (seam : ∀ b, below.getLast? = some b → used b = true ∨ used block = true) :
    Sparse used (below ++ block :: above) := by
  intro b c pair
  rcases adjacent_append.mp pair with inBelow | ⟨atEnd, atHead⟩ | inAbove
  · exact lower b c inBelow
  · obtain rfl : block = c := by simpa using atHead
    exact seam b atEnd
  · exact upper b c inAbove

theorem sparse_cons (upper : Sparse used above)
    (seam : ∀ b, above.head? = some b → used block = true ∨ used b = true) :
    Sparse used (block :: above) := by
  intro b c pair
  cases above with
  | nil => exact pair.elim
  | cons next rest =>
      rcases pair with ⟨rfl, rfl⟩ | later
      · exact seam _ rfl
      · exact upper b c later

/-- What a block that has become free grows into: at most its neighbours join it. -/
theorem coalesce_freed (sparseAbove : Sparse used above) :
    coalesce used join (below ++ block :: above) =
      below.foldr (push used join) (push used join block above) := by
  rw [coalesce_append, coalesce_cons, coalesce_of_sparse sparseAbove]

theorem foldr_push_used (lower : Sparse used below)
    (seam : ∀ b, below.getLast? = some b → used b = true) (upper : Sparse used (block :: above)) :
    below.foldr (push used join) (block :: above) = below ++ block :: above :=
  foldr_push (sparse_append lower upper fun b atEnd => Or.inl (seam b atEnd))

/-- A free block below joins, and then the next one below is used. -/
theorem foldr_push_free {last : Block} (lower : Sparse used (below ++ [last]))
    (freeLast : used last = false) (free : used block = false)
    (upper : Sparse used (block :: above)) :
    (below ++ [last]).foldr (push used join) (block :: above) =
      below ++ join last block :: above := by
  rw [List.foldr_append, List.foldr_cons, List.foldr_nil, push_free freeLast free]
  refine foldr_push_used (sparse_split lower).1 (fun b atEnd => ?_)
    (sparse_cons upper.tail fun b atHead => Or.inr ?_)
  · have pair : Adjacent (below ++ [last]) b last :=
      adjacent_append.mpr (Or.inr (Or.inl ⟨atEnd, rfl⟩))
    simpa [freeLast] using lower b last pair
  · cases above with
    | nil => simp at atHead
    | cons first rest =>
        obtain rfl : first = b := by simpa using atHead
        simpa [free] using upper block first (Or.inl ⟨rfl, rfl⟩)

section Kept

variable {start size : Block → Nat} {low high : Nat}

theorem mem_push {b : Block} (member : b ∈ push used join block blocks) :
    b = block ∨ b ∈ blocks ∨ ∃ next ∈ blocks, b = join block next ∧
      used block = false ∧ used next = false := by
  cases blocks with
  | nil => simpa using member
  | cons next rest =>
      rw [push_cons] at member
      split at member
      case isTrue =>
        rcases List.mem_cons.mp member with here | later
        · exact Or.inl here
        · exact Or.inr (Or.inl later)
      case isFalse bothFree =>
        simp only [Bool.or_eq_true, not_or, Bool.not_eq_true] at bothFree
        rcases List.mem_cons.mp member with here | later
        · exact Or.inr (Or.inr ⟨next, List.mem_cons_self, here, bothFree⟩)
        · exact Or.inr (Or.inl (List.mem_cons_of_mem _ later))

/-- A property of all blocks that joining keeps holds of the coalesced ones. -/
theorem all_coalesce {holds : Block → Prop} (joined : ∀ b c, holds b → holds c → holds (join b c))
    (all : ∀ b ∈ blocks, holds b) : ∀ b ∈ coalesce used join blocks, holds b := by
  induction blocks with
  | nil => simp [coalesce]
  | cons first rest ih =>
      intro b member
      have later := ih fun c inRest => all c (List.mem_cons_of_mem _ inRest)
      have here := all first List.mem_cons_self
      rw [coalesce_cons] at member
      rcases mem_push member with rfl | inRest | ⟨c, inRest, rfl, -⟩
      · exact here
      · exact later b inRest
      · exact joined first c here (later c inRest)

theorem tiles_push (starts : ∀ b c, start (join b c) = start b)
    (sizes : ∀ b c, size (join b c) = size b + size c)
    (tiles : Tiles start size low (block :: blocks) high) :
    Tiles start size low (push used join block blocks) high := by
  cases blocks with
  | nil => exact tiles
  | cons next rest =>
      rw [push_cons]
      split
      · exact tiles
      · obtain ⟨here, -, onward⟩ := tiles
        refine ⟨(starts block next).trans here, ?_⟩
        rwa [sizes, ← Nat.add_assoc]

theorem tiles_coalesce (starts : ∀ b c, start (join b c) = start b)
    (sizes : ∀ b c, size (join b c) = size b + size c) (tiles : Tiles start size low blocks high) :
    Tiles start size low (coalesce used join blocks) high := by
  induction blocks generalizing low with
  | nil => exact tiles
  | cons first rest ih => exact tiles_push starts sizes ⟨tiles.1, ih tiles.2⟩

theorem sparse_push (sparse : Sparse used blocks) :
    Sparse used (push used join block blocks) := by
  cases blocks with
  | nil => exact fun b c pair => pair.elim
  | cons next rest =>
      rw [push_cons]
      split
      case isTrue oneUsed =>
        refine sparse_cons sparse fun b atHead => ?_
        obtain rfl : next = b := by simpa using atHead
        simpa using oneUsed
      case isFalse bothFree =>
        simp only [Bool.or_eq_true, not_or, Bool.not_eq_true] at bothFree
        refine sparse_cons sparse.tail fun b atHead => Or.inr ?_
        cases rest with
        | nil => simp at atHead
        | cons c later =>
            obtain rfl : c = b := by simpa using atHead
            have oneUsed := sparse next c (Or.inl ⟨rfl, rfl⟩)
            simpa [bothFree.2] using oneUsed

theorem sparse_coalesce : Sparse used (coalesce used join blocks) := by
  induction blocks with
  | nil => exact fun b c pair => pair.elim
  | cons first rest ih => exact sparse_push ih

theorem filter_push (joinedFree : ∀ b c, used b = false → used (join b c) = false) :
    (push used join block blocks).filter used = (block :: blocks).filter used := by
  cases blocks with
  | nil => rfl
  | cons next rest =>
      rw [push_cons]
      split
      · rfl
      case isFalse bothFree =>
        simp only [Bool.or_eq_true, not_or, Bool.not_eq_true] at bothFree
        simp [bothFree, joinedFree block next bothFree.1]

/-- Coalescing never touches a used block. -/
theorem filter_coalesce (joinedFree : ∀ b c, used b = false → used (join b c) = false) :
    (coalesce used join blocks).filter used = blocks.filter used := by
  induction blocks with
  | nil => rfl
  | cons first rest ih =>
      rw [coalesce_cons, filter_push joinedFree, List.filter_cons, List.filter_cons, ih]

end Kept

end Coalescing
