import Mathlib.Tactic

/-!
Consecutive blocks that tile an interval of addresses. `Block` is any type with
a start address and a size; blocks that end the interval may be empty, all
others have to have a positive size where a lemma needs their starts ordered.
-/

namespace Tiling

variable {Block : Type} (start size : Block → Nat)

def Tiles : Nat → List Block → Nat → Prop
  | low, [], high => low = high
  | low, block :: rest, high => start block = low ∧ Tiles (low + size block) rest high

def Adjacent : List Block → Block → Block → Prop
  | first :: second :: rest, left, right =>
      (first = left ∧ second = right) ∨ Adjacent (second :: rest) left right
  | _, _, _ => False

variable {start size}

theorem tiles_append {low high : Nat} {left right : List Block} :
    Tiles start size low (left ++ right) high ↔
      ∃ middle, Tiles start size low left middle ∧ Tiles start size middle right high := by
  induction left generalizing low with
  | nil => simp [Tiles]
  | cons block rest ih => simp [Tiles, ih, and_assoc]

/-- A tiling may be read through any other form of the blocks. -/
theorem tiles_map {Source : Type} {view : Source → Block} {low high : Nat} {blocks : List Source} :
    Tiles start size low (blocks.map view) high ↔
      Tiles (fun block => start (view block)) (fun block => size (view block)) low blocks high := by
  induction blocks generalizing low with
  | nil => rfl
  | cons block rest ih => simp only [List.map_cons, Tiles, ih]

theorem tiles_le {low high : Nat} {blocks : List Block} (tiles : Tiles start size low blocks high) :
    low ≤ high := by
  induction blocks generalizing low with
  | nil => exact Nat.le_of_eq tiles
  | cons block rest ih => have := ih tiles.2; omega

theorem tiles_bounds {low high : Nat} {blocks : List Block}
    (tiles : Tiles start size low blocks high) {block : Block} (member : block ∈ blocks) :
    low ≤ start block ∧ start block + size block ≤ high := by
  induction blocks generalizing low with
  | nil => cases member
  | cons first rest ih =>
      have rest_le := tiles_le tiles.2
      have here := tiles.1
      rcases List.mem_cons.mp member with rfl | later
      · omega
      · have := ih tiles.2 later
        omega

/-- A block in the middle splits the tiling into what is below and above it. -/
theorem tiles_split {low high : Nat} {left right : List Block} {block : Block}
    (tiles : Tiles start size low (left ++ block :: right) high) :
    Tiles start size low left (start block) ∧
      Tiles start size (start block + size block) right high := by
  obtain ⟨middle, below, here, above⟩ := tiles_append.mp tiles
  subst here
  exact ⟨below, above⟩

theorem adjacent_cons_cons {first second left right : Block} {rest : List Block} :
    Adjacent (first :: second :: rest) left right ↔
      (first = left ∧ second = right) ∨ Adjacent (second :: rest) left right := Iff.rfl

@[simp] theorem not_adjacent_nil {left right : Block} : ¬ Adjacent [] left right := id

@[simp] theorem not_adjacent_singleton {block left right : Block} :
    ¬ Adjacent [block] left right := id

theorem adjacent_split {left right : List Block} {middle b c : Block} :
    Adjacent (left ++ middle :: right) b c ↔
      Adjacent (left ++ [middle]) b c ∨ Adjacent (middle :: right) b c := by
  induction left with
  | nil => simp
  | cons first rest ih =>
      cases rest with
      | nil => simp [adjacent_cons_cons]
      | cons second rest =>
          simp only [List.cons_append, adjacent_cons_cons] at ih ⊢
          rw [ih, or_assoc]

theorem adjacent_append {left right : List Block} {b c : Block} :
    Adjacent (left ++ right) b c ↔
      Adjacent left b c ∨ (left.getLast? = some b ∧ right.head? = some c) ∨ Adjacent right b c := by
  induction left with
  | nil => simp
  | cons first rest ih =>
      cases rest with
      | nil => cases right <;> simp [adjacent_cons_cons]
      | cons second rest =>
          simp only [List.cons_append, adjacent_cons_cons] at ih ⊢
          rw [ih, or_assoc, List.getLast?_cons_cons]

/-- The pairs of a list, seen from a group `middle ++ [node]` of its members. -/
theorem adjacent_group {below middle above : List Block} {node b c : Block} :
    Adjacent (below ++ middle ++ node :: above) b c ↔
      Adjacent below b c ∨ (below.getLast? = some b ∧ (middle ++ [node]).head? = some c) ∨
        Adjacent (middle ++ [node]) b c ∨ (b = node ∧ above.head? = some c) ∨
          Adjacent above b c := by
  have grouped : below ++ middle ++ node :: above = below ++ ((middle ++ [node]) ++ above) := by simp
  rw [grouped, adjacent_append, adjacent_append]
  have head : (middle ++ [node] ++ above).head? = (middle ++ [node]).head? := by
    cases middle <;> rfl
  rw [head, List.getLast?_concat]
  simp only [Option.some.injEq, eq_comm (a := node)]

theorem adjacent_mem {blocks : List Block} {b c : Block} (adjacent : Adjacent blocks b c) :
    b ∈ blocks ∧ c ∈ blocks := by
  induction blocks with
  | nil => exact adjacent.elim
  | cons first rest ih =>
      cases rest with
      | nil => exact adjacent.elim
      | cons second rest =>
          rcases adjacent with ⟨rfl, rfl⟩ | later
          · simp
          · have := ih later
            simp only [List.mem_cons] at this ⊢
            tauto

theorem adjacent_iff {blocks : List Block} {b c : Block} :
    Adjacent blocks b c ↔ ∃ left right, blocks = left ++ b :: c :: right := by
  constructor
  · intro adjacent
    induction blocks with
    | nil => exact adjacent.elim
    | cons first rest ih =>
        cases rest with
        | nil => exact adjacent.elim
        | cons second rest =>
            rcases adjacent with ⟨rfl, rfl⟩ | later
            · exact ⟨[], rest, rfl⟩
            · obtain ⟨left, right, same⟩ := ih later
              exact ⟨first :: left, right, by rw [same]; rfl⟩
  · rintro ⟨left, right, rfl⟩
    rw [adjacent_split]
    exact Or.inr (Or.inl ⟨rfl, rfl⟩)

theorem adjacent_stop {low high : Nat} {blocks : List Block} {b c : Block}
    (tiles : Tiles start size low blocks high) (adjacent : Adjacent blocks b c) :
    start b + size b = start c := by
  obtain ⟨left, right, rfl⟩ := adjacent_iff.mp adjacent
  obtain ⟨_, _, here, next, _⟩ := tiles_append.mp tiles
  omega

section Determined

variable (start size) (used : Block → Bool)

/-- A used block of the list starts at `a` and has size `n`. -/
def Taken (blocks : List Block) (a n : Nat) : Prop :=
  ∃ block ∈ blocks, start block = a ∧ size block = n ∧ used block = true

def Sparse (blocks : List Block) : Prop :=
  ∀ b c, Adjacent blocks b c → used b = true ∨ used c = true

variable {start size used} {low high : Nat} {b c : Block} {rest rest' : List Block}

theorem Sparse.tail (sparse : Sparse used (b :: rest)) : Sparse used rest := by
  intro x y pair
  cases rest with
  | nil => exact pair.elim
  | cons d later => exact sparse x y (Or.inr pair)

theorem taken_tail (tiles : Tiles start size low (b :: rest) high) (positive : 0 < size b)
    {a n : Nat} : Taken start size used rest a n ↔
      Taken start size used (b :: rest) a n ∧ low + size b ≤ a := by
  constructor
  · rintro ⟨d, member, rfl, rfl, isUsed⟩
    exact ⟨⟨d, List.mem_cons_of_mem _ member, rfl, rfl, isUsed⟩, (tiles_bounds tiles.2 member).1⟩
  · rintro ⟨⟨d, member, rfl, rfl, isUsed⟩, later⟩
    rcases List.mem_cons.mp member with rfl | inRest
    · have here := tiles.1
      omega
    · exact ⟨d, inRest, rfl, rfl, isUsed⟩

/-- A used first block is the first block of any other tiling with the same used blocks. -/
theorem taken_head (tiles : Tiles start size low (c :: rest') high) (positive : 0 < size c)
    {n : Nat} (taken : Taken start size used (c :: rest') low n) : size c = n ∧ used c = true := by
  obtain ⟨d, member, here, rfl, isUsed⟩ := taken
  rcases List.mem_cons.mp member with rfl | inRest
  · exact ⟨rfl, isUsed⟩
  · have later := (tiles_bounds tiles.2 inRest).1
    omega

/-- A free first block is followed by a used one or by the end. -/
theorem free_reaches (tiles : Tiles start size low (b :: rest) high)
    (tiles' : Tiles start size low (c :: rest') high) (sparse : Sparse used (b :: rest))
    (freeB : used b = false) (freeC : used c = false)
    (same : ∀ a n, Taken start size used (b :: rest) a n → Taken start size used (c :: rest') a n) :
    size c ≤ size b := by
  have startB := tiles.1
  have startC := tiles'.1
  cases rest with
  | nil =>
      have finish : low + size b = high := tiles.2
      have inside := tiles_le tiles'.2
      omega
  | cons d later =>
      have usedD : used d = true := by
        rcases sparse b d (Or.inl ⟨rfl, rfl⟩) with inUse | inUse
        · rw [freeB] at inUse
          cases inUse
        · exact inUse
      have next := tiles.2.1
      obtain ⟨e, member, at_, -, isUsed⟩ := same _ _ ⟨d, by simp, rfl, rfl, usedD⟩
      rcases List.mem_cons.mp member with rfl | inRest
      · rw [freeC] at isUsed
        cases isUsed
      · have beyond := (tiles_bounds tiles'.2 inRest).1
        omega

/-- Where no two neighbours are free, the used blocks say where all blocks lie. -/
theorem tiles_determined {blocks blocks' : List Block} (tiles : Tiles start size low blocks high)
    (tiles' : Tiles start size low blocks' high) (positive : ∀ b ∈ blocks, 0 < size b)
    (positive' : ∀ b ∈ blocks', 0 < size b) (sparse : Sparse used blocks)
    (sparse' : Sparse used blocks')
    (same : ∀ a n, Taken start size used blocks a n ↔ Taken start size used blocks' a n) :
    blocks.map (fun b => (start b, size b, used b)) =
      blocks'.map (fun b => (start b, size b, used b)) := by
  induction blocks generalizing low blocks' with
  | nil =>
      cases blocks' with
      | nil => rfl
      | cons c rest' =>
          have isEnd : low = high := tiles
          have bounds := tiles_bounds tiles' List.mem_cons_self
          have := positive' c List.mem_cons_self
          omega
  | cons b rest ih =>
      cases blocks' with
      | nil =>
          have isEnd : low = high := tiles'
          have bounds := tiles_bounds tiles List.mem_cons_self
          have := positive b List.mem_cons_self
          omega
      | cons c rest' =>
          have startB := tiles.1
          have startC := tiles'.1
          have someB := positive b List.mem_cons_self
          have someC := positive' c List.mem_cons_self
          -- a used first block is one the other list has too
          have alike : size b = size c ∧ used b = used c := by
            cases usedB : used b with
            | true =>
                have taken := (same low (size b)).mp ⟨b, List.mem_cons_self, startB, rfl, usedB⟩
                obtain ⟨size_eq, usedC⟩ := taken_head tiles' someC taken
                exact ⟨size_eq.symm, usedC.symm⟩
            | false =>
                cases usedC : used c with
                | true =>
                    have taken := (same low (size c)).mpr ⟨c, List.mem_cons_self, startC, rfl, usedC⟩
                    have contra := (taken_head tiles someB taken).2
                    rw [usedB] at contra
                    cases contra
                | false =>
                    -- both end where the next used block starts, or at the end
                    have one := free_reaches tiles tiles' sparse usedB usedC fun a n => (same a n).mp
                    have two := free_reaches tiles' tiles sparse' usedC usedB fun a n =>
                      (same a n).mpr
                    exact ⟨Nat.le_antisymm two one, rfl⟩
          have onward := tiles.2
          rw [alike.1] at onward
          have tails := ih onward tiles'.2 (fun d later =>
            positive d (List.mem_cons_of_mem _ later))
            (fun d later => positive' d (List.mem_cons_of_mem _ later)) sparse.tail sparse'.tail
            (fun a n => by rw [taken_tail tiles someB, taken_tail tiles' someC, same a n, alike.1])
          rw [List.map_cons, List.map_cons, tails, startB, startC, alike.1, alike.2]

end Determined

end Tiling
