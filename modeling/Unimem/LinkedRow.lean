import Mathlib.Tactic

/-!
A row of nodes in which every node knows the address of its left and of its
right neighbour. What lies beyond the two ends is given by an address each,
such as null. A row is opened at any node: the nodes before it end at its
address and the nodes behind it start from there.
-/

namespace LinkedRow

variable {Node Address : Type} (address : Node → Address)

def firstOr (nodes : List Node) (beyond : Address) : Address :=
  match nodes with
  | [] => beyond
  | node :: _ => address node

def lastOr : Address → List Node → Address
  | beyond, [] => beyond
  | _, node :: rest => lastOr (address node) rest

variable (knows : Address → Node → Address → Prop)

def Row : Address → List Node → Address → Prop
  | _, [], _ => True
  | left, node :: rest, right =>
      knows left node (firstOr address rest right) ∧ Row (address node) rest right

variable {address knows} {left right : Address} {nodes below above : List Node} {node : Node}

@[simp] theorem firstOr_nil : firstOr address [] right = right := rfl

@[simp] theorem firstOr_cons : firstOr address (node :: nodes) right = address node := rfl

@[simp] theorem lastOr_nil : lastOr address left [] = left := rfl

@[simp] theorem lastOr_cons :
    lastOr address left (node :: nodes) = lastOr address (address node) nodes := rfl

@[simp] theorem lastOr_concat : lastOr address left (below ++ [node]) = address node := by
  induction below generalizing left with
  | nil => rfl
  | cons first rest ih => exact ih

@[simp] theorem firstOr_append :
    firstOr address (below ++ above) right = firstOr address below (firstOr address above right) := by
  cases below <;> rfl

theorem firstOr_cases : firstOr address nodes right = right ∨
    ∃ node ∈ nodes, firstOr address nodes right = address node := by
  cases nodes with
  | nil => exact Or.inl rfl
  | cons first rest => exact Or.inr ⟨first, List.mem_cons_self, rfl⟩

theorem lastOr_cases : lastOr address left nodes = left ∨
    ∃ node ∈ nodes, lastOr address left nodes = address node := by
  rcases List.eq_nil_or_concat nodes with rfl | ⟨below, node, rfl⟩
  · exact Or.inl rfl
  · exact Or.inr ⟨node, by simp, by rw [List.concat_eq_append, lastOr_concat]⟩

theorem row_append : Row address knows left (below ++ above) right ↔
    Row address knows left below (firstOr address above right) ∧
      Row address knows (lastOr address left below) above right := by
  induction below generalizing left with
  | nil => simp [Row]
  | cons first rest ih => simp [Row, ih, and_assoc]

/-- A row opened at one of its nodes. -/
theorem row_split : Row address knows left (below ++ node :: above) right ↔
    Row address knows left below (address node) ∧
      knows (lastOr address left below) node (firstOr address above right) ∧
        Row address knows (address node) above right := by
  rw [row_append]
  rfl

theorem Row.imp {knows' : Address → Node → Address → Prop}
    (row : Row address knows left nodes right)
    (still : ∀ node ∈ nodes, ∀ before behind, knows before node behind →
      knows' before node behind) : Row address knows' left nodes right := by
  induction nodes generalizing left with
  | nil => trivial
  | cons first rest ih =>
      exact ⟨still first List.mem_cons_self _ _ row.1,
        ih row.2 fun node later => still node (List.mem_cons_of_mem _ later)⟩

/-- Whatever changes the left end of a row only concerns its first node. -/
theorem Row.relink {knows' : Address → Node → Address → Prop} {left' : Address}
    (row : Row address knows left nodes right)
    (head : ∀ first rest, nodes = first :: rest →
      knows left first (firstOr address rest right) →
        knows' left' first (firstOr address rest right))
    (still : ∀ node ∈ nodes.tail, ∀ before behind, knows before node behind →
      knows' before node behind) : Row address knows' left' nodes right := by
  cases nodes with
  | nil => trivial
  | cons first rest => exact ⟨head first rest rfl row.1, row.2.imp still⟩

end LinkedRow
