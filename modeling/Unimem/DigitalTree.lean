import Mathlib.Tactic
import Mathlib.Data.Tree.Basic

/-!
Digital search trees: every node of a binary tree holds an item, and an item
below the zero (one) child of a node at depth `d` has bit `d` of its key clear
(set). The way down to a subtree is a list of frames, innermost first. Where
keys are ordered by their first differing bit, the least item lies on the
leftmost path, and the least item at or above a goal lies on the goal's path or
in the deepest subtree that path leaves to its right.
-/

namespace DigitalTree

variable {Item Key : Type}

def items : BinaryTree Item → List Item
  | .nil => []
  | .node item zero one => item :: (items zero ++ items one)

@[simp] theorem items_nil : items (.nil : BinaryTree Item) = [] := rfl

@[simp] theorem items_node (item : Item) (zero one : BinaryTree Item) :
    items (.node item zero one) = item :: (items zero ++ items one) := rfl

theorem items_eq_nil {tree : BinaryTree Item} : items tree = [] ↔ tree = .nil := by
  cases tree with
  | nil => simp
  | node item zero one => simp

/-! ## The way down -/

/-- A node passed on the way down, the side taken, and the tree left on the other side. -/
structure Frame (Item : Type) where
  item : Item
  side : Bool
  other : BinaryTree Item

namespace Frame

def fill (frame : Frame Item) (tree : BinaryTree Item) : BinaryTree Item :=
  if frame.side then .node frame.item frame.other tree else .node frame.item tree frame.other

def members (frame : Frame Item) : List Item := frame.item :: items frame.other

theorem fill_perm (frame : Frame Item) (tree : BinaryTree Item) :
    (items (frame.fill tree)).Perm (frame.members ++ items tree) := by
  unfold fill members
  split
  · exact List.Perm.refl _
  · exact List.Perm.cons _ List.perm_append_comm

theorem mem_fill {frame : Frame Item} {tree : BinaryTree Item} {item : Item} :
    item ∈ items (frame.fill tree) ↔ item ∈ frame.members ∨ item ∈ items tree := by
  rw [(frame.fill_perm tree).mem_iff, List.mem_append]

end Frame

def plug : List (Frame Item) → BinaryTree Item → BinaryTree Item
  | [], tree => tree
  | frame :: outer, tree => plug outer (frame.fill tree)

def passed (way : List (Frame Item)) : List Item := way.flatMap Frame.members

@[simp] theorem passed_nil : passed ([] : List (Frame Item)) = [] := rfl

@[simp] theorem passed_cons (frame : Frame Item) (outer : List (Frame Item)) :
    passed (frame :: outer) = frame.members ++ passed outer := rfl

theorem plug_append (inner outer : List (Frame Item)) (tree : BinaryTree Item) :
    plug (inner ++ outer) tree = plug outer (plug inner tree) := by
  induction inner generalizing tree with
  | nil => rfl
  | cons frame rest ih => exact ih (frame.fill tree)

theorem items_plug (way : List (Frame Item)) (tree : BinaryTree Item) :
    (items (plug way tree)).Perm (passed way ++ items tree) := by
  induction way generalizing tree with
  | nil => exact List.Perm.refl _
  | cons frame outer ih =>
      have inside := (frame.fill_perm tree).append_left (passed outer)
      have turned : (passed outer ++ (frame.members ++ items tree)).Perm
          (frame.members ++ passed outer ++ items tree) := by
        rw [← List.append_assoc]
        exact List.perm_append_comm.append_right _
      exact (ih (frame.fill tree)).trans (inside.trans turned)

/-- Every item is the root of what some way leads to. -/
theorem exists_way {item : Item} {tree : BinaryTree Item} (member : item ∈ items tree)
    (outer : List (Frame Item)) :
    ∃ way zero one, plug outer tree = plug way (.node item zero one) := by
  induction tree generalizing outer with
  | nil => simp at member
  | node here zero one ihZero ihOne =>
      rcases List.mem_cons.mp member with rfl | below
      · exact ⟨outer, zero, one, rfl⟩
      · rcases List.mem_append.mp below with left | right
        · exact ihZero left (⟨here, false, one⟩ :: outer)
        · exact ihOne right (⟨here, true, zero⟩ :: outer)

/-! ## Placement -/

variable {bit : Item → Nat → Bool}

def Digital (bit : Item → Nat → Bool) : Nat → BinaryTree Item → Prop
  | _, .nil => True
  | depth, .node _ zero one =>
      (∀ item ∈ items zero, bit item depth = false) ∧ (∀ item ∈ items one, bit item depth = true) ∧
        Digital bit (depth + 1) zero ∧ Digital bit (depth + 1) one

/-- The digits at the depths of a way are the sides it takes. -/
def Follows (digit : Nat → Bool) : List (Frame Item) → Prop
  | [] => True
  | frame :: outer => digit outer.length = frame.side ∧ Follows digit outer

/-- What a way passes is placed. -/
def Aligned (bit : Item → Nat → Bool) : List (Frame Item) → Prop
  | [] => True
  | frame :: outer =>
      (∀ item ∈ items frame.other, bit item outer.length = !frame.side) ∧
        Digital bit (outer.length + 1) frame.other ∧
        (∀ item ∈ frame.members, Follows (bit item) outer) ∧ Aligned bit outer

theorem digital_fill {frame : Frame Item} {depth : Nat} {tree : BinaryTree Item} :
    Digital bit depth (frame.fill tree) ↔
      (∀ item ∈ items tree, bit item depth = frame.side) ∧
        (∀ item ∈ items frame.other, bit item depth = !frame.side) ∧
        Digital bit (depth + 1) tree ∧ Digital bit (depth + 1) frame.other := by
  obtain ⟨item, side, other⟩ := frame
  cases side with
  | false =>
      simp only [Frame.fill, Bool.false_eq_true, if_false, Digital, Bool.not_false]
  | true =>
      simp only [Frame.fill, if_true, Digital, Bool.not_true]
      tauto

theorem digital_plug {way : List (Frame Item)} {tree : BinaryTree Item} :
    Digital bit 0 (plug way tree) ↔
      Digital bit way.length tree ∧ (∀ item ∈ items tree, Follows (bit item) way) ∧
        Aligned bit way := by
  induction way generalizing tree with
  | nil => simp [plug, Follows, Aligned]
  | cons frame outer ih =>
      simp only [plug, ih, digital_fill, Frame.mem_fill, Follows, Aligned, List.length_cons]
      constructor
      · rintro ⟨⟨inside, beside, below, other⟩, follow, outside⟩
        exact ⟨below, fun item member => ⟨inside item member, follow item (Or.inr member)⟩,
          beside, other, fun item member => follow item (Or.inl member), outside⟩
      · rintro ⟨below, inside, beside, other, follow, outside⟩
        refine ⟨⟨fun item member => (inside item member).1, beside, below, other⟩, ?_, outside⟩
        rintro item (passed | member)
        · exact follow item passed
        · exact (inside item member).2

/-! ## Searching -/

variable {digit : Key → Nat → Bool} {key : Item → Key}

/-- A placed subtree at some depth, all of whose keys begin with the same digits. -/
structure Sorted (digit : Key → Nat → Bool) (key : Item → Key) (among : Set Key) (depth : Nat)
    (start : Nat → Bool) (tree : BinaryTree Item) : Prop where
  placed : Digital (fun item => digit (key item)) depth tree
  begins : ∀ item ∈ items tree, ∀ i < depth, digit (key item) i = start i
  known : ∀ item ∈ items tree, key item ∈ among

namespace Sorted

variable {among : Set Key} {depth : Nat} {start : Nat → Bool} {item : Item}
  {zero one tree : BinaryTree Item}

theorem nil : Sorted digit key among depth start .nil := ⟨trivial, by simp, by simp⟩

theorem onZero (sorted : Sorted digit key among depth start (.node item zero one)) :
    Sorted digit key among (depth + 1) (Function.update start depth false) zero := by
  refine ⟨sorted.placed.2.2.1, fun other member i below => ?_, fun other member => ?_⟩
  · rcases Nat.lt_succ_iff_lt_or_eq.mp below with before | rfl
    · rw [Function.update_of_ne (Nat.ne_of_lt before)]
      exact sorted.begins other (by simp [member]) i before
    · rw [Function.update_self]
      exact sorted.placed.1 other member
  · exact sorted.known other (by simp [member])

theorem onOne (sorted : Sorted digit key among depth start (.node item zero one)) :
    Sorted digit key among (depth + 1) (Function.update start depth true) one := by
  refine ⟨sorted.placed.2.2.2, fun other member i below => ?_, fun other member => ?_⟩
  · rcases Nat.lt_succ_iff_lt_or_eq.mp below with before | rfl
    · rw [Function.update_of_ne (Nat.ne_of_lt before)]
      exact sorted.begins other (by simp [member]) i before
    · rw [Function.update_self]
      exact sorted.placed.2.1 other member
  · exact sorted.known other (by simp [member])

theorem onSide {goal : Key}
    (sorted : Sorted digit key among depth (digit goal) (.node item zero one)) :
    (digit goal depth = false → Sorted digit key among (depth + 1) (digit goal) zero) ∧
      (digit goal depth = true → Sorted digit key among (depth + 1) (digit goal) one) := by
  constructor
  · intro clear
    simpa [← clear] using sorted.onZero
  · intro set
    simpa [← set] using sorted.onOne

/-- Subtrees are sorted as well, further down. -/
theorem plug {way : List (Frame Item)}
    (sorted : Sorted digit key among depth start (DigitalTree.plug way tree)) :
    ∃ depth' start', Sorted digit key among depth' start' tree := by
  induction way generalizing tree with
  | nil => exact ⟨depth, start, sorted⟩
  | cons frame outer ih =>
      obtain ⟨item, side, other⟩ := frame
      obtain ⟨depth', start', filled⟩ := ih sorted
      cases side with
      | false => exact ⟨_, _, filled.onZero⟩
      | true => exact ⟨_, _, filled.onOne⟩

end Sorted

variable [LinearOrder Key]

/-- Of two keys that first differ at some depth, the one with the clear bit is less. -/
def Lexicographic (digit : Key → Nat → Bool) (among : Set Key) : Prop :=
  ∀ low ∈ among, ∀ high ∈ among, ∀ depth, (∀ i < depth, digit low i = digit high i) →
    digit low depth = false → digit high depth = true → low < high

/-- Below a node, the zero side is below the one side. -/
theorem Sorted.zero_lt_one {among : Set Key} {depth : Nat} {start : Nat → Bool} {item : Item}
    {zero one : BinaryTree Item} (lexicographic : Lexicographic digit among)
    (sorted : Sorted digit key among depth start (.node item zero one)) {low high : Item}
    (left : low ∈ items zero) (right : high ∈ items one) : key low < key high := by
  refine lexicographic _ (sorted.known low (by simp [left])) _
    (sorted.known high (by simp [right])) depth (fun i below => ?_)
    (sorted.placed.1 low left) (sorted.placed.2.1 high right)
  rw [sorted.begins low (by simp [left]) i below, sorted.begins high (by simp [right]) i below]

/-- The path that always takes the zero child, or the one child if there is none. -/
def spine : BinaryTree Item → List Item
  | .nil => []
  | .node item zero one => item :: (if items zero = [] then spine one else spine zero)

theorem spine_node (item : Item) (zero one : BinaryTree Item) :
    spine (.node item zero one) = item :: spine (if items zero = [] then one else zero) := by
  rw [spine]
  split <;> rfl

theorem spine_subset {tree : BinaryTree Item} {item : Item} (member : item ∈ spine tree) :
    item ∈ items tree := by
  induction tree with
  | nil => simp [spine] at member
  | node here zero one ihZero ihOne =>
      simp only [spine, List.mem_cons] at member
      rcases member with rfl | below
      · simp
      · split at below
        · simp [ihOne below]
        · simp [ihZero below]

theorem spine_least {among : Set Key} (lexicographic : Lexicographic digit among) {depth : Nat}
    {start : Nat → Bool} {tree : BinaryTree Item}
    (sorted : Sorted digit key among depth start tree) :
    ∀ item ∈ items tree, ∃ least ∈ spine tree, key least ≤ key item := by
  induction tree generalizing depth start with
  | nil => simp
  | node here zero one ihZero ihOne =>
      intro item member
      rw [items_node, List.mem_cons, List.mem_append] at member
      by_cases empty : items zero = []
      · simp only [spine, if_pos empty]
        rcases member with rfl | left | right
        · exact ⟨item, by simp, le_refl _⟩
        · simp [empty] at left
        · obtain ⟨least, onSpine, below⟩ := ihOne sorted.onOne item right
          exact ⟨least, by simp [onSpine], below⟩
      · simp only [spine, if_neg empty]
        rcases member with rfl | left | right
        · exact ⟨item, by simp, le_refl _⟩
        · obtain ⟨least, onSpine, below⟩ := ihZero sorted.onZero item left
          exact ⟨least, by simp [onSpine], below⟩
        · -- anything on the zero side is below the item
          obtain ⟨witness, left⟩ := List.exists_mem_of_ne_nil _ empty
          obtain ⟨least, onSpine, below⟩ := ihZero sorted.onZero witness left
          have ordered := sorted.zero_lt_one lexicographic left right
          exact ⟨least, by simp [onSpine], le_of_lt (lt_of_le_of_lt below ordered)⟩

/-- The nodes met when the goal's digits are followed. -/
def trail (goal : Nat → Bool) : Nat → BinaryTree Item → List Item
  | _, .nil => []
  | depth, .node item zero one =>
      item :: (if goal depth then trail goal (depth + 1) one else trail goal (depth + 1) zero)

/-- The deepest tree left on the one side when the goal's digits are followed,
`rest` if none is. -/
def aside (goal : Nat → Bool) : Nat → BinaryTree Item → BinaryTree Item → BinaryTree Item
  | _, rest, .nil => rest
  | depth, rest, .node _ zero one =>
      if goal depth then aside goal (depth + 1) rest one
      else aside goal (depth + 1) (if items one = [] then rest else one) zero

theorem trail_node (goal : Nat → Bool) (depth : Nat) (item : Item) (zero one : BinaryTree Item) :
    trail goal depth (.node item zero one) =
      item :: trail goal (depth + 1) (if goal depth then one else zero) := by
  rw [trail]
  split <;> rfl

theorem aside_node (goal : Nat → Bool) (depth : Nat) (rest : BinaryTree Item) (item : Item)
    (zero one : BinaryTree Item) :
    aside goal depth rest (.node item zero one) =
      aside goal (depth + 1) (if goal depth then rest else if items one = [] then rest else one)
        (if goal depth then one else zero) := by
  rw [aside]
  split <;> rfl

theorem trail_subset {goal : Nat → Bool} {depth : Nat} {tree : BinaryTree Item} {item : Item}
    (member : item ∈ trail goal depth tree) : item ∈ items tree := by
  induction tree generalizing depth with
  | nil => simp [trail] at member
  | node here zero one ihZero ihOne =>
      simp only [trail, List.mem_cons] at member
      rcases member with rfl | below
      · simp
      · split at below
        · simp [ihOne below]
        · simp [ihZero below]

/-- What is left aside is `rest` or a subtree: it has every property both have. -/
theorem aside_of (holds : BinaryTree Item → Prop) (goal : Nat → Bool) {depth : Nat}
    {rest tree : BinaryTree Item} (atRest : holds rest)
    (below : ∀ way side, tree = plug way side → holds side) :
    holds (aside goal depth rest tree) := by
  induction tree generalizing depth rest with
  | nil => exact atRest
  | node here zero one ihZero ihOne =>
      have inZero : ∀ way side, zero = plug way side → holds side := by
        rintro way side rfl
        exact below (way ++ [⟨here, false, one⟩]) side (by rw [plug_append]; rfl)
      have inOne : ∀ way side, one = plug way side → holds side := by
        rintro way side rfl
        exact below (way ++ [⟨here, true, zero⟩]) side (by rw [plug_append]; rfl)
      simp only [aside]
      split
      · exact ihOne atRest inOne
      · apply ihZero _ inZero
        split
        · exact atRest
        · exact inOne [] one rfl

section Fit

variable {among : Set Key} {goal : Key}

/-- Every item at or above the goal has one at or above the goal, and not above
the item, on the goal's path or aside of it. -/
theorem aside_covers (lexicographic : Lexicographic digit among) (asked : goal ∈ among)
    {depth : Nat} {rest tree : BinaryTree Item}
    (sorted : Sorted digit key among depth (digit goal) tree)
    (apart : ∀ far ∈ items rest, ∀ item ∈ items tree, key item < key far) :
    ∀ item, item ∈ items tree ∨ item ∈ items rest → goal ≤ key item →
      (∃ found ∈ trail (digit goal) depth tree, goal ≤ key found ∧ key found ≤ key item) ∨
        ∃ found ∈ items (aside (digit goal) depth rest tree), key found ≤ key item := by
  -- all of `rest` stays above the tree the path has reached
  induction tree generalizing depth rest with
  | nil =>
      intro item member _
      exact Or.inr ⟨item, by simpa [aside] using member, le_refl _⟩
  | node here zero one ihZero ihOne =>
      intro item member enough
      rw [items_node, List.mem_cons, List.mem_append] at member
      simp only [trail, aside]
      have later : ∀ {path : List Item}, (∃ found ∈ path, goal ≤ key found ∧ key found ≤ key item) →
          ∃ found ∈ here :: path, goal ≤ key found ∧ key found ≤ key item :=
        Exists.imp fun found fits => ⟨List.mem_cons_of_mem _ fits.1, fits.2⟩
      cases turn : digit goal depth with
      | true =>
          simp only [if_true]
          have further : ∀ far ∈ items rest, ∀ other ∈ items one, key other < key far :=
            fun far outside other inside => apart far outside other (by simp [inside])
          have covered := ihOne (sorted.onSide.2 turn) further item
          rcases member with (rfl | left | right) | far
          · exact Or.inl ⟨item, List.mem_cons_self, enough, le_refl _⟩
          · -- the goal goes to the one side, so this side is below it
            have less := lexicographic _ (sorted.known item (by simp [left])) _ asked depth
              (sorted.begins item (by simp [left])) (sorted.placed.1 item left) turn
            exact absurd enough (not_le_of_gt less)
          · exact (covered (Or.inl right) enough).imp_left later
          · exact (covered (Or.inr far) enough).imp_left later
      | false =>
          simp only [Bool.false_eq_true, if_false]
          have further : ∀ far ∈ items (if items one = [] then rest else one),
              ∀ other ∈ items zero, key other < key far := by
            intro far outside other inside
            split at outside
            · exact apart far outside other (by simp [inside])
            · exact sorted.zero_lt_one lexicographic inside outside
          have covered := ihZero (sorted.onSide.1 turn) further
          rcases member with (rfl | left | right) | far
          · exact Or.inl ⟨item, List.mem_cons_self, enough, le_refl _⟩
          · exact (covered item (Or.inl left) enough).imp_left later
          · have nonempty : items one ≠ [] := List.ne_nil_of_mem right
            rw [if_neg nonempty] at covered ⊢
            exact (covered item (Or.inr right) enough).imp_left later
          · by_cases empty : items one = []
            · rw [if_pos empty] at covered ⊢
              exact (covered item (Or.inr far) enough).imp_left later
            · -- the one side is left aside instead of `rest`, and below it
              obtain ⟨nearer, right⟩ := List.exists_mem_of_ne_nil _ empty
              have less := apart item far nearer (by simp [right])
              have above := lexicographic _ asked _ (sorted.known nearer (by simp [right])) depth
                (fun i below => (sorted.begins nearer (by simp [right]) i below).symm) turn
                (sorted.placed.2.1 nearer right)
              rw [if_neg empty] at covered ⊢
              rcases covered nearer (Or.inr right) (le_of_lt above) with
                ⟨found, onTrail, enough', below⟩ | ⟨found, beside, below⟩
              · exact Or.inl ⟨found, List.mem_cons_of_mem _ onTrail, enough',
                  le_of_lt (lt_of_le_of_lt below less)⟩
              · exact Or.inr ⟨found, beside, le_of_lt (lt_of_le_of_lt below less)⟩

theorem aside_above (lexicographic : Lexicographic digit among) (asked : goal ∈ among)
    {depth : Nat} {rest tree : BinaryTree Item}
    (sorted : Sorted digit key among depth (digit goal) tree)
    (above : ∀ far ∈ items rest, goal < key far) :
    ∀ item ∈ items (aside (digit goal) depth rest tree), goal < key item := by
  induction tree generalizing depth rest with
  | nil => simpa [aside] using above
  | node here zero one ihZero ihOne =>
      simp only [aside]
      cases turn : digit goal depth with
      | true =>
          rw [if_pos rfl]
          exact ihOne (sorted.onSide.2 turn) above
      | false =>
          rw [if_neg (by simp)]
          -- one children differ from the goal at this digit, upward
          refine ihZero (sorted.onSide.1 turn) fun item member => ?_
          split at member
          · exact above item member
          · exact lexicographic _ asked _ (sorted.known item (by simp [member])) depth
              (fun i below => (sorted.begins item (by simp [member]) i below).symm) turn
              (sorted.placed.2.1 item member)

end Fit

end DigitalTree
