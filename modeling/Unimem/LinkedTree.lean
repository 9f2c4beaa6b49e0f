import Unimem.DigitalTree

/-!
Binary trees in memory: a node is known by its address, and its two child links
hold the addresses of the nodes below it, or zero. What else a node keeps is a
condition `own` on its item and on the address of the node above it, so parent
links are part of it. A tree is linked if the way to a subtree and the subtree
are, which is how one link is changed at a time.
-/

namespace LinkedTree

open DigitalTree

variable {Item Address : Type} [Zero Address] {place : Item → Address}
  {child child' : Bool → Address → Address} {own own' : Option Address → Item → Prop}
  {up : Option Address}

def address (place : Item → Address) : BinaryTree Item → Address
  | .nil => 0
  | .node item _ _ => place item

@[simp] theorem address_nil : address place .nil = 0 := rfl

@[simp] theorem address_node (item : Item) (zero one : BinaryTree Item) :
    address place (.node item zero one) = place item := rfl

def TreeAt (place : Item → Address) (child : Bool → Address → Address)
    (own : Option Address → Item → Prop) : Option Address → BinaryTree Item → Prop
  | _, .nil => True
  | up, .node item zero one =>
      own up item ∧ child false (place item) = address place zero ∧
        child true (place item) = address place one ∧
        TreeAt place child own (some (place item)) zero ∧
        TreeAt place child own (some (place item)) one

/-- The address of the node above the end of a way. -/
def above (place : Item → Address) (up : Option Address) : List (Frame Item) → Option Address
  | [] => up
  | frame :: _ => some (place frame.item)

/-- The way is linked down to a node at `hole`. -/
def Framed (place : Item → Address) (child : Bool → Address → Address)
    (own : Option Address → Item → Prop) (up : Option Address) :
    List (Frame Item) → Address → Prop
  | [], _ => True
  | frame :: outer, hole =>
      own (above place up outer) frame.item ∧ child frame.side (place frame.item) = hole ∧
        child (!frame.side) (place frame.item) = address place frame.other ∧
        TreeAt place child own (some (place frame.item)) frame.other ∧
        Framed place child own up outer (place frame.item)

@[simp] theorem address_fill (frame : Frame Item) (tree : BinaryTree Item) :
    address place (frame.fill tree) = place frame.item := by
  unfold Frame.fill
  split <;> rfl

theorem treeAt_fill {frame : Frame Item} {tree : BinaryTree Item} :
    TreeAt place child own up (frame.fill tree) ↔
      own up frame.item ∧ child frame.side (place frame.item) = address place tree ∧
        child (!frame.side) (place frame.item) = address place frame.other ∧
        TreeAt place child own (some (place frame.item)) tree ∧
        TreeAt place child own (some (place frame.item)) frame.other := by
  obtain ⟨item, side, other⟩ := frame
  cases side with
  | false => simp only [Frame.fill, Bool.false_eq_true, if_false, TreeAt, Bool.not_false]
  | true =>
      simp only [Frame.fill, if_true, TreeAt, Bool.not_true]
      tauto

theorem treeAt_plug {way : List (Frame Item)} {tree : BinaryTree Item} :
    TreeAt place child own up (plug way tree) ↔
      Framed place child own up way (address place tree) ∧
        TreeAt place child own (above place up way) tree := by
  induction way generalizing tree with
  | nil => simp [plug, Framed, above]
  | cons frame outer ih =>
      rw [plug, ih, treeAt_fill, address_fill]
      simp only [Framed, above]
      tauto

theorem TreeAt.congr {tree : BinaryTree Item} (linked : TreeAt place child own up tree)
    (owns : ∀ item ∈ items tree, ∀ up, own up item → own' up item)
    (same : ∀ item ∈ items tree, ∀ side, child' side (place item) = child side (place item)) :
    TreeAt place child' own' up tree := by
  induction tree generalizing up with
  | nil => exact trivial
  | node item zero one ihZero ihOne =>
      obtain ⟨here, toZero, toOne, inZero, inOne⟩ := linked
      refine ⟨owns item (by simp) up here, ?_, ?_, ihZero inZero ?_ ?_, ihOne inOne ?_ ?_⟩
      · exact (same item (by simp) false).trans toZero
      · exact (same item (by simp) true).trans toOne
      · exact fun other member => owns other (by simp [member])
      · exact fun other member => same other (by simp [member])
      · exact fun other member => owns other (by simp [member])
      · exact fun other member => same other (by simp [member])

/-- Every node but the root has the address of a node of the tree above it. -/
theorem TreeAt.owned {tree : BinaryTree Item} (linked : TreeAt place child own up tree) :
    ∀ item ∈ items tree, (address place tree = place item ∧ own up item) ∨
      ∃ parent ∈ items tree, own (some (place parent)) item := by
  induction tree generalizing up with
  | nil => simp
  | node root zero one ihZero ihOne =>
      obtain ⟨here, -, -, inZero, inOne⟩ := linked
      intro item member
      rw [items_node, List.mem_cons, List.mem_append] at member
      rcases member with rfl | left | right
      · exact Or.inl ⟨rfl, here⟩
      · rcases ihZero inZero item left with ⟨-, below⟩ | ⟨parent, inside, below⟩
        · exact Or.inr ⟨root, by simp, below⟩
        · exact Or.inr ⟨parent, by simp [inside], below⟩
      · rcases ihOne inOne item right with ⟨-, below⟩ | ⟨parent, inside, below⟩
        · exact Or.inr ⟨root, by simp, below⟩
        · exact Or.inr ⟨parent, by simp [inside], below⟩

theorem TreeAt.holds {tree : BinaryTree Item} (linked : TreeAt place child own up tree) :
    ∀ item ∈ items tree, ∃ up, own up item := by
  intro item member
  rcases linked.owned item member with ⟨-, here⟩ | ⟨parent, -, here⟩
  · exact ⟨_, here⟩
  · exact ⟨_, here⟩

theorem address_mem (tree : BinaryTree Item) :
    address place tree = 0 ∨ ∃ item ∈ items tree, address place tree = place item := by
  cases tree with
  | nil => exact Or.inl rfl
  | node item zero one => exact Or.inr ⟨item, by simp, rfl⟩

/-- Child links lead to nodes of the tree. -/
theorem TreeAt.children {tree : BinaryTree Item} (linked : TreeAt place child own up tree) :
    ∀ item ∈ items tree, ∀ side, child side (place item) = 0 ∨
      ∃ below ∈ items tree, child side (place item) = place below := by
  induction tree generalizing up with
  | nil => simp
  | node root zero one ihZero ihOne =>
      obtain ⟨-, toZero, toOne, inZero, inOne⟩ := linked
      intro item member side
      rw [items_node, List.mem_cons, List.mem_append] at member
      rcases member with rfl | left | right
      · cases side with
        | false =>
            rw [toZero]
            exact (address_mem zero).imp_right (Exists.imp fun below found => by simp [found])
        | true =>
            rw [toOne]
            exact (address_mem one).imp_right (Exists.imp fun below found => by simp [found])
      · exact (ihZero inZero item left side).imp_right
          (Exists.imp fun below found => by simp [found])
      · exact (ihOne inOne item right side).imp_right
          (Exists.imp fun below found => by simp [found])

/-- The node a non-empty way starts from is one it passes. -/
theorem address_plug {frame : Frame Item} {outer : List (Frame Item)} {tree : BinaryTree Item} :
    ∃ item ∈ passed (frame :: outer), address place (plug (frame :: outer) tree) = place item := by
  induction outer generalizing frame tree with
  | nil => exact ⟨frame.item, by simp [Frame.members], address_fill frame tree⟩
  | cons next rest ih =>
      have onward : plug (frame :: next :: rest) tree = plug (next :: rest) (frame.fill tree) := rfl
      rw [onward]
      obtain ⟨item, member, root⟩ := ih
      exact ⟨item, List.mem_append_right _ member, root⟩

theorem address_plug_same (way : List (Frame Item)) {tree tree' : BinaryTree Item}
    (same : address place tree = address place tree') :
    address place (plug way tree) = address place (plug way tree') := by
  induction way generalizing tree tree' with
  | nil => exact same
  | cons frame outer ih => exact ih (by rw [address_fill, address_fill])

theorem Framed.congr {way : List (Frame Item)} {hole : Address}
    (framed : Framed place child own up way hole)
    (owns : ∀ item ∈ passed way, ∀ up, own up item → own' up item)
    (same : ∀ item ∈ passed way, ∀ side, child' side (place item) = child side (place item)) :
    Framed place child' own' up way hole := by
  induction way generalizing hole with
  | nil => exact trivial
  | cons frame outer ih =>
      obtain ⟨here, down, beside, other, outside⟩ := framed
      have atHere : frame.item ∈ passed (frame :: outer) := by simp [Frame.members]
      refine ⟨owns _ atHere _ here, (same _ atHere _).trans down, (same _ atHere _).trans beside,
        other.congr ?_ ?_, ih outside ?_ ?_⟩
      · exact fun item member => owns item (by simp [Frame.members, member])
      · exact fun item member => same item (by simp [Frame.members, member])
      · exact fun item member => owns item (by simp [member])
      · exact fun item member => same item (by simp [member])

/-- The link above the end of a way is changed. -/
theorem Framed.relink {frame : Frame Item} {outer : List (Frame Item)} {hole hole' : Address}
    (framed : Framed place child own up (frame :: outer) hole)
    (owns : ∀ item ∈ passed (frame :: outer), ∀ up, own up item → own' up item)
    (down : child' frame.side (place frame.item) = hole')
    (beside : child' (!frame.side) (place frame.item) = child (!frame.side) (place frame.item))
    (same : ∀ item ∈ items frame.other ++ passed outer, ∀ side,
      child' side (place item) = child side (place item)) :
    Framed place child' own' up (frame :: outer) hole' := by
  obtain ⟨here, -, there, other, outside⟩ := framed
  refine ⟨owns _ (by simp [Frame.members]) _ here, down, beside.trans there, other.congr ?_ ?_,
    outside.congr ?_ ?_⟩
  · exact fun item member => owns item (by simp [Frame.members, member])
  · exact fun item member => same item (by simp [member])
  · exact fun item member => owns item (by simp [member])
  · exact fun item member => same item (by simp [member])

end LinkedTree
