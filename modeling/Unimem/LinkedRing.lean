import Mathlib.Tactic

/-!
Doubly linked chains and rings over any node type. The links are two functions,
so a memory in any representation can be read as a pair of them. A ring runs
from a header through its members and back to the header.
-/

namespace LinkedRing

variable {Node : Type} {next prev next' prev' : Node → Node}

def Chain (next prev : Node → Node) : Node → List Node → Node → Prop
  | source, [], target => next source = target ∧ prev target = source
  | source, first :: rest, target =>
      next source = first ∧ prev first = source ∧ Chain next prev first rest target

def Ring (next prev : Node → Node) (header : Node) (members : List Node) : Prop :=
  Chain next prev header members header

theorem chain_append (source middle target : Node) (left right : List Node) :
    Chain next prev source (left ++ middle :: right) target ↔
      Chain next prev source left middle ∧ Chain next prev middle right target := by
  induction left generalizing source with
  | nil => simp [Chain, and_assoc]
  | cons first rest ih => simp [Chain, ih, and_assoc]

theorem chain_congr {source target : Node} {members : List Node}
    (chain : Chain next prev source members target)
    (sameNext : ∀ node ∈ source :: members, next' node = next node)
    (samePrev : ∀ node ∈ members ++ [target], prev' node = prev node) :
    Chain next' prev' source members target := by
  induction members generalizing source with
  | nil =>
      exact ⟨(sameNext source (by simp)).trans chain.1, (samePrev target (by simp)).trans chain.2⟩
  | cons first rest ih =>
      refine ⟨(sameNext source (by simp)).trans chain.1,
        (samePrev first (by simp)).trans chain.2.1, ih chain.2.2 ?_ ?_⟩
      · exact fun node member => sameNext node (List.mem_cons_of_mem _ member)
      · exact fun node member => samePrev node (List.mem_cons_of_mem _ member)

theorem ring_congr {header : Node} {members : List Node} (ring : Ring next prev header members)
    (sameNext : ∀ node ∈ header :: members, next' node = next node)
    (samePrev : ∀ node ∈ header :: members, prev' node = prev node) :
    Ring next' prev' header members := by
  refine chain_congr ring sameNext fun node member => samePrev node ?_
  simpa [or_comm] using member

theorem chain_next {source target : Node} {members : List Node}
    (chain : Chain next prev source members target) : next source = members.headD target := by
  cases members with
  | nil => exact chain.1
  | cons first rest => exact chain.1

theorem chain_prev {source target : Node} {members : List Node}
    (chain : Chain next prev source members target) : prev target = members.getLastD source := by
  induction members generalizing source with
  | nil => exact chain.2
  | cons first rest ih =>
      rw [List.getLastD_cons]
      exact ih chain.2.2

/-- The neighbours of a member, read off the list. -/
theorem ring_neighbours {header node : Node} {left right : List Node}
    (ring : Ring next prev header (left ++ node :: right)) :
    next node = right.headD header ∧ prev node = left.getLastD header ∧
      next (left.getLastD header) = node ∧ prev (right.headD header) = node := by
  obtain ⟨before, after⟩ := (chain_append header node header left right).mp ring
  refine ⟨chain_next after, chain_prev before, ?_, ?_⟩
  · rcases List.eq_nil_or_concat left with rfl | ⟨most, last, rfl⟩
    · exact before.1
    · rw [List.concat_eq_append, chain_append] at before
      simpa [List.getLastD_concat, Chain] using before.2.1
  · cases right with
    | nil => exact after.2
    | cons first rest => exact after.2.1

/-- The header's own neighbours. -/
theorem ring_header {header : Node} {members : List Node} (ring : Ring next prev header members) :
    next header = members.headD header ∧ prev header = members.getLastD header ∧
      next (members.getLastD header) = header ∧ prev (members.headD header) = header := by
  refine ⟨chain_next ring, chain_prev ring, ?_, ?_⟩
  · rcases List.eq_nil_or_concat members with rfl | ⟨most, last, rfl⟩
    · exact ring.1
    · rw [List.concat_eq_append, Ring, chain_append] at ring
      simpa [List.getLastD_concat, Chain] using ring.2.1
  · cases members with
    | nil => exact ring.2
    | cons first rest => exact ring.2.1

/-- The list determines the links of a ring. -/
theorem ring_links {header : Node} {members : List Node} (ring : Ring next prev header members)
    (other : Ring next' prev' header members) :
    ∀ node ∈ header :: members, next' node = next node ∧ prev' node = prev node := by
  intro node member
  rcases List.mem_cons.mp member with rfl | inside
  · have one := ring_header ring
    have two := ring_header other
    exact ⟨two.1.trans one.1.symm, two.2.1.trans one.2.1.symm⟩
  · obtain ⟨left, right, rfl⟩ := List.append_of_mem inside
    have one := ring_neighbours ring
    have two := ring_neighbours other
    exact ⟨two.1.trans one.1.symm, two.2.1.trans one.2.1.symm⟩

/-- Linking a node in directly behind the source. -/
theorem chain_insert {source target node : Node} {members : List Node}
    (chain : Chain next prev source members target)
    (sourceNext : next' source = node) (nodePrev : prev' node = source)
    (nodeNext : next' node = members.headD target)
    (headPrev : prev' (members.headD target) = node)
    (sameNext : ∀ other ∈ members, next' other = next other)
    (samePrev : ∀ other ∈ (members ++ [target]).tail, prev' other = prev other) :
    Chain next' prev' source (node :: members) target := by
  refine ⟨sourceNext, nodePrev, ?_⟩
  cases members with
  | nil => exact ⟨nodeNext, headPrev⟩
  | cons first rest => exact ⟨nodeNext, headPrev, chain_congr chain.2.2 sameNext samePrev⟩

/-- The header's ring gets a new first member. Nothing is assumed of a header
that had no members: its stale links are overwritten. -/
theorem ring_insert {header node : Node} {members : List Node}
    (nodup : (header :: members).Nodup) (fresh : node ∉ header :: members)
    (ring : members ≠ [] → Ring next prev header members)
    (headerNext : next' header = node) (nodePrev : prev' node = header)
    (nodeNext : next' node = members.headD header)
    (headPrev : prev' (members.headD header) = node)
    (sameNext : ∀ other ∈ members, next' other = next other)
    (samePrev : ∀ other ∈ header :: members, other ≠ members.headD header →
      prev' other = prev other) :
    Ring next' prev' header (node :: members) := by
  cases members with
  | nil => exact ⟨headerNext, nodePrev, nodeNext, headPrev⟩
  | cons first rest =>
      refine chain_insert (ring (by simp)) headerNext nodePrev nodeNext headPrev sameNext ?_
      intro other member
      have inRing : other ∈ header :: first :: rest := by
        simp only [List.cons_append, List.tail_cons, List.mem_append, List.mem_singleton] at member
        rcases member with inRest | rfl
        · simp [inRest]
        · simp
      refine samePrev other inRing ?_
      rintro rfl
      simp only [List.nodup_cons, List.mem_cons, List.cons_append, List.tail_cons,
        List.mem_append, List.not_mem_nil, or_false] at nodup member
      grind

/-- Bridging over a member takes exactly it out of the ring. -/
theorem ring_remove {header node : Node} {left right : List Node}
    (nodup : (header :: (left ++ node :: right)).Nodup)
    (ring : Ring next prev header (left ++ node :: right))
    (bridgeNext : next' (left.getLastD header) = right.headD header)
    (bridgePrev : prev' (right.headD header) = left.getLastD header)
    (sameNext : ∀ other ∈ header :: (left ++ right), other ≠ left.getLastD header →
      next' other = next other)
    (samePrev : ∀ other ∈ header :: (left ++ right), other ≠ right.headD header →
      prev' other = prev other) :
    Ring next' prev' header (left ++ right) := by
  obtain ⟨before, after⟩ := (chain_append header node header left right).mp ring
  have leftPart : ∀ (middle : Node), next' (left.getLastD header) = middle →
      prev' middle = left.getLastD header → Chain next' prev' header left middle := by
    intro middle bridged back
    rcases List.eq_nil_or_concat left with rfl | ⟨most, last, rfl⟩
    · exact ⟨bridged, back⟩
    · simp only [List.concat_eq_append, List.getLastD_concat] at *
      refine (chain_append header last middle most []).mpr ⟨?_, bridged, back⟩
      refine chain_congr ((chain_append header last node most []).mp before).1 ?_ ?_
      · intro other member
        refine sameNext other (by simp at member ⊢; tauto) ?_
        rintro rfl
        grind
      · intro other member
        refine samePrev other (by simp at member ⊢; tauto) ?_
        rintro rfl
        cases right <;> grind
  cases right with
  | nil => simpa [Ring] using leftPart header bridgeNext bridgePrev
  | cons first rest =>
      refine (chain_append header first header left rest).mpr
        ⟨leftPart first bridgeNext bridgePrev, chain_congr after.2.2 ?_ ?_⟩
      · intro other member
        refine sameNext other (by simp at member ⊢; tauto) ?_
        rintro rfl
        rcases List.eq_nil_or_concat left with rfl | ⟨most, last, rfl⟩ <;> grind
      · intro other member
        refine samePrev other (by simp at member ⊢; tauto) ?_
        rintro rfl
        grind

/-- Taking out the header itself: its last member becomes the header. -/
theorem ring_remove_header {header last : Node} {members : List Node}
    (nodup : (header :: (members ++ [last])).Nodup)
    (ring : Ring next prev header (members ++ [last]))
    (lastNext : next' last = members.headD last)
    (headPrev : prev' (members.headD last) = last)
    (sameNext : ∀ other ∈ members, next' other = next other)
    (samePrev : ∀ other ∈ members ++ [last], other ≠ members.headD last →
      prev' other = prev other) :
    Ring next' prev' last members := by
  have before := ((chain_append header last header members []).mp ring).1
  cases members with
  | nil => exact ⟨lastNext, headPrev⟩
  | cons first rest =>
      refine ⟨lastNext, headPrev, chain_congr before.2.2 sameNext ?_⟩
      intro other member
      refine samePrev other (by simp at member ⊢; tauto) ?_
      rintro rfl
      grind

/-- What following `next` from the header meets before it comes back. -/
inductive Reached (next : Node → Node) (header : Node) : Node → Prop
  | first : next header ≠ header → Reached next header (next header)
  | later {node : Node} : Reached next header node → next node ≠ header →
      Reached next header (next node)

theorem chain_follow {source target : Node} {members : List Node}
    (chain : Chain next prev source members target) :
    ∀ node ∈ source :: members, next node ∈ members ++ [target] := by
  induction members generalizing source with
  | nil =>
      intro node member
      rw [List.mem_singleton.mp member, chain.1]
      exact List.mem_cons_self
  | cons first rest ih =>
      intro node member
      rcases List.mem_cons.mp member with rfl | later
      · rw [chain.1]
        exact List.mem_cons_self
      · exact List.mem_cons_of_mem _ (ih chain.2.2 node later)

theorem chain_back {source target : Node} {members : List Node}
    (chain : Chain next prev source members target) :
    ∀ node ∈ members ++ [target], prev node ∈ source :: members := by
  induction members generalizing source with
  | nil =>
      intro node member
      rw [List.mem_singleton.mp member, chain.2]
      exact List.mem_cons_self
  | cons first rest ih =>
      intro node member
      rcases List.mem_cons.mp member with rfl | later
      · rw [chain.2.1]
        exact List.mem_cons_self
      · exact List.mem_cons_of_mem _ (ih chain.2.2 node later)

theorem ring_reached {header node : Node} {members : List Node}
    (nodup : (header :: members).Nodup) (ring : Ring next prev header members) :
    Reached next header node ↔ node ∈ members := by
  have outside := (List.nodup_cons.mp nodup).1
  constructor
  · intro reached
    induction reached with
    | first away =>
        have follows := chain_follow ring header List.mem_cons_self
        simpa [away] using follows
    | later _ away ih =>
        have follows := chain_follow ring _ (List.mem_cons_of_mem _ ih)
        simpa [away] using follows
  · -- from any node reached so far, what is left of the chain is reached
    have walk : ∀ (rest : List Node) (source : Node), header ∉ rest →
        (source = header ∨ Reached next header source) → Chain next prev source rest header →
        ∀ node ∈ rest, Reached next header node := by
      intro rest
      induction rest with
      | nil => intro source _ _ _ node member; cases member
      | cons first rest ih =>
          intro source away from_ chain node member
          simp only [List.mem_cons, not_or] at away
          have here : Reached next header first := by
            rw [← chain.1]
            have leaves : next source ≠ header := by rw [chain.1]; exact Ne.symm away.1
            rcases from_ with rfl | reached
            · exact Reached.first leaves
            · exact Reached.later reached leaves
          rcases List.mem_cons.mp member with rfl | later
          · exact here
          · exact ih first away.2 (Or.inr here) chain.2.2 node later
    exact walk members header outside (Or.inl rfl) ring node

end LinkedRing
