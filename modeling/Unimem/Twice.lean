import Unimem.Effects

/-!
A second Free of the same pointer. It is turned away where the first one left a free
chunk's header under the pointer, or where it only made dv larger. Elsewhere the
stale header still says in use, and Free goes on to unlink.
-/

namespace Unimem

open Tiling ByteMemory Memory WordArith MallocState Transitions

/-- The left neighbour is in use, or it is dv and the right one is in use. -/
def Store.Settled (s : Store) (p : Nat) : Prop :=
  s.pinuseAt p = true ∨ s.extentStart p = s.gm.dv ∧ s.cinuseAt (s.nextOf p) = true

/-- The call ends, returning or throwing, with everything as it was. -/
def Call.Rejected (call : Call) (s : Store) : Prop :=
  (∃ value, call.Returns s value s) ∨ call.Throws s s

/-- The store after dv and the chunk behind it became one. -/
def Store.joined (s : Store) (low size next : Nat) : Store :=
  { s with
    gm := { s.gm with dvsize := size }
    mem := grown (cleared s.mem next) low size }

instance (s : Store) (p : Nat) : Decidable (s.Settled p) := instDecidableOr

section Again

variable {first stop limit fuel : Nat} {s : Store} {h : Heap} {most above : List Block}
  {q b n : Block}

namespace Represents

/-- Free of a free chunk fails is_inuse. -/
theorem free_free (rep : Represents first stop limit s h []) (member : b ∈ h.blocks)
    (unused : b.cinuse = false) (back : mem2chunk (b.addr + 32) = b.addr) :
    free fuel (b.addr + 32) s = .ok () s := by
  have ok : okAddress b.addr s = .ok true s := by
    have inside := (rep.layout.bounds member).1
    have least := rep.placed.leastLe
    rw [okAddress_run, decide_eq_true (show b.addr ≥ s.gm.leastAddr by omega)]
  have flags := rep.tags.head_flags member
  rw [rep.layout.pinuseFree b member unused, unused, Bool.toNat_true, Bool.toNat_false] at flags
  have mask : inuseBits = 3 := rfl
  have reads : s.mem.load (b.addr + 8) 8 &&& inuseBits = pinuseBit := by
    rw [mask, and_three, pinuseBit]
    omega
  have inuse : Chunk.isInuse b.addr s = .ok false s := by
    rw [Chunk.isInuse, Fuelled.bind_run, rep.tags.head_run member]
    simp [reads]
  simp [free, back, ok, inuse]

/-- Free of the chunk behind dv, where the next one is in use. -/
theorem free_joins (rep : Represents first stop limit s h [])
    (shape : h.blocks = most ++ q :: b :: n :: above) (used : b.cinuse = true)
    (flag : b.pinuse = false) (isDv : q.addr = h.dv) (flagN : n.pinuse = true)
    (usedN : n.cinuse = true) :
    free fuel (b.addr + 32) s = .ok () (s.joined q.addr (b.size + q.size) n.addr) := by
  have shape' : h.blocks = (most ++ [q]) ++ b :: n :: above := by simpa using shape
  obtain ⟨-, next, notTop, inside, positive, -, reachN, low, enough, -⟩ := rep.group shape'
  obtain ⟨-, nextQ, -, -, -, reachQ, -, lowQ, enoughQ, -⟩ := rep.group shape
  have bound := rep.layout.bound
  have inN : n ∈ h.blocks := by simp [shape]
  have start := rep.free_start fuel shape' used
  obtain ⟨most', q', same, -, -, -, -, foot⟩ := rep.free_before shape' flag
  obtain ⟨-, single⟩ := List.append_inj' same rfl
  obtain rfl := (List.cons.inj single).1
  obtain ⟨prev, sum, ok⟩ := rep.front_reads shape
  have mask : inuseBits = 3 := rfl
  have flags := rep.tags.head_flags inN
  rw [flagN, usedN, Bool.toNat_true] at flags
  have dv : s.gm.dv = q.addr := rep.dv.trans isDv.symm
  have both : s.mem.load (n.addr + 8) 8 % 4 = 3 := by omega
  rw [flag] at start
  simp only [Bool.false_eq_true, if_false, Fuelled.bind_run, foot, prev, sum, ok, if_true,
    run_readGm, dv, ne_eq, not_true_eq_false, rep.tags.head_run inN, mask, and_three, both,
    run_writeGm] at start
  rw [start]
  have acc := fun a (lower : first ≤ a) (upper : a + 8 ≤ limit) =>
    rep.tags.accessible (n := 8) lower upper
  have ran := setFreeWithPinuse_run (s := { s with gm := { s.gm with dvsize := b.size + q.size } })
    (acc (n.addr + 8) (by omega) (by omega)) (acc (q.addr + 8) (by omega) (by omega))
    (acc (q.addr + (b.size + q.size)) (by omega) (by omega)) (by omega)
  rw [← dv] at ran ⊢
  exact ran

/-- There a second Free finds PINUSE of the next chunk clear. -/
theorem free_joined (rep : Represents first stop limit s h [])
    (shape : h.blocks = most ++ q :: b :: n :: above) (used : b.cinuse = true)
    (flag : b.pinuse = false) (isDv : q.addr = h.dv) :
    free fuel (b.addr + 32) (s.joined q.addr (b.size + q.size) n.addr) =
      .ok () (s.joined q.addr (b.size + q.size) n.addr) := by
  have shape' : h.blocks = (most ++ [q]) ++ b :: n :: above := by simpa using shape
  obtain ⟨-, next, notTop, inside, positive, reachB, reachN, low, enough, -⟩ := rep.group shape'
  obtain ⟨-, nextQ, -, -, -, reachQ, -, lowQ, enoughQ, -⟩ := rep.group shape
  have bound := rep.layout.bound
  have inB : b ∈ h.blocks := by simp [shape]
  have inN : n ∈ h.blocks := by simp [shape]
  generalize after : s.joined q.addr (b.size + q.size) n.addr = t
  have mem : t.mem = grown (cleared s.mem n.addr) q.addr (b.size + q.size) := by rw [← after]; rfl
  have dv : t.gm.dv = q.addr := by
    rw [← after]
    exact rep.dv.trans isDv.symm
  have least : t.gm.leastAddr ≤ q.addr := by
    have bounded := rep.placed.leastLe
    rw [← after]
    show s.gm.leastAddr ≤ q.addr
    omega
  -- the stores of the first Free miss the words at `b`, and clear a flag at `n`
  have apart : ∀ a, a + 8 ≤ n.addr ∨ n.addr + 16 ≤ a → q.addr + 16 ≤ a →
      t.mem.load a 8 = s.mem.load a 8 := by
    intro a next above
    rw [mem, grown, cleared, load_store_disjoint _ _ _ _ _ _ (by omega),
      load_store_disjoint _ _ _ _ _ _ (by omega), load_store_disjoint _ _ _ _ _ _ (by omega)]
  have cleared : t.mem.load (n.addr + 8) 8 % 2 = 0 := by
    have fits := s.mem.load_lt (n.addr + 8) 8
    have one : pinuseBit = 1 := rfl
    have less : s.mem.load (n.addr + 8) 8 - s.mem.load (n.addr + 8) 8 % 2 < 256 ^ 8 := by omega
    rw [mem, grown, Unimem.cleared, one, and_not64_one _ (by omega),
      load_store_disjoint _ _ _ _ _ _ (by omega), load_store_disjoint _ _ _ _ _ _ (by omega),
      load_store_same _ _ _ _ less]
    omega
  have acc : ∀ a, first ≤ a → a + 8 ≤ limit → t.mem.accessible a 8 = true := by
    intro a lower upper
    rw [mem, grown, Unimem.cleared, store_accessible, store_accessible, store_accessible]
    exact rep.tags.accessible lower upper
  have head : Chunk.head b.addr t = .ok (s.mem.load (b.addr + 8) 8) t := by
    rw [Chunk.head, load64, run_loadN (acc _ (by omega) (by omega)), apart _ (by omega) (by omega)]
  have foot : Chunk.prevFoot b.addr t = .ok q.size t := by
    obtain ⟨most', q', same, -, -, -, -, read⟩ := rep.free_before shape' flag
    obtain ⟨-, single⟩ := List.append_inj' same rfl
    obtain rfl := (List.cons.inj single).1
    rw [Chunk.prevFoot, load64, run_loadN (rep.tags.accessible (by omega) (by omega))] at read
    rw [Chunk.prevFoot, load64, run_loadN (acc _ (by omega) (by omega)),
      apart _ (by omega) (by omega), (EStateM.Result.ok.inj read).1]
  have ok : okAddress b.addr t = .ok true t := by
    rw [okAddress_run, decide_eq_true (show b.addr ≥ t.gm.leastAddr by omega)]
  have okQ : okAddress q.addr t = .ok true t := by
    rw [okAddress_run, decide_eq_true (show q.addr ≥ t.gm.leastAddr by omega)]
  have headN : Chunk.head n.addr t = .ok (t.mem.load (n.addr + 8) 8) t := by
    rw [Chunk.head, load64, run_loadN (acc _ (by omega) (by omega))]
  have flags := rep.tags.head_flags inB
  rw [used, flag, Bool.toNat_true, Bool.toNat_false] at flags
  have mask : inuseBits = 3 := rfl
  have inuse : Chunk.isInuse b.addr t = .ok true t := by
    have differ : s.mem.load (b.addr + 8) 8 &&& inuseBits ≠ pinuseBit := by
      rw [mask, and_three, pinuseBit]
      omega
    rw [Chunk.isInuse, Fuelled.bind_run, head]
    simp only [differ, ne_eq, not_false_eq_true, decide_true, run_pure]
  have size : Chunk.chunksize b.addr t = .ok b.size t := by
    rw [Chunk.chunksize, Fuelled.bind_run, head]
    simp only [rep.tags.size_of_head inB notTop]
    rfl
  have pinuse : Chunk.pinuse b.addr t = .ok 0 t := by
    rw [Chunk.pinuse, Fuelled.bind_run, head]
    simp only [pinuseBit, Nat.and_one_is_mod, flags.1]
    rfl
  have pinuseN : Chunk.pinuse n.addr t = .ok 0 t := by
    rw [Chunk.pinuse, Fuelled.bind_run, headN]
    simp only [pinuseBit, Nat.and_one_is_mod, cleared]
    rfl
  have back : mem2chunk (b.addr + 32) = b.addr := by
    have distance : twoSizeTSizes = 32 := rfl
    rw [mem2chunk, distance, sub64_of_le (by omega) (by omega)]
    omega
  have plus : chunkPlusOffset b.addr b.size = n.addr := by
    rw [rep.plus_offset b.addr b.size (by omega), next]
  have prev : chunkMinusOffset b.addr q.size = q.addr := by
    rw [chunkMinusOffset, sub64_of_le (by omega) (by omega)]
    omega
  have sum : add64 b.size q.size = b.size + q.size := add64_of_lt (by omega)
  have apartN : t.mem.load (n.addr + 8) 8 % 4 ≠ 3 := by omega
  have before : okNext q.addr n.addr = true := decide_eq_true (by omega)
  simp [free, freeForward, back, ok, inuse, size, plus, pinuse, foot, prev, sum, okQ, dv, headN, mask,
    and_three, apartN, before, pinuseN]

end Represents

end Again

section Reached

variable {setup : Setup} {w : World} {h : Heap} {mem value : Nat} {s' : Store}

theorem free_returns {s : Store} (ran : ∀ fuel, free fuel mem s = .ok () s') :
    (Call.free mem).Returns s 0 s' := by
  refine ⟨0, ?_⟩
  rw [Call.run, Fuelled.bind_run, ran]
  rfl

theorem Runs.freed_twice (runs : Runs setup w h) (live : mem ∈ w.live.map Prod.fst)
    (returned : (Call.free mem).Returns w.store value s')
    (settled : w.store.Settled (mem2chunk mem)) : (Call.free mem).Returns s' 0 s' := by
  have rep := runs.rep
  obtain ⟨⟨_, bytes⟩, member, rfl⟩ := List.mem_map.mp live
  obtain ⟨a, k, at_, back, used, -⟩ := runs.pointer member
  have permitted : w.permits (.free (a + 32)) := at_ ▸ live
  rw [at_] at returned back settled ⊢
  obtain ⟨h', answered, runs', -, -⟩ := runs.returned permitted returned
  have rep' : Represents setup.first setup.stop (setup.stop + 16) s' h' [] := runs'.rep
  obtain ⟨below, mid, above, b, n, low, size, freeing, rfl, rfl⟩ := rep.freeing used
  obtain ⟨step, start⟩ := freeing.front.start rep freeing.shape freeing.member freeing.next
  rw [back, Store.Settled, rep.pinuseAt_eq freeing.member, start, step] at settled
  have inN : n ∈ h.blocks := by simp [freeing.shape]
  cases freeing.front with
  | alone flag =>
      have merges := rep.free_merges freeing (Heap.free_of_answer answered)
      obtain ⟨c, inNew, here, unused⟩ : ∃ c ∈ h'.blocks, c.addr = b.addr ∧ c.cinuse = false := by
        rw [merges.blocks]
        cases n.cinuse
        · exact ⟨⟨b.addr, b.size + n.size, false, true⟩, by simp, rfl, rfl⟩
        · exact ⟨⟨b.addr, b.size, false, true⟩, by simp, rfl, rfl⟩
      rw [← here] at back ⊢
      exact free_returns fun fuel => rep'.free_free inNew unused back
  | behind q flag unused stops =>
      rw [flag] at settled
      obtain ⟨isDv, usedN⟩ := settled.resolve_left (by simp)
      rw [rep.dv] at isDv
      rw [rep.cinuseAt_eq inN] at usedN
      have shape : h.blocks = below ++ q :: b :: n :: above := by simp [freeing.shape]
      obtain ⟨fuel, ran⟩ := returned
      rw [Call.run, Fuelled.bind_run,
        rep.free_joins shape freeing.used flag isDv freeing.pinuse usedN] at ran
      obtain ⟨-, rfl⟩ := EStateM.Result.ok.inj ran
      exact free_returns fun fuel => rep.free_joined shape freeing.used flag isDv

instance (w : World) (call : Call) : Decidable (w.permits call) :=
  match call with
  | .alloc _ => isTrue trivial
  | .free mem => inferInstanceAs (Decidable (mem ∈ w.live.map Prod.fst))
  | .expand => isTrue trivial

/-- The world after some calls, computed. -/
def World.perform (fuel : Nat) (w : World) : List Call → Option World
  | [] => some w
  | call :: rest =>
      if w.permits call then
        match call.run fuel w.store with
        | .ok value s' => (w.after call value s').perform fuel rest
        | .error _ _ => none
      else none

theorem Setup.Reaches.performs {fuel : Nat} {events : List Event} {calls : List Call} {w' : World}
    (run : setup.Reaches events w) (performed : w.perform fuel calls = some w') :
    ∃ later, setup.Reaches (events ++ later) w' := by
  induction calls generalizing w events with
  | nil =>
      obtain rfl := Option.some.inj performed
      exact ⟨[], by simpa using run⟩
  | cons call rest ih =>
      rw [World.perform] at performed
      split at performed
      · rename_i permitted
        split at performed
        · rename_i value s' ran
          obtain ⟨later, run'⟩ := ih (run.snoc (Step.call permitted ⟨fuel, ran⟩)) performed
          exact ⟨.call call value :: later, by simpa using run'⟩
        · cases performed
      · cases performed

/-- The treemap after two Frees of `mem` in a row. -/
def World.twice (w : World) (mem : Nat) : Option (Nat × Nat) :=
  match (Call.free mem).run 4 w.store with
  | .ok _ s =>
      match (Call.free mem).run 4 s with
      | .ok _ s' => some (s.gm.treemap, s'.gm.treemap)
      | .error _ _ => none
  | .error _ _ => none

end Reached

end Unimem
