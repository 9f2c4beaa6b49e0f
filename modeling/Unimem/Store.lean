import Unimem.ByteMemory
import Unimem.WordArith
import Unimem.Fuelled

/-!
The state the allocator runs on. `MallocState` keeps the fields its functions
use; the pointer array `smallbins` stays in memory, at its offset in the object,
because the bins are aliased as chunks. Pointers are addresses, null is 0.
`UniAllocator` and the memory it reaches are one `Store`. The underlying
allocator is given by what its n-th call answers to a size.
-/

namespace Unimem

open ByteMemory WordArith

structure MallocState where
  this : Nat
  smallmap : Nat
  treemap : Nat
  dvsize : Nat
  topsize : Nat
  leastAddr : Nat
  dv : Nat
  top : Nat
  trimCheck : Nat
  releaseChecks : Nat
  magic : Nat
  treebins : Nat → Nat

structure Store where
  underlyingAllocator : Nat → Nat → Nat
  underlyingCalls : Nat
  increasingSize : Nat
  increasingStep : Nat
  gm : MallocState
  mem : Memory

/-- Why a call does not return normally: a thrown MemoryCorruptedException, a
failed `assert`, an access outside the mapped memory, or no fuel left. -/
inductive Stop where
  | corrupted
  | assertion
  | fault
  | fuel
  deriving DecidableEq

abbrev Prog (α : Type) := EStateM Stop Store α

abbrev Outcome (α : Type) := EStateM.Result Stop Store α

def readThis : Prog Store := fun s => .ok s s

def readGm : Prog MallocState := fun s => .ok s.gm s

def writeGm (update : MallocState → MallocState) : Prog Unit :=
  fun s => .ok () { s with gm := update s.gm }

def loadN (n a : Nat) : Prog Nat := fun s =>
  if s.mem.accessible a n then .ok (s.mem.load a n) s else .error .fault s

def storeN (n a v : Nat) : Prog Unit := fun s =>
  if s.mem.accessible a n then .ok () { s with mem := s.mem.store a n v } else .error .fault s

def load64 (a : Nat) : Prog Nat := loadN 8 a
def store64 (a v : Nat) : Prog Unit := storeN 8 a v
def load32 (a : Nat) : Prog Nat := loadN 4 a
def store32 (a v : Nat) : Prog Unit := storeN 4 a v

@[simp] theorem run_pure {α : Type} (value : α) (s : Store) :
    (pure value : Prog α) s = .ok value s := rfl

@[simp] theorem run_throw {α : Type} (stop : Stop) (s : Store) :
    (throw stop : Prog α) s = .error stop s := rfl

@[simp] theorem run_ite {α : Type} (condition : Prop) [Decidable condition] (yes no : Prog α)
    (s : Store) : (if condition then yes else no) s = if condition then yes s else no s := by
  split <;> rfl

@[simp] theorem run_map {α β : Type} (f : α → β) (program : Prog α) (s : Store) :
    (f <$> program) s =
      match program s with
      | .ok value after => .ok (f value) after
      | .error stop after => .error stop after := by
  rw [map_eq_pure_bind, Fuelled.bind_run]
  cases program s <;> rfl

@[simp] theorem run_andM (left right : Prog Bool) (s : Store) :
    (left <&&> right) s =
      match left s with
      | .ok true after => right after
      | .ok false after => .ok false after
      | .error stop after => .error stop after := by
  simp only [andM, Fuelled.bind_run]
  rcases left s with ⟨_ | _, after⟩ | ⟨stop, after⟩ <;> rfl

@[simp] theorem run_orM (left right : Prog Bool) (s : Store) :
    (left <||> right) s =
      match left s with
      | .ok true after => .ok true after
      | .ok false after => right after
      | .error stop after => .error stop after := by
  simp only [orM, Fuelled.bind_run]
  rcases left s with ⟨_ | _, after⟩ | ⟨stop, after⟩ <;> rfl

@[simp] theorem run_readThis (s : Store) : readThis s = .ok s s := rfl

@[simp] theorem run_readGm (s : Store) : readGm s = .ok s.gm s := rfl

@[simp] theorem run_writeGm (update : MallocState → MallocState) (s : Store) :
    writeGm update s = .ok () { s with gm := update s.gm } := rfl

theorem run_loadN {n a : Nat} {s : Store} (mapped : s.mem.accessible a n = true) :
    loadN n a s = .ok (s.mem.load a n) s := by
  simp [loadN, mapped]

theorem run_storeN {n a v : Nat} {s : Store} (mapped : s.mem.accessible a n = true) :
    storeN n a v s = .ok () { s with mem := s.mem.store a n v } := by
  simp [storeN, mapped]

end Unimem
