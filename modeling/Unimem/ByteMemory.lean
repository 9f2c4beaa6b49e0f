import Mathlib.Tactic

/-!
A flat byte memory with a fixed set of accessible addresses. Numbers are kept
little endian in `n` consecutive bytes. A store never changes which addresses
are accessible, so accessibility is a separate predicate and `load`/`store`
are total; the machine that uses them decides what an inaccessible access does.
-/

namespace ByteMemory

structure Memory where
  byte : Nat → UInt8
  mapped : Nat → Bool

namespace Memory

def load (m : Memory) : Nat → Nat → Nat
  | _, 0 => 0
  | a, n + 1 => (m.byte a).toNat + 256 * load m (a + 1) n

def store (m : Memory) (a n v : Nat) : Memory :=
  { m with byte := fun x =>
      if a ≤ x ∧ x < a + n then UInt8.ofNat (v >>> (8 * (x - a))) else m.byte x }

def setByte (m : Memory) (a : Nat) (v : UInt8) : Memory :=
  { m with byte := fun x => if x = a then v else m.byte x }

def accessible (m : Memory) (a n : Nat) : Bool := (List.range n).all fun i => m.mapped (a + i)

/-- `m'` differs from `m` at most in the bytes of `W`. -/
structure AgreesOutside (W : Nat → Prop) (m m' : Memory) : Prop where
  mapped : m'.mapped = m.mapped
  byte : ∀ x, ¬ W x → m'.byte x = m.byte x

@[simp] theorem store_mapped (m : Memory) (a n v : Nat) : (m.store a n v).mapped = m.mapped := rfl

@[simp] theorem setByte_mapped (m : Memory) (a : Nat) (v : UInt8) :
    (m.setByte a v).mapped = m.mapped := rfl

theorem accessible_iff (m : Memory) (a n : Nat) :
    m.accessible a n = true ↔ ∀ x, a ≤ x → x < a + n → m.mapped x = true := by
  simp only [accessible, List.all_eq_true, List.mem_range]
  constructor
  · intro all x lower upper
    have := all (x - a) (by omega)
    rwa [Nat.add_sub_cancel' lower] at this
  · intro all i bound
    exact all (a + i) (by omega) (by omega)

@[simp] theorem store_accessible (m : Memory) (a n v b k : Nat) :
    (m.store a n v).accessible b k = m.accessible b k := rfl

theorem load_congr (m m' : Memory) (a n : Nat)
    (same : ∀ x, a ≤ x → x < a + n → m'.byte x = m.byte x) : m'.load a n = m.load a n := by
  induction n generalizing a with
  | zero => rfl
  | succ n ih =>
      have head := same a (by omega) (by omega)
      have tail := ih (a + 1) (fun x lower upper => same x (by omega) (by omega))
      simp only [load, head, tail]

theorem load_lt (m : Memory) (a n : Nat) : m.load a n < 256 ^ n := by
  induction n generalizing a with
  | zero => simp [load]
  | succ n ih =>
      have tail := ih (a + 1)
      have head := (m.byte a).toNat_lt
      simp only [load, pow_succ]
      omega

-- Induction on the bytes left to read: byte `k` of the stored number first.
theorem load_store_from (m : Memory) (a n v k j : Nat) (extent : j + k = n) :
    (m.store a n v).load (a + k) j = v / 256 ^ k % 256 ^ j := by
  induction j generalizing k with
  | zero => simp [load, Nat.mod_one]
  | succ j ih =>
      have tail := ih (k + 1) (by omega)
      have inside : a ≤ a + k ∧ a + k < a + n := by omega
      have base : 2 ^ (8 * k) = 256 ^ k := by rw [pow_mul]; norm_num
      have digit : v / 256 ^ (k + 1) = v / 256 ^ k / 256 := by
        rw [pow_succ, Nat.div_div_eq_div_mul]
      rw [load, Nat.add_assoc, tail, digit, pow_succ' 256 j, Nat.mod_mul]
      simp [store, inside, Nat.shiftRight_eq_div_pow, base]

theorem load_store_same (m : Memory) (a n v : Nat) (fits : v < 256 ^ n) :
    (m.store a n v).load a n = v := by
  have whole := load_store_from m a n v 0 n (by omega)
  simpa [Nat.mod_eq_of_lt fits] using whole

theorem store_byte_outside (m : Memory) (a n v x : Nat) (outside : x < a ∨ a + n ≤ x) :
    (m.store a n v).byte x = m.byte x := by
  have notInside : ¬ (a ≤ x ∧ x < a + n) := by omega
  simp [store, notInside]

theorem load_store_disjoint (m : Memory) (a n v b k : Nat) (apart : a + n ≤ b ∨ b + k ≤ a) :
    (m.store a n v).load b k = m.load b k :=
  load_congr _ _ b k fun x _ _ => store_byte_outside m a n v x (by omega)

theorem store_comm (m : Memory) (a n v b k w : Nat) (apart : a + n ≤ b ∨ b + k ≤ a) :
    (m.store a n v).store b k w = (m.store b k w).store a n v := by
  simp only [store, mk.injEq, and_true]
  funext x
  by_cases inLeft : a ≤ x ∧ x < a + n
  · have notRight : ¬ (b ≤ x ∧ x < b + k) := by omega
    simp only [inLeft, notRight, and_self, if_true, if_false]
  · simp only [inLeft, if_false]

theorem store_store (m : Memory) (a n v w : Nat) :
    (m.store a n v).store a n w = m.store a n w := by
  simp only [store, mk.injEq, and_true]
  funext x
  by_cases inside : a ≤ x ∧ x < a + n
  · simp only [inside, and_self, if_true]
  · simp only [inside, if_false]

namespace AgreesOutside

variable {W V : Nat → Prop} {m m' m'' : Memory}

theorem refl (m : Memory) : AgreesOutside W m m := ⟨rfl, fun _ _ => rfl⟩

theorem trans (first : AgreesOutside W m m') (second : AgreesOutside W m' m'') :
    AgreesOutside W m m'' :=
  ⟨second.mapped.trans first.mapped,
    fun x outside => (second.byte x outside).trans (first.byte x outside)⟩

theorem mono (agrees : AgreesOutside W m m') (wider : ∀ x, W x → V x) : AgreesOutside V m m' :=
  ⟨agrees.mapped, fun x outside => agrees.byte x fun inside => outside (wider x inside)⟩

theorem store (agrees : AgreesOutside W m m') (a n v : Nat)
    (inside : ∀ x, a ≤ x → x < a + n → W x) : AgreesOutside W m (m'.store a n v) := by
  refine ⟨agrees.mapped, fun x outside => ?_⟩
  have notStored : x < a ∨ a + n ≤ x := by
    by_contra overlap
    exact outside (inside x (by omega) (by omega))
  rw [store_byte_outside m' a n v x notStored, agrees.byte x outside]

theorem load (agrees : AgreesOutside W m m') (a n : Nat)
    (outside : ∀ x, a ≤ x → x < a + n → ¬ W x) : m'.load a n = m.load a n :=
  load_congr m m' a n fun x lower upper => agrees.byte x (outside x lower upper)

theorem accessible (agrees : AgreesOutside W m m') (a n : Nat) :
    m'.accessible a n = m.accessible a n := by
  simp only [Memory.accessible, agrees.mapped]

end AgreesOutside

end Memory

end ByteMemory
