import Unimem.MemoryBlock

/-!
Descriptors as the cache shows them, whether they lie in the blocks or in the
map. A block holds a description if the cache shows it there with its guards.
What is saved is held afterwards; everything outside the windows of the saved
descriptors is kept.
-/

namespace Buddy

open ByteMemory WordArith Memory

def Window (block x : Nat) : Prop := block ≤ x ∧ x < block + sizeofDesc

def Apart (block other : Nat) : Prop := block + sizeofDesc ≤ other ∨ other + sizeofDesc ≤ block

theorem Apart.symm {block other : Nat} (apart : Apart block other) : Apart other block :=
  Or.symm apart

structure Desc.Fits (desc : Desc) : Prop where
  index : desc.index < 2 ^ 64
  size : desc.size < 2 ^ 64
  totalSize : desc.totalSize < 2 ^ 64
  leftBuddy : desc.leftBuddy < 2 ^ 64
  rightBuddy : desc.rightBuddy < 2 ^ 64

namespace Desc

variable {kind : BlockType} {index payload total left right : Nat}

@[simp] theorem new_type : (new kind index payload total left right).type = kind := rfl

@[simp] theorem new_index : (new kind index payload total left right).index = index := rfl

@[simp] theorem new_size : (new kind index payload total left right).size = payload := rfl

@[simp] theorem new_totalSize : (new kind index payload total left right).totalSize = total := rfl

@[simp] theorem new_leftBuddy : (new kind index payload total left right).leftBuddy = left := rfl

@[simp] theorem new_rightBuddy : (new kind index payload total left right).rightBuddy = right := rfl

end Desc

theorem hashCombine_lt {seed : Nat} (fits : seed < 2 ^ 64) (hashed : Nat) :
    hashCombine seed hashed < 2 ^ 64 := by
  unfold hashCombine
  exact Nat.xor_lt_two_pow fits (Nat.mod_lt _ (by decide))

namespace MetadataCache

def desc (c : MetadataCache) (block : Nat) : Option Desc :=
  if c.usesGpu then c.cache block
  else if c.mem.accessible block sizeofDesc then Desc.read c.mem block
  else none

/-- A descriptor can be saved at the block. -/
def Writable (c : MetadataCache) (block : Nat) : Prop :=
  c.usesGpu = true ∨ c.mem.accessible block sizeofDesc = true

/-- `c'` differs from `c` at most in the windows `W` and the descriptors that meet them. -/
structure Keeps (W : Nat → Prop) (c c' : MetadataCache) : Prop where
  usesGpu : c'.usesGpu = c.usesGpu
  device : c.usesGpu = true → c'.mem = c.mem
  agrees : AgreesOutside W c.mem c'.mem
  desc : ∀ block, (∀ x, Window block x → ¬ W x) → c'.desc block = c.desc block

namespace Keeps

variable {W V : Nat → Prop} {c c' c'' : MetadataCache} {block : Nat}

theorem refl (c : MetadataCache) : Keeps W c c := ⟨rfl, fun _ => rfl, AgreesOutside.refl _, fun _ _ => rfl⟩

theorem trans (first : Keeps W c c') (second : Keeps W c' c'') : Keeps W c c'' where
  usesGpu := second.usesGpu.trans first.usesGpu
  device := fun gpu => (second.device (first.usesGpu.trans gpu)).trans (first.device gpu)
  agrees := first.agrees.trans second.agrees
  desc := fun block outside => (second.desc block outside).trans (first.desc block outside)

theorem mono (keeps : Keeps W c c') (wider : ∀ x, W x → V x) : Keeps V c c' where
  usesGpu := keeps.usesGpu
  device := keeps.device
  agrees := keeps.agrees.mono wider
  desc := fun block outside => keeps.desc block fun x inside within =>
    outside x inside (wider x within)

theorem writable (keeps : Keeps W c c') (writable : c.Writable block) : c'.Writable block := by
  unfold Writable
  rwa [keeps.usesGpu, keeps.agrees.accessible]

end Keeps

variable [StdHash]

/-- The cache shows the description at the block, with its guards. -/
def Holds (c : MetadataCache) (block : Nat) (desc : Desc) : Prop :=
  c.desc block = some desc.updateGuards

end MetadataCache

open MetadataCache

/-- Two descriptions of one block, whatever their guards. -/
structure Desc.Alike (desc other : Desc) : Prop where
  type : desc.type = other.type
  index : desc.index = other.index
  size : desc.size = other.size
  totalSize : desc.totalSize = other.totalSize
  leftBuddy : desc.leftBuddy = other.leftBuddy
  rightBuddy : desc.rightBuddy = other.rightBuddy

theorem Desc.withGuards_alike (desc : Desc) (guardBegin guardEnd : Nat) :
    (desc.withGuards guardBegin guardEnd).Alike desc :=
  ⟨rfl, rfl, rfl, rfl, rfl, rfl⟩

theorem Desc.Alike.withGuards {desc other : Desc} (alike : desc.Alike other)
    (guardBegin guardEnd : Nat) :
    desc.withGuards guardBegin guardEnd = other.withGuards guardBegin guardEnd := by
  obtain ⟨type, index, size, totalSize, leftBuddy, rightBuddy⟩ := alike
  simp only [Desc.withGuards, type, index, size, totalSize, leftBuddy, rightBuddy]

theorem load_store_word (mem : Memory) {a v : Nat} (fits : v < 2 ^ 64) :
    (mem.store a 8 v).load a 8 = v :=
  load_store_same mem a 8 v (Nat.lt_of_lt_of_eq fits (by norm_num))

/-- The bytes of a descriptor read back as it was written. -/
theorem Desc.read_write {desc : Desc} (fits : desc.Fits) (begins : desc.guardBegin < 2 ^ 64)
    (ends : desc.guardEnd < 2 ^ 64) (mem : Memory) (block : Nat) :
    read (desc.write mem block) block = some desc := by
  have kind : desc.type.toNat < 256 ^ 4 := Nat.lt_trans desc.type.toNat_lt (by norm_num)
  unfold read write
  simp (disch := omega) only [load_store_disjoint]
  rw [load_store_word _ begins, load_store_same _ _ _ _ kind, load_store_word _ fits.index,
    load_store_word _ fits.size, load_store_word _ fits.totalSize,
    load_store_word _ fits.leftBuddy, load_store_word _ fits.rightBuddy,
    load_store_word _ ends, BlockType.ofNat?_toNat, Option.map_some]

theorem Desc.write_agrees (desc : Desc) (mem : Memory) (block : Nat) :
    AgreesOutside (Window block) mem (desc.write mem block) := by
  unfold write
  have inside : ∀ offset n, offset + n ≤ sizeofDesc → ∀ x, block + offset ≤ x →
      x < block + offset + n → Window block x := fun offset n extent x low high =>
    ⟨by omega, by omega⟩
  exact (((((((AgreesOutside.refl mem).store _ _ _ (inside 0 8 (by decide))).store _ _ _
    (inside 8 4 (by decide))).store _ _ _ (inside 16 8 (by decide))).store _ _ _
    (inside 24 8 (by decide))).store _ _ _ (inside 32 8 (by decide))).store _ _ _
    (inside 40 8 (by decide))).store _ _ _ (inside 48 8 (by decide)) |>.store _ _ _
    (inside 56 8 (by decide))

theorem Desc.read_congr {mem mem' : Memory} {block : Nat}
    (same : ∀ x, Window block x → mem'.byte x = mem.byte x) :
    read mem' block = read mem block := by
  have loads : ∀ offset n, offset + n ≤ sizeofDesc →
      mem'.load (block + offset) n = mem.load (block + offset) n := fun offset n extent =>
    load_congr _ _ _ _ fun x low high => same x ⟨by omega, by omega⟩
  unfold read
  rw [loads 8 4 (by decide), loads 16 8 (by decide), loads 24 8 (by decide),
    loads 32 8 (by decide), loads 40 8 (by decide), loads 48 8 (by decide),
    loads 56 8 (by decide), ← Nat.add_zero block, loads 0 8 (by decide)]

section Guards

variable [StdHash]

theorem Desc.hash_lt {desc : Desc} {seed : Nat} (fits : seed < 2 ^ 64) :
    desc.hash seed < 2 ^ 64 := by
  unfold hash
  repeat refine hashCombine_lt ?_ _
  exact fits

theorem Desc.updateGuards_alike (desc : Desc) : desc.updateGuards.Alike desc := by
  unfold updateGuards
  exact desc.withGuards_alike _ _

theorem Desc.Alike.hash {desc other : Desc} (alike : desc.Alike other) (seed : Nat) :
    desc.hash seed = other.hash seed := by
  unfold Desc.hash
  rw [alike.type, alike.index, alike.size, alike.totalSize, alike.leftBuddy, alike.rightBuddy]

theorem Desc.Alike.updateGuards {desc other : Desc} (alike : desc.Alike other) :
    desc.updateGuards = other.updateGuards := by
  unfold Desc.updateGuards
  rw [alike.hash, alike.hash, alike.withGuards]

theorem Desc.guards_of_updateGuards (desc : Desc) :
    desc.updateGuards.guardBegin = desc.hash 1 ∧ desc.updateGuards.guardEnd = desc.hash 2 := by
  unfold updateGuards
  generalize desc.hash 1 = guardBegin
  generalize desc.hash 2 = guardEnd
  exact ⟨rfl, rfl⟩

theorem Desc.checkGuards_iff {desc : Desc} :
    desc.checkGuards = true ↔ desc.updateGuards = desc := by
  unfold checkGuards updateGuards
  generalize desc.hash 1 = guardBegin
  generalize desc.hash 2 = guardEnd
  obtain ⟨begins, type, index, size, totalSize, leftBuddy, rightBuddy, ends⟩ := desc
  simp only [Bool.and_eq_true, beq_iff_eq, Desc.withGuards, Desc.mk.injEq, true_and]
  exact and_congr eq_comm eq_comm

@[simp] theorem Desc.checkGuards_updateGuards (desc : Desc) :
    desc.updateGuards.checkGuards = true :=
  checkGuards_iff.mpr desc.updateGuards_alike.updateGuards

theorem Desc.updateGuards_fits {desc : Desc} (fits : desc.Fits) : desc.updateGuards.Fits := by
  have alike := desc.updateGuards_alike
  obtain ⟨index, size, totalSize, leftBuddy, rightBuddy⟩ := fits
  rw [← alike.index] at index
  rw [← alike.size] at size
  rw [← alike.totalSize] at totalSize
  rw [← alike.leftBuddy] at leftBuddy
  rw [← alike.rightBuddy] at rightBuddy
  exact ⟨index, size, totalSize, leftBuddy, rightBuddy⟩

theorem Desc.guards_lt (desc : Desc) :
    desc.updateGuards.guardBegin < 2 ^ 64 ∧ desc.updateGuards.guardEnd < 2 ^ 64 := by
  rw [desc.guards_of_updateGuards.1, desc.guards_of_updateGuards.2]
  exact ⟨hash_lt (by norm_num), hash_lt (by norm_num)⟩

end Guards

namespace MetadataCache

variable [StdHash] {W : Nat → Prop} {c c' : MetadataCache} {block other : Nat} {desc : Desc}

theorem Keeps.holds (keeps : Keeps W c c') (holds : c.Holds block desc)
    (outside : ∀ x, Window block x → ¬ W x) : c'.Holds block desc :=
  (keeps.desc block outside).trans holds

theorem Holds.writable (holds : c.Holds block desc) : c.Writable block := by
  unfold Holds MetadataCache.desc at holds
  unfold Writable
  split at holds
  · exact Or.inl ‹_›
  · split at holds
    · exact Or.inr ‹_›
    · cases holds

theorem Holds.unique {desc' : Desc} (holds : c.Holds block desc) (holds' : c.Holds block desc') :
    desc.updateGuards = desc'.updateGuards :=
  Option.some.inj (holds.symm.trans holds')

theorem load_of_desc {found : Desc} (shown : c.desc block = some found) :
    load block c = if found.checkGuards then .ok found c else .error .assertion c := by
  unfold MetadataCache.desc at shown
  simp only [load, Fuelled.bind_run]
  change (if c.usesGpu then _ else _ : Action Desc) c = _
  split at shown
  case isTrue gpu =>
    simp only [gpu, if_true, shown, assert]
    split <;> rfl
  case isFalse cpu =>
    split at shown
    case isTrue mapped =>
      simp only [cpu, mapped, if_true, shown, assert, Bool.false_eq_true, if_false]
      split <;> rfl
    case isFalse => cases shown

theorem load_run (holds : c.Holds block desc) : load block c = .ok desc.updateGuards c := by
  rw [load_of_desc holds, Desc.checkGuards_updateGuards, if_pos rfl]

omit [StdHash] in
/-- Where the bytes of a descriptor are kept, so is what the cache shows there. -/
theorem desc_congr {mem' : Memory} (mapped : mem'.mapped = c.mem.mapped)
    (same : ∀ x, Window block x → mem'.byte x = c.mem.byte x) :
    MetadataCache.desc { c with mem := mem' } block = c.desc block := by
  have access : mem'.accessible block sizeofDesc = c.mem.accessible block sizeofDesc := by
    simp only [accessible, mapped]
  simp only [MetadataCache.desc, access, Desc.read_congr same]

/-- What is saved is held, and nothing else changes. -/
theorem save_run (writable : c.Writable block) (fits : desc.Fits) :
    ∃ c', save block desc c = .ok () c' ∧ c'.Holds block desc ∧ Keeps (Window block) c c' := by
  unfold save
  change ∃ c', (if c.usesGpu then _ else _ : Action Unit) c = _ ∧ _
  by_cases gpu : c.usesGpu = true
  · refine ⟨{ c with
      cache := fun other => if other = block then some desc.updateGuards else c.cache other },
      by rw [if_pos gpu]; rfl, ?_, ?_⟩
    · simp [Holds, MetadataCache.desc, gpu]
    · refine ⟨rfl, fun _ => rfl, AgreesOutside.refl _, fun other outside => ?_⟩
      have distinct : other ≠ block := by
        rintro rfl
        exact outside other ⟨Nat.le_refl _, Nat.lt_add_of_pos_right (by decide)⟩
          ⟨Nat.le_refl _, Nat.lt_add_of_pos_right (by decide)⟩
      simp [MetadataCache.desc, gpu, distinct]
  · have mapped := writable.resolve_left gpu
    have agrees := desc.updateGuards.write_agrees c.mem block
    refine ⟨{ c with mem := desc.updateGuards.write c.mem block },
      by rw [if_neg gpu, if_pos mapped]; rfl, ?_, ?_⟩
    · have still : (desc.updateGuards.write c.mem block).accessible block sizeofDesc = true := by
        rw [agrees.accessible, mapped]
      simp only [Holds, MetadataCache.desc, gpu, still, if_true, Bool.false_eq_true, if_false]
      exact Desc.read_write (Desc.updateGuards_fits fits) desc.guards_lt.1 desc.guards_lt.2 _ _
    · exact ⟨rfl, fun isGpu => absurd isGpu gpu, agrees, fun other outside =>
        desc_congr agrees.mapped fun x inside => agrees.byte x (outside x inside)⟩

omit [StdHash] in
theorem invalidate_run (c : MetadataCache) (block : Nat) :
    ∃ c', invalidate block c = .ok () c' ∧ c'.mem = c.mem ∧ Keeps (Window block) c c' := by
  unfold invalidate
  change ∃ c', (if c.usesGpu then _ else _ : Action Unit) c = _ ∧ _
  by_cases gpu : c.usesGpu = true
  · refine ⟨{ c with cache := fun other => if other = block then none else c.cache other },
      by rw [if_pos gpu]; rfl, rfl, rfl, fun _ => rfl, AgreesOutside.refl _,
      fun other outside => ?_⟩
    have distinct : other ≠ block := by
      rintro rfl
      exact outside other ⟨Nat.le_refl _, Nat.lt_add_of_pos_right (by decide)⟩
        ⟨Nat.le_refl _, Nat.lt_add_of_pos_right (by decide)⟩
    simp [MetadataCache.desc, gpu, distinct]
  · exact ⟨c, by rw [if_neg gpu]; rfl, rfl, Keeps.refl c⟩

end MetadataCache

end Buddy
