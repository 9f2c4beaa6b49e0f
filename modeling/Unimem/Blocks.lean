import Unimem.Descriptors

/-!
What the operations of a memory block do to the descriptions held. Each lemma
names the descriptions of the blocks concerned before and after, and the
windows that are written.
-/

namespace Buddy

open WordArith MetadataCache

theorem bind_ok {σ α β : Type} {first : EStateM Stop σ α} {rest : α → EStateM Stop σ β}
    {state after : σ} {value : α} (ran : first state = .ok value after) :
    (first >>= rest) state = rest value after := by
  rw [Fuelled.bind_run, ran]

theorem assert_ok {σ β : Type} {condition : Bool} {rest : EStateM Stop σ β} {state : σ}
    (passes : condition = true) : (assert condition >>= fun _ => rest) state = rest state := by
  rw [passes]
  rfl

theorem assert_fails {σ β : Type} {condition : Bool} {rest : EStateM Stop σ β} {state : σ}
    (fails : condition = false) :
    (assert condition >>= fun _ => rest) state = .error .assertion state := by
  rw [fails]
  rfl

theorem Apart.outside {block other : Nat} (apart : Apart block other) :
    ∀ x, Window block x → ¬ Window other x := by
  intro x inside within
  unfold Window at inside within
  rcases apart with below | above <;> omega

variable [StdHash]

theorem MetadataCache.Holds.alike {c : MetadataCache} {block : Nat} {desc other : Desc}
    (holds : c.Holds block desc) (alike : desc.Alike other) : c.Holds block other := by
  unfold Holds
  rw [← alike.updateGuards]
  exact holds

theorem MetadataCache.save_alike {desc other : Desc} (alike : desc.Alike other) (block : Nat) :
    save block desc = save block other := by
  unfold save
  rw [alike.updateGuards]

namespace MemoryBlock

variable {c c' : MetadataCache} {this right beyond wanted : Nat} {desc beyondDesc : Desc}

theorem type_run (holds : c.Holds this desc) : type this c = .ok desc.type c := by
  rw [type, bind_ok (load_run holds), desc.updateGuards_alike.type]
  rfl

theorem index_run (holds : c.Holds this desc) : index this c = .ok desc.index c := by
  rw [index, bind_ok (load_run holds), desc.updateGuards_alike.index]
  rfl

theorem totalSize_run (holds : c.Holds this desc) : totalSize this c = .ok desc.totalSize c := by
  rw [totalSize, bind_ok (load_run holds), desc.updateGuards_alike.totalSize]
  rfl

theorem leftBuddy_run (holds : c.Holds this desc) : leftBuddy this c = .ok desc.leftBuddy c := by
  rw [leftBuddy, bind_ok (load_run holds), desc.updateGuards_alike.leftBuddy]
  rfl

theorem rightBuddy_run (holds : c.Holds this desc) : rightBuddy this c = .ok desc.rightBuddy c := by
  rw [rightBuddy, bind_ok (load_run holds), desc.updateGuards_alike.rightBuddy]
  rfl

theorem hasLeftBuddy_run (holds : c.Holds this desc) :
    hasLeftBuddy this c = .ok (desc.leftBuddy != 0) c := by
  rw [hasLeftBuddy, bind_ok (leftBuddy_run holds)]
  rfl

theorem hasRightBuddy_run (holds : c.Holds this desc) :
    hasRightBuddy this c = .ok (desc.rightBuddy != 0) c := by
  rw [hasRightBuddy, bind_ok (rightBuddy_run holds)]
  rfl

theorem setType_run (holds : c.Holds this desc) (fits : desc.Fits) (kind : BlockType) :
    ∃ c', setType this kind c = .ok () c' ∧ c'.Holds this { desc with type := kind } ∧
      Keeps (Window this) c c' := by
  have alike := desc.updateGuards_alike
  have fits' := Desc.updateGuards_fits fits
  have retyped : Desc.Fits { desc.updateGuards with type := kind } :=
    ⟨fits'.index, fits'.size, fits'.totalSize, fits'.leftBuddy, fits'.rightBuddy⟩
  obtain ⟨c', saved, held, keeps⟩ := save_run holds.writable retyped
  refine ⟨c', ?_, held.alike ?_, keeps⟩
  · rw [setType, bind_ok (load_run holds), saved]
  · exact ⟨rfl, alike.index, alike.size, alike.totalSize, alike.leftBuddy, alike.rightBuddy⟩

variable {kind : BlockType} {index payload total left index' total' left' : Nat}

/-- There is no room for another partition. -/
theorem split_bails (holds : c.Holds this desc) (covers : wanted ≤ desc.totalSize)
    (fits : desc.Fits) (narrow : desc.totalSize - wanted ≤ sizeofDesc) :
    split this wanted c = .ok () c := by
  have total := totalSize_run holds
  have rest : sub64 desc.totalSize wanted ≤ sizeofDesc := by
    rwa [sub64_of_le covers fits.totalSize]
  rw [split, bind_ok total, assert_ok (by simpa using covers), bind_ok total, if_pos rest]
  rfl

theorem linkBuddy_run (fits : this < 2 ^ 64)
    (next : beyond ≠ 0 → c.Holds beyond beyondDesc ∧ beyondDesc.Fits) :
    ∃ c', linkBuddy beyond this c = .ok () c' ∧
      (beyond ≠ 0 → c'.Holds beyond { beyondDesc with leftBuddy := this }) ∧
      Keeps (fun x => beyond ≠ 0 ∧ Window beyond x) c c' := by
  by_cases last : beyond = 0
  · exact ⟨c, by rw [linkBuddy, if_neg (by simp [last])]; rfl, fun other => absurd last other,
      Keeps.refl c⟩
  · obtain ⟨held, nextFits⟩ := next last
    have linkFits : Desc.Fits { beyondDesc with leftBuddy := this } :=
      ⟨nextFits.index, nextFits.size, nextFits.totalSize, fits, nextFits.rightBuddy⟩
    obtain ⟨c', saved, held', keeps⟩ := save_run held.writable linkFits
    have loaded := beyondDesc.updateGuards_alike
    have linked : Desc.Alike { beyondDesc.updateGuards with leftBuddy := this }
        { beyondDesc with leftBuddy := this } :=
      ⟨loaded.type, loaded.index, loaded.size, loaded.totalSize, rfl, loaded.rightBuddy⟩
    refine ⟨c', ?_, fun _ => held', keeps.mono fun x inside => ⟨last, inside⟩⟩
    rw [linkBuddy, if_pos last, bind_ok (load_run held), save_alike linked, saved]

theorem split_run (holds : c.Holds this (Desc.new kind index payload total left beyond))
    (fits : (Desc.new kind index payload total left beyond).Fits)
    (least : sizeofDesc ≤ wanted) (room : wanted + sizeofDesc < total)
    (inRange : this + total ≤ 2 ^ 64) (writable : c.Writable (this + wanted))
    (next : beyond ≠ 0 → c.Holds beyond beyondDesc ∧ beyondDesc.Fits ∧ this + total ≤ beyond) :
    ∃ c', split this wanted c = .ok () c' ∧
      c'.Holds this (Desc.new kind index (wanted - sizeofDesc) wanted left (this + wanted)) ∧
      c'.Holds (this + wanted) (Desc.new .freeChunk index (total - wanted - sizeofDesc)
        (total - wanted) this beyond) ∧
      (beyond ≠ 0 → c'.Holds beyond { beyondDesc with leftBuddy := this + wanted }) ∧
      Keeps (fun x => Window this x ∨ Window (this + wanted) x ∨ beyond ≠ 0 ∧ Window beyond x)
        c c' := by
  have totalFits : total < 2 ^ 64 := fits.totalSize
  have indexFits : index < 2 ^ 64 := fits.index
  have leftFits : left < 2 ^ 64 := fits.leftBuddy
  have beyondFits : beyond < 2 ^ 64 := fits.rightBuddy
  have remaining : sub64 total wanted = total - wanted := sub64_of_le (by omega) totalFits
  have rightPayload : sub64 (total - wanted) sizeofDesc = total - wanted - sizeofDesc :=
    sub64_of_le (by omega) (by omega)
  have leftPayload : sub64 wanted sizeofDesc = wanted - sizeofDesc :=
    sub64_of_le least (by omega)
  have place : add64 this wanted = this + wanted := add64_of_lt (by omega)
  have apart : Apart this (this + wanted) := Or.inl (by omega)
  -- the new block is saved first
  have rightFits : (Desc.new .freeChunk index (total - wanted - sizeofDesc) (total - wanted) this
      beyond).Fits := ⟨indexFits, by simp; omega, by simp; omega,
    by simp; omega, beyondFits⟩
  obtain ⟨c₁, saved₁, held₁, keeps₁⟩ := save_run writable rightFits
  have leftFits : (Desc.new kind index (wanted - sizeofDesc) wanted left (this + wanted)).Fits :=
    ⟨indexFits, by simp; omega, by simp; omega, leftFits,
      by simp; omega⟩
  obtain ⟨c₂, saved₂, held₂, keeps₂⟩ := save_run (keeps₁.writable holds.writable) leftFits
  have right₂ := keeps₂.holds held₁ apart.symm.outside
  have bounds : wanted ≤ (Desc.new kind index payload total left beyond).totalSize := by
    simp
    omega
  have wide : ¬ sub64 (Desc.new kind index payload total left beyond).totalSize wanted ≤
      sizeofDesc := by
    simp only [Desc.new_totalSize, remaining]
    omega
  have alike := (Desc.new kind index payload total left beyond).updateGuards_alike
  have relinked : Desc.Alike { (Desc.new kind index payload total left beyond).updateGuards with
      rightBuddy := this + wanted, size := wanted - sizeofDesc, totalSize := wanted }
      (Desc.new kind index (wanted - sizeofDesc) wanted left (this + wanted)) :=
    ⟨alike.type, alike.index, rfl, rfl, alike.leftBuddy, rfl⟩
  rw [split, bind_ok (totalSize_run holds), assert_ok (by simpa using bounds),
    bind_ok (totalSize_run holds), if_neg wide, bind_ok (totalSize_run holds),
    bind_ok (load_run holds), bind_ok (index_run holds), alike.rightBuddy]
  simp only [Desc.new_totalSize, Desc.new_index, Desc.new_rightBuddy, remaining, rightPayload,
    leftPayload, place]
  rw [bind_ok saved₁, save_alike relinked, bind_ok saved₂]
  have apartNext : beyond ≠ 0 → Apart this beyond ∧ Apart (this + wanted) beyond :=
    fun other => ⟨Or.inl (by have := next other; omega), Or.inl (by have := next other; omega)⟩
  have next₂ : beyond ≠ 0 → c₂.Holds beyond beyondDesc ∧ beyondDesc.Fits := fun other =>
    ⟨keeps₂.holds (keeps₁.holds (next other).1 (apartNext other).2.symm.outside)
      (apartNext other).1.symm.outside, (next other).2.1⟩
  obtain ⟨c₃, linked, held₃, keeps₃⟩ :=
    linkBuddy_run (show this + wanted < 2 ^ 64 by omega) next₂
  have elsewhere : ∀ {place : Nat}, (beyond ≠ 0 → Apart place beyond) →
      ∀ x, Window place x → ¬ (beyond ≠ 0 ∧ Window beyond x) := fun apart x inside within =>
    (apart within.1).outside x inside within.2
  refine ⟨c₃, linked, keeps₃.holds held₂ (elsewhere fun other => (apartNext other).1),
    keeps₃.holds right₂ (elsewhere fun other => (apartNext other).2), held₃, ?_⟩
  exact ((keeps₁.mono fun x inside => Or.inr (Or.inl inside)).trans
    (keeps₂.mono fun x inside => Or.inl inside)).trans
    (keeps₃.mono fun x inside => Or.inr (Or.inr inside))

theorem merge_run
    (holds : c.Holds this (Desc.new .freeChunk index (total - sizeofDesc) total left right))
    (fits : (Desc.new .freeChunk index (total - sizeofDesc) total left right).Fits)
    (holdsRight : c.Holds right (Desc.new .freeChunk index' (total' - sizeofDesc) total' left'
      beyond))
    (beyondFits : beyond < 2 ^ 64) (least : sizeofDesc ≤ total) (least' : sizeofDesc ≤ total')
    (inRange : total + total' < 2 ^ 64) (apart : Apart this right)
    (thisFits : this < 2 ^ 64)
    (next : beyond ≠ 0 → c.Holds beyond beyondDesc ∧ beyondDesc.Fits ∧ Apart this beyond ∧
      Apart right beyond) :
    ∃ c', merge this right c = .ok () c' ∧
      c'.Holds this (Desc.new .freeChunk index (total + total' - sizeofDesc) (total + total') left
        beyond) ∧
      c'.Holds right (Desc.new .invalidChunk 0 0 0 0 0) ∧
      (beyond ≠ 0 → c'.Holds beyond { beyondDesc with leftBuddy := this }) ∧
      Keeps (fun x => Window this x ∨ Window right x ∨ beyond ≠ 0 ∧ Window beyond x) c c' := by
  have indexFits : index < 2 ^ 64 := fits.index
  have leftFits : left < 2 ^ 64 := fits.leftBuddy
  have payloads : add64 (total - sizeofDesc) total' = total + total' - sizeofDesc := by
    rw [add64_of_lt (by omega)]
    omega
  have totals : add64 total total' = total + total' := add64_of_lt inRange
  have alike := (Desc.new .freeChunk index (total - sizeofDesc) total left
    right).updateGuards_alike
  have elsewhere : ∀ {place : Nat}, (beyond ≠ 0 → Apart place beyond) →
      ∀ x, Window place x → ¬ (beyond ≠ 0 ∧ Window beyond x) := fun apart x inside within =>
    (apart within.1).outside x inside within.2
  have nextHeld : beyond ≠ 0 → c.Holds beyond beyondDesc ∧ beyondDesc.Fits := fun other =>
    ⟨(next other).1, (next other).2.1⟩
  obtain ⟨c₁, linked, beyond₁, keeps₁⟩ := linkBuddy_run thisFits nextHeld
  have held₁ := keeps₁.holds holds (elsewhere fun other => (next other).2.2.1)
  have right₁ := keeps₁.holds holdsRight (elsewhere fun other => (next other).2.2.2)
  have joinedFits : (Desc.new .freeChunk index (total + total' - sizeofDesc) (total + total') left
      beyond).Fits := ⟨indexFits, by simp; omega, inRange, leftFits, beyondFits⟩
  obtain ⟨c₂, saved₂, held₂, keeps₂⟩ := save_run held₁.writable joinedFits
  have invalidFits : (Desc.new .invalidChunk 0 0 0 0 0).Fits := by
    constructor <;> simp
  obtain ⟨c₃, saved₃, held₃, keeps₃⟩ := save_run (keeps₂.writable right₁.writable) invalidFits
  refine ⟨c₃, ?_, keeps₃.holds held₂ apart.outside, held₃, fun other => ?_, ?_⟩
  · rw [merge, bind_ok (type_run holds), assert_ok (by simp), bind_ok (type_run holdsRight),
      assert_ok (by simp), bind_ok (load_run holds), bind_ok (rightBuddy_run holdsRight)]
    simp only [Desc.new_rightBuddy]
    rw [bind_ok linked, bind_ok (totalSize_run right₁), bind_ok (totalSize_run right₁)]
    simp only [Desc.new_totalSize, alike.size, alike.totalSize, Desc.new_size, payloads, totals]
    generalize (Desc.new .freeChunk index (total - sizeofDesc) total left right).updateGuards =
      loaded at alike ⊢
    have joined : Desc.Alike { loaded with
        rightBuddy := beyond, size := total + total' - sizeofDesc, totalSize := total + total' }
        (Desc.new .freeChunk index (total + total' - sizeofDesc) (total + total') left beyond) :=
      ⟨alike.type, alike.index, rfl, rfl, alike.leftBuddy, rfl⟩
    rw [save_alike joined, bind_ok saved₂, saved₃]
  · obtain ⟨-, -, apartThis, apartRight⟩ := next other
    exact keeps₃.holds (keeps₂.holds (beyond₁ other) apartThis.symm.outside)
      apartRight.symm.outside
  · exact ((keeps₁.mono fun x inside => Or.inr (Or.inr inside)).trans
      (keeps₂.mono fun x inside => Or.inl inside)).trans
      (keeps₃.mono fun x inside => Or.inr (Or.inl inside))

theorem init_run (writable : c.Writable this) (least : sizeofDesc ≤ total)
    (indexFits : index < 2 ^ 64) (totalFits : total < 2 ^ 64) :
    ∃ c', init this kind index total 0 0 c = .ok () c' ∧
      c'.Holds this (Desc.new kind index (total - sizeofDesc) total 0 0) ∧
      Keeps (Window this) c c' := by
  rw [init, sub64_of_le least totalFits]
  exact save_run writable ⟨indexFits, by simp; omega, totalFits, by simp, by simp⟩

theorem markAsFree_eq (holds : c.Holds this desc)
    (inUse : desc.type ≠ .freeChunk ∧ desc.type ≠ .invalidChunk) :
    markAsFree this c = setType this .freeChunk c := by
  rw [markAsFree, bind_ok (type_run holds), assert_ok (by simpa using inUse.1),
    bind_ok (type_run holds), assert_ok (by simpa using inUse.2)]

/-- What is free or invalid already is not freed. -/
theorem markAsFree_fails (holds : c.Holds this desc)
    (idle : desc.type = .freeChunk ∨ desc.type = .invalidChunk) :
    markAsFree this c = .error .assertion c := by
  rw [markAsFree, bind_ok (type_run holds)]
  rcases idle with free | invalid
  · rw [assert_fails (by simp [free])]
  · rw [assert_ok (by simp [invalid]), bind_ok (type_run holds),
      assert_fails (by simp [invalid])]

end MemoryBlock

end Buddy
