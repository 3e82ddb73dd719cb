import Btpd.Library.Window
import Mathlib

/-!
# Bits in bytes

A field of bits in memory, eight to a byte and the first one on top, and what writing one of
them, or some bytes elsewhere, does to the others.
-/

namespace Btpd.Bits

variable {mem : List UInt8} {p q i j : Nat} {byte : UInt8}

/-- The place of a bit in its byte. -/
def mask (i : Nat) : UInt8 := 1 <<< UInt8.ofNat (7 - i % 8)

/-- Whether a bit is set in a byte. -/
def hasIn (byte : UInt8) (i : Nat) : Bool := byte &&& mask i != 0

/-- Whether a bit is set, counted from the byte at `p`. -/
def has (mem : List UInt8) (p i : Nat) : Bool := hasIn (mem.getD (p + i / 8) 0) i

/-- Different bits of a byte have nothing in common. -/
theorem mask_and_mask : mask i &&& mask j = if i % 8 = j % 8 then mask j else 0 := by
  have table : ∀ a b : Fin 8, mask a &&& mask b = if a = b then mask b else 0 := by decide
  have here := table ⟨i % 8, Nat.mod_lt _ (by decide)⟩ ⟨j % 8, Nat.mod_lt _ (by decide)⟩
  simpa [mask] using here

theorem mask_ne_zero : mask i ≠ 0 := by
  have table : ∀ a : Fin 8, mask a ≠ 0 := by decide
  have here := table ⟨i % 8, Nat.mod_lt _ (by decide)⟩
  simpa [mask] using here

theorem hasIn_or_mask : hasIn (byte ||| mask i) j = (hasIn byte j || decide (i % 8 = j % 8)) := by
  have split : (byte ||| mask i) &&& mask j = byte &&& mask j ||| mask i &&& mask j :=
    UInt8.toBitVec_inj.1 (by simp [BitVec.and_or_distrib_right])
  unfold hasIn
  rw [split, mask_and_mask]
  by_cases same : i % 8 = j % 8
  · simp [same, mask_ne_zero]
  · simp [same]

theorem not_mask_and_mask : ~~~mask i &&& mask j = if i % 8 = j % 8 then 0 else mask j := by
  have table : ∀ a b : Fin 8, ~~~mask a &&& mask b = if a = b then 0 else mask b := by decide
  have here := table ⟨i % 8, Nat.mod_lt _ (by decide)⟩ ⟨j % 8, Nat.mod_lt _ (by decide)⟩
  simpa [mask] using here

theorem hasIn_and_not_mask :
    hasIn (byte &&& ~~~mask i) j = (hasIn byte j && !decide (i % 8 = j % 8)) := by
  unfold hasIn
  rw [UInt8.and_assoc, not_mask_and_mask]
  by_cases same : i % 8 = j % 8
  · simp [same]
  · simp [same]

theorem hasIn_zero : hasIn 0 i = false := by simp [hasIn]

/-! ## Writing one bit -/

theorem getD_set (inside : q < mem.length) :
    (mem.set q byte).getD p 0 = if p = q then byte else mem.getD p 0 := by
  rw [List.getD_eq_getElem?_getD, List.getElem?_set]
  by_cases same : p = q
  · subst same
    simp [inside]
  · simp [same, Ne.symm same]

/-- Setting a bit sets this bit and no other. -/
theorem has_set (inside : p + i / 8 < mem.length) :
    has (mem.set (p + i / 8) (mem.getD (p + i / 8) 0 ||| mask i)) q j =
      (has mem q j || decide (p + i / 8 = q + j / 8 ∧ i % 8 = j % 8)) := by
  unfold has
  rw [getD_set inside]
  by_cases same : p + i / 8 = q + j / 8
  · simp [same, hasIn_or_mask]
  · simp [same, Ne.symm same]

/-- Clearing a bit clears this bit and no other. -/
theorem has_clear (inside : p + i / 8 < mem.length) :
    has (mem.set (p + i / 8) (mem.getD (p + i / 8) 0 &&& ~~~mask i)) q j =
      (has mem q j && !decide (p + i / 8 = q + j / 8 ∧ i % 8 = j % 8)) := by
  unfold has
  rw [getD_set inside]
  by_cases same : p + i / 8 = q + j / 8
  · simp [same, hasIn_and_not_mask]
  · simp [same, Ne.symm same]

/-! ## Writing bytes -/

theorem getD_overwrite {ys : List UInt8} (room : p + ys.length ≤ mem.length) :
    (overwrite mem p ys).getD q 0 =
      if p ≤ q ∧ q < p + ys.length then ys.getD (q - p) 0 else mem.getD q 0 := by
  have start : (mem.take p).length = p := List.length_take_of_le (by omega)
  unfold overwrite
  simp only [List.getD_eq_getElem?_getD]
  by_cases before : q < p
  · rw [List.getElem?_append_left (by omega), List.getElem?_take_of_lt before, if_neg (by omega)]
  rw [List.getElem?_append_right (by omega), start]
  by_cases within : q < p + ys.length
  · rw [List.getElem?_append_left (by omega), if_pos ⟨by omega, within⟩]
  · rw [List.getElem?_append_right (by omega), List.getElem?_drop, if_neg (by omega)]
    congr 2
    omega

theorem getD_replicate_zero {n : Nat} : (List.replicate n (0 : UInt8)).getD q 0 = 0 := by
  rw [List.getD_eq_getElem?_getD, List.getElem?_replicate]
  split
  · rfl
  · rfl

end Btpd.Bits
