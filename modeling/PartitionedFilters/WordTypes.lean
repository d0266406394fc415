import Mathlib.Data.Nat.Basic

/-!
# Integer types

The unsigned types of a word and `int`, the operands of an operator after the
usual arithmetic conversions: an unsigned type narrower than `int` is promoted
to it.
-/

namespace PartitionedFilters

inductive WordType where
  | unsigned (bits : Nat)
  | int
  deriving DecidableEq, Repr

namespace WordType

abbrev bits (t : WordType) : Nat :=
  match t with
  | .unsigned w => w
  | .int => 32

abbrev T (t : WordType) : Type := BitVec t.bits

def promote (t : WordType) : WordType :=
  match t with
  | .unsigned w => if w < 32 then .int else .unsigned w
  | .int => .int

/-- The type of an operator with operands of the types `t` and `u`. -/
def common (t u : WordType) : WordType :=
  match t.promote, u.promote with
  | .int, v => v
  | v, .int => v
  | .unsigned w, .unsigned v => .unsigned (max w v)

def convert {t : WordType} (u : WordType) (x : t.T) : u.T :=
  match t with
  | .unsigned _ => BitVec.setWidth u.bits x
  | .int => BitVec.signExtend u.bits x

/-- `>>`, which copies the sign of an `int`. -/
def shiftRight {t : WordType} (x : t.T) (n : Nat) : t.T :=
  match t with
  | .unsigned _ => BitVec.ushiftRight x n
  | .int => BitVec.sshiftRight x n

variable {t u : WordType}

theorem bits_le_promote (t : WordType) : t.bits ≤ t.promote.bits := by
  cases t with
  | unsigned w =>
    by_cases h : w < 32
    · simp only [promote, if_pos h, bits]
      exact Nat.le_of_lt h
    · simp only [promote, if_neg h, bits]
      exact Nat.le_refl w
  | int => exact Nat.le_refl 32

theorem bits_le_common (t u : WordType) : t.bits ≤ (common t u).bits ∧ u.bits ≤ (common t u).bits := by
  have ht := bits_le_promote t
  have hu := bits_le_promote u
  have h32 : ∀ t : WordType, 32 ≤ t.promote.bits := fun t => by
    cases t with
    | unsigned w =>
      by_cases h : w < 32
      · simp only [promote, if_pos h, bits]
        exact Nat.le_refl 32
      · simp only [promote, if_neg h, bits]
        exact Nat.le_of_not_lt h
    | int => exact Nat.le_refl 32
  have ht32 := h32 t
  have hu32 := h32 u
  unfold common
  generalize t.promote = t' at *
  generalize u.promote = u' at *
  cases t' with
  | int => exact ⟨Nat.le_trans ht hu32, hu⟩
  | unsigned w =>
    cases u' with
    | int => exact ⟨ht, Nat.le_trans hu ht32⟩
    | unsigned v => exact ⟨Nat.le_trans ht (Nat.le_max_left w v), Nat.le_trans hu (Nat.le_max_right w v)⟩

theorem getLsbD_convert (x : t.T) {i : Nat} (ht : i < t.bits) (hu : i < u.bits) :
    (convert u x).getLsbD i = BitVec.getLsbD x i := by
  cases t with
  | unsigned w =>
    simp only [convert, BitVec.getLsbD_setWidth]
    rw [decide_eq_true hu, Bool.true_and]
  | int =>
    simp only [convert, BitVec.getLsbD_signExtend]
    rw [decide_eq_true hu, if_pos ht, Bool.true_and]

theorem setWidth_convert (x : t.T) {p : Nat} (ht : p ≤ t.bits) (hu : p ≤ u.bits) :
    (convert u x).setWidth p = BitVec.setWidth p x := by
  apply BitVec.eq_of_getLsbD_eq
  intro i hi
  rw [BitVec.getLsbD_setWidth, BitVec.getLsbD_setWidth,
    getLsbD_convert x (Nat.lt_of_lt_of_le hi ht) (Nat.lt_of_lt_of_le hi hu)]

theorem convert_promote_getLsbD (x : t.T) {i : Nat} (hi : i < t.bits) :
    (convert t.promote x).getLsbD i = BitVec.getLsbD x i :=
  getLsbD_convert x hi (Nat.lt_of_lt_of_le hi (bits_le_promote t))

theorem convert_promote_getLsbD_of_le (x : t.T) {i : Nat} (hi : t.bits ≤ i) :
    (convert t.promote x).getLsbD i = false := by
  cases t with
  | unsigned w =>
    simp only [convert, BitVec.getLsbD_setWidth]
    rw [BitVec.getLsbD_of_ge x i hi, Bool.and_false]
  | int => exact BitVec.getLsbD_of_ge _ i hi

theorem getLsbD_shiftRight (x : t.T) (n : Nat) {i : Nat} (h : n + i < t.bits) :
    (shiftRight x n).getLsbD i = BitVec.getLsbD x (n + i) := by
  cases t with
  | unsigned w => exact BitVec.getLsbD_ushiftRight x n i
  | int =>
    have hi : ¬int.bits ≤ i := Nat.not_le_of_lt (Nat.lt_of_le_of_lt (Nat.le_add_left i n) h)
    simp only [shiftRight, BitVec.getLsbD_sshiftRight]
    rw [if_pos h, decide_eq_false hi, Bool.not_false, Bool.true_and]

end WordType

end PartitionedFilters
