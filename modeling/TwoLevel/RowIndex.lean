/-
# Row indices as lists of bits

A row of a truth table is named by a number, and read as one bit for each variable.  The first
variable is the most significant bit.  Truth tables, patterns and Karnaugh maps all go through
the two functions of this file, so they agree on this order.

* `ofBits_append`: the bits in front are shifted past the others;
* `ofBits_bits`: reading the bits of an index gives its remainder modulo the number of rows;
* `bits_ofBits`: the bits of the index of a row are the row.
-/

namespace TwoLevel
namespace RowIndex

/-- The number of rows over `width` variables: each variable doubles it. -/
def count (width : Nat) : Nat := 1 <<< width

/-- The lowest `width` bits of an index, the most significant first. -/
def bits : Nat → Nat → List Bool
  | 0, _ => []
  | width + 1, index => index.testBit width :: bits width index

/-- The index whose bits are given, the most significant first. -/
def ofBits : List Bool → Nat
  | [] => 0
  | b :: bs => b.toNat * count bs.length + ofBits bs

example : bits 3 6 = [true, true, false] := by decide

example : ofBits [true, true, false] = 6 := by decide

@[simp] theorem length_bits (width index : Nat) : (bits width index).length = width := by
  induction width with
  | zero => rfl
  | succ width ih => simp [bits, ih]

/-- The bit at a place counts from the most significant end. -/
theorem getElem?_bits {width index j : Nat} (h : j < width) :
    (bits width index)[j]? = some (index.testBit (width - 1 - j)) := by
  induction width generalizing j with
  | zero => omega
  | succ width ih =>
    cases j with
    | zero => simp [bits]
    | succ j =>
      have e : width + 1 - 1 - (j + 1) = width - 1 - j := by omega
      simp only [bits, List.getElem?_cons_succ, e]
      exact ih (by omega)

@[simp] theorem count_zero : count 0 = 1 := rfl

theorem count_succ (width : Nat) : count (width + 1) = count width + count width := by
  rw [count, Nat.shiftLeft_succ, count]
  omega

theorem count_pos (width : Nat) : 0 < count width := by
  rw [count, Nat.one_shiftLeft]
  exact Nat.two_pow_pos width

theorem ofBits_lt (bs : List Bool) : ofBits bs < count bs.length := by
  induction bs with
  | nil => simp [ofBits]
  | cons b bs ih =>
    rw [List.length_cons, count_succ]
    cases b <;> simp [ofBits] <;> omega

/-- Bits in front of others are shifted past them. -/
theorem ofBits_append (as bs : List Bool) :
    ofBits (as ++ bs) = (ofBits as <<< bs.length) + ofBits bs := by
  induction as with
  | nil => simp [ofBits]
  | cons a as ih =>
    rw [List.cons_append, ofBits, ofBits, ih, List.length_append, count, count]
    simp only [Nat.shiftLeft_eq, Nat.pow_add, Nat.add_mul, Nat.mul_assoc, Nat.one_mul,
      Nat.add_assoc]

/-- Reading the bits of an index gives what the index is modulo the number of rows. -/
theorem ofBits_bits (width index : Nat) : ofBits (bits width index) = index % count width := by
  simp only [count, Nat.one_shiftLeft]
  induction width with
  | zero => simp [bits, ofBits, Nat.mod_one]
  | succ width ih =>
    rw [bits, ofBits, ih, length_bits, count, Nat.one_shiftLeft, Nat.mod_pow_succ,
      Nat.toNat_testBit, Nat.mul_comm, Nat.add_comm]

/-- Bits from the given width on have no influence. -/
theorem bits_congr {width i j : Nat} (h : ∀ k < width, i.testBit k = j.testBit k) :
    bits width i = bits width j := by
  induction width with
  | zero => rfl
  | succ width ih =>
    rw [bits, bits, h width (by omega), ih fun k hk => h k (by omega)]

theorem bits_mod (width index : Nat) : bits width (index % count width) = bits width index :=
  bits_congr fun k hk => by simp [count, Nat.one_shiftLeft, Nat.testBit_mod_two_pow, hk]

/-- The bits of the index of a row are the row. -/
theorem bits_ofBits (bs : List Bool) : bits bs.length (ofBits bs) = bs := by
  induction bs with
  | nil => rfl
  | cons b bs ih =>
    have hlt := ofBits_lt bs
    rw [count, Nat.one_shiftLeft] at hlt
    have hbit : (ofBits (b :: bs)).testBit bs.length = b := by
      rw [ofBits, count, Nat.one_shiftLeft, Nat.mul_comm, Nat.testBit_two_pow_mul_add b.toNat hlt]
      cases b <;> simp
    have hrest : bits bs.length (ofBits (b :: bs)) = bs := by
      refine Eq.trans (bits_congr fun k hk => ?_) ih
      rw [ofBits, count, Nat.one_shiftLeft, Nat.mul_comm, Nat.testBit_two_pow_mul_add b.toNat hlt]
      simp [hk]
    rw [List.length_cons, bits, hbit, hrest]

/-- Indices below the number of rows are told apart by their bits. -/
theorem bits_inj {width i j : Nat} (hi : i < count width) (hj : j < count width)
    (h : bits width i = bits width j) : i = j := by
  have hij := congrArg ofBits h
  rwa [ofBits_bits, ofBits_bits, Nat.mod_eq_of_lt hi, Nat.mod_eq_of_lt hj] at hij

end RowIndex
end TwoLevel
