/-
# The index of a function

The values of a table, read as binary digits with the first row in front, are a number, which is
computed in a word of 32 bits.  A table has at most 32 rows, so each digit finds its place free,
and with all 32 of them the word is filled exactly.  The number tells the values of the table.

* `RowIndex.ofBits_eq_sum`: a row index as a sum of powers of two;
* `RowIndex.map_bitDigit_eq_leftpad`: bits as the digits of their index, with leading zeros;
* `TruthTable.toNat_foldl_appendDigit`: the word holds the number, without overflow;
* `TruthTable.index_spec`: the index, its digits and what it tells.
-/
import Mathlib.Algebra.GroupWithZero.Nat
import Mathlib.Data.List.Induction
import TwoLevel.Proofs.Widening
import TwoLevel.Proofs.TableValues

namespace TwoLevel

/-! ## 1. Bits, numbers and digits -/

namespace RowIndex

/-- One more bit at the end doubles the index. -/
theorem ofBits_append_singleton (bs : List Bool) (b : Bool) :
    ofBits (bs ++ [b]) = 2 * ofBits bs + b.toNat := by
  rw [ofBits_append, List.length_singleton, Nat.shiftLeft_eq, Nat.mul_comm]
  simp [ofBits]

/-- The index of a row is the sum of the weights of its ones. -/
theorem ofBits_eq_sum (bs : List Bool) :
    ofBits bs
      = ((bs.zipIdx.filter (·.1 = true)).map fun p => 2 ^ (bs.length - 1 - p.2)).sum := by
  induction bs with
  | nil => rfl
  | cons b bs ih =>
    have hrest : (((bs.zipIdx 1).filter (·.1 = true)).map fun p => 2 ^ (bs.length - p.2)).sum
        = ofBits bs := by
      rw [ih, List.zipIdx_succ, List.filter_map, List.map_map]
      refine congrArg List.sum (List.map_congr_left fun p _ => ?_)
      exact congrArg (2 ^ ·) (by simp only; omega)
    cases b <;> simpa [ofBits, count_eq] using hrest.symm

/-- **Bits are the binary digits of their index**, with zeros in front. -/
theorem map_bitDigit_eq_leftpad {bs : List Bool} (hne : bs ≠ []) :
    bs.map Text.bitDigit = (Nat.toDigits 2 (ofBits bs)).leftpad bs.length '0' := by
  induction bs using List.reverseRecOn with
  | nil => exact absurd rfl hne
  | append_singleton bs b ih =>
    have hdigit : Nat.toDigits 2 b.toNat = [Text.bitDigit b] := by cases b <;> rfl
    have hlast : ∀ cs : List Char, (cs ++ [Text.bitDigit b]).leftpad (bs.length + 1) '0'
        = cs.leftpad bs.length '0' ++ [Text.bitDigit b] := by
      intro cs
      simp [List.leftpad]
    rw [ofBits_append_singleton, List.map_append, List.length_append, List.length_singleton]
    rcases Nat.eq_zero_or_pos (ofBits bs) with hzero | hpos
    · have hzeros : bs.map Text.bitDigit = [].leftpad bs.length '0' := by
        cases bs with
        | nil => rfl
        | cons c bs =>
          rw [ih (List.cons_ne_nil c bs), hzero]
          simp [List.leftpad, List.replicate_succ']
      rw [hzero, Nat.mul_zero, Nat.zero_add, hdigit, hzeros]
      exact (hlast []).symm
    · have hne : bs ≠ [] := by
        rintro rfl
        exact Nat.lt_irrefl 0 hpos
      rw [← Nat.toDigits_append_toDigits (by decide) hpos (Bool.toNat_lt b), hdigit, hlast,
        ← ih hne]
      rfl

end RowIndex

/-! ## 2. The word -/

namespace TruthTable

variable {t u : TruthTable} {vs : Variables} {e : Expression}

/-- A word of digits with one more digit at its end. -/
def appendDigit (word : UInt32) (value : Bool) : UInt32 :=
  word <<< 1 ||| value.toUInt32

theorem index_eq_foldl (t : TruthTable) : t.index = t.values.foldl appendDigit 0 := rfl

/-- While the highest bit is free, no bit is lost. -/
theorem toNat_appendDigit {word : UInt32} (h : word.toNat < 2 ^ 31) (b : Bool) :
    (appendDigit word b).toNat = 2 * word.toNat + b.toNat := by
  have hshift : (word <<< 1).toNat = word.toNat <<< 1 := by
    rw [UInt32.toNat_shiftLeft]
    refine Nat.mod_eq_of_lt ?_
    rw [show (1 : UInt32).toNat % 32 = 1 from rfl, Nat.shiftLeft_eq]
    omega
  have hbit : b.toUInt32.toNat = b.toNat := by cases b <;> rfl
  have hlt : b.toNat < 2 ^ 1 := Bool.toNat_lt b
  rw [appendDigit, UInt32.toNat_or, hshift, hbit, ← Nat.shiftLeft_add_eq_or_of_lt hlt,
    Nat.shiftLeft_eq]
  omega

/-- **The word holds the number.** -/
theorem toNat_foldl_appendDigit {bs : List Bool} (h : bs.length ≤ 32) :
    (bs.foldl appendDigit 0).toNat = RowIndex.ofBits bs := by
  induction bs using List.reverseRecOn with
  | nil => rfl
  | append_singleton bs b ih =>
    rw [List.length_append, List.length_singleton] at h
    have hword := ih (by omega)
    have hlt := RowIndex.ofBits_lt bs
    have hfree : RowIndex.count bs.length ≤ 2 ^ 31 := by
      rw [RowIndex.count_eq]
      exact Nat.pow_le_pow_right (by decide) (by omega)
    rw [List.foldl_append, List.foldl_cons, List.foldl_nil, toNat_appendDigit (by omega), hword,
      RowIndex.ofBits_append_singleton]

theorem length_values_le (t : TruthTable) : t.values.length ≤ 32 := by
  rw [t.length_values, Variables.rowCount_eq]
  exact Nat.pow_le_pow_right (by decide) t.size_le

theorem toNat_index (t : TruthTable) : t.index.toNat = RowIndex.ofBits t.values :=
  toNat_foldl_appendDigit t.length_values_le

/-- The minterms are the places of the ones. -/
theorem ofBits_values_eq_sum (t : TruthTable) :
    RowIndex.ofBits t.values
      = ((t.terms .sop).map fun i => 2 ^ (t.values.length - 1 - i)).sum := by
  rw [RowIndex.ofBits_eq_sum, terms, List.map_map]
  rfl

/-- **The index of a function.**  It is the sum of the weights of the minterms, the first row
having the largest, and no digit is lost on the way.  Written with one digit for each row it is the
list of values, and over the same variables it tells the values. -/
theorem index_spec (h : ofExpressionOver vs e = .ok t) :
    t.values.length = 2 ^ vs.size ∧
    t.index.toNat = ((t.terms .sop).map fun i => 2 ^ (2 ^ vs.size - 1 - i)).sum ∧
    (∀ before b after, t.values = before ++ b :: after →
      2 * (before.foldl appendDigit 0).toNat + b.toNat < 2 ^ 32) ∧
    t.binary.toList = (Nat.toDigits 2 t.index.toNat).leftpad (2 ^ vs.size) '0' ∧
    (∀ i < 2 ^ vs.size, t.binary.toList[i]? = some '1' ↔ t.values[i]? = some true) ∧
    ∀ e' u, ofExpressionOver vs e' = .ok u → (u.index = t.index ↔ u.values = t.values) := by
  obtain ⟨-, rfl, -⟩ := ofExpressionOver_eq_ok_iff.mp h
  have hlen : t.values.length = 2 ^ t.vars.size := by
    rw [t.length_values, Variables.rowCount_eq]
  have hdigits : t.binary.toList = t.values.map Text.bitDigit := String.toList_ofList
  refine ⟨hlen, ?_, fun before b after hsplit => ?_, ?_, fun i hi => ?_, fun e' u hu => ?_⟩
  · rw [toNat_index, ofBits_values_eq_sum, hlen]
  · have hle := t.length_values_le
    rw [hsplit, List.length_append, List.length_cons] at hle
    rw [toNat_foldl_appendDigit (by omega), ← RowIndex.ofBits_append_singleton]
    refine Nat.lt_of_lt_of_le (RowIndex.ofBits_lt _) ?_
    rw [RowIndex.count_eq, List.length_append, List.length_singleton]
    exact Nat.pow_le_pow_right (by decide) (by omega)
  · have hne : t.values ≠ [] := by
      intro hnil
      rw [hnil] at hlen
      exact absurd hlen (Nat.ne_of_lt (Nat.two_pow_pos _))
    rw [hdigits, toNat_index, ← hlen, RowIndex.map_bitDigit_eq_leftpad hne]
  · rw [hdigits, List.getElem?_map]
    cases t.values[i]? with
    | none => simp
    | some b => cases b <;> simp [Text.bitDigit]
  · obtain ⟨-, hvars, -⟩ := ofExpressionOver_eq_ok_iff.mp hu
    have hlengths : u.values.length = t.values.length := by
      rw [u.length_values, t.length_values, hvars]
    constructor
    · intro hindex
      refine RowIndex.ofBits_inj hlengths ?_
      rw [← toNat_index, ← toNat_index, hindex]
    · intro hvalues
      rw [index_eq_foldl, index_eq_foldl, hvalues]

/-- The index of `a -> e` over five names, which fills all 32 bits: 16 ones, 8 zeros and 8 ones. -/
theorem index_of_implication :
    ∃ e t, Expression.parse "a -> e" = .ok e ∧
      ofExpressionOver (.ofNames ['a', 'e', 'x', 'λ', '∧']) e = .ok t ∧
      t.index.toNat = 4294902015 ∧ t.binary = "11111111111111110000000011111111" := by
  have he : Expression.parse "a -> e"
      = .ok ⟨"a -> e", .ofNames ['a', 'e'], [.var 'a', .var 'e', .op .implies]⟩ := by decide
  have ht : ofExpressionOver (.ofNames ['a', 'e', 'x', 'λ', '∧'])
      ⟨"a -> e", .ofNames ['a', 'e'], [.var 'a', .var 'e', .op .implies]⟩
        = .ok ⟨.ofNames ['a', 'e', 'x', 'λ', '∧'],
          List.replicate 16 true ++ List.replicate 8 false ++ List.replicate 8 true,
          by decide, by decide⟩ :=
    ofExpressionOver_eq_ok_iff.mpr ⟨by decide, rfl, rfl⟩
  obtain ⟨-, hindex, -, hbinary, -⟩ := index_spec ht
  have hnumber := hindex.trans (by decide : _ = 4294902015)
  refine ⟨_, _, he, ht, hnumber, String.toList_inj.mp ?_⟩
  rw [hbinary, hnumber]
  decide

end TruthTable
end TwoLevel
