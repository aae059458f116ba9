import Mathlib.Order.MinMax
import PathQuery.Binary64.Rounding

/-! Integers as doubles. An integer of no more digits than the format stores is a number of the
format, and a larger one is rounded to a number no smaller than the power of two below it. So an
integer of few digits keeps its place among all others, and what is rounded to the same double
are integers of more digits only. -/

namespace PathQuery

-- a power is the core library's, whatever else is in scope
attribute [local instance (high)] instPowNat

theorem log2_mul_two_pow {n : ℕ} (hn : n ≠ 0) (k : ℕ) : (n * 2 ^ k).log2 = n.log2 + k := by
  have hk := Nat.two_pow_pos k
  rw [Nat.log2_eq_iff (Nat.mul_ne_zero hn hk.ne'), Nat.pow_add, show n.log2 + k + 1 = n.log2 + 1 + k
    by omega, Nat.pow_add]
  exact ⟨Nat.mul_le_mul_right _ (Nat.log2_self_le hn),
    Nat.mul_lt_mul_of_pos_right Nat.lt_log2_self hk⟩

theorem div_le_divNearestEven (num den : ℕ) : num / den ≤ divNearestEven num den := by
  simp only [divNearestEven]
  split
  · exact Nat.le_refl _
  · split <;> omega

namespace BinaryFormat

variable {f : BinaryFormat} {m n : ℕ}

theorem round_le_infinity (f : BinaryFormat) (num den : ℕ) : f.round num den ≤ f.infinity :=
  Nat.min_le_left _ _

/-- One unit is small enough that no integer is rounded below it. -/
theorem round_one (hn : n ≠ 0) (hf : f.fractionBits ≤ f.scale) :
    f.round n 1 = min f.infinity ((n.log2 + (f.scale - f.fractionBits)) * 2 ^ f.fractionBits +
      divNearestEven (n * 2 ^ f.scale) (2 ^ (n.log2 + (f.scale - f.fractionBits)))) := by
  rw [round, Nat.div_one, log2_mul_two_pow hn, Nat.one_mul, Nat.add_sub_assoc hf]

/-- An integer of few digits is a number of the format. -/
theorem round_of_lt (hn : n ≠ 0) (hlt : n < 2 ^ (f.fractionBits + 1))
    (hf : f.fractionBits ≤ f.scale) :
    f.round n 1 = min f.infinity ((n.log2 + (f.scale - f.fractionBits)) * 2 ^ f.fractionBits +
      n * 2 ^ (f.fractionBits - n.log2)) := by
  have hlog : n.log2 < f.fractionBits + 1 := (Nat.log2_lt hn).mpr hlt
  have hunits : n * 2 ^ f.scale = n * 2 ^ (f.fractionBits - n.log2) *
      2 ^ (n.log2 + (f.scale - f.fractionBits)) := by
    rw [Nat.mul_assoc, ← Nat.pow_add]
    congr 2
    omega
  rw [round_one hn hf, hunits, divNearestEven_mul _ (Nat.two_pow_pos _)]

/-- No integer is rounded below the power of two at or before it. -/
theorem le_round (hn : n ≠ 0) (hf : f.fractionBits ≤ f.scale) :
    min f.infinity ((n.log2 + (f.scale - f.fractionBits) + 1) * 2 ^ f.fractionBits) ≤
      f.round n 1 := by
  have hpow : 2 ^ f.fractionBits ≤
      n * 2 ^ f.scale / 2 ^ (n.log2 + (f.scale - f.fractionBits)) := by
    rw [Nat.le_div_iff_mul_le (Nat.two_pow_pos _), ← Nat.pow_add,
      show f.fractionBits + (n.log2 + (f.scale - f.fractionBits)) = n.log2 + f.scale by omega,
      Nat.pow_add]
    exact Nat.mul_le_mul_right _ (Nat.log2_self_le hn)
  rw [round_one hn hf, Nat.add_mul _ 1, Nat.one_mul]
  exact min_le_min_left _ (Nat.add_le_add_left (hpow.trans (div_le_divNearestEven _ _)) _)

theorem round_zero (f : BinaryFormat) : f.round 0 1 = 0 := by
  simp [round, divNearestEven]

theorem mul_two_pow_lt (hm : m ≠ 0) (hlt : m < 2 ^ (f.fractionBits + 1)) :
    m * 2 ^ (f.fractionBits - m.log2) < 2 * 2 ^ f.fractionBits := by
  have hlog : m.log2 < f.fractionBits + 1 := (Nat.log2_lt hm).mpr hlt
  calc m * 2 ^ (f.fractionBits - m.log2)
      < 2 ^ (m.log2 + 1) * 2 ^ (f.fractionBits - m.log2) :=
        Nat.mul_lt_mul_of_pos_right Nat.lt_log2_self (Nat.two_pow_pos _)
    _ = 2 * 2 ^ f.fractionBits := by
        rw [← Nat.pow_add, ← Nat.pow_succ']
        congr 1
        omega

/-- An integer of few digits is rounded below every larger one. -/
theorem round_lt_round (hlt : m < 2 ^ (f.fractionBits + 1)) (hmn : m < n)
    (hf : f.fractionBits ≤ f.scale) (hfinite : f.scale + 2 ≤ f.exponents) :
    f.round m 1 < f.round n 1 := by
  have hn : n ≠ 0 := by omega
  have hinf : (f.scale + 2) * 2 ^ f.fractionBits ≤ f.infinity := Nat.mul_le_mul_right _ hfinite
  rcases Nat.eq_zero_or_pos m with rfl | hpos
  · rw [round_zero]
    refine lt_of_lt_of_le (lt_min ?_ ?_) (le_round hn hf)
    · exact lt_of_lt_of_le (Nat.mul_pos (by omega) (Nat.two_pow_pos _)) hinf
    · exact Nat.mul_pos (by omega) (Nat.two_pow_pos _)
  have hm : m ≠ 0 := hpos.ne'
  have hlog : m.log2 < f.fractionBits + 1 := (Nat.log2_lt hm).mpr hlt
  have hupper : (m.log2 + (f.scale - f.fractionBits)) * 2 ^ f.fractionBits +
      m * 2 ^ (f.fractionBits - m.log2) <
        (m.log2 + (f.scale - f.fractionBits) + 2) * 2 ^ f.fractionBits := by
    rw [Nat.add_mul _ 2]
    exact Nat.add_lt_add_left (mul_two_pow_lt hm hlt) _
  have hfin := hupper.trans_le ((Nat.mul_le_mul_right _ (by omega)).trans hinf)
  rw [round_of_lt hm hlt hf, min_eq_right hfin.le]
  rcases Nat.lt_or_ge m.log2 n.log2 with hlogs | hlogs
  · -- the powers of two before them are apart
    refine lt_of_lt_of_le (lt_min hfin ?_) (le_round hn hf)
    exact hupper.trans_le (Nat.mul_le_mul_right _ (by omega))
  · -- one power of two before both, so the larger has no more digits
    have heq : n.log2 = m.log2 :=
      le_antisymm hlogs ((Nat.le_log2 hn).mpr ((Nat.log2_self_le hm).trans hmn.le))
    have hltn : n < 2 ^ (f.fractionBits + 1) := by
      rw [← Nat.log2_lt hn, heq]
      exact hlog
    rw [round_of_lt hn hltn hf, heq]
    refine lt_min hfin (Nat.add_lt_add_left ?_ _)
    exact Nat.mul_lt_mul_of_pos_right hmn (Nat.two_pow_pos _)

end BinaryFormat

namespace Binary64

variable {p q : ℤ}

theorem rank_ofMagnitude (negative : Bool) {m : ℕ} (h : m ≤ infinityMagnitude) :
    (ofMagnitude negative m).rank = if negative then -(m : ℤ) else m := by
  have hm : m < 2 ^ (63 : ℕ) := lt_of_le_of_lt h (by decide)
  have hword : (if negative then 2 ^ (63 : ℕ) + m else m) < UInt64.size := by
    simp only [UInt64.size]
    split <;> omega
  unfold ofMagnitude rank isNegative magnitude
  rw [UInt64.toNat_ofNat_of_lt' hword]
  cases negative with
  | false => simp [Nat.not_le.mpr hm, Nat.mod_eq_of_lt hm]
  | true => simp [Nat.mod_eq_of_lt hm]

/-- The place of a double next to an integer. -/
theorem rank_ofInt (n : ℤ) :
    (ofInt n).rank = if n < 0 then -(BinaryFormat.double.round n.natAbs 1 : ℤ)
      else BinaryFormat.double.round n.natAbs 1 := by
  rw [ofInt, ofRatio, rank_ofMagnitude _ (BinaryFormat.double.round_le_infinity _ _)]
  simp only [decide_eq_true_eq]

/-- An integer of few digits shares its double with no other integer. -/
theorem eq_of_rank_ofInt (hp : p.natAbs < 2 ^ (53 : ℕ))
    (h : (ofInt p).rank = (ofInt q).rank) : p = q := by
  have hlt (m n : ℕ) : m < 2 ^ (53 : ℕ) → m < n →
      BinaryFormat.double.round m 1 < BinaryFormat.double.round n 1 :=
    fun hm hmn => BinaryFormat.round_lt_round hm hmn (by decide) (by decide)
  have hpq := hlt p.natAbs q.natAbs hp
  have hqp (hqp : q.natAbs < p.natAbs) := hlt q.natAbs p.natAbs (hqp.trans hp) hqp
  have hzero := hlt 0 p.natAbs (by decide)
  rw [rank_ofInt, rank_ofInt] at h
  -- the two doubles are as large, and on the same side of zero
  generalize BinaryFormat.double.round = round at *
  split at h <;> split at h <;> omega

end Binary64

end PathQuery
