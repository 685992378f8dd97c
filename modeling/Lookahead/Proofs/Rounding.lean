import Mathlib.Algebra.Order.Field.Rat
import Mathlib.Data.Nat.Cast.Order.Field
import Mathlib.Tactic.FieldSimp
import Mathlib.Tactic.Linarith
import Mathlib.Tactic.Positivity
import Mathlib.Tactic.Ring
import Lookahead.Json

/-!
# Decimals as doubles

Counted in units of 2⁻¹⁰⁷⁴, a finite double is a whole number with 53 significant binary digits
(`Double.Fits`). A value has exactly one of them that is nearest to it, if of two equally near ones
the even one counts (`Double.IsRounding`, `IsRounding.unique`). `Double.ofDecimal` reads a decimal
as that one, or as infinite if it is 2¹⁰²⁴ or more (`ofDecimal_isRounding`); the limits to the
exponents change nothing (`ofDecimal_eq_nearest`). So a decimal counts as holding exactly if it is
more than half a unit (`truthy_ofDecimal_iff`).
-/

namespace Lookahead

namespace Double

/-- Whether a number of units has 53 significant binary digits. -/
def Fits (n : Int) : Prop := ∃ digits scale : Nat, digits < 2 ^ 53 ∧ n.natAbs = digits * 2 ^ scale

/-- To `x`, `n` is nearer than `other`, or it is as near and an even multiple of what lies between
the two. -/
structure Preferred (x : ℚ) (n other : Int) : Prop where
  nearer : |x - n| ≤ |x - other|
  even : |x - other| = |x - n| → 2 * (n - other) ∣ n

/-- Among the numbers that fit, `n` is the one that `x` is rounded to. -/
structure IsRounding (x : ℚ) (n : Int) : Prop where
  fits : Fits n
  preferred : ∀ other, Fits other → other ≠ n → Preferred x n other

variable {num den : Nat} {x : ℚ} {n m : Int}

/-! ### Numbers that fit -/

theorem fits_of_le {digits scale : Nat} (h : digits ≤ 2 ^ 53) (hn : n.natAbs = digits * 2 ^ scale) :
    Fits n := by
  rcases Nat.lt_or_eq_of_le h with h | rfl
  · exact ⟨digits, scale, h, hn⟩
  · refine ⟨2 ^ 52, scale + 1, by decide, ?_⟩
    rw [hn]
    ring

theorem fits_zero : Fits 0 := ⟨0, 0, by decide, rfl⟩

theorem fits_one : Fits 1 := ⟨1, 0, by decide, rfl⟩

theorem Fits.neg (h : Fits n) : Fits (-n) := by
  obtain ⟨digits, scale, hd, hn⟩ := h
  exact ⟨digits, scale, hd, by rw [Int.natAbs_neg, hn]⟩

/-- A number that fits is a multiple of a scale, or it is too small to need one. -/
theorem Fits.dvd_or_lt (h : Fits n) (scale : Nat) :
    2 ^ scale ∣ n.natAbs ∨ n.natAbs < 2 ^ (52 + scale) := by
  obtain ⟨digits, own, hd, hn⟩ := h
  by_cases hs : scale ≤ own
  · refine .inl ?_
    rw [hn]
    exact Dvd.dvd.mul_left (pow_dvd_pow 2 hs) digits
  · refine .inr ?_
    calc n.natAbs = digits * 2 ^ own := hn
      _ < 2 ^ 53 * 2 ^ own := Nat.mul_lt_mul_of_pos_right hd (Nat.two_pow_pos own)
      _ = 2 ^ (53 + own) := (Nat.pow_add 2 53 own).symm
      _ ≤ 2 ^ (52 + scale) := Nat.pow_le_pow_right (by decide) (by omega)

/-! ### One number alone -/

theorem one_le_abs_sub (h : m ≠ n) : (1 : ℚ) ≤ |(n : ℚ) - m| := by
  have hint : 1 ≤ |n - m| := Int.one_le_abs (sub_ne_zero.2 (Ne.symm h))
  exact_mod_cast hint

theorem Preferred.neg (h : Preferred x n m) : Preferred (-x) (-n) (-m) := by
  have hdistance : ∀ y : Int, |-x - ((-y : Int) : ℚ)| = |x - y| := by
    intro y
    rw [Int.cast_neg, ← neg_sub', abs_neg]
  refine ⟨by rw [hdistance, hdistance]; exact h.nearer, fun he => ?_⟩
  rw [hdistance, hdistance] at he
  rw [← neg_sub', mul_neg, neg_dvd, dvd_neg]
  exact h.even he

/-- Preference does not depend on the unit. -/
theorem Preferred.mul (h : Preferred x n m) {unit : Int} (hu : 0 < unit) :
    Preferred (x * unit) (n * unit) (m * unit) := by
  have hpos : (0 : ℚ) < unit := by exact_mod_cast hu
  have hdistance : ∀ y : Int, |x * unit - ((y * unit : Int) : ℚ)| = |x - y| * unit := by
    intro y
    rw [Int.cast_mul, ← sub_mul, abs_mul, abs_of_pos hpos]
  refine ⟨?_, fun he => ?_⟩
  · rw [hdistance, hdistance]
    exact mul_le_mul_of_nonneg_right h.nearer hpos.le
  · rw [hdistance, hdistance] at he
    rw [← sub_mul, ← mul_assoc]
    exact mul_dvd_mul_right (h.even (mul_right_cancel₀ hpos.ne' he)) unit

theorem IsRounding.nearest (h : IsRounding x n) (hm : Fits m) : |x - n| ≤ |x - m| := by
  rcases eq_or_ne m n with rfl | hne
  · exact le_rfl
  · exact (h.preferred m hm hne).nearer

theorem IsRounding.neg (h : IsRounding x n) : IsRounding (-x) (-n) := by
  refine ⟨h.fits.neg, fun other ho hne => ?_⟩
  have hpreferred := (h.preferred (-other) ho.neg fun he => hne (by rw [← he, neg_neg])).neg
  rwa [neg_neg] at hpreferred

/-- There is no more than one, since of two the difference would be even twice over. -/
theorem IsRounding.unique (h : IsRounding x n) (h' : IsRounding x m) : n = m := by
  by_contra hne
  have hequal : |x - n| = |x - m| := le_antisymm (h.nearest h'.fits) (h'.nearest h.fits)
  have hn : 2 * (n - m) ∣ n := (h.preferred m h'.fits (Ne.symm hne)).even hequal.symm
  have hm : 2 * (n - m) ∣ m := by
    have hswap := (h'.preferred n h.fits hne).even hequal
    rwa [← neg_sub n m, mul_neg, neg_dvd] at hswap
  have hpos : 0 < |n - m| := abs_pos.2 (sub_ne_zero.2 hne)
  have hself : |2 * (n - m)| ≤ |n - m| :=
    Int.le_of_dvd hpos ((abs_dvd _ _).2 ((dvd_abs _ _).2 (dvd_sub hn hm)))
  rw [abs_mul, show |(2 : Int)| = 2 from rfl] at hself
  omega

theorem isRounding_self (h : Fits n) : IsRounding n n := by
  refine ⟨h, fun other _ hne => ⟨?_, fun he => ?_⟩⟩
  · rw [sub_self, abs_zero]
    exact abs_nonneg _
  · rw [sub_self, abs_zero] at he
    have hone := one_le_abs_sub hne
    rw [he] at hone
    norm_num at hone

/-! ### The nearest whole number -/

/-- Down up to a half, up from a half on, and at a half to the even side. -/
theorem roundHalfEven_cases (num den : Nat) :
    (roundHalfEven num den = num / den ∧ 2 * (num % den) ≤ den ∨
      roundHalfEven num den = num / den + 1 ∧ den ≤ 2 * (num % den)) ∧
    (2 * (num % den) = den → 2 ∣ roundHalfEven num den) := by
  unfold roundHalfEven
  dsimp only
  split
  · exact ⟨.inl ⟨rfl, by omega⟩, by omega⟩
  · split
    · exact ⟨.inr ⟨rfl, by omega⟩, by omega⟩
    · rcases Nat.mod_two_eq_zero_or_one (num / den) with h2 | h2
      · exact ⟨.inl ⟨by omega, by omega⟩, by omega⟩
      · exact ⟨.inr ⟨by omega, by omega⟩, by omega⟩

theorem roundHalfEven_le (num den : Nat) : roundHalfEven num den ≤ num / den + 1 := by
  have hcases := (roundHalfEven_cases num den).1
  omega

theorem le_roundHalfEven (num den : Nat) : num / den ≤ roundHalfEven num den := by
  have hcases := (roundHalfEven_cases num den).1
  omega

theorem roundHalfEven_near (num : Nat) (h : 0 < den) :
    2 * num ≤ 2 * (roundHalfEven num den * den) + den ∧
      2 * (roundHalfEven num den * den) ≤ 2 * num + den := by
  have hd := Nat.div_add_mod' num den
  have hr := Nat.mod_lt num h
  rcases (roundHalfEven_cases num den).1 with ⟨he, hrest⟩ | ⟨he, hrest⟩
  · rw [he]
    omega
  · rw [he, Nat.succ_mul (num / den)]
    omega

theorem two_dvd_roundHalfEven (h : 0 < den)
    (htie : 2 * num = 2 * (roundHalfEven num den * den) + den ∨
      2 * (roundHalfEven num den * den) = 2 * num + den) : 2 ∣ roundHalfEven num den := by
  have hd := Nat.div_add_mod' num den
  have hr := Nat.mod_lt num h
  refine (roundHalfEven_cases num den).2 ?_
  rcases (roundHalfEven_cases num den).1 with ⟨he, hrest⟩ | ⟨he, hrest⟩
  · rw [he] at htie
    omega
  · rw [he, Nat.succ_mul (num / den)] at htie
    omega

theorem abs_sub_roundHalfEven (num : Nat) (h : 0 < den) :
    |(num / den : ℚ) - roundHalfEven num den| ≤ 1 / 2 ∧
    (|(num / den : ℚ) - roundHalfEven num den| = 1 / 2 → 2 ∣ roundHalfEven num den) := by
  have hden : (0 : ℚ) < den := by exact_mod_cast h
  have hdistance : |(num / den : ℚ) - roundHalfEven num den| =
      |(num : ℚ) - roundHalfEven num den * den| / den := by
    rw [← abs_of_pos hden, ← abs_div, abs_of_pos hden]
    congr 1
    field_simp
  rw [hdistance]
  constructor
  · obtain ⟨hlow, hhigh⟩ := roundHalfEven_near num h
    have hlow : (2 * num : ℚ) ≤ 2 * (roundHalfEven num den * den) + den := by exact_mod_cast hlow
    have hhigh : (2 * (roundHalfEven num den * den) : ℚ) ≤ 2 * num + den := by exact_mod_cast hhigh
    rw [div_le_iff₀ hden, abs_le]
    constructor <;> linarith
  · intro htie
    refine two_dvd_roundHalfEven h ?_
    rw [div_eq_iff hden.ne'] at htie
    rcases eq_or_eq_neg_of_abs_eq htie with htie | htie
    · have htie : (2 * num : ℚ) = 2 * (roundHalfEven num den * den) + den := by linarith
      exact .inl (by exact_mod_cast htie)
    · have htie : (2 * (roundHalfEven num den * den) : ℚ) = 2 * num + den := by linarith
      exact .inr (by exact_mod_cast htie)

theorem preferred_roundHalfEven (num : Nat) (h : 0 < den) {other : Int}
    (hne : other ≠ roundHalfEven num den) :
    Preferred (num / den) (roundHalfEven num den) other := by
  obtain ⟨hhalf, heven⟩ := abs_sub_roundHalfEven num h
  have hgap := one_le_abs_sub hne
  have htriangle := abs_sub_le (roundHalfEven num den : ℚ) (num / den) other
  rw [abs_sub_comm (roundHalfEven num den : ℚ) (num / den)] at htriangle
  rw [Int.cast_natCast] at hgap
  refine ⟨by rw [Int.cast_natCast]; linarith, fun he => ?_⟩
  rw [Int.cast_natCast] at he
  have htwo : (2 : Int) ∣ roundHalfEven num den := by
    exact_mod_cast heven (le_antisymm hhalf (by linarith))
  have hunit : |((roundHalfEven num den : Int) - other : Int)| = 1 := by
    have hle : |((roundHalfEven num den : Int) : ℚ) - other| ≤ 1 := by
      rw [Int.cast_natCast]
      linarith
    exact le_antisymm (by exact_mod_cast hle) (Int.one_le_abs (sub_ne_zero.2 (Ne.symm hne)))
  rcases eq_or_eq_neg_of_abs_eq hunit with hone | hone
  · rw [hone, mul_one]
    exact htwo
  · rw [hone, mul_neg, mul_one, neg_dvd]
    exact htwo

/-! ### The nearest number that fits -/

/-- What is left at the scale of the surplus has 53 binary digits, rounded up at most `2 ^ 53`. -/
theorem roundHalfEven_scale_le (num den : Nat) :
    roundHalfEven num (den * 2 ^ surplus num den) ≤ 2 ^ 53 := by
  have hquotient : num / den < 2 ^ 53 * 2 ^ surplus num den := by
    rw [← Nat.pow_add]
    refine Nat.lt_of_lt_of_le Nat.lt_log2_self (Nat.pow_le_pow_right (by decide) ?_)
    unfold surplus
    omega
  have hscaled : num / (den * 2 ^ surplus num den) < 2 ^ 53 := by
    rw [← Nat.div_div_eq_div_mul]
    exact Nat.div_lt_of_lt_mul (by rwa [Nat.mul_comm])
  exact Nat.le_trans (roundHalfEven_le _ _) hscaled

theorem two_pow_le_of_surplus (h : surplus num den ≠ 0) :
    2 ^ (52 + surplus num den) ≤ num / den := by
  have hlog : (num / den).log2 = 52 + surplus num den := by
    unfold surplus at h ⊢
    omega
  have hne : num / den ≠ 0 := fun he => by
    rw [he, Nat.log2_zero] at hlog
    omega
  rw [← hlog]
  exact Nat.log2_self_le hne

theorem fits_rounded (num den : Nat) : Fits (rounded num den) :=
  fits_of_le (roundHalfEven_scale_le num den) (Int.natAbs_natCast _)

/-- Against a multiple of the scale, the rounding is one to a whole number of scales. -/
theorem preferred_rounded (num : Nat) (h : 0 < den) {z : Int}
    (hne : z * 2 ^ surplus num den ≠ rounded num den) :
    Preferred (num / den) (rounded num den) (z * 2 ^ surplus num den) := by
  have hden : (den : ℚ) ≠ 0 := by exact_mod_cast h.ne'
  have hpos : 0 < den * 2 ^ surplus num den := Nat.mul_pos h (Nat.two_pow_pos _)
  have hrounded : (rounded num den : Int) =
      roundHalfEven num (den * 2 ^ surplus num den) * 2 ^ surplus num den := by
    exact_mod_cast (rfl : rounded num den = _)
  have hquotient : (num / den : ℚ) =
      num / (den * 2 ^ surplus num den : Nat) * (2 ^ surplus num den : Int) := by
    push_cast
    field_simp
  have hz : z ≠ roundHalfEven num (den * 2 ^ surplus num den) := fun he =>
    hne (by rw [he, hrounded])
  rw [hrounded, hquotient]
  exact (preferred_roundHalfEven num hpos hz).mul (by positivity)

/-- What is no multiple of the scale is beneath a multiple that is nearer. -/
theorem rounded_nearer_of_lt (num : Nat) (h : 0 < den) (hs : surplus num den ≠ 0) {other : Int}
    (hlt : other.natAbs < 2 ^ (52 + surplus num den)) :
    |(num / den : ℚ) - (rounded num den : Int)| < |(num / den : ℚ) - other| := by
  have hfloor : ((2 ^ (52 + surplus num den) : Int) : ℚ) ≤ num / den :=
    calc ((2 ^ (52 + surplus num den) : Int) : ℚ) = (2 ^ (52 + surplus num den) : Nat) := by
          push_cast
          rfl
      _ ≤ (num / den : Nat) := by exact_mod_cast two_pow_le_of_surplus hs
      _ ≤ num / den := Nat.cast_div_le
  have hother : (other : ℚ) < (2 ^ (52 + surplus num den) : Int) := by
    exact_mod_cast Int.le_natAbs.trans_lt (by exact_mod_cast hlt)
  have hbound : |(num / den : ℚ) - (rounded num den : Int)| ≤
      |(num / den : ℚ) - (2 ^ (52 + surplus num den) : Int)| := by
    rw [pow_add]
    by_cases hne : (2 ^ 52 : Int) * 2 ^ surplus num den = rounded num den
    · rw [hne]
    · exact (preferred_rounded num h hne).nearer
  rw [abs_of_nonneg (sub_nonneg.2 hfloor)] at hbound
  have hself := le_abs_self ((num / den : ℚ) - other)
  linarith

theorem isRounding_rounded (num : Nat) (h : 0 < den) :
    IsRounding (num / den) (rounded num den) := by
  refine ⟨fits_rounded num den, fun other ho hne => ?_⟩
  have hsplit : (2 ^ surplus num den ∣ other.natAbs) ∨
      surplus num den ≠ 0 ∧ other.natAbs < 2 ^ (52 + surplus num den) := by
    by_cases hs : surplus num den = 0
    · exact .inl (by rw [hs]; exact one_dvd _)
    · exact (ho.dvd_or_lt _).imp_right fun hlt => ⟨hs, hlt⟩
  rcases hsplit with hdvd | ⟨hs, hlt⟩
  · obtain ⟨z, rfl⟩ : ∃ z : Int, other = z * 2 ^ surplus num den := by
      obtain ⟨z, hz⟩ := Int.natCast_dvd.2 hdvd
      exact ⟨z, by rw [hz, mul_comm]; push_cast; rfl⟩
    exact preferred_rounded num h hne
  · have hnearer := rounded_nearer_of_lt num h hs hlt
    exact ⟨hnearer.le, fun he => absurd he hnearer.ne'⟩

/-! ### Doubles -/

/-- The double of a number of units. -/
def ofUnits (units : Int) : Double :=
  if units.natAbs < limit then finite units else infinite (units < 0)

theorem one_pos : 0 < one := by decide +kernel

theorem exists_limit_eq_two_pow : ∃ e, 52 ≤ e ∧ limit = 2 ^ e :=
  ⟨2098, by decide, by decide +kernel⟩

theorem limit_pos : 0 < limit := by decide +kernel

theorem ofUnits_zero : ofUnits 0 = finite 0 := if_pos limit_pos

theorem rounded_eq_zero (h : 2 * num < den) : rounded num den = 0 := by
  have hquotient : num / den = 0 := Nat.div_eq_of_lt (by omega)
  have hscale : Nat.pow 2 (surplus num den) = 1 := by
    rw [surplus, hquotient, Nat.log2_zero]
  have hrest : num % den = num := Nat.mod_eq_of_lt (by omega)
  rw [rounded, hscale, Nat.mul_one, Nat.mul_one]
  simp only [roundHalfEven, hrest, if_pos h, hquotient]

theorem two_pow_le_rounded {e : Nat} (he : 52 ≤ e) (h : 2 ^ e ≤ num / den) :
    2 ^ e ≤ rounded num den := by
  have hpos : 0 < num / den := Nat.lt_of_lt_of_le (Nat.two_pow_pos e) h
  have hlog : e ≤ (num / den).log2 := (Nat.le_log2 hpos.ne').2 h
  have hscale : 52 + surplus num den = (num / den).log2 := by
    unfold surplus
    omega
  calc 2 ^ e ≤ 2 ^ (52 + surplus num den) := Nat.pow_le_pow_right (by decide) (by omega)
    _ = 2 ^ 52 * 2 ^ surplus num den := Nat.pow_add ..
    _ ≤ num / den / 2 ^ surplus num den * 2 ^ surplus num den := by
      refine Nat.mul_le_mul_right _ ((Nat.le_div_iff_mul_le (Nat.two_pow_pos _)).2 ?_)
      rw [← Nat.pow_add, hscale]
      exact Nat.log2_self_le hpos.ne'
    _ ≤ rounded num den := by
      rw [Nat.div_div_eq_div_mul]
      exact Nat.mul_le_mul_right _ (le_roundHalfEven _ _)

theorem limit_le_rounded (h : limit ≤ num / den) : limit ≤ rounded num den := by
  obtain ⟨e, he, hlimit⟩ := exists_limit_eq_two_pow
  rw [hlimit] at h ⊢
  exact two_pow_le_rounded he h

/-- Signs are left out of the rounding and put back. -/
theorem isRounding_sign (num : Int) (h : 0 < den) :
    IsRounding (num * one / den) (num.sign * rounded (num.natAbs * one) den) := by
  have hsize := isRounding_rounded (num.natAbs * one) h
  rcases lt_trichotomy num 0 with hneg | rfl | hpos
  · have hnum : (num : ℚ) = -(num.natAbs : ℚ) := by
      rw [Nat.cast_natAbs, abs_of_neg hneg, Int.cast_neg, neg_neg]
    rw [Int.sign_eq_neg_one_of_neg hneg, neg_one_mul, hnum, neg_mul, neg_div]
    push_cast at hsize
    exact hsize.neg
  · rw [Int.sign_zero, zero_mul, Int.cast_zero, zero_mul, zero_div]
    exact isRounding_self fits_zero
  · have hnum : (num : ℚ) = (num.natAbs : ℚ) := by
      rw [Nat.cast_natAbs, abs_of_pos hpos]
    rw [Int.sign_eq_one_of_pos hpos, one_mul, hnum]
    push_cast at hsize
    exact hsize

theorem nearest_eq_ofUnits (num : Int) (h : 0 < den) :
    nearest num den = ofUnits (num.sign * rounded (num.natAbs * one) den) := by
  rcases eq_or_ne num 0 with rfl | hne
  · have hzero : rounded ((0 : Int).natAbs * one) den = 0 :=
      rounded_eq_zero (by rw [Int.natAbs_zero, Nat.zero_mul]; exact h)
    rw [nearest, hzero, Int.sign_zero, Int.zero_mul, ofUnits_zero, if_pos limit_pos]
  · have hsize : (num.sign * rounded (num.natAbs * one) den).natAbs =
        rounded (num.natAbs * one) den := by
      rw [Int.natAbs_mul, Int.natAbs_sign_of_ne_zero hne, Nat.one_mul, Int.natAbs_natCast]
    rw [nearest, ofUnits, hsize]
    by_cases hlt : rounded (num.natAbs * one) den < limit
    · rw [if_pos hlt, if_pos hlt]
    · have hpos : 0 < rounded (num.natAbs * one) den :=
        Nat.lt_of_lt_of_le limit_pos (Nat.le_of_not_lt hlt)
      have hsign : num < 0 ↔ num.sign * rounded (num.natAbs * one) den < 0 := by
        rcases lt_or_gt_of_ne hne with hneg | hpos'
        · rw [Int.sign_eq_neg_one_of_neg hneg]
          omega
        · rw [Int.sign_eq_one_of_pos hpos']
          omega
      rw [if_neg hlt, if_neg hlt, decide_eq_decide.2 hsign]

theorem nearest_eq_zero {num : Int} (h : 2 * (num.natAbs * one) < den) :
    nearest num den = finite 0 := by
  rw [nearest_eq_ofUnits num (by omega), rounded_eq_zero h, Int.natCast_zero, mul_zero,
    ofUnits_zero]

theorem nearest_eq_infinite {num : Int} (hden : 0 < den) (h : limit * den ≤ num.natAbs * one) :
    nearest num den = infinite (num < 0) := by
  have hlarge : limit ≤ num.natAbs * one / den := (Nat.le_div_iff_mul_le hden).2 h
  rw [nearest, if_neg (Nat.not_lt.2 (limit_le_rounded hlarge))]

/-! ### Decimals -/

theorem nearest_mul_pow {digits : Int} {up : Nat} (hdigits : digits ≠ 0) (hup : 309 ≤ up) :
    nearest (digits * Int.ofNat (Nat.pow 10 up)) (Nat.pow 10 0) = infinite (digits < 0) := by
  obtain ⟨k, hk, hsmallest⟩ : ∃ k, k ≤ 309 ∧ limit ≤ Nat.pow 10 k * one :=
    ⟨309, le_rfl, by decide +kernel⟩
  have hpow : Nat.pow 10 k ≤ Nat.pow 10 up := Nat.pow_le_pow_right (by decide) (hk.trans hup)
  have hsize : Nat.pow 10 up ≤ (digits * Int.ofNat (Nat.pow 10 up)).natAbs := by
    rw [Int.natAbs_mul]
    exact Nat.le_mul_of_pos_left _ (Int.natAbs_pos.2 hdigits)
  have hlarge : limit * Nat.pow 10 0 ≤ (digits * Int.ofNat (Nat.pow 10 up)).natAbs * one := by
    have hunit : Nat.pow 10 0 = 1 := rfl
    rw [hunit, Nat.mul_one]
    exact hsmallest.trans (Nat.mul_le_mul_right one (hpow.trans hsize))
  have hpos : 0 < Int.ofNat (Nat.pow 10 up) := Int.natCast_pos.2 (Nat.pow_pos (by decide))
  have hsign : digits * Int.ofNat (Nat.pow 10 up) < 0 ↔ digits < 0 :=
    ⟨fun h => neg_of_mul_neg_left h hpos.le, fun h => mul_neg_of_neg_of_pos h hpos⟩
  have hden : 0 < Nat.pow 10 0 := Nat.one_pos
  rw [nearest_eq_infinite hden hlarge, decide_eq_decide.2 hsign]

theorem nearest_pow {digits : Int} {down : Nat} (h : digits.natAbs.log2 + 1077 ≤ down) :
    nearest (digits * Int.ofNat (Nat.pow 10 0)) (Nat.pow 10 down) = finite 0 := by
  obtain ⟨e, he, hone⟩ : ∃ e, e ≤ 1074 ∧ one = 2 ^ e := ⟨1074, le_rfl, by decide +kernel⟩
  have hdigits : digits.natAbs < 2 ^ (digits.natAbs.log2 + 1) := Nat.lt_log2_self
  have hunit : digits * Int.ofNat (Nat.pow 10 0) = digits := mul_one digits
  rw [hunit]
  refine nearest_eq_zero ?_
  calc 2 * (digits.natAbs * one) < 2 * (2 ^ (digits.natAbs.log2 + 1) * 2 ^ e) := by
        rw [hone]
        exact Nat.mul_lt_mul_of_pos_left
          (Nat.mul_lt_mul_of_pos_right hdigits (Nat.two_pow_pos e)) (by decide)
    _ = 2 ^ (digits.natAbs.log2 + 1 + e + 1) := by ring
    _ ≤ 2 ^ down := Nat.pow_le_pow_right (by decide) (by omega)
    _ ≤ 10 ^ down := Nat.pow_le_pow_left (by decide) down

/-- The limits to the exponents change nothing. -/
theorem ofDecimal_eq_nearest (digits exponent : Int) : ofDecimal digits exponent =
    nearest (digits * Int.ofNat (Nat.pow 10 exponent.toNat)) (Nat.pow 10 (-exponent).toNat) := by
  unfold ofDecimal
  dsimp only
  rcases le_total 0 exponent with hsign | hsign
  · rw [Int.toNat_of_nonpos (neg_nonpos.2 hsign), Nat.zero_min]
    rcases le_total exponent.toNat 309 with hup | hup
    · rw [min_eq_left hup]
    · rw [min_eq_right hup]
      rcases eq_or_ne digits 0 with rfl | hdigits
      · rw [zero_mul, zero_mul]
      · rw [nearest_mul_pow hdigits le_rfl, nearest_mul_pow hdigits hup]
  · rw [Int.toNat_of_nonpos hsign, Nat.zero_min]
    rcases le_total (-exponent).toNat (digits.natAbs.log2 + 1077) with hdown | hdown
    · rw [min_eq_left hdown]
    · rw [min_eq_right hdown, nearest_pow le_rfl, nearest_pow hdown]

theorem mul_zpow_ten (digits exponent : Int) : (digits * 10 ^ exponent : ℚ) =
    (digits * Int.ofNat (Nat.pow 10 exponent.toNat) : Int) /
      (Nat.pow 10 (-exponent).toNat : Nat) := by
  rcases Int.eq_nat_or_neg exponent with ⟨n, rfl | rfl⟩
  · simp
  · simp [div_eq_mul_inv]

/-- A decimal is read as the double that it rounds to. -/
theorem ofDecimal_isRounding (digits exponent : Int) :
    ∃ units, IsRounding (digits * 10 ^ exponent * one) units ∧
      ofDecimal digits exponent = ofUnits units := by
  have hden : 0 < Nat.pow 10 (-exponent).toNat := Nat.pow_pos (by decide)
  refine ⟨_, ?_, (ofDecimal_eq_nearest digits exponent).trans (nearest_eq_ofUnits _ hden)⟩
  rw [mul_zpow_ten, div_mul_eq_mul_div]
  exact isRounding_sign _ hden

/-! ### Zeros -/

theorem IsRounding.eq_zero_iff (h : IsRounding x n) : n = 0 ↔ |x| ≤ 1 / 2 := by
  constructor
  · rintro rfl
    have hone := h.nearest fits_one
    have hneg := h.nearest fits_one.neg
    push_cast at hone hneg
    rw [sub_zero] at hone hneg
    grind
  · intro hx
    refine h.unique ⟨fits_zero, fun other _ hne => ⟨?_, fun _ => dvd_zero _⟩⟩
    have hgap := one_le_abs_sub hne
    have htriangle := abs_sub_le (0 : ℚ) x other
    rw [zero_sub, abs_neg, zero_sub, abs_neg] at htriangle
    rw [Int.cast_zero, zero_sub, abs_neg] at hgap
    rw [Int.cast_zero, sub_zero]
    linarith

theorem truthy_ofUnits (units : Int) :
    Json.truthy (.num (.double (ofUnits units))) = true ↔ units ≠ 0 := by
  unfold ofUnits
  split
  · show (!(finite units).isWhole 0) = true ↔ units ≠ 0
    rw [isWhole, Int.zero_mul, Bool.not_eq_true', beq_eq_false_iff_ne]
  · next hlarge =>
    refine iff_of_true rfl ?_
    rintro rfl
    exact hlarge limit_pos

/-- A decimal counts as holding if it is more than half a unit. -/
theorem truthy_ofDecimal_iff (digits exponent : Int) :
    Json.truthy (.num (.double (ofDecimal digits exponent))) = true ↔
      1 / 2 < |(digits * 10 ^ exponent * one : ℚ)| := by
  obtain ⟨units, hunits, heq⟩ := ofDecimal_isRounding digits exponent
  rw [heq, truthy_ofUnits, Ne, hunits.eq_zero_iff, not_le]

end Double

end Lookahead
