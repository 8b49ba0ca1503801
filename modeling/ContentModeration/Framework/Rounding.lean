import Mathlib.Algebra.Order.Floor.Ring
import Mathlib.Data.Int.Log
import Mathlib.Tactic.GCongr
import Mathlib.Tactic.Linarith
import Mathlib.Tactic.NormNum
import Mathlib.Tactic.Ring

/-!
# Rounding a half to even

`roundHalfEven x` is the integer nearest to `x`, and the even one of two that are
as near. `le_roundHalfEven_iff` says what is rounded to `m` or more: what is more
than `m - 1/2`, and that itself if `m` is even.

`roundBinary p x` is `x` rounded so to `p` significant binary digits, as the
arithmetic of floats does where nothing overflows or underflows. It is monotone
(`roundBinary_mono`), and off by at most one part in `2 ^ p` (`roundBinary_near`).
-/

namespace CM

variable {α : Type} [Field α] [LinearOrder α] [FloorRing α]

def roundHalfEven (x : α) : Int :=
  if Int.fract x < 1 / 2 then ⌊x⌋ else if 1 / 2 < Int.fract x then ⌊x⌋ + 1
  else if ⌊x⌋ % 2 = 0 then ⌊x⌋ else ⌊x⌋ + 1

theorem roundHalfEven_cases (x : α) :
    (roundHalfEven x = ⌊x⌋ ∧ (Int.fract x < 1 / 2 ∨ Int.fract x = 1 / 2 ∧ ⌊x⌋ % 2 = 0)) ∨
      roundHalfEven x = ⌊x⌋ + 1 ∧ (1 / 2 < Int.fract x ∨ Int.fract x = 1 / 2 ∧ ⌊x⌋ % 2 = 1) := by
  unfold roundHalfEven
  split
  · exact .inl ⟨rfl, .inl (by assumption)⟩
  · rename_i hlow
    split
    · exact .inr ⟨rfl, .inl (by assumption)⟩
    · rename_i hhigh
      have htie : Int.fract x = 1 / 2 := le_antisymm (not_lt.mp hhigh) (not_lt.mp hlow)
      split
      · exact .inl ⟨rfl, .inr ⟨htie, by assumption⟩⟩
      · exact .inr ⟨rfl, .inr ⟨htie, by omega⟩⟩

variable [IsStrictOrderedRing α] {x : α} {m : Int}

/-- What is rounded is at most a half away. -/
theorem roundHalfEven_mem (x : α) : x - 1 / 2 ≤ roundHalfEven x ∧ (roundHalfEven x : α) ≤ x + 1 / 2 := by
  have hx := Int.floor_add_fract x
  have h₀ := Int.fract_nonneg x
  have h₁ := Int.fract_lt_one x
  rcases roundHalfEven_cases x with ⟨hr, hf⟩ | ⟨hr, hf⟩
  · have hf : Int.fract x ≤ 1 / 2 := hf.elim le_of_lt fun h => h.1.le
    rw [hr]
    constructor <;> linarith
  · have hf : 1 / 2 ≤ Int.fract x := hf.elim le_of_lt fun h => h.1.ge
    rw [hr]
    push_cast
    constructor <;> linarith

theorem le_roundHalfEven_iff : m ≤ roundHalfEven x ↔ (m : α) - 1 / 2 < x ∨ x = m - 1 / 2 ∧ m % 2 = 0 := by
  have hx := Int.floor_add_fract x
  have h₀ := Int.fract_nonneg x
  have h₁ := Int.fract_lt_one x
  rcases lt_trichotomy m (⌊x⌋ + 1) with hm | rfl | hm
  · have hfloor : (m : α) ≤ ⌊x⌋ := by exact_mod_cast Int.lt_add_one_iff.mp hm
    have hle : ⌊x⌋ ≤ roundHalfEven x := by rcases roundHalfEven_cases x with ⟨hr, -⟩ | ⟨hr, -⟩ <;> omega
    exact iff_of_true (by omega) (.inl (by linarith))
  · push_cast
    rcases roundHalfEven_cases x with ⟨hr, hf⟩ | ⟨hr, hf⟩
    · refine iff_of_false (by omega) ?_
      rintro (h | ⟨h, hm⟩)
      · rcases hf with hf | ⟨hf, -⟩ <;> linarith
      · rcases hf with hf | ⟨-, he⟩
        · linarith
        · omega
    · refine iff_of_true hr.ge ?_
      rcases hf with hf | ⟨hf, ho⟩
      · exact .inl (by linarith)
      · exact .inr ⟨by linarith, by omega⟩
  · have hfloor : (⌊x⌋ : α) + 1 + 1 ≤ m := by exact_mod_cast hm
    have hle : roundHalfEven x ≤ ⌊x⌋ + 1 := by rcases roundHalfEven_cases x with ⟨hr, -⟩ | ⟨hr, -⟩ <;> omega
    refine iff_of_false (by omega) ?_
    rintro (h | ⟨h, -⟩) <;> linarith

theorem roundHalfEven_intCast (m : Int) : roundHalfEven (m : α) = m := by
  simp [roundHalfEven]

theorem roundHalfEven_mono {x y : α} (hxy : x ≤ y) : roundHalfEven x ≤ roundHalfEven y := by
  rw [le_roundHalfEven_iff]
  rcases le_roundHalfEven_iff.mp (le_refl (roundHalfEven x)) with h | ⟨h, he⟩
  · exact .inl (h.trans_le hxy)
  · rcases hxy.lt_or_eq with hlt | rfl
    · exact .inl (h ▸ hlt)
    · exact .inr ⟨h, he⟩

/-! ## Significant digits -/

/-- The last place of `p` significant binary digits of `x`. -/
def lastPlace (p : Nat) (x : α) : α := 2 ^ (Int.log 2 |x| + 1 - p)

/-- The number of `p` significant binary digits that is nearest to `x`. -/
def roundBinary (p : Nat) (x : α) : α := roundHalfEven (x / lastPlace p x) * lastPlace p x

section Binary

variable {p : Nat} {y : α}

theorem lastPlace_pos (p : Nat) (x : α) : 0 < lastPlace p x := zpow_pos two_pos _

@[simp] theorem roundBinary_zero : roundBinary p (0 : α) = 0 := by
  have h : roundHalfEven (0 : α) = 0 := by simpa using roundHalfEven_intCast (α := α) 0
  rw [roundBinary, zero_div, h, Int.cast_zero, zero_mul]

/-- A multiple of the last place that `x` does not exceed is not exceeded by rounding, and so below. -/
theorem roundBinary_le {m : Int} (h : x ≤ m * lastPlace p x) : roundBinary p x ≤ m * lastPlace p x := by
  have hu := lastPlace_pos p x
  refine mul_le_mul_of_nonneg_right ?_ hu.le
  have hle := roundHalfEven_mono ((div_le_iff₀ hu).mpr h)
  rw [roundHalfEven_intCast] at hle
  exact_mod_cast hle

theorem le_roundBinary {m : Int} (h : m * lastPlace p x ≤ x) : m * lastPlace p x ≤ roundBinary p x := by
  have hu := lastPlace_pos p x
  refine mul_le_mul_of_nonneg_right ?_ hu.le
  have hle := roundHalfEven_mono ((le_div_iff₀ hu).mpr h)
  rw [roundHalfEven_intCast] at hle
  exact_mod_cast hle

/-- Powers of two are multiples of the last place. -/
theorem zpow_eq_mul_lastPlace {n : Nat} {e : Int} (h : e = Int.log 2 |x| + 1 - p + n) :
    (2 : α) ^ e = ((2 ^ n : Int) : α) * lastPlace p x := by
  have htwo : (2 : α) ≠ 0 := two_pos.ne'
  rw [lastPlace, Int.cast_pow, Int.cast_ofNat, ← zpow_natCast, ← zpow_add₀ htwo]
  congr 1
  omega

/-- Rounding does not leave the powers of two around a number. -/
theorem roundBinary_mem (hp : 0 < p) (hx : 0 < x) :
    (2 : α) ^ Int.log 2 x ≤ roundBinary p x ∧ roundBinary p x ≤ (2 : α) ^ (Int.log 2 x + 1) := by
  have hlow : (2 : α) ^ Int.log 2 x ≤ x := by exact_mod_cast Int.zpow_log_le_self (b := 2) one_lt_two hx
  have hhigh : x < (2 : α) ^ (Int.log 2 x + 1) := by exact_mod_cast Int.lt_zpow_succ_log_self (b := 2) one_lt_two x
  have habs := abs_of_pos hx
  have hleast : (2 : α) ^ Int.log 2 x = ((2 ^ (p - 1) : Int) : α) * lastPlace p x :=
    zpow_eq_mul_lastPlace (by rw [habs]; omega)
  have hnext : (2 : α) ^ (Int.log 2 x + 1) = ((2 ^ p : Int) : α) * lastPlace p x :=
    zpow_eq_mul_lastPlace (by rw [habs]; omega)
  rw [hleast] at hlow ⊢
  rw [hnext] at hhigh ⊢
  exact ⟨le_roundBinary hlow, roundBinary_le hhigh.le⟩

theorem roundBinary_nonneg (hp : 0 < p) (hx : 0 ≤ x) : 0 ≤ roundBinary p x := by
  rcases hx.eq_or_lt with rfl | hx
  · exact roundBinary_zero.ge
  · exact (zpow_pos two_pos _).le.trans (roundBinary_mem hp hx).1

theorem roundBinary_mono (hp : 0 < p) (hx : 0 ≤ x) (hxy : x ≤ y) : roundBinary p x ≤ roundBinary p y := by
  rcases hx.eq_or_lt with rfl | hx
  · exact roundBinary_zero.le.trans (roundBinary_nonneg hp hxy)
  · have hy := hx.trans_le hxy
    rcases (Int.log_mono_right (b := 2) hx hxy).eq_or_lt with he | hlt
    · -- at the same scale the digits are rounded
      have hu : lastPlace p x = lastPlace p y := by rw [lastPlace, lastPlace, abs_of_pos hx, abs_of_pos hy, he]
      have hpos := lastPlace_pos p y
      rw [roundBinary, roundBinary, hu]
      refine mul_le_mul_of_nonneg_right ?_ hpos.le
      exact_mod_cast roundHalfEven_mono ((div_le_div_iff_of_pos_right hpos).mpr hxy)
    · -- a power of two is between them
      calc roundBinary p x ≤ (2 : α) ^ (Int.log 2 x + 1) := (roundBinary_mem hp hx).2
        _ ≤ (2 : α) ^ Int.log 2 y := zpow_le_zpow_right₀ one_le_two hlt
        _ ≤ roundBinary p y := (roundBinary_mem hp hy).1

@[simp] theorem roundBinary_one (hp : 0 < p) : roundBinary p (1 : α) = 1 := by
  have hone : (1 : α) = ((2 ^ (p - 1) : Int) : α) * lastPlace p (1 : α) := by
    rw [← zpow_eq_mul_lastPlace (e := 0) (by rw [abs_one, Int.log_one_right]; omega), zpow_zero]
  exact le_antisymm ((roundBinary_le hone.le).trans hone.ge) (hone.le.trans (le_roundBinary hone.ge))

/-- Rounding is off by at most half of the last place. -/
theorem roundBinary_near (hx : 0 ≤ x) : |roundBinary p x - x| ≤ x / 2 ^ p := by
  rcases hx.eq_or_lt with rfl | hx
  · simp
  · have hu := lastPlace_pos p x
    have hlow : (2 : α) ^ Int.log 2 x ≤ x := by exact_mod_cast Int.zpow_log_le_self (b := 2) one_lt_two hx
    have hplace : lastPlace p x = 2 * (2 : α) ^ Int.log 2 x / 2 ^ p := by
      rw [lastPlace, abs_of_pos hx, zpow_sub₀ two_ne_zero, zpow_add_one₀ two_ne_zero, zpow_natCast, mul_comm]
    have hdigits : |(roundHalfEven (x / lastPlace p x) : α) - x / lastPlace p x| ≤ 1 / 2 := by
      have h := roundHalfEven_mem (x / lastPlace p x)
      exact abs_le.mpr ⟨by linarith, by linarith⟩
    calc |roundBinary p x - x| = |(roundHalfEven (x / lastPlace p x) : α) - x / lastPlace p x| * lastPlace p x := by
          rw [← abs_of_pos hu, ← abs_mul, abs_of_pos hu, sub_mul, div_mul_cancel₀ _ hu.ne', roundBinary]
      _ ≤ 1 / 2 * lastPlace p x := mul_le_mul_of_nonneg_right hdigits hu.le
      _ = (2 : α) ^ Int.log 2 x / 2 ^ p := by rw [hplace]; ring
      _ ≤ x / 2 ^ p := by gcongr

end Binary

end CM
