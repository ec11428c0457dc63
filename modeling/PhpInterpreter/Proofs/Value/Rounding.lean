import Mathlib.Algebra.Order.Field.Power
import Mathlib.Data.Rat.Cast.Order
import Mathlib.Tactic.FieldSimp
import Mathlib.Tactic.Linarith
import Mathlib.Tactic.Positivity
import Mathlib.Tactic.Ring
import PhpInterpreter.Proofs.Value.Format

/-!
Correct rounding. Quotients and decimals are rounded to the nearest double, of two equally near ones
to the one with the even mantissa; from half a unit past the largest double on they are infinite.
This determines the double.
-/

namespace PhpInterpreter

/-! ## Rounding to an integer -/

/-- The integer is at most a half away, and even if it is a half away. -/
def RoundsTo (x : ℚ) (m : Nat) : Prop :=
  |(m : ℚ) - x| ≤ 1 / 2 ∧ (|(m : ℚ) - x| = 1 / 2 → m % 2 = 0)

theorem roundsTo_roundHalfEven (num : Nat) {den : Nat} (hden : den ≠ 0) :
    RoundsTo (num / den) (roundHalfEven num den) := by
  have hpos : (0 : ℚ) < den := by exact_mod_cast Nat.pos_of_ne_zero hden
  have hlt : num % den < den := Nat.mod_lt num (Nat.pos_of_ne_zero hden)
  have hdivision : ((den * (num / den) + num % den : Nat) : ℚ) = num := by rw [Nat.div_add_mod]
  have hquotient : (num : ℚ) / den = (num / den : Nat) + (num % den : Nat) / den := by
    rw [← hdivision]
    push_cast
    field_simp
  unfold roundHalfEven
  rw [RoundsTo, hquotient]
  generalize num / den = q
  generalize num % den = r at hlt
  -- The fraction is compared with a half as the remainder is with half of the divisor.
  have hnonneg : (0 : ℚ) ≤ r / den := by positivity
  have hone : (r : ℚ) / den < 1 := by
    rw [div_lt_one hpos]
    exact_mod_cast hlt
  have hless : 2 * r < den ↔ (r : ℚ) / den < 1 / 2 := by
    rw [div_lt_div_iff₀ hpos two_pos, one_mul, mul_comm]
    exact_mod_cast Iff.rfl
  have hmore : den < 2 * r ↔ 1 / 2 < (r : ℚ) / den := by
    rw [div_lt_div_iff₀ two_pos hpos, one_mul, mul_comm (r : ℚ)]
    exact_mod_cast Iff.rfl
  generalize (r : ℚ) / den = f at hnonneg hone hless hmore
  have hbelow : |(q : ℚ) - (q + f)| = f := by
    rw [sub_add_cancel_left, abs_neg, abs_of_nonneg hnonneg]
  have habove : |((q + 1 : Nat) : ℚ) - (q + f)| = 1 - f := by
    rw [Nat.cast_add, Nat.cast_one, add_sub_add_left_eq_sub, abs_of_pos (by linarith)]
  dsimp only
  split
  · rename_i hr
    rw [hbelow]
    have hf := hless.1 hr
    exact ⟨hf.le, fun heq => absurd heq hf.ne⟩
  · split
    · rename_i hr
      rw [habove]
      have hf := hmore.1 hr
      exact ⟨by linarith, fun heq => by linarith⟩
    · rename_i h1 h2
      have hf : f = 1 / 2 := le_antisymm (not_lt.1 fun h => h2 (hmore.2 h))
        (not_lt.1 fun h => h1 (hless.2 h))
      split
      · rename_i heven
        rw [hbelow]
        exact ⟨hf.le, fun _ => heven⟩
      · rw [habove, hf]
        exact ⟨by norm_num, fun _ => by omega⟩

/-- No integer is nearer than the rounded one. -/
theorem RoundsTo.nearest {x : ℚ} {m : Nat} (h : RoundsTo x m) (k : Nat) :
    |(m : ℚ) - x| ≤ |(k : ℚ) - x| ∧ (|(m : ℚ) - x| = |(k : ℚ) - x| → k = m ∨ m % 2 = 0) := by
  by_cases hk : k = m
  · subst hk
    exact ⟨le_rfl, fun _ => .inl rfl⟩
  · have hapart : (1 : ℚ) ≤ |(k : ℚ) - m| := by
      have hint : (1 : ℤ) ≤ |(k : ℤ) - m| := Int.one_le_abs (by omega)
      exact_mod_cast hint
    have hsum : |(k : ℚ) - m| ≤ |(k : ℚ) - x| + |(m : ℚ) - x| := by
      rw [abs_sub_comm (m : ℚ) x]
      exact abs_sub_le (k : ℚ) x m
    obtain ⟨hle, heven⟩ := h
    exact ⟨by linarith, fun heq => .inr (heven (by linarith))⟩

namespace Double

/-! ## The doubles as rational numbers -/

/-- The value of a finite double, its sign aside. -/
def magnitude (m : Nat) (e : Int) : ℚ := m * 2 ^ e

/-- The mantissa and the exponent of some finite double. -/
def Representable (m : Nat) (e : Int) : Prop := m < 2 ^ 53 ∧ -1074 ≤ e ∧ e ≤ 971

/-- The mantissa and the exponent in the form doubles have: all 53 bits of the mantissa are used
unless the exponent is the least. -/
def Canonical (m : Nat) (e : Int) : Prop := Representable m e ∧ (2 ^ 52 ≤ m ∨ e = -1074)

/-- Half a unit past the largest double. -/
def overflowLimit : ℚ := (2 ^ 54 - 1) * 2 ^ 970

/-- The double of this sign nearest to a magnitude. Of two equally near ones it is the one with the
even mantissa, and it is infinite from the limit on. -/
def Nearest (negative : Bool) (q : ℚ) : Double → Prop
  | finite s m e => s = negative ∧ Canonical m e ∧ q < overflowLimit ∧
    ∀ m' e', Representable m' e' → |magnitude m e - q| ≤ |magnitude m' e' - q| ∧
      (|magnitude m e - q| = |magnitude m' e' - q| → magnitude m' e' = magnitude m e ∨ m % 2 = 0)
  | infinite s => s = negative ∧ overflowLimit ≤ q
  | nan => False

theorem magnitude_of_le {m : Nat} {e e' : Int} (h : e ≤ e') :
    magnitude m e' = magnitude (m * 2 ^ (e' - e).toNat) e := by
  obtain ⟨k, rfl⟩ := Int.le.dest h
  have hk : (e + (k : Int) - e).toNat = k := by omega
  rw [magnitude, magnitude, hk, zpow_add₀ two_ne_zero, zpow_natCast]
  push_cast
  ring

theorem magnitude_lt_iff {m n : Nat} {e : Int} : magnitude m e < magnitude n e ↔ m < n := by
  rw [magnitude, magnitude, mul_lt_mul_iff_left₀ (by positivity), Nat.cast_lt]

theorem magnitude_le_iff {m n : Nat} {e : Int} : magnitude m e ≤ magnitude n e ↔ m ≤ n := by
  rw [magnitude, magnitude, mul_le_mul_iff_left₀ (by positivity), Nat.cast_le]

theorem magnitude_nonneg (m : Nat) (e : Int) : 0 ≤ magnitude m e := by
  unfold magnitude
  positivity

/-- A value has one canonical form. -/
theorem Canonical.eq {m m' : Nat} {e e' : Int} (h : Canonical m e) (h' : Canonical m' e')
    (heq : magnitude m e = magnitude m' e') : m = m' ∧ e = e' := by
  have hle : ∀ {m m' : Nat} {e e' : Int}, Canonical m e → Canonical m' e' →
      magnitude m e = magnitude m' e' → e' ≤ e := by
    intro m m' e e' h h' heq
    by_contra! hlt
    rw [magnitude_of_le hlt.le] at heq
    have hm : m = m' * 2 ^ (e' - e).toNat :=
      le_antisymm (magnitude_le_iff.1 heq.le) (magnitude_le_iff.1 heq.ge)
    have htwo : 2 ^ 1 ≤ 2 ^ (e' - e).toNat := Nat.pow_le_pow_right two_pos (by omega)
    obtain ⟨⟨hbits, hlow, -⟩, -⟩ := h
    obtain ⟨-, hfull⟩ := h'
    have hm' : 2 ^ 52 * 2 ^ 1 ≤ m' * 2 ^ (e' - e).toNat := Nat.mul_le_mul (by omega) htwo
    omega
  obtain rfl : e = e' := le_antisymm (hle h' h heq.symm) (hle h h' heq)
  exact ⟨le_antisymm (magnitude_le_iff.1 heq.le) (magnitude_le_iff.1 heq.ge), rfl⟩

/-! ## Uniqueness -/

/-- Two even mantissas are not both nearest: one of the values next to them is nearer. -/
theorem not_lt_of_even {q : ℚ} {m m' : Nat} {e e' : Int} (hm : m % 2 = 0) (hm' : m' % 2 = 0)
    (hc : Representable m e) (hc' : Representable m' e')
    (hdist : |magnitude m e - q| = |magnitude m' e' - q|)
    (hnear : ∀ n f, Representable n f → |magnitude m e - q| ≤ |magnitude n f - q|) :
    ¬ magnitude m e < magnitude m' e' := by
  intro hlt
  have hmiddle : q - magnitude m e = magnitude m' e' - q := by
    rcases abs_eq_abs.1 hdist with h | h
    · linarith
    · linarith
  -- Nothing representable lies strictly between the two.
  have hnone : ∀ n f, Representable n f → magnitude m e < magnitude n f →
      ¬ magnitude n f < magnitude m' e' := by
    intro n f hn hlow hhigh
    have hle := hnear n f hn
    rw [abs_sub_comm, abs_of_pos (by linarith), le_abs] at hle
    rcases hle with hle | hle <;> linarith
  obtain ⟨hbits, hlow, hhigh⟩ := hc
  obtain ⟨hbits', hlow', hhigh'⟩ := hc'
  rcases le_total e e' with hle | hle
  · have hnext := hnone (m + 1) e ⟨by omega, hlow, hhigh⟩ (magnitude_lt_iff.2 (Nat.lt_succ_self m))
    rw [magnitude_of_le hle, magnitude_lt_iff] at hlt hnext
    have hsucc : m' * 2 ^ (e' - e).toNat = m + 1 := by omega
    have heven : m' * 2 ^ (e' - e).toNat % 2 = 0 := by rw [Nat.mul_mod, hm', Nat.zero_mul]
    omega
  · have hpos : 0 < m' := by
      by_contra! hzero
      obtain rfl : m' = 0 := by omega
      have hzero' : magnitude 0 e' = 0 := by simp [magnitude]
      have hnonneg := magnitude_nonneg m e
      linarith
    have hprev := hnone (m' - 1) e' ⟨by omega, hlow', hhigh'⟩
    rw [magnitude_of_le hle, magnitude_lt_iff] at hlt hprev
    have hpred : magnitude (m' - 1) e' < magnitude m' e' := magnitude_lt_iff.2 (by omega)
    have heven : m * 2 ^ (e - e').toNat % 2 = 0 := by rw [Nat.mul_mod, hm, Nat.zero_mul]
    have hge : ¬ m * 2 ^ (e - e').toNat < m' - 1 := fun h => hprev h hpred
    omega

/-- There is only one nearest double. -/
theorem Nearest.unique {negative : Bool} {q : ℚ} {x y : Double} (hx : x.Nearest negative q)
    (hy : y.Nearest negative q) : x = y := by
  cases x with
  | nan => exact hx.elim
  | infinite s =>
    cases y with
    | nan => exact hy.elim
    | infinite t => rw [hx.1, hy.1]
    | finite t m e => exact absurd hx.2 (not_le.2 hy.2.2.1)
  | finite s m e =>
    cases y with
    | nan => exact hy.elim
    | infinite t => exact absurd hy.2 (not_le.2 hx.2.2.1)
    | finite t n f =>
      obtain ⟨rfl, hc, -, hx⟩ := hx
      obtain ⟨rfl, hd, -, hy⟩ := hy
      have hdist := le_antisymm (hx n f hd.1).1 (hy m e hc.1).1
      have hsame : magnitude m e = magnitude n f := by
        by_contra hne
        have hm : m % 2 = 0 := ((hx n f hd.1).2 hdist).resolve_left fun h => hne h.symm
        have hn : n % 2 = 0 := ((hy m e hc.1).2 hdist.symm).resolve_left hne
        rcases lt_or_gt_of_ne hne with hlt | hlt
        · exact not_lt_of_even hm hn hc.1 hd.1 hdist (fun k g h => (hx k g h).1) hlt
        · exact not_lt_of_even hn hm hd.1 hc.1 hdist.symm (fun k g h => (hy k g h).1) hlt
      obtain ⟨rfl, rfl⟩ := hc.eq hd hsame
      rfl

/-! ## Rounding quotients -/

/-- What is rounded to an integer of units is nearest among all doubles, if the mantissa has 53 bits
or the unit is the least. -/
theorem nearest_of_roundsTo {q : ℚ} {m : Nat} {e : Int} (hm : RoundsTo (q / 2 ^ e) m)
    (hfull : e = -1074 ∨ magnitude (2 ^ 52) e ≤ q) (m' : Nat) (e' : Int)
    (h : Representable m' e') : |magnitude m e - q| ≤ |magnitude m' e' - q| ∧
      (|magnitude m e - q| = |magnitude m' e' - q| →
        magnitude m' e' = magnitude m e ∨ m % 2 = 0) := by
  have hunit : (0 : ℚ) < 2 ^ e := by positivity
  have hscale : ∀ k : Nat, |magnitude k e - q| = |(k : ℚ) - q / 2 ^ e| * 2 ^ e := by
    intro k
    rw [← abs_of_pos hunit, ← abs_mul, abs_of_pos hunit, sub_mul, div_mul_cancel₀ q hunit.ne',
      magnitude]
  have hgrid : ∀ k : Nat, |magnitude m e - q| ≤ |magnitude k e - q| ∧
      (|magnitude m e - q| = |magnitude k e - q| → k = m ∨ m % 2 = 0) := by
    intro k
    rw [hscale, hscale, mul_le_mul_iff_left₀ hunit, mul_left_inj' hunit.ne']
    exact hm.nearest k
  obtain ⟨hbits, hlow, -⟩ := h
  rcases le_or_gt e e' with hle | hlt
  · -- The other double is a whole number of units.
    rw [magnitude_of_le hle]
    obtain ⟨hnear, htie⟩ := hgrid (m' * 2 ^ (e' - e).toNat)
    exact ⟨hnear, fun heq => (htie heq).imp_left fun h => by rw [h]⟩
  · -- With a smaller unit it is smaller than the least mantissa of 53 bits.
    have hleast : magnitude (2 ^ 52) e ≤ q := hfull.resolve_left (by omega)
    have hbelow : magnitude m' e' < magnitude (2 ^ 52) e := by
      rw [magnitude_of_le hlt.le, magnitude_lt_iff]
      have htwo : 2 ^ 1 ≤ 2 ^ (e - e').toNat := Nat.pow_le_pow_right two_pos (by omega)
      have hdouble := Nat.mul_le_mul_left (2 ^ 52) htwo
      omega
    have hstrict : |magnitude m e - q| < |magnitude m' e' - q| := by
      refine lt_of_le_of_lt (hgrid (2 ^ 52)).1 ?_
      rw [abs_sub_comm, abs_of_nonneg (by linarith), abs_sub_comm, abs_of_pos (by linarith)]
      linarith
    exact ⟨hstrict.le, fun heq => absurd heq hstrict.ne⟩

theorem unscale_div (num : Nat) {den : Nat} (hden : den ≠ 0) (e : Int) :
    ((unscale num den e).1 : ℚ) / (unscale num den e).2 = num / den / 2 ^ e := by
  have hdenq : (den : ℚ) ≠ 0 := by exact_mod_cast hden
  have hsplit : (2 : ℚ) ^ e.toNat = 2 ^ e * 2 ^ (-e).toNat := by
    rw [← zpow_natCast, ← zpow_natCast, ← zpow_add₀ two_ne_zero]
    congr 1
    omega
  rw [unscale_eq]
  push_cast
  rw [hsplit]
  field_simp

/-- At the leading exponent a quotient has 53 bits. -/
theorem magnitude_leadingExponent_le {num den : Nat} (hnum : num ≠ 0) (hden : den ≠ 0) :
    magnitude (2 ^ 52) (leadingExponent num den) ≤ num / den := by
  have hpos : (0 : ℚ) < den := by exact_mod_cast Nat.pos_of_ne_zero hden
  unfold leadingExponent
  dsimp only
  generalize he : (num.log2 : Int) - den.log2 - 52 = e
  split
  · have hlow : (2 : ℚ) ^ num.log2 ≤ num := by exact_mod_cast Nat.log2_self_le hnum
    have hhigh : (den : ℚ) ≤ 2 ^ (den.log2 + 1) := by exact_mod_cast Nat.lt_log2_self.le
    rw [le_div_iff₀ hpos]
    calc magnitude (2 ^ 52) (e - 1) * den
        ≤ magnitude (2 ^ 52) (e - 1) * 2 ^ (den.log2 + 1) :=
          mul_le_mul_of_nonneg_left hhigh (magnitude_nonneg _ _)
      _ = 2 ^ num.log2 := by
          rw [magnitude, Nat.cast_pow, Nat.cast_ofNat, ← zpow_natCast, ← zpow_natCast,
            ← zpow_natCast, ← zpow_add₀ two_ne_zero, ← zpow_add₀ two_ne_zero]
          congr 1
          omega
      _ ≤ num := hlow
  · rename_i hlarge
    have hunscale := unscale_div num hden e
    have hden' : (0 : ℚ) < (unscale num den e).2 := by
      rw [unscale_eq]
      exact_mod_cast Nat.mul_pos (Nat.pos_of_ne_zero hden) (Nat.two_pow_pos _)
    have hle : (unscale num den e).2 * 2 ^ 52 ≤ (unscale num den e).1 := by
      rw [← Nat.shiftLeft_eq]
      exact Nat.le_of_not_lt hlarge
    have hbits : ((2 ^ 52 : Nat) : ℚ) ≤ num / den / 2 ^ e := by
      rw [← hunscale, le_div_iff₀ hden', mul_comm]
      exact_mod_cast hle
    rwa [le_div_iff₀ (by positivity)] at hbits

theorem lt_magnitude_of_leadingExponent_le {num den : Nat} {e : Int} (hden : den ≠ 0)
    (h : leadingExponent num den ≤ e) : (num : ℚ) / den < magnitude (2 ^ 53) e := by
  have hunscale := unscale_div num hden e
  have hlt := lt_of_leadingExponent_le hden h
  have hden' : (0 : ℚ) < (unscale num den e).2 := by
    rw [unscale_eq]
    exact_mod_cast Nat.mul_pos (Nat.pos_of_ne_zero hden) (Nat.two_pow_pos _)
  have hbits : (num : ℚ) / den / 2 ^ e < (2 ^ 53 : Nat) := by
    rw [← hunscale, div_lt_iff₀ hden', mul_comm, unscale_eq]
    rw [Nat.pow_add, ← Nat.mul_assoc] at hlt
    exact_mod_cast hlt
  rwa [div_lt_iff₀ (by positivity)] at hbits

theorem overflowLimit_eq : overflowLimit = magnitude (2 ^ 54 - 1) 970 := by
  rw [overflowLimit, magnitude, Nat.cast_sub Nat.one_le_two_pow, Nat.cast_pow, Nat.cast_ofNat,
    Nat.cast_one]
  rfl

theorem magnitude_le_of_le {m : Nat} {e e' : Int} (h : e ≤ e') :
    magnitude m e ≤ magnitude m e' := by
  rw [magnitude_of_le h, magnitude_le_iff]
  exact Nat.le_mul_of_pos_right m (Nat.two_pow_pos _)

/-- A mantissa and half a unit more, in half units. -/
theorem magnitude_half (m : Nat) (e : Int) :
    magnitude (2 * m + 1) (e - 1) = (m + 1 / 2) * 2 ^ e := by
  rw [magnitude, zpow_sub_one₀ two_ne_zero]
  push_cast
  ring

/-- A value rounded to a mantissa is at most half a unit above it. -/
theorem le_of_roundsTo {q : ℚ} {m : Nat} {e : Int} (h : RoundsTo (q / 2 ^ e) m) :
    q ≤ magnitude (2 * m + 1) (e - 1) ∧ (m % 2 = 1 → q ≠ magnitude (2 * m + 1) (e - 1)) := by
  have hunit : (0 : ℚ) < 2 ^ e := by positivity
  rw [magnitude_half, ← div_le_iff₀ hunit, ne_eq, ← div_eq_iff hunit.ne']
  obtain ⟨hle, htie⟩ := h
  have hlow := (abs_le.1 hle).1
  refine ⟨by linarith, fun hodd heq => ?_⟩
  have habs : |(m : ℚ) - q / 2 ^ e| = 1 / 2 := by
    rw [heq, sub_add_cancel_left, abs_neg, abs_of_pos (by norm_num)]
  have heven := htie habs
  omega

/-- A value rounded to a mantissa is at most half a unit below it. -/
theorem ge_of_roundsTo {q : ℚ} {m : Nat} {e : Int} (h : RoundsTo (q / 2 ^ e) (m + 1)) :
    magnitude (2 * m + 1) (e - 1) ≤ q := by
  have hunit : (0 : ℚ) < 2 ^ e := by positivity
  rw [magnitude_half, ← le_div_iff₀ hunit]
  have hhigh := (abs_le.1 h.1).2
  rw [Nat.cast_add, Nat.cast_one] at hhigh
  linarith

theorem lt_overflow {q : ℚ} {e : Int} (hlt : q < magnitude (2 ^ 53) e) (he : e ≤ 970) :
    q < magnitude (2 ^ 54 - 1) 970 := by
  calc q < magnitude (2 ^ 53) e := hlt
    _ ≤ magnitude (2 ^ 53) 970 := magnitude_le_of_le he
    _ ≤ magnitude (2 ^ 54 - 1) 970 := magnitude_le_iff.2 (by decide)

/-- A rounded mantissa is packed into the nearest double. -/
theorem nearest_pack {negative : Bool} {q : ℚ} {m : Nat} {e : Int} (hm : RoundsTo (q / 2 ^ e) m)
    (hlow : -1074 ≤ e) (hlt : q < magnitude (2 ^ 53) e)
    (hfull : e = -1074 ∨ magnitude (2 ^ 52) e ≤ q) : (pack negative m e).Nearest negative q := by
  have hnear := nearest_of_roundsTo hm hfull
  have hle : q ≤ magnitude (2 * m + 1) (e - 1) := (le_of_roundsTo hm).1
  have hunit : (e - (e - 1)).toNat = 1 := by omega
  unfold pack
  split
  · rename_i hbits
    split
    · -- The least mantissa of 53 bits is already past the largest double.
      rename_i he
      refine ⟨rfl, le_trans ?_ (hfull.resolve_left (by omega))⟩
      rw [overflowLimit_eq, magnitude_of_le (by omega : (970 : Int) ≤ e), magnitude_le_iff]
      have hfour : 2 ^ 2 ≤ 2 ^ (e - 970).toNat := Nat.pow_le_pow_right two_pos (by omega)
      omega
    · rename_i he
      refine ⟨rfl, ⟨⟨hbits, hlow, by omega⟩, ?_⟩, ?_, hnear⟩
      · rw [or_comm]
        refine hfull.imp_right fun hfull => ?_
        have hhalf := hfull.trans hle
        rw [magnitude_of_le (by omega : e - 1 ≤ e), hunit, magnitude_le_iff] at hhalf
        omega
      · rw [overflowLimit_eq]
        by_cases he : e = 971
        · subst he
          have hodd := (le_of_roundsTo hm).2
          by_cases hlast : m = 2 ^ 53 - 1
          · subst hlast
            exact lt_of_le_of_ne hle (hodd (by decide))
          · exact hle.trans_lt (magnitude_lt_iff.2 (by omega))
        · exact lt_overflow hlt (by omega)
  · -- The mantissa has grown to the next power of two.
    rename_i hbits
    obtain ⟨k, rfl⟩ : ∃ k, m = k + 1 := ⟨m - 1, by omega⟩
    have hge := ge_of_roundsTo hm
    have hcarry : k + 1 = 2 ^ 53 := by
      have hhalf := hge.trans_lt hlt
      rw [magnitude_of_le (by omega : e - 1 ≤ e), hunit, magnitude_lt_iff] at hhalf
      omega
    split
    · rename_i he
      refine ⟨rfl, le_trans ?_ hge⟩
      have hk : 2 * k + 1 = 2 ^ 54 - 1 := by omega
      rw [overflowLimit_eq, hk]
      exact magnitude_le_of_le (by omega)
    · rename_i he
      have hsame : magnitude ((k + 1) / 2) (e + 1) = magnitude (k + 1) e := by
        have hone : (e + 1 - e).toNat = 1 := by omega
        rw [magnitude_of_le (by omega : e ≤ e + 1), hone, hcarry]
        rfl
      refine ⟨rfl, ⟨⟨by omega, by omega, by omega⟩, .inl (by omega)⟩, ?_, fun m' e' h => ?_⟩
      · rw [overflowLimit_eq]
        exact lt_overflow hlt (by omega)
      · rw [hsame]
        exact ⟨(hnear m' e' h).1, fun _ => .inr (by omega)⟩

/-- Values below half of the least double are rounded to zero. -/
theorem nearest_zero (negative : Bool) {q : ℚ} (hq : 0 ≤ q) (hlt : 2 * q < magnitude 1 (-1074)) :
    (finite negative 0 (-1074)).Nearest negative q := by
  have hzero : magnitude 0 (-1074) = 0 := by simp [magnitude]
  refine ⟨rfl, ⟨⟨by decide, le_rfl, by decide⟩, .inr rfl⟩, ?_, fun m e h => ⟨?_, fun _ => .inr rfl⟩⟩
  · have hlimit : magnitude 1 (-1074) ≤ overflowLimit := by
      rw [overflowLimit_eq]
      exact (magnitude_le_of_le (by decide)).trans (magnitude_le_iff.2 (by decide))
    linarith
  · rw [hzero, zero_sub, abs_neg, abs_of_nonneg hq]
    by_cases hm : m = 0
    · subst hm
      have hzero' : magnitude 0 e = 0 := by simp [magnitude]
      rw [hzero', zero_sub, abs_neg, abs_of_nonneg hq]
    · have hleast : magnitude 1 (-1074) ≤ magnitude m e :=
        (magnitude_le_iff.2 (by omega)).trans (magnitude_le_of_le h.2.1)
      rw [abs_of_pos (by linarith)]
      linarith

/-- A quotient is rounded to the nearest double. -/
theorem nearest_ofQuotient (negative : Bool) (num : Nat) {den : Nat} (hden : den ≠ 0) :
    (ofQuotient negative num den).Nearest negative (num / den) := by
  unfold ofQuotient
  split
  · rename_i hnum
    rw [hnum, Nat.cast_zero, zero_div]
    refine nearest_zero negative le_rfl ?_
    rw [mul_zero, magnitude]
    positivity
  · rename_i hnum
    dsimp only
    have hle : leadingExponent num den ≤ max (leadingExponent num den) (-1074) :=
      Int.le_max_left ..
    have hfull : max (leadingExponent num den) (-1074) = -1074 ∨
        magnitude (2 ^ 52) (max (leadingExponent num den) (-1074)) ≤ num / den := by
      rcases Int.le_total (leadingExponent num den) (-1074) with hsmall | hlarge
      · exact .inl (Int.max_eq_right hsmall)
      · rw [Int.max_eq_left hlarge]
        exact .inr (magnitude_leadingExponent_le hnum hden)
    have hlow : -1074 ≤ max (leadingExponent num den) (-1074) := Int.le_max_right ..
    generalize max (leadingExponent num den) (-1074) = e at hle hfull hlow ⊢
    have hden' : (unscale num den e).2 ≠ 0 := by
      rw [unscale_eq]
      exact Nat.mul_ne_zero hden (Nat.two_pow_pos _).ne'
    refine nearest_pack ?_ hlow (lt_magnitude_of_leadingExponent_le hden hle) hfull
    rw [← unscale_div num hden]
    exact roundsTo_roundHalfEven _ hden'

/-- The double nearest to a quotient is the one it is rounded to. -/
theorem nearest_iff {negative : Bool} {num den : Nat} (hden : den ≠ 0) {x : Double} :
    x.Nearest negative (num / den) ↔ x = ofQuotient negative num den := by
  constructor
  · intro h
    exact h.unique (nearest_ofQuotient negative num hden)
  · rintro rfl
    exact nearest_ofQuotient negative num hden

/-- The double nearest to an integer is the one it is rounded to. -/
theorem nearest_natAbs_iff {n : Int} {x : Double} :
    x.Nearest (decide (n < 0)) n.natAbs ↔ x = ofInt n := by
  have hone : ((n.natAbs : Nat) : ℚ) = (n.natAbs : ℚ) / (1 : Nat) := by simp
  rw [hone, nearest_iff one_ne_zero, ofInt]

theorem nearest_of_ofInt? {n : Int} {x : Double} (h : ofInt? n = some x) :
    x.Nearest (decide (n < 0)) n.natAbs := by
  rw [nearest_natAbs_iff]
  unfold ofInt? at h
  split at h
  · rename_i heq
    exact (Option.some.inj h).symm.trans heq.symm
  · cases h

theorem ofInt?_of_nearest {n : Int} {x : Double} (hx : x.Nearest (decide (n < 0)) n.natAbs)
    (hfinite : x.isFinite = true) : ofInt? n = some x := by
  rw [ofInt?, ← nearest_natAbs_iff.1 hx]
  cases x with
  | finite s m e => rfl
  | _ => exact absurd hfinite Bool.false_ne_true

theorem Nearest.neg {negative : Bool} {q : ℚ} {x : Double} (h : x.Nearest negative q) :
    x.neg.Nearest (!negative) q := by
  cases x with
  | finite s m e => exact ⟨congrArg _ h.1, h.2⟩
  | infinite s => exact ⟨congrArg _ h.1, h.2⟩
  | nan => exact h

end Double

/-! ## Rounding decimals -/

namespace Decimal

/-- The value of a decimal. -/
def value (d : Decimal) : ℚ := d.coefficient * 10 ^ d.exponent

theorem quotient_ne_zero (d : Decimal) : d.quotient.2 ≠ 0 := by
  unfold quotient
  split
  · exact one_ne_zero
  · exact (Nat.pow_pos (by decide)).ne'

theorem value_eq (d : Decimal) : d.value = d.quotient.1 / d.quotient.2 := by
  unfold value quotient
  split
  · rename_i h
    obtain ⟨k, hk⟩ := Int.eq_ofNat_of_zero_le h
    rw [hk, Int.toNat_natCast, zpow_natCast]
    push_cast [Nat.pow_eq]
    rw [div_one]
  · rename_i h
    obtain ⟨k, hk⟩ := Int.eq_ofNat_of_zero_le (by omega : 0 ≤ -d.exponent)
    rw [hk, Int.toNat_natCast, ← neg_neg d.exponent, hk, zpow_neg, zpow_natCast]
    push_cast [Nat.pow_eq]
    rw [div_eq_mul_inv]

theorem eight_zpow (k : Int) : (8 : ℚ) ^ k = 2 ^ (3 * k) := by
  rw [zpow_mul]
  norm_num

open Double in
/-- Ten to a large exponent alone is past the largest double. -/
theorem overflowLimit_le_value {d : Decimal} (hne : d.coefficient ≠ 0)
    (hlarge : 1024 ≤ 3 * d.exponent) : overflowLimit ≤ d.value := by
  have hcoefficient : (1 : ℚ) ≤ d.coefficient := by
    exact_mod_cast Nat.one_le_iff_ne_zero.2 hne
  calc overflowLimit ≤ 2 ^ 54 * 2 ^ 970 := by
        refine mul_le_mul_of_nonneg_right ?_ (by positivity)
        exact sub_le_self _ zero_le_one
    _ = 2 ^ (1024 : Int) := by
        rw [← pow_add]
        rfl
    _ ≤ 2 ^ (3 * d.exponent) := zpow_le_zpow_right₀ one_le_two hlarge
    _ = 8 ^ d.exponent := (eight_zpow _).symm
    _ ≤ 10 ^ d.exponent := zpow_le_zpow_left₀ (by omega) (by norm_num) (by norm_num)
    _ ≤ d.value := le_mul_of_one_le_left (by positivity) hcoefficient

open Double in
/-- With a small exponent a decimal is less than half of the least double. -/
theorem value_lt_magnitude {d : Decimal}
    (hsmall : ((d.coefficient.log2 + 1 : Nat) : Int) + 3 * d.exponent ≤ -1075) :
    2 * d.value < magnitude 1 (-1074) := by
  have hcoefficient : (d.coefficient : ℚ) < 2 ^ ((d.coefficient.log2 + 1 : Nat) : Int) := by
    rw [zpow_natCast]
    exact_mod_cast Nat.lt_log2_self
  have hpower : (10 : ℚ) ^ d.exponent ≤ 8 ^ d.exponent := by
    rw [← inv_le_inv₀ (by positivity) (by positivity), ← zpow_neg, ← zpow_neg]
    exact zpow_le_zpow_left₀ (by omega) (by norm_num) (by norm_num)
  calc 2 * d.value
      ≤ 2 * (d.coefficient * 2 ^ (3 * d.exponent)) := by
        rw [← eight_zpow, value]
        gcongr
    _ < 2 * (2 ^ ((d.coefficient.log2 + 1 : Nat) : Int) * 2 ^ (3 * d.exponent)) := by
        gcongr
    _ = 2 ^ (1 + (((d.coefficient.log2 + 1 : Nat) : Int) + 3 * d.exponent)) := by
        rw [zpow_add₀ two_ne_zero, zpow_add₀ two_ne_zero, zpow_one]
    _ ≤ 2 ^ (-1074 : Int) := zpow_le_zpow_right₀ one_le_two (by omega)
    _ = magnitude 1 (-1074) := by rw [magnitude, Nat.cast_one, one_mul]

open Double in
/-- A decimal is read as the double nearest to it. -/
theorem nearest_toDouble (negative : Bool) (d : Decimal) :
    (d.toDouble negative).Nearest negative d.value := by
  have hnonneg : 0 ≤ d.value := by
    unfold value
    positivity
  unfold toDouble
  split
  · rename_i hzero
    rw [value, hzero, Nat.cast_zero, zero_mul]
    refine nearest_zero negative le_rfl ?_
    rw [mul_zero, magnitude]
    positivity
  · rename_i hne
    split
    · rename_i hlarge
      exact ⟨rfl, overflowLimit_le_value hne hlarge⟩
    · split
      · rename_i hsmall
        exact nearest_zero negative hnonneg (value_lt_magnitude (by omega))
      · rw [value_eq]
        exact nearest_ofQuotient negative _ d.quotient_ne_zero

end Decimal

end PhpInterpreter
