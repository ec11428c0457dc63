import PhpInterpreter.Proofs.Value.Equivalence
import PhpInterpreter.Proofs.Value.Overflow
import PhpInterpreter.Proofs.Value.Rounding

/-!
Powers past the largest double. The power of two integers is exact until it is rounded, so that an
infinite one has the sign of the exact power; the power of a double loses it. An integer of 64 bits
that is a double has no power between the largest double and the limit from which integers are
rounded to infinity, but some that are no doubles have.
-/

namespace PhpInterpreter

namespace Double

/-- The largest finite double, an integer. -/
def largest : Nat := (2 ^ 53 - 1) * 2 ^ 971

/-- Half a unit past the largest double, from where on integers are rounded to infinity. -/
def roundingLimit : Nat := (2 ^ 54 - 1) * 2 ^ 970

theorem two_pow_le_mul {k m c e : Nat} (hm : 2 ^ m ≤ c) (h : k ≤ m + e) : 2 ^ k ≤ c * 2 ^ e :=
  calc 2 ^ k ≤ 2 ^ (m + e) := Nat.pow_le_pow_right two_pos h
    _ = 2 ^ m * 2 ^ e := pow_add 2 m e
    _ ≤ c * 2 ^ e := Nat.mul_le_mul_right _ hm

theorem mul_le_two_pow {k m c e : Nat} (hm : c ≤ 2 ^ m) (h : m + e ≤ k) : c * 2 ^ e ≤ 2 ^ k :=
  calc c * 2 ^ e ≤ 2 ^ m * 2 ^ e := Nat.mul_le_mul_right _ hm
    _ = 2 ^ (m + e) := (pow_add 2 m e).symm
    _ ≤ 2 ^ k := Nat.pow_le_pow_right two_pos h

theorem two_pow_le_largest {k : Nat} (h : k ≤ 1023) : 2 ^ k ≤ largest := by
  have hmantissa : 2 ^ 52 ≤ 2 ^ 53 - 1 := by decide
  rw [largest]
  exact two_pow_le_mul hmantissa h

theorem two_pow_le_roundingLimit {k : Nat} (h : k ≤ 1023) : 2 ^ k ≤ roundingLimit := by
  have hmantissa : 2 ^ 53 ≤ 2 ^ 54 - 1 := by decide
  rw [roundingLimit]
  exact two_pow_le_mul hmantissa h

theorem roundingLimit_le_two_pow {k : Nat} (h : 1024 ≤ k) : roundingLimit ≤ 2 ^ k := by
  have hmantissa : 2 ^ 54 - 1 ≤ 2 ^ 54 := Nat.sub_le _ _
  rw [roundingLimit]
  exact mul_le_two_pow hmantissa h

theorem roundingLimit_cast : (roundingLimit : ℚ) = overflowLimit := by
  rw [roundingLimit, overflowLimit, Nat.cast_mul, Nat.cast_sub Nat.one_le_two_pow, Nat.cast_pow,
    Nat.cast_pow, Nat.cast_ofNat, Nat.cast_one]

theorem magnitude_largest : magnitude (2 ^ 53 - 1) 971 = largest := by
  have hexponent : (971 : Int) = (971 : Nat) := rfl
  rw [magnitude, largest, hexponent, zpow_natCast, Nat.cast_mul, Nat.cast_pow 2 971, Nat.cast_ofNat]

theorem Representable.le_largest {m : Nat} {e : Int} (h : Representable m e) :
    magnitude m e ≤ largest := by
  obtain ⟨hm, -, he⟩ := h
  calc magnitude m e ≤ magnitude m 971 := magnitude_le_of_le he
    _ ≤ magnitude (2 ^ 53 - 1) 971 := magnitude_le_iff.2 (by omega)
    _ = largest := magnitude_largest

theorem ofInt_of_past {n : Int} (h : roundingLimit ≤ n.natAbs) :
    ofInt n = infinite (decide (n < 0)) := by
  symm
  rw [← nearest_natAbs_iff]
  refine ⟨rfl, ?_⟩
  rw [← roundingLimit_cast]
  exact_mod_cast h

/-- Below the limit an integer past the largest double is rounded to it. -/
theorem ofInt_of_between {n : Int} (hlow : largest < n.natAbs) (hhigh : n.natAbs < roundingLimit) :
    ofInt n = finite (decide (n < 0)) (2 ^ 53 - 1) 971 := by
  symm
  rw [← nearest_natAbs_iff]
  have hlow' : (largest : ℚ) < n.natAbs := by exact_mod_cast hlow
  have hcanonical : Canonical (2 ^ 53 - 1) 971 := by
    refine ⟨⟨?_, ?_, ?_⟩, .inl ?_⟩ <;> decide
  refine ⟨rfl, hcanonical, ?_, fun m e h => ?_⟩
  · rw [← roundingLimit_cast]
    exact_mod_cast hhigh
  · have hle := h.le_largest
    rw [magnitude_largest, abs_of_neg (by linarith), abs_of_neg (by linarith)]
    exact ⟨by linarith, fun heq => .inl (by linarith)⟩

/-- A double is an integer if its mantissa and exponent give one. -/
theorem integer_of_eq {s : Bool} {m k : Nat} {e : Int}
    (h : m * 2 ^ e.toNat = k * 2 ^ (-e).toNat) :
    (finite s m e).isInteger = true ∧ (finite s m e).truncate.natAbs = k := by
  have habs : (finite s m e).truncate.natAbs =
      if 0 ≤ e then m <<< e.toNat else m >>> (-e).toNat := by
    simp only [truncate]
    split <;> omega
  rw [habs]
  by_cases he : 0 ≤ e
  · have hzero : (-e).toNat = 0 := by omega
    rw [hzero, pow_zero, mul_one] at h
    simp [isInteger, he, Nat.shiftLeft_eq, h]
  · have hzero : e.toNat = 0 := by omega
    rw [hzero, pow_zero, mul_one] at h
    subst h
    have hquotient : (k * 2 ^ (-e).toNat) >>> (-e).toNat = k := by
      rw [Nat.shiftRight_eq_div_pow, Nat.mul_div_cancel _ (Nat.two_pow_pos _)]
    simp [isInteger, he, hquotient, Nat.shiftLeft_eq]

/-- A double equal to an integer is finite and has that integer part. -/
theorem of_cmpExact?_ofInt {x : Double} {n : Int} (h : x.cmpExact? (Exact.ofInt n) = some .eq) :
    ∃ s m e, x = finite s m e ∧ m * 2 ^ e.toNat = n.natAbs * 2 ^ (-e).toNat := by
  cases x with
  | finite s m e =>
    refine ⟨s, m, e, rfl, ?_⟩
    have heq := (Exact.cmp_eq_eq_iff (Int.min_le_left e 0) (Int.min_le_right e 0)).1
      (Option.some.inj h)
    have hleft : (e - min e 0).toNat = e.toNat := by omega
    have hright : (0 - min e 0).toNat = (-e).toNat := by omega
    simp only [Exact.scaledTo, Exact.ofInt, hleft, hright, Nat.one_shiftLeft] at heq
    have habs := congrArg Int.natAbs heq
    rw [Int.natAbs_mul, Int.natAbs_mul, Int.natAbs_natCast, Int.natAbs_natCast] at habs
    split at habs
    · rwa [Int.natAbs_neg, Int.natAbs_natCast] at habs
    · rwa [Int.natAbs_natCast] at habs
  | infinite s => cases s <;> cases h
  | nan => cases h

/-- The double nearest to a natural number is an integer, the number itself below 1024. -/
theorem integer_of_ofInt? {n : Nat} {x : Double} (h : ofInt? n = some x) :
    ∃ m e, x = finite false m e ∧ x.isInteger = true ∧
      (x.truncate.natAbs = n ∨ 1024 ≤ x.truncate.natAbs ∧ 1024 ≤ n) := by
  have hnearest := nearest_of_ofInt? h
  rw [Int.natAbs_natCast] at hnearest
  cases x with
  | finite s m e =>
    obtain ⟨hs, hcanonical, -, hnear⟩ := hnearest
    obtain rfl : s = false := by rw [hs, decide_eq_false (by omega)]
    refine ⟨m, e, rfl, ?_⟩
    rcases Nat.lt_or_ge n (2 ^ 53) with hsmall | hlarge
    · have hself : magnitude n 0 = n := by simp [magnitude]
      have hdist := (hnear n 0 ⟨hsmall, by decide, by decide⟩).1
      rw [hself, sub_self, abs_zero, abs_nonpos_iff, sub_eq_zero, magnitude] at hdist
      have hscaled : m * 2 ^ e.toNat = n * 2 ^ (-e).toNat := by
        have hsplit : (2 : ℚ) ^ e.toNat = 2 ^ e * 2 ^ (-e).toNat := by
          rw [← zpow_natCast, ← zpow_natCast, ← zpow_add₀ two_ne_zero]
          congr 1
          omega
        have hcast : (m : ℚ) * 2 ^ e.toNat = n * 2 ^ (-e).toNat := by
          rw [hsplit, ← mul_assoc, hdist]
        exact_mod_cast hcast
      obtain ⟨hinteger, hvalue⟩ := integer_of_eq (s := false) hscaled
      exact ⟨hinteger, .inl hvalue⟩
    · -- The least double past the range of exact integers is `2 ^ 53`.
      have hleast : magnitude (2 ^ 52) 1 = (2 ^ 53 : Nat) := by norm_num [magnitude]
      have hlarge' : ((2 ^ 53 : Nat) : ℚ) ≤ n := by exact_mod_cast hlarge
      have hdist := (hnear (2 ^ 52) 1 ⟨by decide, by decide, by decide⟩).1
      have hfar : |((2 ^ 53 : Nat) : ℚ) - n| = n - (2 ^ 53 : Nat) := by
        rw [abs_sub_comm, abs_of_nonneg (sub_nonneg.2 hlarge')]
      rw [hleast, hfar] at hdist
      have hle : ((2 ^ 53 : Nat) : ℚ) ≤ magnitude m e := by
        have hnear := (abs_le.1 hdist).1
        linarith
      have he : 0 ≤ e := by
        by_contra! hneg
        have hshort : magnitude m e < (2 ^ 53 : Nat) := by
          calc magnitude m e ≤ magnitude m 0 := magnitude_le_of_le hneg.le
            _ = m := by simp [magnitude]
            _ < (2 ^ 53 : Nat) := by exact_mod_cast hcanonical.1.1
        linarith
      obtain ⟨k, rfl⟩ := Int.eq_ofNat_of_zero_le he
      have hscaled : m * 2 ^ (k : Int).toNat = (m * 2 ^ k) * 2 ^ (-(k : Int)).toNat := by
        have hzero : (-(k : Int)).toNat = 0 := by omega
        rw [hzero, pow_zero, mul_one, Int.toNat_natCast]
      obtain ⟨hinteger, hvalue⟩ := integer_of_eq (s := false) hscaled
      have hbig : 2 ^ 53 ≤ m * 2 ^ k := by
        rw [magnitude, zpow_natCast] at hle
        exact_mod_cast hle
      refine ⟨hinteger, .inr ⟨?_, ?_⟩⟩ <;> omega
  | infinite s => simp [ofInt?] at h; split at h <;> cases h
  | nan => exact hnearest.elim

/-! ## Powers below the limit -/

/-- The largest base whose power is at most `largest`, bit by bit: `r` has its bits from `k` on. -/
def rootFrom (n : Nat) : Nat → Nat → Nat
  | 0, r => r
  | k + 1, r => rootFrom n k (if (r + 2 ^ k) ^ n ≤ largest then r + 2 ^ k else r)

/-- The largest base whose power is at most `largest`. -/
def root (n : Nat) : Nat := rootFrom n (1024 / n + 1) 0

/-- From one base to the next the power steps over all integers that are rounded to the largest
double, but for the exponent 17. -/
theorem root_spec : ∀ n < 1024, 17 ≤ n → root n ^ n ≤ largest ∧
    roundingLimit ≤ (root n + if n = 17 then 5 else 1) ^ n := by
  decide +kernel

theorem root_seventeen : root 17 = 1357157737484444921 := by decide +kernel

/-- Four bases of 64 bits have a power between the largest double and the limit. -/
theorem power_between {b n : Nat} (hb : b ≤ 2 ^ 63) (hlow : largest < b ^ n)
    (hhigh : b ^ n < roundingLimit) : root 17 < b ∧ b < root 17 + 5 := by
  have htwo : 2 ≤ b := by
    by_contra! hsmall
    have hone : b ^ n ≤ 1 := (Nat.pow_le_pow_left (by omega) n).trans_eq (one_pow n)
    have hlarge : 2 ^ 1 ≤ largest := two_pow_le_largest (by decide)
    omega
  have hn : n < 1024 := by
    by_contra! hlarge
    have hlimit : roundingLimit ≤ 2 ^ n := roundingLimit_le_two_pow hlarge
    have hle : 2 ^ n ≤ b ^ n := Nat.pow_le_pow_left htwo n
    omega
  have hn' : 17 ≤ n := by
    by_contra! hsmall
    have hlarge : (2 ^ 63) ^ 16 ≤ largest :=
      (pow_mul 2 63 16).symm.trans_le (two_pow_le_largest (by decide))
    have hle : b ^ n ≤ (2 ^ 63) ^ 16 :=
      (Nat.pow_le_pow_left hb n).trans (Nat.pow_le_pow_right (by decide) (by omega))
    omega
  obtain ⟨hbelow, habove⟩ := root_spec n hn hn'
  have hgt : root n < b := lt_of_pow_lt_pow_left₀ n (Nat.zero_le b) (hbelow.trans_lt hlow)
  have hlt : b < root n + if n = 17 then 5 else 1 :=
    lt_of_pow_lt_pow_left₀ n (Nat.zero_le _) (hhigh.trans_le habove)
  split at hlt
  · subst n
    exact ⟨hgt, hlt⟩
  · omega

/-- None of them is a double. -/
theorem le_power_of_integerPart {x : Double} {n : Nat} (hx : x.InFormat)
    (hb : x.truncate.natAbs ≤ 2 ^ 63) (h : largest < x.truncate.natAbs ^ n) :
    roundingLimit ≤ x.truncate.natAbs ^ n := by
  by_contra! hhigh
  obtain ⟨hgt, hlt⟩ := power_between hb h hhigh
  obtain ⟨m, e, hm, -, heq⟩ := integerPart_iff.1 ⟨x, hx, rfl⟩
  rw [heq, root_seventeen] at hgt hlt
  rcases Nat.lt_or_ge e 8 with he | he
  · have hpow : 2 ^ e ≤ 2 ^ 7 := Nat.pow_le_pow_right two_pos (by omega)
    have hle : m * 2 ^ e ≤ 2 ^ 53 * 2 ^ 7 := Nat.mul_le_mul hm.le hpow
    omega
  · obtain ⟨k, rfl⟩ := Nat.exists_eq_add_of_le he
    have hmultiple : m * 2 ^ (8 + k) = 256 * (m * 2 ^ k) := by ring
    omega

end Double

namespace Number

open Double

/-- The power of two integers is rounded from the exact one. -/
theorem power_int_of_past {x : Int} {n : Nat} (h : largest < x.natAbs ^ n) :
    power (.int x) (.int n) = .float (Double.ofInt (x ^ n)) := by
  have hlarge : 2 ^ 64 ≤ largest := two_pow_le_largest (by decide)
  have hfits : ¬ fits (x ^ n) = true := by
    rw [fits_iff, minInt, maxInt]
    rw [← Int.natAbs_pow] at h
    omega
  change intPower x n = _
  rw [intPower_eq, fit, if_neg hfits]

theorem decide_power_neg {x : Int} {n : Nat} (h : largest < x.natAbs ^ n) :
    decide (x ^ n < 0) = decide (x < 0 ∧ n % 2 = 1) := by
  have hpos : (0 : Int) < (x.natAbs ^ n : Nat) := by exact_mod_cast Nat.zero_lt_of_lt h
  rw [pow_eq_natAbs, decide_eq_decide]
  split
  · rename_i hodd
    exact iff_of_true (by omega) hodd
  · rename_i heven
    exact iff_of_false (by omega) heven

/-- The power of a double past the limit is infinite, whatever the signs. -/
theorem power_float_of_past {x : Double} {n : Nat} {s : Bool} {m : Nat} {e : Int}
    (hx : x = .finite s m e) (hinteger : x.isInteger = true)
    (h : roundingLimit ≤ x.truncate.natAbs ^ n) :
    power (.float x) (.int n) = .float (.infinite false) := by
  have hone : 2 ^ 1 ≤ roundingLimit := two_pow_le_roundingLimit (by decide)
  have htwo : 2 ≤ x.truncate.natAbs := by
    by_contra! hsmall
    have hle := (Nat.pow_le_pow_left (Nat.le_of_lt_succ hsmall) n).trans_eq (one_pow n)
    omega
  have hpositive : (int (n : Int)).isNegative = false := by simp [Number.isNegative]
  simp only [power, hpositive, Bool.and_false, Bool.false_eq_true, if_false, toDouble?]
  cases hn : ofInt? (n : Int) with
  | none => rfl
  | some y =>
    obtain ⟨k, f, rfl, hinteger', hexponent⟩ := integer_of_ofInt? hn
    -- An exponent that is not exact is so large that the power overflows all the same.
    have hover : powerOverflows x.truncate.natAbs (Double.finite false k f).truncate.natAbs =
        true := by
      rw [powerOverflows, if_neg (by omega)]
      split
      · rfl
      · have hsame := hexponent.resolve_right (by omega)
        have hinfinite := ofInt_of_past (n := ((x.truncate.natAbs ^ n : Nat) : Int))
          (h.trans_eq (Int.natAbs_natCast _).symm)
        simp only [hsame, Nat.pow_eq, hinfinite, isFinite, Bool.not_false]
    have hpower : Double.power x (.finite false k f) = .error .range := by
      subst hx
      simp only [Double.power, hinteger, hinteger', hover, Bool.not_false, Bool.and_true, if_true]
    simp only [doublePower, hpower]

end Number

namespace Value

open Double

/-- Powers past the largest double, of an integer of 64 bits and of the double equal to it. The
integer gives an infinity with the sign of the exact power, unless that is rounded to the largest
double, which does not happen where the integer is a double. The double gives positive infinity, so
that the two agree just where the exact power is positive. -/
theorem power_past_doubles {x : Int} {n : Nat} (hx : fits x = true)
    (hpast : largest < x.natAbs ^ n) :
    applyBinary .pow (.int x) (.int n) = pure (.float
        (if x.natAbs ^ n < roundingLimit then .finite (decide (x < 0 ∧ n % 2 = 1)) (2 ^ 53 - 1) 971
        else .infinite (decide (x < 0 ∧ n % 2 = 1)))) ∧
      ∀ d : Double, d.InFormat → (Number.float d).cmp? (.int x) = some .eq →
        roundingLimit ≤ x.natAbs ^ n ∧
        applyBinary .pow (.float d) (.int n) = pure (.float (.infinite false)) ∧
        (applyBinary .pow (.float d) (.int n) = applyBinary .pow (.int x) (.int n) ↔
          ¬ (x < 0 ∧ n % 2 = 1)) := by
  have hexact : applyBinary .pow (.int x) (.int n) = pure (.float (Double.ofInt (x ^ n))) := by
    change (pure (number (Number.power (.int x) (.int n))) : Noting Value) = _
    rw [Number.power_int_of_past hpast]
    rfl
  have hlow : largest < (x ^ n).natAbs := by rwa [Int.natAbs_pow]
  rw [hexact]
  refine ⟨?_, fun d hd hequal => ?_⟩
  · split
    · rename_i hhigh
      rw [ofInt_of_between hlow (by rwa [Int.natAbs_pow]), Number.decide_power_neg hpast]
    · rename_i hhigh
      rw [ofInt_of_past (by rw [Int.natAbs_pow]; omega), Number.decide_power_neg hpast]
  · obtain ⟨s, m, e, hfinite, hvalue⟩ := of_cmpExact?_ofInt hequal
    obtain ⟨hinteger, htruncate⟩ := integer_of_eq (s := s) hvalue
    rw [← hfinite] at hinteger htruncate
    have hrange := fits_iff.1 hx
    have hlimit : roundingLimit ≤ x.natAbs ^ n := by
      rw [← htruncate] at hpast ⊢
      refine le_power_of_integerPart hd ?_ hpast
      simp only [minInt, maxInt] at hrange
      omega
    have hfloat : applyBinary .pow (.float d) (.int n) = pure (.float (.infinite false)) := by
      change (pure (number (Number.power (.float d) (.int n))) : Noting Value) = _
      rw [Number.power_float_of_past hfinite hinteger (by rwa [htruncate])]
      rfl
    refine ⟨hlimit, hfloat, ?_⟩
    rw [hfloat, ofInt_of_past (by rwa [Int.natAbs_pow]), Number.decide_power_neg hpast]
    constructor
    · intro heq hnegative
      have hrun := congrArg (fun act : Noting Value => (act.run.run []).1) heq
      rw [decide_eq_true hnegative] at hrun
      cases hrun
    · intro hpositive
      rw [decide_eq_false hpositive]

/-- Minus ten to the power 309 is negative, but as a double's power it is not. -/
theorem power_past_doubles_minus_ten :
    fits (-10) = true ∧ largest < (-10 : Int).natAbs ^ 309 ∧
      (Double.finite true (5 * 2 ^ 50) (-49)).InFormat ∧
      (Number.float (.finite true (5 * 2 ^ 50) (-49))).cmp? (.int (-10)) = some .eq ∧
      applyBinary .pow (.int (-10)) (.int (309 : Nat)) = pure (.float (.infinite true)) ∧
      applyBinary .pow (.float (.finite true (5 * 2 ^ 50) (-49))) (.int (309 : Nat)) =
        pure (.float (.infinite false)) := by
  have hpast : largest < (-10 : Int).natAbs ^ 309 := by decide +kernel
  have hformat : (Double.finite true (5 * 2 ^ 50) (-49)).InFormat := ⟨by decide, by decide⟩
  have hequal : (Number.float (.finite true (5 * 2 ^ 50) (-49))).cmp? (.int (-10)) = some .eq := by
    decide +kernel
  obtain ⟨hint, hdouble⟩ := power_past_doubles (x := -10) (n := 309) (by decide) hpast
  obtain ⟨hlimit, hfloat, -⟩ := hdouble _ hformat hequal
  refine ⟨by decide, hpast, hformat, hequal, ?_, hfloat⟩
  rw [hint, if_neg (by omega)]
  rfl

end Value

end PhpInterpreter
