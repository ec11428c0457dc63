import PhpInterpreter.Number.Literal
import PhpInterpreter.Proofs.Value.Overflow

/-!
The formats of numbers: integers of 64 bits, and doubles with a mantissa of 53 bits. Reading,
rounding and arithmetic give numbers in format, whatever the operands were, but for remainders:
those of two doubles past 64 bits are integers that a double holds exactly.
-/

namespace PhpInterpreter

/-! ## Rounding -/

theorem unscale_eq (num den : Nat) (e : Int) :
    unscale num den e = (num * 2 ^ (-e).toNat, den * 2 ^ e.toNat) := by
  unfold unscale
  split
  · have hneg : (-e).toNat = 0 := by omega
    simp [hneg, Nat.shiftLeft_eq]
  · have hpos : e.toNat = 0 := by omega
    simp [hpos, Nat.shiftLeft_eq]

/-- A bound on a quotient, scaled by powers of two. -/
theorem mul_pow_lt_mul_pow {num den a b a' b' : Nat} (h : num * 2 ^ a < den * 2 ^ b)
    (hle : a' + b ≤ a + b') : num * 2 ^ a' < den * 2 ^ b' := by
  have hscaled : num * 2 ^ a' * 2 ^ a < den * 2 ^ b' * 2 ^ a := by
    calc num * 2 ^ a' * 2 ^ a = num * 2 ^ a * 2 ^ a' := Nat.mul_right_comm ..
      _ < den * 2 ^ b * 2 ^ a' := Nat.mul_lt_mul_of_pos_right h (Nat.two_pow_pos a')
      _ = den * 2 ^ (a' + b) := by rw [Nat.mul_assoc, ← Nat.pow_add, Nat.add_comm]
      _ ≤ den * 2 ^ (a + b') := Nat.mul_le_mul_left den (Nat.pow_le_pow_right (by decide) hle)
      _ = den * 2 ^ b' * 2 ^ a := by rw [Nat.mul_assoc, ← Nat.pow_add, Nat.add_comm]
  exact Nat.lt_of_mul_lt_mul_right hscaled

theorem roundHalfEven_le {n d bound : Nat} (h : n < d * bound) : roundHalfEven n d ≤ bound := by
  have hq : n / d < bound := Nat.div_lt_of_lt_mul h
  unfold roundHalfEven
  dsimp only
  split
  · omega
  · split
    · omega
    · split <;> omega

namespace Double

/-- A double in format: a finite one has a mantissa of 53 bits and an exponent of at most 971. -/
def InFormat : Double → Prop
  | finite _ m e => m < 2 ^ 53 ∧ e ≤ 971
  | infinite _ => True
  | nan => True

theorem inFormat_zero (s : Bool) : (finite s 0 (-1074)).InFormat := by simp [InFormat]

theorem inFormat_pack {s : Bool} {m : Nat} {e : Int} (h : m ≤ 2 ^ 53) : (pack s m e).InFormat := by
  unfold pack
  split
  · split
    · trivial
    · exact ⟨by assumption, by omega⟩
  · split
    · trivial
    · exact ⟨by omega, by omega⟩

/-- At the leading exponent and above it a quotient has at most 53 bits. -/
theorem lt_of_leadingExponent_le {num den : Nat} {e : Int} (hden : den ≠ 0)
    (h : leadingExponent num den ≤ e) : num * 2 ^ (-e).toNat < den * 2 ^ (e.toNat + 53) := by
  have hlog : num * 2 ^ den.log2 < den * 2 ^ (num.log2 + 1) := by
    rw [Nat.mul_comm den]
    have hnum : num < 2 ^ (num.log2 + 1) := Nat.lt_log2_self
    exact Nat.mul_lt_mul_of_lt_of_le hnum (Nat.log2_self_le hden) (Nat.pos_of_ne_zero hden)
  unfold leadingExponent at h
  simp only [unscale_eq, Nat.shiftLeft_eq] at h
  split at h
  · rename_i hsmall
    rw [Nat.mul_assoc, ← Nat.pow_add] at hsmall
    exact mul_pow_lt_mul_pow hsmall (by omega)
  · exact mul_pow_lt_mul_pow hlog (by omega)

theorem inFormat_ofQuotient (s : Bool) (num den : Nat) : (ofQuotient s num den).InFormat := by
  unfold ofQuotient
  split
  · exact inFormat_zero s
  · dsimp only
    have hle : leadingExponent num den ≤ max (leadingExponent num den) (-1074) :=
      Int.le_max_left ..
    generalize max (leadingExponent num den) (-1074) = e at hle ⊢
    rw [unscale_eq]
    apply inFormat_pack
    by_cases hden : den = 0
    · subst hden
      simp only [Nat.zero_mul, roundHalfEven, Nat.div_zero]
      split
      · omega
      · split
        · omega
        · split <;> omega
    · refine roundHalfEven_le ?_
      rw [Nat.mul_assoc, ← Nat.pow_add]
      exact lt_of_leadingExponent_le hden hle

theorem inFormat_ofInt (n : Int) : (ofInt n).InFormat := inFormat_ofQuotient ..

theorem inFormat_ofInt? {n : Int} {x : Double} (h : ofInt? n = some x) : x.InFormat := by
  unfold ofInt? at h
  split at h
  · rename_i heq
    obtain rfl := Option.some.inj h
    exact heq ▸ inFormat_ofInt n
  · cases h

theorem inFormat_ofExact (x : Exact) (s : Bool) : (ofExact x s).InFormat := by
  unfold ofExact
  split
  · exact inFormat_zero s
  · split
    · exact inFormat_ofQuotient ..
    · exact inFormat_ofQuotient ..

theorem inFormat_ofBits (bits : Nat) : (ofBits bits).InFormat := by
  have hfraction : bits % 0x10000000000000 < 0x10000000000000 := Nat.mod_lt _ (by decide)
  have hbiased : bits / 0x10000000000000 % 0x800 < 0x800 := Nat.mod_lt _ (by decide)
  unfold ofBits
  dsimp only
  split
  · split <;> trivial
  · split
    · exact ⟨by omega, by omega⟩
    · exact ⟨by omega, by omega⟩

/-! ## Arithmetic on doubles -/

theorem InFormat.neg {x : Double} (h : x.InFormat) : x.neg.InFormat := by
  cases x with
  | finite s m e => exact h
  | infinite s => trivial
  | nan => trivial

theorem inFormat_add (x y : Double) : (x.add y).InFormat := by
  unfold add
  split
  · exact inFormat_ofExact ..
  · split <;> trivial
  all_goals trivial

theorem inFormat_mul (x y : Double) : (x.mul y).InFormat := by
  unfold mul
  split
  · exact inFormat_ofQuotient ..
  · trivial
  · split <;> trivial
  · split <;> trivial
  all_goals trivial

theorem inFormat_div (x y : Double) : (x.div y).InFormat := by
  unfold div
  split
  · split
    · split <;> trivial
    · exact inFormat_ofQuotient ..
  · trivial
  · trivial
  · exact inFormat_zero _
  all_goals trivial

theorem inFormat_one : one.InFormat := by simp [one, InFormat]

theorem inFormat_power {x y r : Double} (h : power x y = .ok r) : r.InFormat := by
  have hplatform : (platformPower x y).InFormat := inFormat_ofBits _
  have hone : ∀ {b : Bool} {z : Double}, z.InFormat → (if b then one else z).InFormat := by
    intro b z hz
    split
    · exact inFormat_one
    · exact hz
  unfold power at h
  split at h
  · obtain rfl := Except.ok.inj h
    exact hone trivial
  · obtain rfl := Except.ok.inj h
    exact hone trivial
  · obtain rfl := Except.ok.inj h
    trivial
  · split at h
    · obtain rfl := Except.ok.inj h
      exact inFormat_one
    · split at h
      · obtain rfl := Except.ok.inj h
        exact inFormat_zero _
      · obtain rfl := Except.ok.inj h
        trivial
  · split at h
    · obtain rfl := Except.ok.inj h
      exact inFormat_one
    · obtain rfl := Except.ok.inj h
      split
      · exact inFormat_zero _
      · trivial
    · obtain rfl := Except.ok.inj h
      split
      · trivial
      · exact inFormat_zero _
  · split at h
    · cases h
    · split at h
      · cases h
      · cases h
      · obtain rfl := Except.ok.inj h
        exact hplatform

end Double

namespace Number

/-- A number in format. -/
def InFormat : Number → Prop
  | int n => fits n = true
  | float x => x.InFormat

theorem inFormat_doublePower (x y : Double) : (doublePower x y).InFormat := by
  unfold doublePower
  split
  · exact Double.inFormat_power (by assumption)
  · trivial
  · trivial

theorem inFormat_fit_int (n : Int) : (int n).fit.InFormat := by
  unfold fit
  dsimp only
  split
  · assumption
  · exact Double.inFormat_ofInt n

theorem inFormat_combine {onInt : Int → Int → Int} {onDouble : Double → Double → Double}
    (hround : ∀ a b, (onDouble a b).InFormat) {x y z : Number}
    (h : (combine onInt onDouble x y).map Number.fit = some z) : z.InFormat := by
  obtain ⟨w, hw, rfl⟩ := Option.map_eq_some_iff.1 h
  cases w with
  | int n => exact inFormat_fit_int n
  | float r =>
    unfold combine at hw
    split at hw
    · cases hw
    · simp only [Option.bind_eq_bind, Option.bind_eq_some_iff] at hw
      obtain ⟨a, -, b, -, hr⟩ := hw
      obtain rfl : onDouble a b = r := float.inj (Option.some.inj hr)
      exact hround a b

theorem inFormat_div {x y z : Number} (h : x.div y = some z) : z.InFormat := by
  unfold div at h
  split at h
  · split at h
    · obtain rfl := Option.some.inj h
      exact inFormat_fit_int _
    · split at h
      · cases h
      · obtain rfl := Option.some.inj h
        exact Double.inFormat_ofQuotient ..
  · simp only [Option.bind_eq_bind, Option.bind_eq_some_iff] at h
    obtain ⟨a, -, b, -, hz⟩ := h
    obtain rfl := Option.some.inj hz
    exact Double.inFormat_div a b

theorem inFormat_power (x y : Number) : (x.power y).InFormat := by
  cases hpower : x.power y with
  | int k =>
    obtain ⟨-, -, -, -, -, hfits⟩ := power_eq_int hpower
    exact hfits
  | float r =>
    unfold power at hpower
    split at hpower
    · rw [intPower_eq] at hpower
      exact hpower ▸ inFormat_fit_int _
    · split at hpower
      · obtain rfl := float.inj hpower
        trivial
      · split at hpower
        · obtain rfl := float.inj hpower
          exact inFormat_doublePower _ _
        · obtain rfl := float.inj hpower
          trivial

/-! ## Reading -/

theorem inFormat_toDouble (s : Bool) (d : Decimal) : (d.toDouble s).InFormat := by
  unfold Decimal.toDouble
  split
  · exact Double.inFormat_zero s
  · split
    · trivial
    · split
      · exact Double.inFormat_zero s
      · exact Double.inFormat_ofQuotient ..

theorem inFormat_toNumber {n : Numeral} {x : Number} (h : n.toNumber = .ok x) : x.InFormat := by
  unfold Numeral.toNumber at h
  split at h
  · split at h
    · cases h
    · split at h
      · obtain rfl := Except.ok.inj h
        assumption
      · split at h
        · rename_i hdouble
          obtain rfl := Except.ok.inj h
          exact Double.inFormat_ofInt? hdouble
        · cases h
  · obtain rfl := Except.ok.inj h
    exact inFormat_toDouble ..

theorem inFormat_readNumeric {s : String} {x : Number} {whole : Bool}
    (h : readNumeric s = .ok (.found x whole)) : x.InFormat := by
  unfold readNumeric at h
  split at h
  · cases h
  · obtain ⟨y, hy, hfound⟩ := exists_of_bind_eq_ok h
    obtain rfl : y = x := by
      cases hfound
      rfl
    exact inFormat_toNumber hy

theorem inFormat_readDouble? {cs : List Char} {x : Double} (h : Literal.readDouble? cs = some x) :
    x.InFormat := by
  unfold Literal.readDouble? at h
  split at h
  · obtain rfl := Option.some.inj h
    exact inFormat_toDouble ..
  · cases h

theorem inFormat_readUnsigned? {cs : List Char} {x : Double}
    (h : Literal.readUnsigned? cs = some (.float x)) : x.InFormat := by
  have hint : ∀ base cs, (Literal.readInt? base cs).map Number.int ≠ some (.float x) := by
    intro base cs hsome
    obtain ⟨n, -, hn⟩ := Option.map_eq_some_iff.1 hsome
    cases hn
  unfold Literal.readUnsigned? at h
  split at h
  · exact absurd h (hint _ _)
  · exact absurd h (hint _ _)
  · exact absurd h (hint _ _)
  · split at h
    · obtain ⟨y, hy, heq⟩ := Option.map_eq_some_iff.1 h
      obtain rfl := float.inj heq
      exact inFormat_readDouble? hy
    · split at h
      · exact absurd h (hint _ _)
      · exact absurd h (hint _ _)

/-- What a literal denotes is in format: integers past 64 bits are rounded. -/
theorem inFormat_read {text : String} {x : Number} (h : Literal.read text = .ok x) :
    x.InFormat := by
  unfold Literal.read at h
  dsimp only at h
  split at h
  · cases h
  · rename_i n hn
    split at h
    · rename_i y hy
      obtain rfl := Except.ok.inj h
      split at hy
      · cases n with
        | int m => cases hy
        | float z =>
          obtain rfl := float.inj hy
          exact (inFormat_readUnsigned? hn).neg
      · obtain rfl := hy
        exact inFormat_readUnsigned? hn
    · split at h
      · obtain rfl := Except.ok.inj h
        assumption
      · split at h
        · rename_i hdouble
          obtain rfl := Except.ok.inj h
          exact Double.inFormat_ofInt? hdouble
        · cases h

/-- A literal node denotes a number in format, unless a number was put into it. -/
theorem inFormat_literal {d : Datum} {x : Number} (hd : ∀ n, d ≠ .scalar (.number n))
    (h : d.toNumber = .ok x) : x.InFormat := by
  unfold Datum.toNumber at h
  split at h
  · cases h
  · exact absurd rfl (hd _)
  · exact inFormat_read h

end Number

/-! ## Integer parts -/

/-- The integer part of some double in format. -/
def IntegerPart (n : Int) : Prop := ∃ x : Double, x.InFormat ∧ x.truncate = n

/-- Integer parts have 53 significant bits. -/
theorem integerPart_iff {n : Int} :
    IntegerPart n ↔ ∃ m e : Nat, m < 2 ^ 53 ∧ e ≤ 971 ∧ n.natAbs = m * 2 ^ e := by
  constructor
  · rintro ⟨x, hx, rfl⟩
    cases x with
    | finite s m e =>
      obtain ⟨hm, he⟩ := hx
      have habs : (Double.finite s m e).truncate.natAbs =
          if 0 ≤ e then m <<< e.toNat else m >>> (-e).toNat := by
        simp only [Double.truncate]
        split <;> omega
      rw [habs]
      split
      · exact ⟨m, e.toNat, hm, by omega, Nat.shiftLeft_eq ..⟩
      · refine ⟨m >>> (-e).toNat, 0, ?_, by omega, by simp⟩
        exact Nat.lt_of_le_of_lt (Nat.shiftRight_le ..) hm
    | infinite s => exact ⟨0, 0, by decide, by decide, rfl⟩
    | nan => exact ⟨0, 0, by decide, by decide, rfl⟩
  · rintro ⟨m, e, hm, he, hn⟩
    refine ⟨.finite (decide (n < 0)) m e, ⟨hm, by omega⟩, ?_⟩
    have hpos : (0 : Int) ≤ (e : Int) := by omega
    simp only [Double.truncate, if_pos hpos, Int.toNat_natCast, Nat.shiftLeft_eq, ← hn,
      decide_eq_true_eq]
    split <;> omega

/-- The remainder of two integer parts is one. -/
theorem IntegerPart.tmod {m n : Int} (hm : IntegerPart m) (hn : IntegerPart n) :
    IntegerPart (m.tmod n) := by
  rw [integerPart_iff] at hm hn ⊢
  obtain ⟨a, e, ha, he, hma⟩ := hm
  obtain ⟨b, f, hb, hf, hnb⟩ := hn
  rw [Int.natAbs_tmod, hma, hnb]
  -- Both are multiples of the smaller power of two, and so is the remainder.
  rcases Nat.le_total e f with hle | hle
  · obtain ⟨k, rfl⟩ := Nat.exists_eq_add_of_le hle
    refine ⟨a % (b * 2 ^ k), e, Nat.lt_of_le_of_lt (Nat.mod_le ..) ha, he, ?_⟩
    rw [Nat.pow_add, Nat.mul_comm (2 ^ e), ← Nat.mul_assoc, Nat.mul_mod_mul_right]
  · obtain ⟨k, rfl⟩ := Nat.exists_eq_add_of_le hle
    by_cases hzero : b = 0
    · subst hzero
      refine ⟨a, f + k, ha, he, by simp⟩
    · refine ⟨a * 2 ^ k % b, f, ?_, hf, ?_⟩
      · exact Nat.lt_trans (Nat.mod_lt _ (Nat.pos_of_ne_zero hzero)) hb
      · rw [Nat.pow_add, Nat.mul_comm (2 ^ f), ← Nat.mul_assoc, Nat.mul_mod_mul_right]

end PhpInterpreter
