import Mathlib.Algebra.Ring.Int.Parity
import PhpInterpreter.Proofs.Outcome

/-!
Arithmetic past 64 bits. On integers the operators are exact: a result in range is that integer, any
other the nearest double. The exception is the remainder of two doubles past the range, which is
taken of their integer parts and not brought back. The main result says that there is no other.
-/

namespace PhpInterpreter

theorem fits_iff {n : Int} : fits n = true ↔ minInt ≤ n ∧ n ≤ maxInt := by simp [fits]

/-- A remainder is no larger than the dividend and smaller than the divisor. -/
theorem fits_tmod {m n : Int} (hn : n ≠ 0) (h : fits m = true ∨ fits n = true) :
    fits (m.tmod n) = true := by
  have habs := Int.natAbs_tmod m n
  have hle := Nat.mod_le m.natAbs n.natAbs
  have hlt := Nat.mod_lt m.natAbs (Int.natAbs_pos.2 hn)
  have hnonneg : 0 ≤ m → 0 ≤ m.tmod n := Int.tmod_nonneg n
  have hnonpos : m ≤ 0 → m.tmod n ≤ 0 := fun hm => by
    have hneg := Int.tmod_nonneg n (Int.neg_nonneg_of_nonpos hm)
    rw [Int.neg_tmod] at hneg
    omega
  simp only [fits_iff, minInt, maxInt] at h ⊢
  omega

/-! ## Powers -/

namespace Double

/-- From `2 ^ 1024` on the nearest double is infinite. -/
theorem ofInt_of_large {n : Int} (hne : n.natAbs ≠ 0) (h : 1024 ≤ n.natAbs.log2) :
    ofInt n = infinite (decide (n < 0)) := by
  have hexponent : leadingExponent n.natAbs 1 = (n.natAbs.log2 : Int) - 52 := by
    have hnonneg : (0 : Int) ≤ (n.natAbs.log2 : Int) - 52 := by omega
    have hle : (1 <<< ((n.natAbs.log2 : Int) - 52).toNat) <<< 52 ≤ n.natAbs := by
      rw [Nat.shiftLeft_eq, Nat.shiftLeft_eq, Nat.one_mul, ← Nat.pow_add]
      have hsum : ((n.natAbs.log2 : Int) - 52).toNat + 52 = n.natAbs.log2 := by omega
      rw [hsum]
      exact Nat.log2_self_le hne
    have hone : (Nat.log2 1 : Int) = 0 := by decide
    simp only [leadingExponent, hone, Int.sub_zero, unscale, if_pos hnonneg]
    rw [if_neg (Nat.not_lt.2 hle)]
  have hmax : max ((n.natAbs.log2 : Int) - 52) (-1074) = (n.natAbs.log2 : Int) - 52 := by omega
  simp only [ofInt, ofQuotient, if_neg hne, hexponent, hmax, pack]
  split
  · rw [if_pos (by omega)]
  · rw [if_pos (by omega)]

end Double

theorem pow_eq_natAbs (b : Int) (n : Nat) :
    b ^ n = if b < 0 ∧ n % 2 = 1 then -((b.natAbs ^ n : Nat) : Int) else (b.natAbs ^ n : Nat) := by
  have hcast : ((b.natAbs ^ n : Nat) : Int) = (b.natAbs : Int) ^ n := by simp
  rw [hcast]
  by_cases hb : b < 0
  · have habs : b = -(b.natAbs : Int) := by omega
    by_cases hn : n % 2 = 1
    · rw [if_pos ⟨hb, hn⟩]
      conv_lhs => rw [habs]
      exact Odd.neg_pow (Nat.odd_iff.2 hn) _
    · rw [if_neg (fun h => hn h.2)]
      have heven : n % 2 = 0 := by omega
      conv_lhs => rw [habs]
      exact Even.neg_pow (Nat.even_iff.2 heven) _
  · have habs : b = (b.natAbs : Int) := by omega
    rw [if_neg (fun h => hb h.1), ← habs]

namespace Number

/-- An integer power is the exact one, brought into range. -/
theorem intPower_eq (b : Int) (n : Nat) : intPower b n = fit (int (b ^ n)) := by
  have hpow := pow_eq_natAbs b n
  unfold intPower
  split
  · -- The power is past all doubles, and its sign is that of an odd power.
    rename_i hlarge
    have hle : 2 ^ n ≤ (b ^ n).natAbs := by
      rw [Int.natAbs_pow]
      exact Nat.pow_le_pow_left hlarge.1 n
    have hne : (b ^ n).natAbs ≠ 0 := by
      have hpos := Nat.two_pow_pos n
      omega
    have hlog : 1024 ≤ (b ^ n).natAbs.log2 := Nat.le_trans hlarge.2 ((Nat.le_log2 hne).2 hle)
    have hbig : fits (b ^ n) = false := by
      have hmin : 2 ^ 64 ≤ 2 ^ n := Nat.pow_le_pow_right (by decide) (by omega)
      rw [Bool.eq_false_iff]
      intro hfits
      have hrange := fits_iff.1 hfits
      simp only [minInt, maxInt] at hrange
      omega
    have hsign : decide (b ^ n < 0) = (decide (b < 0) && n % 2 == 1) := by
      have hpos : (0 : Int) < (b.natAbs ^ n : Nat) := by exact_mod_cast Nat.pow_pos (by omega)
      rw [hpow, Bool.eq_iff_iff, decide_eq_true_iff, Bool.and_eq_true, decide_eq_true_iff,
        beq_iff_eq]
      split
      · simp_all
      · rename_i hodd
        exact iff_of_false (by omega) hodd
    simp [fit, hbig, Double.ofInt_of_large hne hlog, hsign]
  · split
    · -- The powers of minus one, zero and one.
      rename_i hsmall
      have hunit : (if n = 0 then 1 else if n % 2 = 0 then (b.natAbs : Int) else b) = b ^ n := by
        by_cases hn : n = 0
        · simp [hn]
        · have hcases : b.natAbs = 0 ∨ b.natAbs = 1 := by omega
          rw [hpow, if_neg hn]
          rcases hcases with habs | habs
          · obtain rfl := Int.natAbs_eq_zero.1 habs
            simp [hn]
          · rw [habs, one_pow]
            split <;> split <;> omega
      have hfits : fits (b ^ n) = true := by
        rw [← hunit, fits_iff, minInt, maxInt]
        split
        · omega
        · split <;> omega
      rw [hunit, fit, if_pos hfits]
    · rw [hpow]
      rfl

theorem fit_eq_int {x : Number} {k : Int} (h : x.fit = int k) : x = int k ∧ fits k = true := by
  cases x with
  | float y => cases h
  | int n =>
    rw [fit] at h
    split at h
    · obtain rfl := int.inj h
      exact ⟨rfl, by assumption⟩
    · cases h

theorem combine_eq_int {onInt : Int → Int → Int} {onDouble : Double → Double → Double}
    {x y : Number} {k : Int} (h : combine onInt onDouble x y = some (int k)) :
    ∃ m n, x = int m ∧ y = int n ∧ k = onInt m n := by
  unfold combine at h
  split at h
  · rename_i m n
    exact ⟨m, n, rfl, rfl, (int.inj (Option.some.inj h)).symm⟩
  · simp only [Option.bind_eq_bind, Option.bind_eq_some_iff] at h
    obtain ⟨a, -, b, -, hfloat⟩ := h
    cases hfloat

theorem div_eq_int {x y : Number} {k : Int} (h : x.div y = some (int k)) :
    ∃ m n, x = int m ∧ y = int n ∧ n ∣ m ∧ k = m.tdiv n ∧ fits k = true := by
  unfold div at h
  split at h
  · rename_i m n
    split at h
    · rename_i hmod
      obtain ⟨hk, hfits⟩ := fit_eq_int (Option.some.inj h)
      exact ⟨m, n, rfl, rfl, Int.dvd_of_emod_eq_zero hmod, (int.inj hk).symm, hfits⟩
    · split at h
      · cases h
      · cases h
  · simp only [Option.bind_eq_bind, Option.bind_eq_some_iff] at h
    obtain ⟨a, -, b, -, hfloat⟩ := h
    cases hfloat

theorem power_eq_int {x y : Number} {k : Int} (h : x.power y = int k) :
    ∃ b n, x = int b ∧ y = int (n : Nat) ∧ k = b ^ n ∧ fits k = true := by
  unfold power at h
  split at h
  · rename_i b n
    rw [intPower_eq] at h
    obtain ⟨hk, hfits⟩ := fit_eq_int h
    exact ⟨b, n, rfl, rfl, (int.inj hk).symm, hfits⟩
  · split at h
    · cases h
    · split at h
      · cases h
      · cases h

end Number

/-! ## Operators -/

namespace BinaryOp

def arithmetic : List BinaryOp := [add, sub, mul, div, mod, pow]

/-- The integer that is the result on two integers, if there is one. -/
def exactly? : BinaryOp → Int → Int → Option Int
  | add, m, n => some (m + n)
  | sub, m, n => some (m - n)
  | mul, m, n => some (m * n)
  | div, m, n => if n ≠ 0 ∧ n ∣ m then some (m / n) else none
  | mod, m, n => if n ≠ 0 then some (m.tmod n) else none
  | pow, m, n => if 0 ≤ n then some (m ^ n.toNat) else none
  | _, _, _ => none

end BinaryOp

/-- The integer that a sign makes of an integer. -/
def UnaryOp.onInt (op : UnaryOp) (m : Int) : Int := if op = .minus then -m else m

namespace Value

open Number

/-- An integer is in range. -/
def Ranged (v : Value) : Prop := ∀ n, v = .int n → fits n = true

/-- The value takes part in arithmetic as the number `x`. -/
def Counts (v : Value) (x : Number) : Prop :=
  v.defined.isCompound = false ∧
    ∃ remarks, ∀ rs, v.defined.toNumber.run.run rs = (.ok x, rs ++ remarks)

/-- On two integers in range an operator gives the exact result, brought into range. -/
theorem compute_exact {op : BinaryOp} {m n k : Int} (hm : fits m = true)
    (h : op.exactly? m n = some k) :
    compute op (.int m) (.int n) = pure (number (fit (.int k))) := by
  cases op with
  | add | sub | mul =>
    obtain rfl := Option.some.inj h
    rfl
  | div =>
    rw [BinaryOp.exactly?] at h
    split at h
    · rename_i hdvd
      obtain rfl := Option.some.inj h
      have hmod : Int.emod m n = 0 := Int.emod_eq_zero_of_dvd hdvd.2
      have hquot : m.tdiv n = m / n := Int.tdiv_eq_ediv_of_dvd hdvd.2
      have hzero : isZero (.int n) = false := by simpa [isZero] using hdvd.1
      simp [compute, hzero, Number.div, hmod, hquot, inRange]
    · cases h
  | mod =>
    rw [BinaryOp.exactly?] at h
    split at h
    · rename_i hn
      obtain rfl := Option.some.inj h
      have hfit : fit (.int (m.tmod n)) = .int (m.tmod n) := by
        rw [fit, if_pos (fits_tmod hn (.inl hm))]
      simp [compute, truncate, hn, hfit, Number.mod, Value.int]
    · cases h
  | pow =>
    rw [BinaryOp.exactly?] at h
    split at h
    · rename_i hn
      obtain rfl := Option.some.inj h
      obtain ⟨e, rfl⟩ := Int.eq_ofNat_of_zero_le hn
      change pure (number (intPower m e)) = _
      rw [intPower_eq, Int.toNat_natCast]
    · cases h
  | _ => cases h

/-- The integer is the exact result on two integers, and in range. -/
def Exactly (op : BinaryOp) (x y : Number) (k : Int) : Prop :=
  (∃ m n, x = .int m ∧ y = .int n) ∧ op.exactly? x.truncate y.truncate = some k ∧ fits k = true

/-- Sums, differences and products are exact on integers, doubles otherwise. -/
theorem exactly_of_combine {op : BinaryOp} {onInt : Int → Int → Int}
    {onDouble : Double → Double → Double} {x y : Number} {k : Int}
    (hexact : ∀ m n, op.exactly? m n = some (onInt m n))
    (h : (Number.combine onInt onDouble x y).map fit = some (.int k)) : Exactly op x y k := by
  obtain ⟨z, hz, hfit⟩ := Option.map_eq_some_iff.1 h
  obtain ⟨rfl, hfits⟩ := fit_eq_int hfit
  obtain ⟨m, n, rfl, rfl, rfl⟩ := combine_eq_int hz
  exact ⟨⟨m, n, rfl, rfl⟩, hexact m n, hfits⟩

theorem exactly_of_div {x y : Number} {k : Int} (hzero : y.isZero = false)
    (h : x.div y = some (.int k)) : Exactly .div x y k := by
  obtain ⟨m, n, rfl, rfl, hdvd, rfl, hfits⟩ := div_eq_int h
  have hn : n ≠ 0 := by simpa [isZero] using hzero
  refine ⟨⟨m, n, rfl, rfl⟩, ?_, hfits⟩
  rw [Int.tdiv_eq_ediv_of_dvd hdvd]
  exact if_pos ⟨hn, hdvd⟩

theorem exactly_of_power {x y : Number} {k : Int} (h : x.power y = .int k) :
    Exactly .pow x y k := by
  obtain ⟨b, n, rfl, rfl, rfl, hfits⟩ := power_eq_int h
  exact ⟨⟨b, n, rfl, rfl⟩, by simp [BinaryOp.exactly?, truncate], hfits⟩

/-- A remainder is out of range for two doubles past it only. -/
theorem fits_mod {x y : Number} (hx : ∀ m, x = .int m → fits m = true)
    (hy : ∀ n, y = .int n → fits n = true) (hzero : y.truncate ≠ 0) :
    fits (x.truncate.tmod y.truncate) = true ∨ ∃ p q, x = .float p ∧ y = .float q ∧
      fits p.truncate = false ∧ fits q.truncate = false := by
  by_cases hsmall : fits x.truncate = true ∨ fits y.truncate = true
  · exact .inl (fits_tmod hzero hsmall)
  rw [not_or, Bool.not_eq_true, Bool.not_eq_true] at hsmall
  cases x with
  | int m => simp [truncate, hx m rfl] at hsmall
  | float p =>
    cases y with
    | int n => simp [truncate, hy n rfl] at hsmall
    | float q => exact .inr ⟨p, q, rfl, rfl, hsmall.1, hsmall.2⟩

/-- An integer result is the exact one. Only a remainder is an integer for operands that are not,
and only the remainder of two doubles past the range is out of it. -/
theorem ends_compute_int {op : BinaryOp} {x y : Number} {rs : List Remark}
    (hop : op ∈ BinaryOp.arithmetic) (hx : ∀ m, x = .int m → fits m = true)
    (hy : ∀ n, y = .int n → fits n = true) :
    Ends (compute op x y) rs (fun v _ => ∀ k, v = .int k →
      op.exactly? x.truncate y.truncate = some k ∧
      (op ≠ .mod → ∃ m n, x = .int m ∧ y = .int n) ∧
      (fits k = true ∨ op = .mod ∧ ∃ p q, x = .float p ∧ y = .float q ∧
        fits p.truncate = false ∧ fits q.truncate = false)) fun _ _ => True := by
  have hrange : ∀ {z? : Option Number}, (∀ k, z? = some (.int k) → Exactly op x y k) →
      Ends (inRange z?) rs (fun v _ => ∀ k, v = .int k →
        op.exactly? x.truncate y.truncate = some k ∧
        (op ≠ .mod → ∃ m n, x = .int m ∧ y = .int n) ∧
        (fits k = true ∨ op = .mod ∧ ∃ p q, x = .float p ∧ y = .float q ∧
          fits p.truncate = false ∧ fits q.truncate = false)) fun _ _ => True := by
    intro z? hz
    cases z? with
    | none => trivial
    | some z =>
      intro k hk
      obtain rfl : z = .int k := Value.number.inj hk
      obtain ⟨hints, hexact, hfits⟩ := hz k rfl
      exact ⟨hexact, fun _ => hints, .inl hfits⟩
  simp only [BinaryOp.arithmetic, List.mem_cons, List.not_mem_nil, or_false] at hop
  rcases hop with rfl | rfl | rfl | rfl | rfl | rfl
  · exact hrange fun _ => exactly_of_combine fun _ _ => rfl
  · exact hrange fun _ => exactly_of_combine fun _ _ => rfl
  · exact hrange fun _ => exactly_of_combine fun _ _ => rfl
  · simp only [compute]
    split
    · trivial
    · rename_i hzero
      exact hrange fun _ => exactly_of_div (Bool.eq_false_iff.2 hzero)
  · simp only [compute]
    split
    · trivial
    · rename_i hzero
      intro k hk
      obtain rfl : x.mod y = k := Number.int.inj (Value.number.inj hk)
      exact ⟨if_pos hzero, fun h => absurd rfl h, (fits_mod hx hy hzero).imp_right (.intro trivial)⟩
  · have hpower : compute .pow x y = inRange (some (x.power y)) := rfl
    rw [hpower]
    exact hrange fun _ hk => exactly_of_power (Option.some.inj hk)

/-! ## Operands -/

/-- An integer that is read from a string is in range. -/
theorem fits_of_readNumeric {s : String} {m : Int} {whole : Bool}
    (h : readNumeric s = .ok (.found (.int m) whole)) : fits m = true := by
  unfold readNumeric at h
  split at h
  · cases h
  · rename_i n rest _
    obtain ⟨x, hx, hfound⟩ := exists_of_bind_eq_ok h
    obtain rfl : x = .int m := by
      cases hfound
      rfl
    unfold Numeral.toNumber at hx
    split at hx
    · split at hx
      · cases hx
      · split at hx
        · cases hx
          assumption
        · split at hx <;> cases hx
    · cases hx

/-- A value in arithmetic counts as one number, whatever was remarked before, or stops. -/
theorem counts_or_stops {v : Value} (hv : v.defined.isCompound = false) :
    (∃ x, v.Counts x) ∨ ∃ f, ∀ rs, v.defined.toNumber.run.run rs = (.error f, rs) := by
  have hpure : ∀ {x : Number}, v.defined.toNumber = pure x → ∃ x, v.Counts x := by
    intro x hx
    refine ⟨x, hv, [], fun rs => ?_⟩
    rw [hx, List.append_nil]
    rfl
  cases hd : v.defined with
  | undefined | null | bool b | number n => exact .inl (hpure (by rw [hd]; rfl))
  | array t | object handle c => simp [hd, isCompound] at hv
  | string s =>
    rw [hd] at hv
    cases hs : readNumeric s with
    | error c =>
      refine .inr ⟨.crash c, fun rs => ?_⟩
      simp only [toNumber, hs]
      rfl
    | ok p =>
      refine .inl ?_
      cases p with
      | absent =>
        refine ⟨.int 0, by rw [hd]; exact hv, [.notNumeric], fun rs => ?_⟩
        simp only [hd, toNumber, hs]
        rfl
      | found n whole =>
        cases whole with
        | true =>
          refine hpure (x := n) ?_
          simp only [hd, toNumber, hs]
        | false =>
          refine ⟨n, by rw [hd]; exact hv, [.trailingData], fun rs => ?_⟩
          simp only [hd, toNumber, hs]
          rfl

/-- What a value in range counts as is in range. -/
theorem Counts.fits {v : Value} {m : Int} (h : v.Counts (.int m)) (hv : v.Ranged) :
    fits m = true := by
  obtain ⟨hscalar, remarks, hrun⟩ := h
  have hpure : ∀ {k : Int}, v.defined.toNumber = pure (.int k) → m = k := by
    intro k hk
    have hrun := hrun []
    rw [hk] at hrun
    exact (Number.int.inj (Except.ok.inj (congrArg Prod.fst hrun))).symm
  cases v with
  | undefined | null =>
    obtain rfl := hpure rfl
    decide
  | bool b =>
    obtain rfl := hpure rfl
    cases b <;> decide
  | number n =>
    cases n with
    | int k => exact hpure rfl ▸ hv k rfl
    | float x => cases hrun []
  | array t | object handle c => cases hscalar
  | string s =>
    have hrun := hrun []
    simp only [defined, toNumber] at hrun
    cases hs : readNumeric s with
    | error c => simp only [hs] at hrun; cases hrun
    | ok p =>
      cases p with
      | absent =>
        simp only [hs] at hrun
        cases hrun
        decide
      | found n whole =>
        obtain rfl : n = .int m := by
          cases whole <;> (simp only [hs] at hrun; cases hrun; rfl)
        exact fits_of_readNumeric hs

theorem Counts.run {α : Type} {v : Value} {x : Number} (h : v.Counts x) (f : Number → Noting α)
    (rs : List Remark) : ∃ rs', (v.defined.toNumber >>= f).run.run rs = (f x).run.run rs' := by
  obtain ⟨-, remarks, hrun⟩ := h
  refine ⟨rs ++ remarks, ?_⟩
  rw [ExceptT.run_bind, StateT.run_bind, hrun rs]
  rfl

theorem applyBinary_arithmetic {op : BinaryOp} (hop : op ∈ BinaryOp.arithmetic) (a b : Value) :
    applyBinary op a b = arithmetic op a.defined b.defined := by
  simp only [BinaryOp.arithmetic, List.mem_cons, List.not_mem_nil, or_false] at hop
  rcases hop with rfl | rfl | rfl | rfl | rfl | rfl <;> rfl

theorem arithmetic_scalars {op : BinaryOp} {a b : Value} (ha : a.isCompound = false)
    (hb : b.isCompound = false) :
    arithmetic op a b = a.toNumber >>= fun x => b.toNumber >>= fun y => compute op x y := by
  simp [arithmetic, ha, hb]

/-- Two integers have the exact result, brought into range. -/
theorem applyBinary_ints {op : BinaryOp} {a b : Value} {m n k : Int}
    (hop : op ∈ BinaryOp.arithmetic) (hm : fits m = true) (ha : a.Counts (.int m))
    (hb : b.Counts (.int n)) (hk : op.exactly? m n = some k) (rs : List Remark) :
    ∃ rs', (applyBinary op a b).run.run rs = (.ok (.number (fit (.int k))), rs') := by
  rw [applyBinary_arithmetic hop, arithmetic_scalars ha.1 hb.1]
  obtain ⟨rs₁, h₁⟩ := ha.run (fun x => b.defined.toNumber >>= fun y => compute op x y) rs
  obtain ⟨rs₂, h₂⟩ := hb.run (fun y => compute op (.int m) y) rs₁
  exact ⟨rs₂, by rw [h₁, h₂, compute_exact hm hk]; rfl⟩

/-- Where an integer comes from. -/
theorem applyBinary_eq_int {op : BinaryOp} {a b : Value} {k : Int} {rs rs' : List Remark}
    (hop : op ∈ BinaryOp.arithmetic) (ha : a.Ranged) (hb : b.Ranged)
    (h : (applyBinary op a b).run.run rs = (.ok (.int k), rs')) :
    ∃ x y, a.Counts x ∧ b.Counts y ∧ op.exactly? x.truncate y.truncate = some k ∧
      (op ≠ .mod → ∃ m n, x = .int m ∧ y = .int n) ∧
      (fits k = true ∨ op = .mod ∧ ∃ p q, x = .float p ∧ y = .float q ∧
        fits p.truncate = false ∧ fits q.truncate = false) := by
  rw [applyBinary_arithmetic hop] at h
  by_cases hscalar : (a.defined.isCompound || b.defined.isCompound) = true
  · -- Arrays have arrays for their unions, and there is no other arithmetic on them.
    exfalso
    simp only [arithmetic, if_pos hscalar] at h
    split at h
    · cases h
    · cases h
  · rw [Bool.or_eq_true, not_or, Bool.not_eq_true, Bool.not_eq_true] at hscalar
    rw [arithmetic_scalars hscalar.1 hscalar.2] at h
    rcases counts_or_stops hscalar.1 with ⟨x, hx⟩ | ⟨f, hf⟩
    · obtain ⟨rs₁, h₁⟩ := hx.run (fun x => b.defined.toNumber >>= fun y => compute op x y) rs
      rw [h₁] at h
      rcases counts_or_stops hscalar.2 with ⟨y, hy⟩ | ⟨f, hf⟩
      · obtain ⟨rs₂, h₂⟩ := hy.run (fun y => compute op x y) rs₁
        rw [h₂] at h
        have hints : Ends (compute op x y) rs₂ _ _ := ends_compute_int hop
          (by rintro m rfl; exact hx.fits ha) (by rintro n rfl; exact hy.fits hb)
        exact ⟨x, y, hx, hy, hints.of_ok h k rfl⟩
      · rw [ExceptT.run_bind, StateT.run_bind, hf] at h
        cases h
    · rw [ExceptT.run_bind, StateT.run_bind, hf] at h
      cases h

theorem applyUnary_scalar {op : UnaryOp} (hop : op ≠ .not) {a : Value}
    (ha : a.defined.isCompound = false) :
    applyUnary op a = a.defined.toNumber >>= fun x =>
      pure (number (if op = .minus then x.neg else x).fit) := by
  cases op with
  | not => exact absurd rfl hop
  | plus | minus => simp [applyUnary, ha]

theorem applyUnary_int {op : UnaryOp} {a : Value} {m : Int} (hop : op ≠ .not)
    (ha : a.Counts (.int m)) (rs : List Remark) :
    ∃ rs', (applyUnary op a).run.run rs = (.ok (.number (fit (.int (op.onInt m)))), rs') := by
  rw [applyUnary_scalar hop ha.1]
  obtain ⟨rs', hrun⟩ := ha.run (fun x => pure (number (if op = .minus then x.neg else x).fit)) rs
  refine ⟨rs', hrun.trans ?_⟩
  by_cases hminus : op = .minus
  · simp only [hminus, UnaryOp.onInt, if_true]
    rfl
  · simp only [hminus, UnaryOp.onInt, if_false]
    rfl

theorem applyUnary_eq_int {op : UnaryOp} {a : Value} {k : Int} {rs rs' : List Remark}
    (hop : op ≠ .not) (h : (applyUnary op a).run.run rs = (.ok (.int k), rs')) :
    fits k = true ∧ ∃ m, a.Counts (.int m) ∧ k = op.onInt m := by
  by_cases hscalar : a.defined.isCompound = true
  · exfalso
    cases op with
    | not => exact hop rfl
    | plus | minus =>
      simp only [applyUnary, if_pos hscalar] at h
      cases h
  · rw [Bool.not_eq_true] at hscalar
    rw [applyUnary_scalar hop hscalar] at h
    rcases counts_or_stops hscalar with ⟨x, hx⟩ | ⟨f, hf⟩
    · obtain ⟨rs₁, h₁⟩ := hx.run (fun x => pure (number (if op = .minus then x.neg else x).fit)) rs
      rw [h₁] at h
      have hnumber := Value.number.inj (Except.ok.inj (congrArg Prod.fst h))
      obtain ⟨hint, hfits⟩ := fit_eq_int hnumber
      cases x with
      | float y => split at hint <;> cases hint
      | int m =>
        refine ⟨hfits, m, hx, ?_⟩
        rw [UnaryOp.onInt]
        split at hint
        · rename_i hminus
          rw [if_pos hminus]
          exact (Number.int.inj hint).symm
        · rename_i hminus
          rw [if_neg hminus]
          exact (Number.int.inj hint).symm
    · rw [ExceptT.run_bind, StateT.run_bind, hf] at h
      cases h

/-- Arithmetic on operands in range. Where the exact result on integers is an integer, it is the
result if it is in range, and a double if it is not. An integer result is always the exact one, of
integers or, for a remainder, of integer parts; it is in range but for the remainder of two doubles
whose integer parts are both out of range. -/
theorem arithmetic_range {a b : Value} (ha : a.Ranged) (hb : b.Ranged) :
    (∀ op ∈ BinaryOp.arithmetic,
      (∀ m n k, a.Counts (.int m) → b.Counts (.int n) → op.exactly? m n = some k → ∀ rs, ∃ rs',
        (applyBinary op a b).run.run rs =
          (.ok (.number (if fits k then .int k else .float (Double.ofInt k))), rs')) ∧
      ∀ rs k rs', (applyBinary op a b).run.run rs = (.ok (.int k), rs') →
        ∃ x y, a.Counts x ∧ b.Counts y ∧ op.exactly? x.truncate y.truncate = some k ∧
          (op ≠ .mod → ∃ m n, x = .int m ∧ y = .int n) ∧
          (fits k = true ∨ op = .mod ∧ ∃ p q, x = .float p ∧ y = .float q ∧
            fits p.truncate = false ∧ fits q.truncate = false)) ∧
    ∀ op : UnaryOp, op ≠ .not →
      (∀ m, a.Counts (.int m) → ∀ rs, ∃ rs', (applyUnary op a).run.run rs =
        (.ok (.number (if fits (op.onInt m) then .int (op.onInt m)
          else .float (Double.ofInt (op.onInt m)))), rs')) ∧
      ∀ rs k rs', (applyUnary op a).run.run rs = (.ok (.int k), rs') →
        fits k = true ∧ ∃ m, a.Counts (.int m) ∧ k = op.onInt m := by
  refine ⟨fun op hop => ⟨fun m n k hm hn hk rs => ?_, fun rs k rs' h => ?_⟩,
    fun op hop => ⟨fun m hm rs => ?_, fun rs k rs' h => ?_⟩⟩
  · exact applyBinary_ints hop (hm.fits ha) hm hn hk rs
  · exact applyBinary_eq_int hop ha hb h
  · exact applyUnary_int hop hm rs
  · exact applyUnary_eq_int hop h

/-- The doubles `1e20` and `3e19`. -/
def farDividend : Double := .ofInt 100000000000000000000

def farDivisor : Double := .ofInt 30000000000000000000

/-- One more than the largest integer is a double, also if the one is a string, and so is the
smallest integer with its sign turned; but the remainder of two large doubles is an integer out of
range. -/
theorem arithmetic_range_limits :
    (∃ rs', (applyBinary .add (.int maxInt) (.string "1 ")).run.run [] =
      (.ok (.number (.float (Double.ofInt (maxInt + 1)))), rs')) ∧
    (∃ rs', (applyUnary .minus (.int minInt)).run.run [] =
      (.ok (.number (.float (Double.ofInt (-minInt)))), rs')) ∧
    (applyBinary .mod (.float farDividend) (.float farDivisor)).run.run [] =
      (.ok (.int 10000000000000000000), []) ∧ fits 10000000000000000000 = false ∧
    ∃ p q, (Value.float farDividend).Counts (.float p) ∧
      (Value.float farDivisor).Counts (.float q) ∧
      fits p.truncate = false ∧ fits q.truncate = false := by
  have hint : ∀ n, fits n = true → (Value.int n).Ranged := by
    rintro n hn _ ⟨⟩
    exact hn
  have hfloat : ∀ x, (Value.float x).Ranged := by
    rintro x _ ⟨⟩
  have hstring : (Value.string "1 ").Ranged := by
    rintro _ ⟨⟩
  have hmax : (Value.int maxInt).Counts (.int maxInt) := ⟨rfl, [], fun rs => by simp; rfl⟩
  have hone : (Value.string "1 ").Counts (.int 1) := ⟨rfl, [], fun rs => by simp; rfl⟩
  have hmin : (Value.int minInt).Counts (.int minInt) := ⟨rfl, [], fun rs => by simp; rfl⟩
  have hmod : (applyBinary .mod (.float farDividend) (.float farDivisor)).run.run [] =
      (.ok (.int 10000000000000000000), []) := rfl
  refine ⟨?_, ?_, hmod, by decide, ?_⟩
  · have hranges := arithmetic_range (hint maxInt (by decide)) hstring
    exact (hranges.1 .add (by decide)).1 _ _ _ hmax hone rfl []
  · have hranges := arithmetic_range (hint minInt (by decide)) hstring
    exact (hranges.2 .minus (by decide)).1 _ hmin []
  · have hranges := arithmetic_range (hfloat farDividend) (hfloat farDivisor)
    obtain ⟨x, y, hx, hy, -, -, hfits | ⟨-, p, q, rfl, rfl, hp, hq⟩⟩ :=
      (hranges.1 .mod (by decide)).2 _ _ _ hmod
    · cases hfits
    · exact ⟨p, q, hx, hy, hp, hq⟩

end Value

end PhpInterpreter
