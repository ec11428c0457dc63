import Mathlib.Data.List.TakeWhile
import Mathlib.Tactic.IntervalCases
import PhpInterpreter.Number.Literal
import PhpInterpreter.Proofs.Source.Lexeme
import PhpInterpreter.Proofs.Value.Radix
import PhpInterpreter.Text.StringLiteral

/-!
Literals. The decimal text of a natural number is one token and is read as that number; the
single-quoted literal of a text is one token, whatever follows, and is decoded to that text.
-/

namespace PhpInterpreter

/-! ## Decimal digits -/

theorem mem_digits_of_isDigit {c : Char} (h : c.isDigit = true) :
    c ∈ ['0', '1', '2', '3', '4', '5', '6', '7', '8', '9'] := by
  have hrange : 48 ≤ c.toNat ∧ c.toNat ≤ 57 := by
    simpa [Char.isDigit, UInt32.le_iff_toNat_le] using h
  have hchar : c = Char.ofNat c.toNat := (Char.ofNat_toNat c).symm
  obtain ⟨hlow, hhigh⟩ := hrange
  generalize c.toNat = n at hchar hlow hhigh
  subst hchar
  interval_cases n <;> decide

/-- What holds of the ten digits holds of every digit. -/
@[elab_as_elim]
theorem of_isDigit {motive : Char → Prop} [DecidablePred motive] {c : Char} (h : c.isDigit = true)
    (hall : ['0', '1', '2', '3', '4', '5', '6', '7', '8', '9'].all (fun d => motive d) = true) :
    motive c :=
  of_decide_eq_true (List.all_eq_true.1 hall c (mem_digits_of_isDigit h))

theorem isDigit_of_mem_decimalDigits {n : Nat} {c : Char} (h : c ∈ decimalDigits n) :
    c.isDigit = true :=
  Nat.isDigit_of_mem_toDigits (by decide) (by decide) h

/-- Only zero starts with a zero. -/
theorem decimalDigits_cons (n : Nat) :
    ∃ c cs, decimalDigits n = c :: cs ∧ (c = '0' → cs = []) := by
  induction n using Nat.strongRecOn with
  | ind n ih =>
    rw [decimalDigits, Nat.toDigits_eq_if (by decide)]
    split
    · exact ⟨_, [], rfl, fun _ => rfl⟩
    · rename_i hn
      obtain ⟨c, cs, hdigits, hzero⟩ := ih (n / 10) (by omega)
      rw [decimalDigits] at hdigits
      refine ⟨c, cs ++ [(n % 10).digitChar], by rw [hdigits, List.cons_append], ?_⟩
      -- A leading zero would be all of the digits before the last one.
      intro hc
      have hlt : n / 10 < 10 := by
        have hlength := Nat.length_toDigits_le_iff (b := 10) (n := n / 10) (k := 1)
          (by decide) (by decide)
        rw [hdigits, hzero hc] at hlength
        exact hlength.1 (Nat.le_refl 1)
      have hdigit : ∀ d < (10 : Nat), d ≠ 0 → d.digitChar ≠ '0' := by decide
      rw [Nat.toDigits_of_lt_base hlt] at hdigits
      exact absurd ((List.cons.inj hdigits).1.trans hc) (hdigit _ hlt (by omega))

/-! ## Reading numbers -/

namespace Literal

theorem ofDigits_decimalDigits (n : Nat) :
    Text.ofDigits 10 ((decimalDigits n).map fun c => c.toNat - 48) = n := by
  have hfold := Nat.ofDigitChars_ten_toDigits (n := n)
  rw [Nat.ofDigitChars_eq_foldl] at hfold
  rw [Text.ofDigits, List.foldl_map, decimalDigits]
  conv_rhs => rw [← hfold]
  congr 1
  funext k c
  rw [Nat.mul_comm]
  rfl

/-- The most digits a 64-bit integer has are no obstacle. -/
theorem length_decimalDigits_of_lt {n : Nat} (h : n < 10 ^ 19) :
    (decimalDigits n).length ≤ Numeral.digitLimit := by
  have hlength := (Nat.length_toDigits_le_iff (b := 10) (by decide) (by decide)).2 h
  exact Nat.le_trans hlength (by decide)

/-- The decimal digits of a number write it. -/
theorem writes_decimalDigits (n : Nat) :
    Radix.decimal.Writes n (String.ofList (decimalDigits n)) := by
  have hfilter : (decimalDigits n).filter (· != '_') = decimalDigits n := by
    rw [List.filter_eq_self]
    intro c hc
    refine of_isDigit (isDigit_of_mem_decimalDigits hc) ?_
    decide
  have hlower : (decimalDigits n).map Char.toLower = decimalDigits n := by
    conv_rhs => rw [← List.map_id (decimalDigits n)]
    apply List.map_congr_left
    intro c hc
    refine of_isDigit (isDigit_of_mem_decimalDigits hc) ?_
    decide
  exact ⟨0, fun _ => rfl, by rw [String.toList_ofList, hfilter, hlower]; rfl⟩

/-- The decimal text of a 64-bit number is read as that number. -/
theorem read_decimalDigits {n : Nat} (h : (n : Int) ≤ maxInt) :
    read (String.ofList (decimalDigits n)) = .ok (.int n) := by
  have hfits : fits n = true := by
    rw [fits_natCast, decide_eq_true_eq]
    rw [maxInt] at h
    omega
  have hlimit : (Nat.toDigits 10 n).length ≤ Numeral.digitLimit :=
    length_decimalDigits_of_lt (by rw [maxInt] at h; omega)
  rw [(writes_decimalDigits n).read_eq (x := .nan) (fun _ => hlimit) (by simp [hfits]),
    if_pos hfits]

end Literal

namespace Source.Terminal

/-- Digits without a leading zero are one number. -/
theorem numberLength_digits {c : Char} {cs : List Char} (h : ∀ d ∈ c :: cs, d.isDigit = true)
    (hzero : c = '0' → cs = []) : numberLength (c :: cs) = (c :: cs).length := by
  have hdigit : ∀ d ∈ c :: cs, Text.isDigit d = true := by
    intro d hd
    refine of_isDigit (h d hd) ?_
    decide
  obtain ⟨hc, hcs⟩ := List.forall_mem_cons.1 hdigit
  have hrun : run (fun d => Text.isDigit d || d == '_') cs = cs.length := by
    rw [run, List.takeWhile_eq_self_iff.2]
    intro d hd
    rw [hcs d hd, Bool.true_or]
  have hdigits : digits (c :: cs) = (c :: cs).length := by
    rw [digits, if_pos hc, hrun, List.length_cons, Nat.add_comm]
  have hbased : ∀ mark p, based mark p (c :: cs) = 0 := by
    intro mark p
    cases cs with
    | nil => simp [based]
    | cons d ds =>
      have hne : c ≠ '0' := fun heq => absurd (hzero heq) (List.cons_ne_nil d ds)
      simp [based, hne]
  have hfractional : fractional (c :: cs) = 0 := by
    rw [fractional, hdigits, List.drop_length]
  have hplain : plainNumber (c :: cs) = (c :: cs).length := by
    rw [plainNumber, hdigits]
    simp [exponent]
  rw [numberLength, hbased, hbased, hbased, hfractional, hplain]
  rfl

theorem spells_decimalDigits (n : Nat) : number.Spells (String.ofList (decimalDigits n)) := by
  have hdigit : ∀ d ∈ decimalDigits n, d.isDigit = true := fun _ => isDigit_of_mem_decimalDigits
  obtain ⟨c, cs, hdigits, hzero⟩ := decimalDigits_cons n
  rw [hdigits] at hdigit ⊢
  have hlength : number.length (c :: cs) = (c :: cs).length := numberLength_digits hdigit hzero
  refine ⟨c :: cs, ?_, ?_⟩
  · rw [hlength]
    exact Nat.succ_ne_zero _
  · rw [hlength, List.take_length]

/-- A minus sign before a digit is one token. -/
theorem lexes_minus {d : Char} (hd : d.isDigit = true) (rest : List Char) :
    Lexes "-" (d :: rest) := by
  have hmem : ("-", sumOp) ∈ symbols := mem_symbols_binary .sub
  have halone := first?_symbol _ hmem
  have hlength : ∀ t ∈ all.filter (starts '-'), t.length ('-' :: d :: rest) = t.length ['-'] := by
    have honly : all.filter (starts '-') = [assignOp, sumOp] := by decide
    have hassign : ∀ s ∈ ["**=", "??=", "+=", "-=", "*=", "/=", ".=", "%="], d ∉ s.toList := by
      refine of_isDigit hd ?_
      decide
    have hsum : ∀ s ∈ ["+", "-"], d ∉ s.toList := by
      refine of_isDigit hd ?_
      decide
    rw [honly, List.forall_mem_cons, List.forall_mem_singleton]
    exact ⟨oneOf_append hassign ['-'] rest, oneOf_append hsum ['-'] rest⟩
  refine lexes_of_first halone ?_
  rw [← halone]
  exact first?_congr hlength

end Source.Terminal

/-! ## Quoted texts -/

namespace StringLiteral

theorem unescapeSingle_escapeSingle (cs : List Char) : unescapeSingle (escapeSingle cs) = cs := by
  induction cs with
  | nil => rfl
  | cons c cs ih =>
    rw [escapeSingle]
    split
    · rename_i hc
      simp [unescapeSingle, hc, ih]
    · rename_i hc
      rw [Bool.or_eq_true, not_or] at hc
      have hne : c ≠ '\\' := by simpa using hc.1
      simp [unescapeSingle, hne, ih]

theorem decodeSingle_encodeSingle (s : String) : decodeSingle (encodeSingle s) = s := by
  simp [decodeSingle, encodeSingle, body, unescapeSingle_escapeSingle]

end StringLiteral

namespace Source.Terminal

open StringLiteral

theorem closed_escapeSingle (cs : List Char) : Closed '\x27' (escapeSingle cs) := by
  induction cs with
  | nil => exact .nil
  | cons c cs ih =>
    rw [escapeSingle]
    split
    · exact .taken ih
    · rename_i hc
      simp only [Bool.or_eq_true, beq_iff_eq, not_or] at hc
      exact .plain hc.1 hc.2 ih

theorem spells_encodeSingle (s : String) : singleQuoted.Spells (encodeSingle s) :=
  (closed_escapeSingle s.toList).spells (by decide) fun _ => rfl

end Source.Terminal

end PhpInterpreter
