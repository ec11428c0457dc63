import Mathlib.Data.List.Induction
import PhpInterpreter.Proofs.Source.Literal
import PhpInterpreter.Proofs.Value.Tidy

/-!
The strings that address integer keys. They are the decimal texts of the 64-bit integers and `-0`,
each with or without a line feed at its end; every other string addresses itself. So the same
element is found under an integer and its text, and two strings share an element only if they spell
the same integer.
-/

namespace PhpInterpreter

/-- The text without a line feed at its end. -/
def Text.chomp (s : String) : String :=
  String.ofList (if s.toList.getLast? == some '\n' then s.toList.dropLast else s.toList)

theorem Text.toList_chomp (s : String) : (chomp s).toList =
    if s.toList.getLast? == some '\n' then s.toList.dropLast else s.toList :=
  String.toList_ofList

/-! ## Digits without a leading zero -/

/-- Digits that start with one that is not zero are the decimal digits of their value. -/
theorem decimalDigits_ofDigits {cs : List Char} (hne : cs ≠ [])
    (hdigit : ∀ c ∈ cs, c.isDigit = true) (hlead : cs.head? ≠ some '0') :
    0 < Text.ofDigits 10 (cs.map fun c => c.toNat - 48) ∧
      decimalDigits (Text.ofDigits 10 (cs.map fun c => c.toNat - 48)) = cs := by
  induction cs using List.reverseRecOn with
  | nil => exact absurd rfl hne
  | append_singleton cs c ih =>
    have hc : c.isDigit = true := hdigit c (by simp)
    have hvalue : c.toNat - 48 < 10 ∧ (c.toNat - 48).digitChar = c := by
      refine of_isDigit hc ?_
      decide
    obtain ⟨hlt, hchar⟩ := hvalue
    have hstep : Text.ofDigits 10 ((cs ++ [c]).map fun c => c.toNat - 48) =
        Text.ofDigits 10 (cs.map fun c => c.toNat - 48) * 10 + (c.toNat - 48) := by
      simp [Text.ofDigits, List.foldl_append]
    rw [hstep, decimalDigits, Nat.toDigits_eq_if (by decide)]
    by_cases hcs : cs = []
    · -- A single digit: it is the leading one, so it is not zero.
      subst hcs
      have hpos : c.toNat - 48 ≠ 0 := by
        intro hzero
        rw [hzero] at hchar
        exact hlead (by rw [← hchar]; rfl)
      have hnil : Text.ofDigits 10 (([] : List Char).map fun c => c.toNat - 48) = 0 := rfl
      rw [hnil, Nat.zero_mul, Nat.zero_add, if_pos hlt, hchar]
      exact ⟨Nat.pos_of_ne_zero hpos, rfl⟩
    · obtain ⟨hpos, hdigits⟩ := ih hcs (fun d hd => hdigit d (by simp [hd]))
        (by rwa [List.head?_append_of_ne_nil _ hcs] at hlead)
      rw [decimalDigits] at hdigits
      generalize Text.ofDigits 10 (cs.map fun c => c.toNat - 48) = v at hpos hdigits ⊢
      have hdiv : (v * 10 + (c.toNat - 48)) / 10 = v := by omega
      have hmod : (v * 10 + (c.toNat - 48)) % 10 = c.toNat - 48 := by omega
      rw [if_neg (by omega), hdiv, hmod, hdigits, hchar]
      exact ⟨by omega, rfl⟩

namespace Key

theorem canonicalDigits_iff {cs : List Char} :
    canonicalDigits cs = true ↔ ∃ m, cs = decimalDigits m := by
  constructor
  · intro h
    unfold canonicalDigits at h
    split at h
    · exact ⟨0, rfl⟩
    · rename_i c ds _
      rw [Bool.and_eq_true, List.all_eq_true] at h
      have hlead : (c :: ds).head? ≠ some '0' := by simpa using h.1
      exact ⟨_, (decimalDigits_ofDigits (List.cons_ne_nil c ds) h.2 hlead).2.symm⟩
    · cases h
  · rintro ⟨m, rfl⟩
    have hdigit : ∀ c ∈ decimalDigits m, c.isDigit = true := fun _ => isDigit_of_mem_decimalDigits
    obtain ⟨c, ds, hdigits, hzero⟩ := decimalDigits_cons m
    rw [hdigits] at hdigit ⊢
    by_cases hc : c = '0'
    · rw [hc, hzero hc]
      rfl
    · have hall : (c :: ds).all Char.isDigit = true := List.all_eq_true.2 hdigit
      simp [canonicalDigits, hc, hall]

/-- A canonical body is a sign and the digits of a natural number. -/
theorem canonicalBody?_eq_some {s : String} {negative : Bool} {ds : List Char} :
    canonicalBody? s.toList = some (negative, ds) ↔
      (∃ m, ds = decimalDigits m) ∧
        (Text.chomp s).toList = if negative then '-' :: ds else ds := by
  rw [canonicalBody?, ← Text.toList_chomp, ← canonicalDigits_iff]
  generalize (Text.chomp s).toList = cs
  -- Neither nothing nor a minus sign starts canonical digits, so the sign is read off the text.
  have hminus : ∀ cs, canonicalDigits ('-' :: cs) = false := fun cs => by simp [canonicalDigits]
  have hnil : canonicalDigits [] = false := rfl
  split
  rename_i negative' ds' heq
  split at heq
  · obtain ⟨rfl, rfl⟩ := Prod.mk.inj heq
    cases negative <;> grind
  · obtain ⟨rfl, rfl⟩ := Prod.mk.inj heq
    cases negative <;> grind

/-- The text spells the 64-bit integer: it is its decimal text, or `-0` for zero. -/
def Spelled (s : String) (n : Int) : Prop :=
  fits n = true ∧ (s = decimalText n ∨ s = "-0" ∧ n = 0)

/-- An integer is spelled by a sign and the digits of its magnitude. -/
theorem spelled_iff {s : String} {n : Int} :
    Spelled s n ↔ fits n = true ∧ ∃ (negative : Bool) (m : Nat),
      s.toList = (if negative then '-' :: decimalDigits m else decimalDigits m) ∧
        n = if negative then -(m : Int) else m := by
  rw [Spelled, and_congr_right_iff]
  intro _
  constructor
  · rintro (rfl | ⟨rfl, rfl⟩)
    · rw [decimalText]
      split
      · exact ⟨true, n.natAbs, by simp, by rw [if_pos rfl]; omega⟩
      · exact ⟨false, n.natAbs, by simp, by rw [if_neg Bool.false_ne_true]; omega⟩
    · exact ⟨true, 0, rfl, rfl⟩
  · rintro ⟨negative, m, htext, rfl⟩
    rw [← String.ofList_toList (s := s), htext]
    cases negative with
    | false => simp [decimalText]
    | true =>
      rcases Nat.eq_zero_or_pos m with rfl | hm
      · exact .inr ⟨rfl, rfl⟩
      · have hneg : -(m : Int) < 0 := by omega
        refine .inl ?_
        rw [if_pos rfl, if_pos rfl, decimalText, if_pos hneg, Int.natAbs_neg, Int.natAbs_natCast]

theorem mem_decimalText {n : Int} {c : Char} (h : c ∈ (decimalText n).toList) :
    c = '-' ∨ c.isDigit = true := by
  rw [decimalText] at h
  split at h
  · rw [String.toList_ofList, List.mem_cons] at h
    exact h.imp_right isDigit_of_mem_decimalDigits
  · rw [String.toList_ofList] at h
    exact .inr (isDigit_of_mem_decimalDigits h)

theorem chomp_decimalText (n : Int) : Text.chomp (decimalText n) = decimalText n := by
  have hlast : ((decimalText n).toList.getLast? == some '\n') = false := by
    rw [beq_eq_false_iff_ne]
    intro h
    have hfeed := mem_decimalText (List.mem_of_getLast? h)
    exact absurd hfeed (by decide)
  rw [Text.chomp, hlast, if_neg Bool.false_ne_true, String.ofList_toList]

/-- The digits of a 64-bit integer are not too many to be read. -/
theorem length_decimalDigits_of_fits {m : Nat} {negative : Bool}
    (h : fits (if negative then -(m : Int) else m) = true) :
    (decimalDigits m).length ≤ Numeral.digitLimit := by
  rw [fits, Bool.and_eq_true, decide_eq_true_iff, decide_eq_true_iff, minInt, maxInt] at h
  apply Literal.length_decimalDigits_of_lt
  split at h <;> omega

/-- A 64-bit integer has a text. -/
theorem integerText_of_fits {n : Int} (h : fits n = true) :
    integerText n = .ok (decimalText n) := by
  have hlength : (decimalDigits n.natAbs).length ≤ Numeral.digitLimit := by
    rw [fits, Bool.and_eq_true, decide_eq_true_iff, decide_eq_true_iff, minInt, maxInt] at h
    exact Literal.length_decimalDigits_of_lt (by omega)
  rw [integerText, if_neg (Nat.not_lt.2 hlength)]

theorem ofString_of_body {s : String} {negative : Bool} {m : Nat} {n : Int}
    (h : canonicalBody? s.toList = some (negative, decimalDigits m))
    (hlimit : (decimalDigits m).length ≤ Numeral.digitLimit)
    (hn : (if negative then -(m : Int) else m) = n) :
    ofString s = .ok (if fits n then .int n else .str s) := by
  subst hn
  rw [ofString, h]
  simp only [Nat.not_lt.2 hlimit, if_false, Literal.ofDigits_decimalDigits]

/-- A string addresses an integer key if it spells the integer, a line feed at its end apart. -/
theorem ofString_eq_int_iff {s : String} {n : Int} :
    ofString s = .ok (.int n) ↔ Spelled (Text.chomp s) n := by
  rw [spelled_iff]
  constructor
  · intro h
    cases hbody : canonicalBody? s.toList with
    | none =>
      rw [ofString, hbody] at h
      cases h
    | some p =>
      obtain ⟨negative, ds⟩ := p
      obtain ⟨⟨m, rfl⟩, htext⟩ := canonicalBody?_eq_some.1 hbody
      by_cases hlimit : (decimalDigits m).length ≤ Numeral.digitLimit
      · generalize hn : (if negative then -(m : Int) else m) = k
        rw [ofString_of_body hbody hlimit hn] at h
        split at h
        · rename_i hfits
          obtain rfl := Key.int.inj (Except.ok.inj h)
          exact ⟨hfits, negative, m, htext, hn.symm⟩
        · cases h
      · rw [ofString, hbody] at h
        simp only [Nat.not_le.1 hlimit, if_true] at h
        cases h
  · rintro ⟨hfits, negative, m, htext, rfl⟩
    have hbody := canonicalBody?_eq_some.2 ⟨⟨m, rfl⟩, htext⟩
    rw [ofString_of_body hbody (length_decimalDigits_of_fits hfits) rfl, if_pos hfits]

/-- A string of at most 4300 characters has a key. -/
theorem exists_ofString {s : String} (h : s.length ≤ Numeral.digitLimit) :
    ∃ k, ofString s = .ok k := by
  cases hbody : canonicalBody? s.toList with
  | none => exact ⟨.str s, by rw [ofString, hbody]⟩
  | some p =>
    obtain ⟨negative, ds⟩ := p
    obtain ⟨⟨m, rfl⟩, htext⟩ := canonicalBody?_eq_some.1 hbody
    have hchomp : (Text.chomp s).toList.length ≤ s.length := by
      rw [Text.toList_chomp]
      split
      · rw [List.length_dropLast, String.length_toList]
        omega
      · exact Nat.le_of_eq String.length_toList
    have hdigits : (decimalDigits m).length ≤ (Text.chomp s).toList.length := by
      rw [htext]
      split
      · exact Nat.le_succ _
      · exact Nat.le_refl _
    exact ⟨_, ofString_of_body hbody (by omega) rfl⟩

/-- Two texts spell one integer if they are the same or the two texts of zero. -/
theorem exists_spelled_iff {s t : String} :
    (∃ n, Spelled s n ∧ Spelled t n) ↔
      (s = t ∧ ∃ n, Spelled s n) ∨ (s = "0" ∧ t = "-0") ∨ (s = "-0" ∧ t = "0") := by
  have hzero : decimalText 0 = "0" := rfl
  constructor
  · rintro ⟨n, ⟨hfits, rfl | ⟨rfl, rfl⟩⟩, -, rfl | ⟨rfl, hn⟩⟩
    · exact .inl ⟨rfl, n, hfits, .inl rfl⟩
    · exact .inr (.inl ⟨by rw [hn, hzero], rfl⟩)
    · exact .inr (.inr ⟨rfl, hzero⟩)
    · exact .inl ⟨rfl, 0, hfits, .inr ⟨rfl, rfl⟩⟩
  · rintro (⟨rfl, n, hn⟩ | ⟨rfl, rfl⟩ | ⟨rfl, rfl⟩)
    · exact ⟨n, hn, hn⟩
    · exact ⟨0, ⟨rfl, .inl rfl⟩, rfl, .inr ⟨rfl, rfl⟩⟩
    · exact ⟨0, ⟨rfl, .inr ⟨rfl, rfl⟩⟩, rfl, .inl rfl⟩

end Key

namespace Value

/-- The value addresses the key, and nothing is remarked on. -/
def Addresses (v : Value) (k : Key) : Prop := v.toKey.outcome = (.ok k, [])

theorem addresses_string_iff {s : String} {k : Key} :
    (string s).Addresses k ↔ Key.ofString s = .ok k := by
  rw [Addresses, toKey]
  cases Key.ofString s with
  | ok k' =>
    constructor
    · intro h
      exact congrArg Except.ok (Except.ok.inj (Prod.mk.inj h).1)
    · intro h
      rw [Except.ok.inj h]
      rfl
  | error c =>
    constructor
    · intro h
      cases (Prod.mk.inj h).1
    · intro h
      cases h

/-- A string addresses an integer key if, without a line feed at its end, it spells that 64-bit
integer, and itself if it spells none. So an integer and its text address the same element, and two
strings share an element only if they differ in such line feeds or as `0` and `-0` do. -/
theorem addresses_string {s : String} (hs : s.length ≤ Numeral.digitLimit) :
    (∀ n, (string s).Addresses (.int n) ↔ Key.Spelled (Text.chomp s) n) ∧
    ((∀ n, ¬ Key.Spelled (Text.chomp s) n) → (string s).Addresses (.str s)) ∧
    (∀ n, fits n = true → (int n).Addresses (.int n) ∧
      (int n).toText.outcome = (.ok (decimalText n), []) ∧
      (string (decimalText n)).Addresses (.int n)) ∧
    ∀ t : String, t.length ≤ Numeral.digitLimit → s ≠ t →
      ((∃ k, (string s).Addresses k ∧ (string t).Addresses k) ↔
        (Text.chomp s = Text.chomp t ∧ ∃ n, Key.Spelled (Text.chomp s) n) ∨
        (Text.chomp s = "0" ∧ Text.chomp t = "-0") ∨
        (Text.chomp s = "-0" ∧ Text.chomp t = "0")) := by
  have hint : ∀ {s n}, (string s).Addresses (.int n) ↔ Key.Spelled (Text.chomp s) n := fun {_ _} =>
    addresses_string_iff.trans Key.ofString_eq_int_iff
  refine ⟨fun n => hint, ?_, ?_, ?_⟩
  · intro hnone
    obtain ⟨k, hk⟩ := Key.exists_ofString hs
    cases k with
    | int n => exact absurd (Key.ofString_eq_int_iff.1 hk) (hnone n)
    | str t =>
      rw [addresses_string_iff, hk, Key.ofString_str hk]
  · intro n hfits
    refine ⟨rfl, ?_, hint.2 ⟨hfits, .inl (Key.chomp_decimalText n)⟩⟩
    rw [int, toText, Number.text, Key.integerText_of_fits hfits]
    rfl
  · intro t ht hne
    rw [← Key.exists_spelled_iff]
    constructor
    · rintro ⟨k, hsk, htk⟩
      cases k with
      | int n => exact ⟨n, hint.1 hsk, hint.1 htk⟩
      | str u =>
        -- A string under a string key is that key.
        obtain rfl := Key.ofString_str (addresses_string_iff.1 hsk)
        exact absurd (Key.ofString_str (addresses_string_iff.1 htk)) hne
    · rintro ⟨n, hsn, htn⟩
      exact ⟨.int n, hint.2 hsn, hint.2 htn⟩

/-- A line feed after an integer is no part of its key. -/
theorem addresses_string_line_feed :
    "5\n".length ≤ Numeral.digitLimit ∧ "5".length ≤ Numeral.digitLimit ∧ "5\n" ≠ "5" ∧
      (string "5\n").Addresses (.int 5) ∧
      ∃ k, (string "5\n").Addresses k ∧ (string "5").Addresses k := by
  have hlength : "5\n".length ≤ Numeral.digitLimit := by decide
  have hspelled : Key.Spelled (Text.chomp "5\n") 5 := ⟨rfl, .inl rfl⟩
  obtain ⟨hint, -, -, hshared⟩ := addresses_string hlength
  refine ⟨hlength, by decide, by decide, (hint 5).2 hspelled, ?_⟩
  exact (hshared "5" (by decide) (by decide)).2 (.inl ⟨rfl, 5, hspelled⟩)

end Value

end PhpInterpreter
