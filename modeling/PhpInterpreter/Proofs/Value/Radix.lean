import PhpInterpreter.Number.Literal
import PhpInterpreter.Proofs.Value.Numeral

/-!
Integer literals. A number may be written in several bases, with letters of either case, with zeros
before its digits and with underscores. However it is written, it is read as the integer if that has
64 bits, and as the double nearest to it otherwise.
-/

namespace PhpInterpreter

namespace Text

theorem trimBy_eq_self {p : Char → Bool} {cs : List Char} (h : ∀ c ∈ cs, p c = false) :
    trimBy p cs = cs := by
  have hdrop : ∀ ds : List Char, (∀ c ∈ ds, p c = false) → ds.dropWhile p = ds := by
    intro ds hds
    cases ds with
    | nil => rfl
    | cons d ds => exact List.dropWhile_cons_of_neg (by simp [hds d List.mem_cons_self])
  rw [trimBy, hdrop cs h, hdrop _ fun c hc => h c (List.mem_reverse.1 hc), List.reverse_reverse]

end Text

namespace Literal

/-! ## Digits -/

/-- Numbers are written by digits of the base, the first of which is not zero but for zero. -/
theorem exists_digits {base : Nat} (hbase : 1 < base) (n : Nat) :
    ∃ ds, ds ≠ [] ∧ (∀ d ∈ ds, d < base) ∧ (ds.head? = some 0 → ds = [0]) ∧
      Nat.toDigits base n = ds.map Nat.digitChar ∧ Text.ofDigits base ds = n := by
  induction n using Nat.strongRecOn with
  | ind n ih =>
    rw [Nat.toDigits_eq_if hbase]
    split
    · rename_i hn
      refine ⟨[n], List.cons_ne_nil n [], by simpa using hn, ?_, rfl, by simp [Text.ofDigits]⟩
      intro hzero
      rw [Option.some.inj hzero]
    · rename_i hn
      have hsmaller : n / base < n := Nat.div_lt_self (by omega) hbase
      obtain ⟨ds, hne, hds, hlead, hdigits, hvalue⟩ := ih (n / base) hsmaller
      refine ⟨ds ++ [n % base], by simp, ?_, ?_, by simp [hdigits], ?_⟩
      · intro d hd
        rcases List.mem_append.1 hd with hd | hd
        · exact hds d hd
        · rw [List.mem_singleton.1 hd]
          exact Nat.mod_lt n (by omega)
      · -- The digits before the last one are not those of zero.
        intro hzero
        rw [List.head?_append_of_ne_nil _ hne] at hzero
        have hpos : 0 < n / base := Nat.div_pos (by omega) (by omega)
        rw [← hvalue, hlead hzero] at hpos
        exact absurd hpos (by simp [Text.ofDigits])
      · rw [Numeral.ofDigits_append, hvalue, List.length_singleton, pow_one, Nat.mul_comm]
        simpa [Text.ofDigits] using Nat.div_add_mod n base

/-- The bases literals are written in. -/
def bases : List Nat := [2, 8, 10, 16]

theorem digitChar_spec {d : Nat} (h : d < 16) :
    digitValue? d.digitChar = some d ∧ isPadding d.digitChar = false ∧
      d.digitChar ≠ '-' ∧ d.digitChar ≠ '+' := by
  revert d
  decide

theorem baseMark?_ne {base : Nat} (hbase : base ∈ bases) {d : Nat} (h : d < base) :
    baseMark? base ≠ some d.digitChar.toLower := by
  revert base d
  decide

theorem le_of_mem_bases {base : Nat} (h : base ∈ bases) : base ≤ 16 := by
  revert base
  decide

section Digits

variable {base : Nat} {ds : List Nat}

theorem dropMark_digits (hbase : base ∈ bases) (hds : ∀ d ∈ ds, d < base) :
    dropMark base (ds.map Nat.digitChar) = ds.map Nat.digitChar := by
  match ds with
  | [] | [_] => rfl
  | d :: e :: ds =>
    have he : e < base := hds e (by simp)
    have hmark : (baseMark? base == some e.digitChar.toLower) = false :=
      beq_eq_false_iff_ne.2 (baseMark?_ne hbase he)
    simp [dropMark, hmark]

theorem mapM_digitValue? (hds : ∀ d ∈ ds, d < 16) :
    (ds.map Nat.digitChar).mapM digitValue? = some ds := by
  induction ds with
  | nil => rfl
  | cons d ds ih =>
    obtain ⟨hd, hds⟩ := List.forall_mem_cons.1 hds
    simp [List.mapM_cons, (digitChar_spec hd).1, ih hds]

theorem readDigits?_digits (hbase : base ∈ bases) (hne : ds ≠ []) (hds : ∀ d ∈ ds, d < base)
    (hlimit : base = 10 → ds.length ≤ Numeral.digitLimit) :
    readDigits? base (ds.map Nat.digitChar) = some (Text.ofDigits base ds) := by
  have hle := le_of_mem_bases hbase
  have hguard : ((ds.map Nat.digitChar).isEmpty ||
      (base == 10 && decide (Numeral.digitLimit < (ds.map Nat.digitChar).length))) = false := by
    rw [List.length_map]
    simpa [hne] using hlimit
  rw [readDigits?, hguard, mapM_digitValue? fun d hd => Nat.lt_of_lt_of_le (hds d hd) hle]
  simpa using hds

/-- Digits of a base are read as the number they denote there. -/
theorem readInt?_digits (hbase : base ∈ bases) (hne : ds ≠ []) (hds : ∀ d ∈ ds, d < base)
    (hlimit : base = 10 → ds.length ≤ Numeral.digitLimit) :
    readInt? base (ds.map Nat.digitChar) = some (Text.ofDigits base ds : Int) := by
  have hle := le_of_mem_bases hbase
  have hspec : ∀ c ∈ ds.map Nat.digitChar, isPadding c = false ∧ c ≠ '-' ∧ c ≠ '+' := by
    intro c hc
    obtain ⟨d, hd, rfl⟩ := List.mem_map.1 hc
    exact (digitChar_spec (Nat.lt_of_lt_of_le (hds d hd) hle)).2
  have htrim : Text.trimBy isPadding (ds.map Nat.digitChar) = ds.map Nat.digitChar :=
    Text.trimBy_eq_self fun c hc => (hspec c hc).1
  have hsign : Numeral.takeSign (ds.map Nat.digitChar) = (false, ds.map Nat.digitChar) :=
    Numeral.Signed.none.takeSign fun c hc => (hspec c (List.mem_of_mem_head? hc)).2
  rw [readInt?, htrim, hsign]
  simp [dropMark_digits hbase hds, readDigits?_digits hbase hne hds hlimit]

end Digits

/-! ## Ways to write a number -/

inductive Radix
  | decimal | hexadecimal | octal | leadingZero | binary
deriving DecidableEq

namespace Radix

def base : Radix → Nat
  | decimal => 10
  | hexadecimal => 16
  | octal | leadingZero => 8
  | binary => 2

/-- What stands before the digits. -/
def mark : Radix → List Char
  | decimal => []
  | hexadecimal => ['0', 'x']
  | octal => ['0', 'o']
  | leadingZero => ['0']
  | binary => ['0', 'b']

/-- The text writes the number: letters are of either case, zeros may stand before the digits but
for decimal ones, and underscores anywhere. -/
def Writes (radix : Radix) (n : Nat) (text : String) : Prop :=
  ∃ zeros, (radix = decimal → zeros = 0) ∧
    (text.toList.filter (· != '_')).map Char.toLower =
      radix.mark ++ (List.replicate zeros '0' ++ Nat.toDigits radix.base n)

end Radix

variable {radix : Radix} {n : Nat}

theorem ofDigits_replicate_append (base zeros : Nat) (ds : List Nat) :
    Text.ofDigits base (List.replicate zeros 0 ++ ds) = Text.ofDigits base ds := by
  induction zeros with
  | zero => rfl
  | succ zeros ih => simpa [List.replicate_succ, Text.ofDigits] using ih

/-- The digits that are written, zeros included. -/
theorem exists_writtenDigits (zeros : Nat) (hzeros : radix = .decimal → zeros = 0) (n : Nat) :
    ∃ ds, ds ≠ [] ∧ (∀ d ∈ ds, d < radix.base) ∧
      (radix = .decimal → (ds.head? = some 0 → ds = [0]) ∧
        ds.length = (Nat.toDigits 10 n).length) ∧
      List.replicate zeros '0' ++ Nat.toDigits radix.base n = ds.map Nat.digitChar ∧
      Text.ofDigits radix.base ds = n := by
  have hbase : 1 < radix.base := by cases radix <;> decide
  obtain ⟨ds, hne, hds, hlead, hdigits, hvalue⟩ := exists_digits hbase n
  refine ⟨List.replicate zeros 0 ++ ds, by simp [hne], ?_, ?_, by simp [hdigits], ?_⟩
  · intro d hd
    rcases List.mem_append.1 hd with hd | hd
    · rw [List.eq_of_mem_replicate hd]
      omega
    · exact hds d hd
  · rintro rfl
    rw [hzeros rfl]
    refine ⟨hlead, ?_⟩
    rw [← List.length_map Nat.digitChar, List.replicate_zero, List.nil_append, ← hdigits]
    rfl
  · rw [ofDigits_replicate_append, hvalue]

theorem digitChar_notMem {d : Nat} (h : d < 10) :
    d.digitChar ∉ ['.', 'e', 'x', 'b', 'o'] := by
  revert d
  decide

theorem digitChar_eq_zero {d : Nat} (h : d < 10) : d.digitChar = '0' → d = 0 := by
  revert d
  decide

theorem contains_digits_eq_false {ds : List Nat} (hds : ∀ d ∈ ds, d < 10) {c : Char}
    (hc : c ∈ ['.', 'e', 'x', 'b', 'o']) : (ds.map Nat.digitChar).contains c = false := by
  rw [← Bool.not_eq_true, List.contains_iff_mem, List.mem_map]
  rintro ⟨d, hd, rfl⟩
  exact digitChar_notMem (hds d hd) hc

theorem readUnsigned?_zero {ds : List Nat} (hne : ds ≠ []) (hds : ∀ d ∈ ds, d < 8) :
    readUnsigned? (Radix.leadingZero.mark ++ ds.map Nat.digitChar) =
      (readInt? 8 ((0 :: ds).map Nat.digitChar)).map .int := by
  have hten : ∀ d ∈ 0 :: ds, d < 10 :=
    List.forall_mem_cons.2 ⟨by decide, fun d hd => Nat.lt_trans (hds d hd) (by decide)⟩
  have hpoint := contains_digits_eq_false hten (c := '.') (by decide)
  have hexponent := contains_digits_eq_false hten (c := 'e') (by decide)
  obtain ⟨d, ds, rfl⟩ := List.exists_cons_of_ne_nil hne
  have hmark := digitChar_notMem (hten d (by simp))
  have htext : Radix.leadingZero.mark ++ (d :: ds).map Nat.digitChar =
      '0' :: d.digitChar :: ds.map Nat.digitChar := rfl
  have hdigits : (0 :: d :: ds).map Nat.digitChar =
      '0' :: d.digitChar :: ds.map Nat.digitChar := rfl
  rw [hdigits] at hpoint hexponent ⊢
  rw [htext]
  unfold readUnsigned?
  split
  · rename_i heq
    exact absurd (by rw [(List.cons.inj (List.cons.inj heq).2).1]; decide) hmark
  · rename_i heq
    exact absurd (by rw [(List.cons.inj (List.cons.inj heq).2).1]; decide) hmark
  · rename_i heq
    exact absurd (by rw [(List.cons.inj (List.cons.inj heq).2).1]; decide) hmark
  · rw [hpoint, hexponent]
    rfl

theorem readUnsigned?_decimal {ds : List Nat} (hds : ∀ d ∈ ds, d < 10)
    (hlead : ds.head? = some 0 → ds = [0]) :
    readUnsigned? (ds.map Nat.digitChar) =
      (readInt? 10 (ds.map Nat.digitChar)).map .int := by
  have hpoint := contains_digits_eq_false hds (c := '.') (by decide)
  have hexponent := contains_digits_eq_false hds (c := 'e') (by decide)
  -- Nothing follows a leading zero, so no base is marked.
  have hzero : ∀ c cs, ds.map Nat.digitChar ≠ '0' :: c :: cs := by
    intro c cs heq
    obtain ⟨d, rest, rfl, hd, hrest⟩ := List.map_eq_cons_iff.1 heq
    have hone : d = 0 := digitChar_eq_zero (hds d List.mem_cons_self) hd
    rw [hone] at hlead
    rw [(List.cons.inj (hlead rfl)).2] at hrest
    exact List.cons_ne_nil c cs hrest.symm
  unfold readUnsigned?
  split
  · rename_i heq
    exact absurd heq (hzero _ _)
  · rename_i heq
    exact absurd heq (hzero _ _)
  · rename_i heq
    exact absurd heq (hzero _ _)
  · rw [hpoint, hexponent]
    simp only [Bool.or_false, Bool.false_eq_true, if_false]

/-- The digits after the mark are read in the base of the mark. -/
theorem readUnsigned?_digits {ds : List Nat} (hne : ds ≠ []) (hds : ∀ d ∈ ds, d < radix.base)
    (hdecimal : radix = .decimal →
      (ds.head? = some 0 → ds = [0]) ∧ ds.length ≤ Numeral.digitLimit) :
    readUnsigned? (radix.mark ++ ds.map Nat.digitChar) =
      some (.int (Text.ofDigits radix.base ds)) := by
  have hread : ∀ ds : List Nat, ds ≠ [] → (∀ d ∈ ds, d < radix.base) →
      (radix = .decimal → ds.length ≤ Numeral.digitLimit) →
      (readInt? radix.base (ds.map Nat.digitChar)).map Number.int =
        some (.int (Text.ofDigits radix.base ds)) := by
    intro ds hne hds hlimit
    rw [readInt?_digits (by cases radix <;> decide) hne hds, Option.map_some]
    intro hten
    refine hlimit ?_
    cases radix with
    | decimal => rfl
    | _ => exact absurd hten (by decide)
  cases radix with
  | hexadecimal => exact hread ds hne hds nofun
  | octal => exact hread ds hne hds nofun
  | binary => exact hread ds hne hds nofun
  | leadingZero =>
    -- The zero of the mark is one more digit.
    have hzero : ∀ d ∈ 0 :: ds, d < 8 := List.forall_mem_cons.2 ⟨by decide, hds⟩
    rw [readUnsigned?_zero hne hds, ← ofDigits_replicate_append Radix.leadingZero.base 1 ds]
    exact hread (0 :: ds) (List.cons_ne_nil 0 ds) hzero nofun
  | decimal =>
    rw [Radix.mark, List.nil_append, readUnsigned?_decimal hds (hdecimal rfl).1]
    exact hread ds hne hds fun h => (hdecimal h).2

/-! ## The whole text -/

/-- The characters of the text, underscores aside, are the digits after the mark in some case. -/
theorem Radix.Writes.exists_digits {text : String} (h : radix.Writes n text) :
    ∃ ds, ds ≠ [] ∧ (∀ d ∈ ds, d < radix.base) ∧
      (radix = .decimal → (ds.head? = some 0 → ds = [0]) ∧
        ds.length = (Nat.toDigits 10 n).length) ∧
      (text.toList.filter (· != '_')).map Char.toLower = radix.mark ++ ds.map Nat.digitChar ∧
      Text.ofDigits radix.base ds = n := by
  obtain ⟨zeros, hzeros, htext⟩ := h
  obtain ⟨ds, hne, hds, hdecimal, hdigits, hvalue⟩ := exists_writtenDigits zeros hzeros n
  exact ⟨ds, hne, hds, hdecimal, by rw [htext, hdigits], hvalue⟩

/-- Blanks and signs are none of the characters that are written. -/
theorem not_blank_of_mem {ds : List Nat} (hds : ∀ d ∈ ds, d < radix.base) :
    ∀ c ∈ radix.mark ++ ds.map Nat.digitChar, Text.isBlank c = false ∧ c ≠ '-' ∧ c ≠ '+' := by
  have hmark : radix.mark.all (fun c => !Text.isBlank c && c != '-' && c != '+') = true := by
    cases radix <;> decide
  have hdigit : ∀ d < (16 : Nat), Text.isBlank d.digitChar = false ∧ d.digitChar ≠ '-' ∧
      d.digitChar ≠ '+' := by
    decide
  have hbase : radix.base ≤ 16 := by cases radix <;> decide
  intro c hc
  rcases List.mem_append.1 hc with hc | hc
  · simpa [and_assoc] using List.all_eq_true.1 hmark c hc
  · obtain ⟨d, hd, rfl⟩ := List.mem_map.1 hc
    exact hdigit d (Nat.lt_of_lt_of_le (hds d hd) hbase)

theorem toLower_of_not_isUpper {c : Char} (h : ¬ c.isUpper = true) : c.toLower = c := by
  unfold Char.toLower
  exact dif_neg fun hrange => h (decide_eq_true hrange)

theorem not_blank_of_isUpper {c : Char} (h : c.isUpper = true) :
    Text.isBlank c = false ∧ c ≠ '-' ∧ c ≠ '+' := by
  have hrange : 65 ≤ c.toNat ∧ c.toNat ≤ 90 := of_decide_eq_true (p := _ ∧ _) h
  refine ⟨?_, ?_, ?_⟩
  · simp [Text.isBlank]
    omega
  · rintro rfl
    exact absurd h (by decide)
  · rintro rfl
    exact absurd h (by decide)

/-- Blanks and signs have one case only, so they are none of the characters of the text either. -/
theorem Radix.Writes.not_blank {text : String} (h : radix.Writes n text) :
    ∀ c ∈ text.toList, Text.isBlank c = false ∧ c ≠ '-' ∧ c ≠ '+' := by
  obtain ⟨ds, -, hds, -, htext, -⟩ := h.exists_digits
  have hspec := not_blank_of_mem hds
  rw [← htext] at hspec
  intro c hc
  by_cases hunderscore : c = '_'
  · subst hunderscore
    decide
  · have hlower : c.toLower ∈ (text.toList.filter (· != '_')).map Char.toLower :=
      List.mem_map_of_mem (List.mem_filter.2 ⟨hc, by simpa using hunderscore⟩)
    by_cases hupper : c.isUpper = true
    · exact not_blank_of_isUpper hupper
    · have hsame := hspec _ hlower
      rwa [toLower_of_not_isUpper hupper] at hsame

theorem Radix.Writes.readUnsigned? {text : String} (h : radix.Writes n text)
    (hlimit : radix = .decimal → (Nat.toDigits 10 n).length ≤ Numeral.digitLimit) :
    readUnsigned? ((text.toList.filter (· != '_')).map Char.toLower) = some (.int n) := by
  obtain ⟨ds, hne, hds, hdecimal, hchars, hvalue⟩ := h.exists_digits
  rw [hchars, readUnsigned?_digits hne hds, hvalue]
  intro hradix
  obtain ⟨hlead, hlength⟩ := hdecimal hradix
  exact ⟨hlead, hlength ▸ hlimit hradix⟩

theorem read_of_unsigned {text : String} {negative : Bool} {body : List Char} {i : Int}
    (hblank : ∀ c ∈ text.toList, Text.isBlank c = false)
    (hsign : Numeral.takeSign (text.toList.filter (· != '_')) = (negative, body))
    (hread : readUnsigned? (body.map Char.toLower) = some (.int i)) {j : Int}
    (hj : (if negative then -i else i) = j) {x : Double}
    (hx : fits j = false → Double.ofInt? j = some x) :
    read text = .ok (if fits j then .int j else .float x) := by
  have hneg : (if negative then (Number.int i).neg else Number.int i) = .int j := by
    rw [← hj]
    cases negative <;> rfl
  rw [read, Text.trimBy_eq_self hblank, hsign]
  simp only [hread, hneg]
  by_cases hfits : fits j = true
  · simp [hfits]
  · simp [hfits, hx (Bool.eq_false_of_not_eq_true hfits)]

theorem fits_natCast (n : Nat) : fits n = decide (n ≤ 2 ^ 63 - 1) := by
  rw [fits, minInt, maxInt, ← Bool.decide_and, decide_eq_decide]
  omega

theorem fits_neg_natCast (n : Nat) : fits (-n) = decide (n ≤ 2 ^ 63) := by
  rw [fits, minInt, maxInt, ← Bool.decide_and, decide_eq_decide]
  omega

/-- A number below the largest doubles has few digits. -/
theorem length_toDigits_le {n : Nat} {x : Double} (hx : x.Nearest false n)
    (hfinite : x.isFinite = true) : (Nat.toDigits 10 n).length ≤ Numeral.digitLimit := by
  have hlt : (n : ℚ) < Double.overflowLimit := by
    cases x with
    | finite s m e => exact hx.2.2.1
    | _ => exact absurd hfinite Bool.false_ne_true
  have hpow : n < 10 ^ 1024 := by
    have hlimit : Double.overflowLimit < 10 ^ 1024 := by
      calc Double.overflowLimit < 2 ^ 54 * 2 ^ 970 :=
            mul_lt_mul_of_pos_right (sub_one_lt _) (by positivity)
        _ = 2 ^ 1024 := (pow_add 2 54 970).symm
        _ ≤ 10 ^ 1024 := pow_le_pow_left₀ two_pos.le (by norm_num) 1024
    exact_mod_cast hlt.trans hlimit
  have hlength := (Nat.length_toDigits_le_iff (b := 10) (by decide) (by decide)).2 hpow
  exact Nat.le_trans hlength (by decide)

/-- The text of a number is read as it, or as its nearest double if that is out of range. -/
theorem Radix.Writes.read_eq {text : String} (h : radix.Writes n text)
    (hlimit : radix = .decimal → (Nat.toDigits 10 n).length ≤ Numeral.digitLimit) {x : Double}
    (hx : fits n = false → Double.ofInt? n = some x) :
    read text = .ok (if fits n then .int n else .float x) := by
  have hspec := h.not_blank
  have hend : Numeral.EndsSign (text.toList.filter (· != '_')) := fun c hc =>
    (hspec c (List.mem_of_mem_filter (List.mem_of_mem_head? hc))).2
  have hsign := Numeral.Signed.none.takeSign hend
  exact read_of_unsigned (fun c hc => (hspec c hc).1) hsign (h.readUnsigned? hlimit) rfl hx

/-- Behind a minus sign it is read as the negative of the number. -/
theorem Radix.Writes.read_minus {text : String} (h : radix.Writes n text)
    (hlimit : radix = .decimal → (Nat.toDigits 10 n).length ≤ Numeral.digitLimit) {x : Double}
    (hx : fits (-n) = false → Double.ofInt? (-n) = some x) :
    read ("-" ++ text) = .ok (if fits (-n) then .int (-n) else .float x) := by
  have htext : ("-" ++ text).toList = '-' :: text.toList := by simp
  have hblank : ∀ c ∈ ("-" ++ text).toList, Text.isBlank c = false := by
    rw [htext, List.forall_mem_cons]
    exact ⟨by decide, fun c hc => (h.not_blank c hc).1⟩
  have hsign : Numeral.takeSign (("-" ++ text).toList.filter (· != '_')) =
      (true, text.toList.filter (· != '_')) := by
    rw [htext]
    rfl
  exact read_of_unsigned hblank hsign (h.readUnsigned? hlimit) rfl hx

/-- A natural number is read as itself if it has 64 bits and as its nearest double otherwise,
whatever the base it is written in, and so is its negative. -/
theorem read_writes {radix : Radix} {n : Nat} {text : String} (htext : radix.Writes n text)
    {x : Double} (hx : x.Nearest false n) (hfinite : x.isFinite = true) :
    read text = .ok (if n ≤ 2 ^ 63 - 1 then .int n else .float x) ∧
      read ("-" ++ text) = .ok (if n ≤ 2 ^ 63 then .int (-n) else .float x.neg) := by
  have hlimit := length_toDigits_le hx hfinite
  constructor
  · have hof : Double.ofInt? n = some x :=
      Double.ofInt?_of_nearest (by rwa [decide_eq_false (by omega), Int.natAbs_natCast]) hfinite
    rw [htext.read_eq (fun _ => hlimit) fun _ => hof]
    simp only [fits_natCast, decide_eq_true_eq]
  · have hof : fits (-n) = false → Double.ofInt? (-n) = some x.neg := by
      rw [fits_neg_natCast, decide_eq_false_iff_not]
      intro hlarge
      refine Double.ofInt?_of_nearest ?_ (by cases x <;> exact hfinite)
      rw [decide_eq_true (by omega), Int.natAbs_neg, Int.natAbs_natCast]
      exact Double.Nearest.neg hx
    rw [htext.read_minus (fun _ => hlimit) hof]
    simp only [fits_neg_natCast, decide_eq_true_eq]

/-- A hexadecimal number past the 64-bit range, with zeros and underscores, is read as the double
nearest to it, behind a minus sign too. -/
theorem read_writes_hexadecimal :
    Radix.hexadecimal.Writes (2 ^ 63 + 1) "0X_0080_00000000_00000_1" ∧
      (Double.finite false (2 ^ 52) 11).Nearest false ((2 ^ 63 + 1 : Nat) : ℚ) ∧
      read "0X_0080_00000000_00000_1" = .ok (.float (.finite false (2 ^ 52) 11)) ∧
      read "-0X_0080_00000000_00000_1" = .ok (.float (.finite true (2 ^ 52) 11)) := by
  have htext : Radix.hexadecimal.Writes (2 ^ 63 + 1) "0X_0080_00000000_00000_1" :=
    ⟨2, by decide, by decide +kernel⟩
  have hx : (Double.finite false (2 ^ 52) 11).Nearest false ((2 ^ 63 + 1 : Nat) : ℚ) :=
    (Double.nearest_natAbs_iff (n := (2 ^ 63 + 1 : Nat))).2 (by decide +kernel)
  obtain ⟨hpos, hneg⟩ := read_writes htext hx rfl
  exact ⟨htext, hx, hpos, hneg⟩

end Literal

end PhpInterpreter
