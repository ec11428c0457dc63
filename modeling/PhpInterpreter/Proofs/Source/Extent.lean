import PhpInterpreter.Proofs.Source.Sound

/-!
The extent of tokens. A character that starts a token decides which terminals can match there, and
how far a number, a name or a keyword goes is not changed by a separator and what comes after it.
-/

namespace PhpInterpreter.Source.Terminal

/-! ## The first character -/

/-- Whether the terminal can match a text that starts with the character. -/
def starts (c : Char) : Terminal → Bool
  | number => Text.isDigit c || c == '.'
  | .variable => c == '$'
  | doubleQuoted => c == '\x22'
  | singleQuoted => c == '\x27'
  | blockComment => c == '/'
  | lineComment => c == '#' || c == '/'
  | space => isSpace c
  | global => foldCase c == 'g'
  | openTag => foldCase c == '<'
  | array | lowAnd => foldCase c == 'a'
  | falseWord => foldCase c == 'f'
  | unset => foldCase c == 'u'
  | echo => foldCase c == 'e'
  | nullWord => foldCase c == 'n'
  | trueWord => foldCase c == 't'
  | lowXor => foldCase c == 'x'
  | lowOr => foldCase c == 'o'
  | assignOp => ['*', '?', '+', '-', '/', '.', '%'].contains c
  | equalityOp => ['=', '!', '<'].contains c
  | comparisonOp => ['<', '>'].contains c
  | andOp | ampersand => c == '&'
  | closeTag | coalesce => c == '?'
  | orOp => c == '|'
  | powerOp => c == '*'
  | arrow | equals => c == '='
  | productOp => ['*', '/', '%'].contains c
  | sumOp => ['+', '-'].contains c
  | comma => c == ','
  | dot => c == '.'
  | openParen => c == '('
  | openBracket => c == '['
  | bang => c == '!'
  | closeParen => c == ')'
  | closeBracket => c == ']'
  | semicolon => c == ';'

variable {c : Char} {cs : List Char}

theorem keyword_eq_zero {word : String} {w : Char} {ws : List Char} (hword : word.toList = w :: ws)
    (h : (foldCase c == w) = false) : keyword word (c :: cs) = 0 := by
  have hlength : word.length = ws.length + 1 := by
    rw [← String.length_toList, hword, List.length_cons]
  rw [keyword, hlength, hword]
  simp_all

theorem oneOf_eq_zero {texts : List String} (h : ∀ t ∈ texts, ∃ d ds, t.toList = d :: ds ∧ c ≠ d) :
    oneOf texts (c :: cs) = 0 := by
  have hnone : texts.find? (fun t => t.toList.isPrefixOf (c :: cs)) = none := by
    rw [List.find?_eq_none]
    intro t ht hprefix
    obtain ⟨d, ds, htext, hd⟩ := h t ht
    rw [htext, List.isPrefixOf_iff_prefix, List.cons_prefix_cons] at hprefix
    exact hd hprefix.1.symm
  rw [oneOf, hnone]

theorem digits_eq_zero (h : Text.isDigit c = false) : digits (c :: cs) = 0 := by
  rw [digits, h]
  rfl

theorem based_eq_zero (mark : Char) (p : Char → Bool) (h : Text.isDigit c = false) :
    based mark p (c :: cs) = 0 := by
  have hzero : c ≠ '0' := by
    rintro rfl
    revert h
    decide
  rw [based.eq_def]
  split
  · rename_i heq
    exact absurd (List.cons.inj heq).1 hzero
  · rfl

theorem numberLength_eq_zero (hdigit : Text.isDigit c = false) (hpoint : c ≠ '.') :
    numberLength (c :: cs) = 0 := by
  have hfractional : fractional (c :: cs) = 0 := by
    simp only [fractional, digits_eq_zero hdigit, List.drop_zero]
    split
    · rename_i heq
      exact absurd (List.cons.inj heq).1 hpoint
    · rfl
  have hplain : plainNumber (c :: cs) = 0 := by
    rw [plainNumber, digits_eq_zero hdigit]
    rfl
  simp [numberLength, firstOf, based_eq_zero, hdigit, hfractional, hplain]

/-- A terminal that cannot start with a character does not match there. -/
theorem length_eq_zero {t : Terminal} (h : t.starts c = false) : t.length (c :: cs) = 0 := by
  cases t with
  | number =>
    simp only [starts, Bool.or_eq_false_iff, beq_eq_false_iff_ne] at h
    exact numberLength_eq_zero h.1 h.2
  | «variable» =>
    simp only [starts, beq_eq_false_iff_ne] at h
    rw [length, variableLength.eq_def]
    split
    · rename_i heq
      exact absurd (List.cons.inj heq).1 h
    · rfl
  | doubleQuoted | singleQuoted =>
    simp only [starts] at h
    rw [length, quotedLength, h]
    rfl
  | blockComment =>
    simp only [starts, beq_eq_false_iff_ne] at h
    rw [length, blockCommentLength.eq_def]
    split
    · rename_i heq
      exact absurd (List.cons.inj heq).1 h
    · rfl
  | lineComment =>
    simp only [starts, Bool.or_eq_false_iff, beq_eq_false_iff_ne] at h
    rw [length, lineCommentLength.eq_def]
    split
    · rename_i heq
      exact absurd (List.cons.inj heq).1 h.1
    · rename_i heq
      exact absurd (List.cons.inj heq).1 h.2
    · rfl
  | space =>
    rw [starts] at h
    simp [length, run, h]
  | openTag =>
    rw [length, openTagLength, keyword_eq_zero rfl h]
    rfl
  | global | array | falseWord | unset | echo | nullWord | trueWord | lowAnd | lowXor | lowOr =>
    exact keyword_eq_zero rfl h
  | _ =>
    apply oneOf_eq_zero
    simp_all [starts]

/-! ## The first terminal that matches -/

theorem first?_eq_find? (p : Terminal → Bool) (cs : List Char) :
    first? p cs = (all.find? fun t => p t && t.length cs != 0).map fun t => (t, t.length cs) := by
  rw [first?]
  generalize all = ts
  induction ts with
  | nil => rfl
  | cons t ts ih =>
    rw [List.findSome?_cons, ih]
    by_cases hp : p t = true
    · by_cases hlength : t.length cs = 0
      · simp [hp, hlength]
      · simp only [hp, ↓reduceIte]
        rw [List.find?_cons_of_pos (by simp [hp, hlength]), Option.map_some]
    · simp [hp]

/-- Only terminals that can start with the first character are tried. -/
theorem first?_cons (p : Terminal → Bool) (c : Char) (cs : List Char) :
    first? p (c :: cs) =
      ((all.filter (starts c)).find? fun t => p t && t.length (c :: cs) != 0).map
        fun t => (t, t.length (c :: cs)) := by
  rw [first?_eq_find?, List.find?_filter]
  congr 3
  funext t
  cases h : t.starts c with
  | true => simp only [true_and, Bool.decide_eq_true]
  | false => simp [length_eq_zero h]

/-- The first terminal of a class is the first of every smaller class it belongs to. -/
theorem first?_of_first {p p' : Terminal → Bool} {t : Terminal} {n : Nat}
    (h : first? p cs = some (t, n)) (hsub : ∀ u, p' u = true → p u = true) (ht : p' t = true) :
    first? p' cs = some (t, n) := by
  rw [first?_eq_find?] at h ⊢
  obtain ⟨u, hu, heq⟩ := Option.map_eq_some_iff.1 h
  obtain ⟨rfl, rfl⟩ := Prod.mk.inj heq
  obtain ⟨hlength, before, after, hall, hbefore⟩ := List.find?_eq_some_iff_append.1 hu
  have hfind : all.find? (fun t => p' t && t.length cs != 0) = some u := by
    apply List.find?_eq_some_iff_append.2
    refine ⟨?_, before, after, hall, ?_⟩
    · rw [ht, Bool.true_and]
      exact (Bool.and_eq_true_iff.1 hlength).2
    · intro t ht
      have hzero := hbefore t ht
      have hclass := hsub t
      grind
  rw [hfind, Option.map_some]

/-! ## Separators -/

/-- Characters no number, name or keyword goes on with. -/
def separators : List Char := [' ', '\t', '\x0c', '\n', '\r', ';', ',', ')', ']']

def separates (c : Char) : Bool := separators.contains c

@[elab_as_elim]
theorem of_separates {motive : Char → Prop} [DecidablePred motive] (hc : separates c = true)
    (h : separators.all (fun d => motive d) = true) : motive c :=
  of_decide_eq_true (List.all_eq_true.1 h c (List.contains_iff_mem.1 hc))

theorem run_append {p : Char → Bool} (hc : p c = false) (cs rest : List Char) :
    run p (cs ++ c :: rest) = run p cs := by
  rw [run, List.takeWhile_append]
  split
  · simp_all [run]
  · rfl

theorem run_le (p : Char → Bool) (cs : List Char) : run p cs ≤ cs.length :=
  (List.takeWhile_sublist p).length_le

theorem run_take (p : Char → Bool) (cs : List Char) (n : Nat) :
    run p (cs.take n) = min n (run p cs) := by
  induction cs generalizing n with
  | nil => simp [run]
  | cons d cs ih =>
    cases n with
    | zero => simp [run]
    | succ n =>
      rw [List.take_succ_cons]
      cases h : p d with
      | true => simpa [run, h, Nat.succ_min_succ] using ih n
      | false => simp [run, h]

/-- What a separator is not. -/
theorem separates_not (hc : separates c = true) :
    Text.isDigit c = false ∧ c ≠ '_' ∧ c ≠ '.' ∧ (c == 'e' || c == 'E') = false ∧
      c ≠ '+' ∧ c ≠ '-' ∧ isHexDigit c = false ∧ isOctalDigit c = false ∧
      isBinaryDigit c = false ∧ startsName c = false ∧ continuesName c = false := by
  refine of_separates hc ?_
  decide

/-! ## Numbers -/

theorem digits_append (hc : separates c = true) (cs rest : List Char) :
    digits (cs ++ c :: rest) = digits cs := by
  obtain ⟨hdigit, hunderscore, -⟩ := separates_not hc
  cases cs with
  | nil => exact digits_eq_zero hdigit
  | cons d cs =>
    have hrun := run_append (p := fun d => Text.isDigit d || d == '_') (c := c)
      (by simp [hdigit, hunderscore]) cs rest
    simp only [List.cons_append, digits, hrun]

theorem digits_le (cs : List Char) : digits cs ≤ cs.length := by
  cases cs with
  | nil => exact Nat.le_refl 0
  | cons d cs =>
    have hrun := run_le (fun d => Text.isDigit d || d == '_') cs
    rw [digits, List.length_cons]
    split
    · omega
    · omega

theorem digits_take (cs : List Char) (n : Nat) : digits (cs.take n) = min n (digits cs) := by
  cases cs with
  | nil => simp [digits]
  | cons d cs =>
    cases n with
    | zero => simp [digits]
    | succ n =>
      rw [List.take_succ_cons, digits, digits, run_take]
      split
      · omega
      · omega

/-- The length of the sign of an exponent. -/
def signLength (cs : List Char) : Nat :=
  if cs.head? = some '+' ∨ cs.head? = some '-' then 1 else 0

theorem exponent_cons (d : Char) (cs : List Char) :
    exponent (d :: cs) =
      if d == 'e' || d == 'E' then
        if run Text.isDigit (cs.drop (signLength cs)) = 0 then 0
        else 1 + signLength cs + run Text.isDigit (cs.drop (signLength cs))
      else 0 := by
  cases cs with
  | nil => rfl
  | cons x cs =>
    by_cases hplus : x = '+'
    · subst hplus
      rfl
    · by_cases hminus : x = '-'
      · subst hminus
        rfl
      · simp [exponent, signLength, hplus, hminus]

theorem exponent_le (cs : List Char) : exponent cs ≤ cs.length := by
  cases cs with
  | nil => exact Nat.le_refl 0
  | cons d cs =>
    have hrun := run_le Text.isDigit (cs.drop (signLength cs))
    rw [List.length_drop] at hrun
    rw [exponent_cons, List.length_cons]
    split
    · split
      · omega
      · omega
    · omega

theorem exponent_append (hc : separates c = true) (cs rest : List Char) :
    exponent (cs ++ c :: rest) = exponent cs := by
  obtain ⟨hdigit, -, -, hmark, hplus, hminus, -⟩ := separates_not hc
  cases cs with
  | nil =>
    rw [List.nil_append, exponent_cons, hmark]
    rfl
  | cons d cs =>
    have hsign : signLength (cs ++ c :: rest) = signLength cs := by
      cases cs <;> simp [signLength, hplus, hminus]
    have hdrop : (cs ++ c :: rest).drop (signLength cs) = cs.drop (signLength cs) ++ c :: rest := by
      cases cs with
      | nil => rfl
      | cons x xs => unfold signLength; split <;> rfl
    rw [List.cons_append, exponent_cons, exponent_cons, hsign, hdrop, run_append hdigit]

theorem exponent_take {cs : List Char} {n : Nat} (h : exponent cs ≤ n) :
    exponent (cs.take n) = exponent cs := by
  cases cs with
  | nil => rw [List.take_nil]
  | cons d cs =>
    cases n with
    | zero => exact (Nat.le_zero.1 h).symm
    | succ n =>
      rw [exponent_cons] at h
      rw [List.take_succ_cons, exponent_cons, exponent_cons]
      split
      · rename_i hmark
        rw [if_pos hmark] at h
        cases n with
        | zero =>
          have hrun : run Text.isDigit (cs.drop (signLength cs)) = 0 := by
            split at h
            · assumption
            · omega
          rw [if_pos hrun]
          rfl
        | succ n =>
          have hsign : signLength (cs.take (n + 1)) = signLength cs := by
            cases cs <;> rfl
          rw [hsign, List.drop_take, run_take]
          split at h
          · rename_i hrun
            rw [hrun]
            simp
          · have hmin : min (n + 1 - signLength cs) (run Text.isDigit (cs.drop (signLength cs))) =
                run Text.isDigit (cs.drop (signLength cs)) := by omega
            rw [hmin]
      · rfl

/-- The digits after a base mark. -/
theorem based_zero_cons (mark : Char) (p : Char → Bool) (d : Char) (cs : List Char) :
    based mark p ('0' :: d :: cs) =
      if d.toLower == mark && run (fun d => p d || d == '_') cs != 0 then
        2 + run (fun d => p d || d == '_') cs
      else 0 := rfl

theorem based_le (mark : Char) (p : Char → Bool) (cs : List Char) :
    based mark p cs ≤ cs.length := by
  unfold based
  split
  · rename_i d cs
    have hrun := run_le (fun d => p d || d == '_') cs
    simp only [List.length_cons]
    split
    · omega
    · omega
  · omega

theorem based_append (hc : separates c = true) {p : Char → Bool} (hp : p c = false) (mark : Char)
    (hmark : c.toLower ≠ mark) (cs rest : List Char) :
    based mark p (cs ++ c :: rest) = based mark p cs := by
  obtain ⟨hdigit, hunderscore, -⟩ := separates_not hc
  match cs with
  | [] => exact based_eq_zero mark p hdigit
  | [d] =>
    by_cases hd : d = '0'
    · subst hd
      simp [based, hmark]
    · simp [based, hd]
  | d :: x :: cs =>
    by_cases hd : d = '0'
    · subst hd
      rw [List.cons_append, List.cons_append, based_zero_cons, based_zero_cons,
        run_append (by simp [hp, hunderscore])]
    · simp [based, hd]

theorem based_take {mark : Char} {p : Char → Bool} {cs : List Char} {n : Nat}
    (h : based mark p cs ≤ n) : based mark p (cs.take n) = based mark p cs := by
  match cs, n with
  | [], _ => rw [List.take_nil]
  | [d], 0 => simp [based]
  | [d], n + 1 => simp
  | d :: x :: cs, 0 => exact (Nat.le_zero.1 h).symm
  | d :: x :: cs, 1 =>
    by_cases hd : d = '0'
    · subst hd
      rw [based_zero_cons] at h ⊢
      split at h
      · omega
      · rename_i hx
        rw [if_neg hx]
        simp [based]
    · simp [based, hd]
  | d :: x :: cs, n + 2 =>
    by_cases hd : d = '0'
    · subst hd
      rw [based_zero_cons] at h
      rw [List.take_succ_cons, List.take_succ_cons, based_zero_cons, based_zero_cons, run_take]
      split at h
      · have hmin : min n (run (fun d => p d || d == '_') cs) =
            run (fun d => p d || d == '_') cs := by omega
        rw [hmin]
      · rename_i hx
        rw [if_neg hx, if_neg]
        intro hn
        apply hx
        simp at hn ⊢
        exact ⟨hn.1, by omega⟩
    · simp [based, hd]

/-- The length of a fraction and its exponent, from the point on. -/
def fractionLength : List Char → Nat
  | '.' :: cs => if digits cs = 0 then 0 else 1 + digits cs + exponent (cs.drop (digits cs))
  | _ => 0

theorem fractionLength_of_ne {d : Char} (hd : d ≠ '.') (cs : List Char) :
    fractionLength (d :: cs) = 0 := by
  simp [fractionLength, hd]

theorem fractionLength_le (cs : List Char) : fractionLength cs ≤ cs.length := by
  unfold fractionLength
  split
  · rename_i cs
    have hdigits := digits_le cs
    have hexponent := exponent_le (cs.drop (digits cs))
    rw [List.length_drop] at hexponent
    rw [List.length_cons]
    split
    · omega
    · omega
  · omega

theorem fractionLength_append (hc : separates c = true) (cs rest : List Char) :
    fractionLength (cs ++ c :: rest) = fractionLength cs := by
  cases cs with
  | nil => exact fractionLength_of_ne (separates_not hc).2.2.1 rest
  | cons d cs =>
    by_cases hd : d = '.'
    · subst hd
      rw [List.cons_append, fractionLength, fractionLength, digits_append hc,
        List.drop_append_of_le_length (digits_le cs), exponent_append hc]
    · rw [List.cons_append, fractionLength_of_ne hd, fractionLength_of_ne hd]

theorem fractionLength_take {cs : List Char} {n : Nat} (h : fractionLength cs ≤ n) :
    fractionLength (cs.take n) = fractionLength cs := by
  cases cs with
  | nil => rw [List.take_nil]
  | cons d cs =>
    cases n with
    | zero => exact (Nat.le_zero.1 h).symm
    | succ n =>
      rw [List.take_succ_cons]
      by_cases hd : d = '.'
      · subst hd
        rw [fractionLength] at h
        rw [fractionLength, fractionLength, digits_take]
        split at h
        · rename_i hzero
          rw [hzero]
          simp
        · have hmin : min n (digits cs) = digits cs := by omega
          rw [hmin, List.drop_take, exponent_take (by omega)]
      · rw [fractionLength_of_ne hd, fractionLength_of_ne hd]

theorem fractional_eq (cs : List Char) :
    fractional cs =
      if fractionLength (cs.drop (digits cs)) = 0 then 0
      else digits cs + fractionLength (cs.drop (digits cs)) := by
  simp only [fractional, fractionLength.eq_def]
  split
  · split
    · simp_all
    · simp_all [Nat.add_assoc]
  · simp_all

theorem fractional_le (cs : List Char) : fractional cs ≤ cs.length := by
  have hdigits := digits_le cs
  have hfraction := fractionLength_le (cs.drop (digits cs))
  rw [List.length_drop] at hfraction
  rw [fractional_eq]
  split
  · omega
  · omega

theorem fractional_append (hc : separates c = true) (cs rest : List Char) :
    fractional (cs ++ c :: rest) = fractional cs := by
  rw [fractional_eq, fractional_eq, digits_append hc,
    List.drop_append_of_le_length (digits_le cs), fractionLength_append hc]

theorem fractional_take {cs : List Char} {n : Nat} (h : fractional cs ≤ n) :
    fractional (cs.take n) = fractional cs := by
  rw [fractional_eq] at h
  rw [fractional_eq, fractional_eq, digits_take, List.drop_take]
  rcases Nat.lt_or_ge (digits cs) n with hlt | hge
  · rw [Nat.min_eq_right (Nat.le_of_lt hlt), fractionLength_take]
    split at h
    · omega
    · omega
  · rw [Nat.min_eq_left hge, Nat.sub_self, List.take_zero]
    split at h
    · rename_i hzero
      rw [if_pos hzero]
      rfl
    · omega

/-- The length of an optional point and an exponent. -/
def pointLength (cs : List Char) : Nat :=
  let point := if cs.head? == some '.' then 1 else 0
  point + exponent (cs.drop point)

theorem pointLength_cons (d : Char) (cs : List Char) :
    pointLength (d :: cs) = if d = '.' then 1 + exponent cs else exponent (d :: cs) := by
  by_cases hd : d = '.' <;> simp [pointLength, hd]

theorem pointLength_append (hc : separates c = true) (cs rest : List Char) :
    pointLength (cs ++ c :: rest) = pointLength cs := by
  cases cs with
  | nil =>
    have hexponent := exponent_append hc [] rest
    rw [List.nil_append, pointLength_cons, if_neg (separates_not hc).2.2.1]
    exact hexponent
  | cons d cs =>
    have hexponent := exponent_append hc (d :: cs) rest
    rw [List.cons_append] at hexponent
    rw [List.cons_append, pointLength_cons, pointLength_cons, exponent_append hc, hexponent]

theorem pointLength_take {cs : List Char} {n : Nat} (h : pointLength cs ≤ n) :
    pointLength (cs.take n) = pointLength cs := by
  cases cs with
  | nil => rw [List.take_nil]
  | cons d cs =>
    cases n with
    | zero => exact (Nat.le_zero.1 h).symm
    | succ n =>
      rw [pointLength_cons] at h
      rw [List.take_succ_cons, pointLength_cons, pointLength_cons, ← List.take_succ_cons]
      split at h
      · rename_i hd
        rw [if_pos hd, if_pos hd, exponent_take (by omega)]
      · rename_i hd
        rw [if_neg hd, if_neg hd, exponent_take h]

theorem plainNumber_eq (cs : List Char) :
    plainNumber cs =
      if digits cs = 0 then 0 else digits cs + pointLength (cs.drop (digits cs)) := by
  simp only [plainNumber, pointLength, ← List.drop_drop, Nat.add_assoc]

theorem plainNumber_le (cs : List Char) : plainNumber cs ≤ cs.length := by
  have hdigits := digits_le cs
  have hpoint : pointLength (cs.drop (digits cs)) ≤ (cs.drop (digits cs)).length := by
    cases hds : cs.drop (digits cs) with
    | nil => exact Nat.le_refl 0
    | cons d ds =>
      have hds := exponent_le ds
      have hd := exponent_le (d :: ds)
      rw [pointLength_cons, List.length_cons] at *
      split
      · omega
      · omega
  rw [List.length_drop] at hpoint
  rw [plainNumber_eq]
  split
  · omega
  · omega

theorem plainNumber_append (hc : separates c = true) (cs rest : List Char) :
    plainNumber (cs ++ c :: rest) = plainNumber cs := by
  rw [plainNumber_eq, plainNumber_eq, digits_append hc,
    List.drop_append_of_le_length (digits_le cs), pointLength_append hc]

theorem plainNumber_take {cs : List Char} {n : Nat} (h : plainNumber cs ≤ n) :
    plainNumber (cs.take n) = plainNumber cs := by
  rw [plainNumber_eq] at h
  rw [plainNumber_eq, plainNumber_eq, digits_take, List.drop_take]
  split at h
  · rename_i hzero
    rw [hzero]
    simp
  · rename_i hzero
    rw [Nat.min_eq_right (by omega), pointLength_take (by omega)]

theorem numberLength_append (hc : separates c = true) (cs rest : List Char) :
    numberLength (cs ++ c :: rest) = numberLength cs := by
  obtain ⟨hx, hb, ho⟩ : c.toLower ≠ 'x' ∧ c.toLower ≠ 'b' ∧ c.toLower ≠ 'o' := by
    refine of_separates hc ?_
    decide
  obtain ⟨-, -, -, -, -, -, hhex, hoctal, hbinary, -⟩ := separates_not hc
  rw [numberLength, numberLength, based_append hc hhex _ hx, based_append hc hbinary _ hb,
    based_append hc hoctal _ ho, fractional_append hc, plainNumber_append hc]

theorem firstOf_cons (a : Nat) (l : List Nat) :
    firstOf (a :: l) = if a = 0 then firstOf l else a := by
  by_cases ha : a = 0 <;> simp [firstOf, ha]

theorem firstOf_congr {a b n : Nat} {l m : List Nat} (hab : a ≤ n → b = a)
    (hl : firstOf l ≤ n → firstOf m = firstOf l) (h : firstOf (a :: l) ≤ n) :
    firstOf (b :: m) = firstOf (a :: l) := by
  rw [firstOf_cons] at h
  rw [firstOf_cons, firstOf_cons]
  split at h
  · rename_i ha
    rw [hab (by omega), if_pos ha, if_pos ha, hl h]
  · rename_i ha
    rw [hab h, if_neg ha, if_neg ha]

/-- A number is found again in every beginning of the text that holds it. -/
theorem numberLength_take {cs : List Char} {n : Nat} (h : numberLength cs ≤ n) :
    numberLength (cs.take n) = numberLength cs :=
  firstOf_congr based_take (firstOf_congr based_take (firstOf_congr based_take
    (firstOf_congr fractional_take (firstOf_congr plainNumber_take fun _ => rfl)))) h

theorem numberLength_le (cs : List Char) : numberLength cs ≤ cs.length := by
  have hx := based_le 'x' isHexDigit cs
  have hb := based_le 'b' isBinaryDigit cs
  have ho := based_le 'o' isOctalDigit cs
  have hfractional := fractional_le cs
  have hplain := plainNumber_le cs
  simp only [numberLength, firstOf_cons]
  repeat' split
  all_goals first | omega | exact Nat.zero_le _

/-! ## Other terminals -/

theorem closingQuote_le (quote : Char) (cs : List Char) : closingQuote quote cs ≤ cs.length := by
  fun_induction closingQuote quote cs <;> simp_all

theorem quotedLength_cons (quote d : Char) (cs : List Char) :
    quotedLength quote (d :: cs) =
      if d == quote then
        if closingQuote quote cs = 0 then 0 else closingQuote quote cs + 1
      else 0 := by
  rw [quotedLength]
  split
  · split <;> simp_all
  · rfl

theorem quotedLength_le (quote : Char) (cs : List Char) : quotedLength quote cs ≤ cs.length := by
  cases cs with
  | nil => exact Nat.le_refl 0
  | cons d cs =>
    have hclosing := closingQuote_le quote cs
    rw [quotedLength_cons, List.length_cons]
    repeat' split
    all_goals omega

theorem closingComment_le (cs : List Char) : closingComment cs ≤ cs.length := by
  fun_induction closingComment cs <;> simp_all

theorem keyword_le (word : String) (cs : List Char) : keyword word cs ≤ cs.length := by
  rw [keyword]
  split
  · rename_i h
    have hlength := congrArg List.length (eq_of_beq h)
    rw [List.length_map, List.length_take, String.length_toList] at hlength
    omega
  · omega

theorem oneOf_le (texts : List String) (cs : List Char) : oneOf texts cs ≤ cs.length := by
  rw [oneOf]
  split
  · rename_i s hs
    have hmatch : s.toList.isPrefixOf cs = true := by simpa using List.find?_some hs
    have hlength := (List.isPrefixOf_iff_prefix.1 hmatch).length_le
    rwa [String.length_toList] at hlength
  · omega

/-- A terminal matches no more than there is. -/
theorem length_le (t : Terminal) (cs : List Char) : t.length cs ≤ cs.length := by
  cases t with
  | number => exact numberLength_le cs
  | «variable» =>
    simp only [length, variableLength]
    split
    · rename_i d ds
      have hrun := run_le continuesName ds
      simp only [List.length_cons]
      split
      · omega
      · omega
    · omega
  | doubleQuoted | singleQuoted =>
    exact quotedLength_le _ cs
  | blockComment =>
    simp only [length, blockCommentLength]
    split
    · rename_i ds
      have hclosing := closingComment_le ds
      simp only [List.length_cons]
      split
      · omega
      · omega
    · omega
  | lineComment =>
    simp only [length, lineCommentLength]
    split
    · rename_i ds
      have hrun := run_le (· != '\n') ds
      rw [List.length_cons]
      omega
    · rename_i ds
      have hrun := run_le (· != '\n') ds
      simp only [List.length_cons]
      omega
    · omega
  | space => exact run_le isSpace cs
  | openTag =>
    have hkeyword := keyword_le "<?php" cs
    simp only [length, openTagLength]
    split
    · omega
    · omega
  | global | array | falseWord | unset | echo | nullWord | trueWord | lowAnd | lowXor | lowOr =>
    exact keyword_le _ cs
  | _ => exact oneOf_le _ cs

/-! ## Terminals without separators -/

/-- The terminal matches no text that holds a separator. -/
def compact : Terminal → Bool
  | doubleQuoted | singleQuoted | blockComment | lineComment | space | comma | closeParen
  | closeBracket | semicolon => false
  | _ => true

theorem isPrefixOf_append {word : List Char} (hword : c ∉ word) (cs rest : List Char) :
    word.isPrefixOf (cs ++ c :: rest) = word.isPrefixOf cs := by
  induction word generalizing cs with
  | nil => simp
  | cons w word ih =>
    have hw : w ≠ c := fun h => hword (h ▸ List.mem_cons_self)
    cases cs with
    | nil => simp [List.isPrefixOf, hw]
    | cons d cs =>
      have hcs := ih (fun h => hword (List.mem_cons_of_mem w h)) cs
      simp [List.isPrefixOf, hcs]

theorem oneOf_append {texts : List String} (h : ∀ t ∈ texts, c ∉ t.toList) (cs rest : List Char) :
    oneOf texts (cs ++ c :: rest) = oneOf texts cs := by
  have hfind : texts.find? (fun t => t.toList.isPrefixOf (cs ++ c :: rest)) =
      texts.find? (fun t => t.toList.isPrefixOf cs) := by
    induction texts with
    | nil => rfl
    | cons t texts ih =>
      rw [List.forall_mem_cons] at h
      rw [List.find?_cons, List.find?_cons, isPrefixOf_append h.1, ih h.2]
  rw [oneOf, hfind, oneOf]

theorem keyword_append {word : String} (h : foldCase c ∉ word.toList) (cs rest : List Char) :
    keyword word (cs ++ c :: rest) = keyword word cs := by
  rcases Nat.lt_or_ge cs.length word.length with hlt | hge
  · have hlong : ((cs ++ c :: rest).take word.length).map foldCase ≠ word.toList := by
      intro heq
      apply h
      rw [← heq, List.take_append, List.map_append]
      obtain ⟨k, hk⟩ : ∃ k, word.length - cs.length = k + 1 := ⟨_, (Nat.succ_pred (by omega)).symm⟩
      simp [hk]
    have hshort : (cs.take word.length).map foldCase ≠ word.toList := by
      intro heq
      have hlength := congrArg List.length heq
      rw [List.length_map, List.length_take, String.length_toList] at hlength
      omega
    rw [keyword, keyword, if_neg (by simpa using hlong), if_neg (by simpa using hshort)]
  · rw [keyword, keyword, List.take_append_of_le_length hge]

theorem openTagLength_append (hc : separates c = true) (cs rest : List Char) :
    openTagLength (cs ++ c :: rest) = openTagLength cs := by
  obtain ⟨hmem, hword⟩ : foldCase c ∉ "<?php".toList ∧ Text.isWord c = false := by
    refine of_separates hc ?_
    decide +kernel
  rw [openTagLength, openTagLength, keyword_append hmem,
    List.drop_append_of_le_length (keyword_le _ cs)]
  cases cs.drop (keyword "<?php" cs) with
  | nil => simp [hword]
  | cons d ds => rfl

theorem variableLength_append (hc : separates c = true) (cs rest : List Char) :
    variableLength (cs ++ c :: rest) = variableLength cs := by
  obtain ⟨-, -, -, -, -, -, -, -, -, hstarts, hcontinues⟩ := separates_not hc
  have hdollar : c ≠ '$' := by
    refine of_separates hc ?_
    decide
  match cs with
  | [] => simp [variableLength, hdollar]
  | [d] => by_cases hd : d = '$' <;> simp [variableLength, hd, hstarts]
  | d :: x :: cs =>
    by_cases hd : d = '$'
    · subst hd
      simp only [List.cons_append, variableLength, run_append hcontinues]
    · simp [variableLength, hd]

/-- A separator that follows changes no match of a terminal without separators. -/
theorem length_append {t : Terminal} (ht : t.compact = true) (hc : separates c = true)
    (cs rest : List Char) : t.length (cs ++ c :: rest) = t.length cs := by
  cases t with
  | number => exact numberLength_append hc cs rest
  | «variable» => exact variableLength_append hc cs rest
  | openTag => exact openTagLength_append hc cs rest
  | doubleQuoted | singleQuoted | blockComment | lineComment | space | comma | closeParen
  | closeBracket | semicolon => cases ht
  | global | array | falseWord | unset | echo | nullWord | trueWord | lowAnd | lowXor | lowOr =>
    apply keyword_append
    refine of_separates hc ?_
    decide
  | _ =>
    apply oneOf_append
    refine of_separates hc ?_
    decide

/-! ## Beginnings of a text -/

/-- How far the terminal goes can be told without what comes after it. -/
def contained : Terminal → Bool
  | doubleQuoted | singleQuoted | blockComment | lineComment | space | openTag => false
  | _ => true

theorem oneOf_take {texts : List String} {cs : List Char} {n : Nat} (h : oneOf texts cs ≤ n) :
    oneOf texts (cs.take n) = oneOf texts cs := by
  have hshort : ∀ t : String, (!t.toList.isPrefixOf cs) = true →
      (!t.toList.isPrefixOf (cs.take n)) = true := by
    intro t ht
    rw [Bool.not_eq_true', Bool.eq_false_iff, ne_eq, List.isPrefixOf_iff_prefix] at ht ⊢
    exact fun hstart => ht (hstart.trans (List.take_prefix n cs))
  rw [oneOf] at h
  cases hfind : texts.find? fun t => t.toList.isPrefixOf cs with
  | none =>
    have hnone : (texts.find? fun t => t.toList.isPrefixOf (cs.take n)) = none := by
      rw [List.find?_eq_none] at hfind ⊢
      intro t ht hstart
      have ht' := hshort t (by rw [Bool.eq_false_iff.2 (hfind t ht)]; rfl)
      rw [hstart] at ht'
      cases ht'
    rw [oneOf, oneOf, hfind, hnone]
  | some t =>
    rw [hfind] at h
    obtain ⟨hstart, before, after, rfl, hbefore⟩ := List.find?_eq_some_iff_append.1 hfind
    have hsome : ((before ++ t :: after).find? fun t => t.toList.isPrefixOf (cs.take n)) =
        some t := by
      refine List.find?_eq_some_iff_append.2 ⟨?_, before, after, rfl, fun u hu => ?_⟩
      · rw [List.isPrefixOf_iff_prefix] at hstart ⊢
        exact List.prefix_take_iff.2 ⟨hstart, by rwa [String.length_toList]⟩
      · exact hshort u (hbefore u hu)
    rw [oneOf, oneOf, hfind, hsome]

theorem keyword_take {word : String} {cs : List Char} {n : Nat} (h : keyword word cs ≤ n) :
    keyword word (cs.take n) = keyword word cs := by
  rw [keyword] at h
  rcases Nat.le_total word.length n with hle | hle
  · rw [keyword, keyword, List.take_take, Nat.min_eq_left hle]
  · split at h
    · obtain rfl := Nat.le_antisymm h hle
      rw [keyword, keyword, List.take_take, Nat.min_self]
    · rename_i hword
      by_cases hn : n = word.length
      · rw [keyword, keyword, List.take_take, hn, Nat.min_self]
      · have hshort : ¬ ((((cs.take n).take word.length).map foldCase == word.toList) = true) := by
          intro heq
          have hlength := congrArg List.length (eq_of_beq heq)
          rw [List.length_map, String.length_toList] at hlength
          simp only [List.length_take] at hlength
          omega
        rw [keyword, keyword, if_neg hshort, if_neg hword]

theorem variableLength_take {cs : List Char} {n : Nat} (h : variableLength cs ≤ n) :
    variableLength (cs.take n) = variableLength cs := by
  match cs, n with
  | [], _ => rw [List.take_nil]
  | [d], 0 => simp [variableLength]
  | [d], n + 1 => simp
  | d :: x :: cs, 0 => exact (Nat.le_zero.1 h).symm
  | d :: x :: cs, 1 =>
    by_cases hd : d = '$' ∧ startsName x = true
    · obtain ⟨rfl, hx⟩ := hd
      simp only [variableLength, hx, ↓reduceIte] at h
      omega
    · by_cases hd' : d = '$'
      · subst hd'
        simp_all [variableLength]
      · simp [variableLength, hd']
  | d :: x :: cs, n + 2 =>
    by_cases hd : d = '$'
    · subst hd
      simp only [List.take_succ_cons, variableLength] at h ⊢
      split
      · rename_i hx
        rw [if_pos hx] at h
        rw [run_take, Nat.min_eq_right (by omega)]
      · rfl
    · simp [variableLength, hd]

/-- What such a terminal matches in a text it matches in every beginning that is long enough. -/
theorem length_take {t : Terminal} (ht : t.contained = true) {cs : List Char} {n : Nat}
    (h : t.length cs ≤ n) : t.length (cs.take n) = t.length cs := by
  cases t with
  | number => exact numberLength_take h
  | «variable» => exact variableLength_take h
  | doubleQuoted | singleQuoted | blockComment | lineComment | space | openTag => cases ht
  | global | array | falseWord | unset | echo | nullWord | trueWord | lowAnd | lowXor | lowOr =>
    exact keyword_take h
  | _ => exact oneOf_take h

end PhpInterpreter.Source.Terminal
