import PhpInterpreter.Number.Numeral
import PhpInterpreter.Proofs.Value.Rounding

/-!
Numeric strings. The grammar of numerals is given part by part; the reader finds the longest numeral
at the start of a text, and the number it denotes.
-/

namespace PhpInterpreter

namespace Numeral

/-! ## The grammar -/

/-- Decimal digits of these values. -/
def Digits : List Char → List Nat → Prop := List.Forall₂ fun c d => Text.digit? c = some d

/-- An optional sign. -/
inductive Signed : List Char → Bool → Prop
  | none : Signed [] false
  | plus : Signed ['+'] false
  | minus : Signed ['-'] true

/-- Digits, with a point and more digits or none; or a point and digits. -/
inductive Pointed : List Char → List Nat → Option (List Nat) → Prop
  | whole {cs ds} : Digits cs ds → ds ≠ [] → Pointed cs ds none
  | point {cs ds fs es} : Digits cs ds → ds ≠ [] → Digits fs es →
      Pointed (cs ++ '.' :: fs) ds (some es)
  | fraction {fs es} : Digits fs es → es ≠ [] → Pointed ('.' :: fs) [] (some es)

/-- An optional exponent. -/
inductive Scaled : List Char → Option (Bool × List Nat) → Prop
  | none : Scaled [] none
  | some {c sign negative cs ds} : c = 'e' ∨ c = 'E' → Signed sign negative → Digits cs ds →
      ds ≠ [] → Scaled (c :: (sign ++ cs)) (some (negative, ds))

/-- The text spells the numeral. -/
def Spells (n : Numeral) (cs : List Char) : Prop :=
  ∃ sign point scale, cs = sign ++ (point ++ scale) ∧ Signed sign n.negative ∧
    Pointed point n.whole n.fraction ∧ Scaled scale n.exponent

variable {cs rest : List Char}

/-! ## Digits -/

/-- The text does not go on with a digit. -/
def EndsDigits (cs : List Char) : Prop := ∀ c ∈ cs.head?, Text.digit? c = none

theorem takeDigits_spec {ds : List Nat} (h : takeDigits cs = (ds, rest)) :
    ∃ t, cs = t ++ rest ∧ Digits t ds ∧ EndsDigits rest := by
  induction cs generalizing ds with
  | nil =>
    obtain ⟨rfl, rfl⟩ := Prod.mk.inj h
    exact ⟨[], rfl, .nil, nofun⟩
  | cons c cs ih =>
    rw [takeDigits] at h
    split at h
    · rename_i d hd
      obtain ⟨rfl, hrest⟩ := Prod.mk.inj h
      obtain ⟨t, ht, hdigits, hend⟩ := ih (Prod.ext rfl hrest)
      exact ⟨c :: t, congrArg (c :: ·) ht, .cons hd hdigits, hend⟩
    · rename_i hnone
      obtain ⟨rfl, rfl⟩ := Prod.mk.inj h
      refine ⟨[], rfl, .nil, ?_⟩
      simpa [EndsDigits] using hnone

theorem length_takeDigits_le {ds : List Nat} (h : takeDigits cs = (ds, rest)) :
    rest.length ≤ cs.length := by
  obtain ⟨t, rfl, -⟩ := takeDigits_spec h
  rw [List.length_append]
  omega

/-- Digits at the start of a text are all those there, or the text goes on with a digit. -/
theorem takeDigits_longest {ds : List Nat} (h : takeDigits cs = (ds, rest)) {t u : List Char}
    {ds' : List Nat} (ht : Digits t ds') (heq : cs = t ++ u) :
    (ds' = ds ∧ u = rest) ∨ (ds ≠ [] ∧ rest.length < u.length ∧ ¬ EndsDigits u) := by
  induction ht generalizing cs ds with
  | nil =>
    rw [List.nil_append] at heq
    subst heq
    cases cs with
    | nil =>
      obtain ⟨rfl, rfl⟩ := Prod.mk.inj h
      exact .inl ⟨rfl, rfl⟩
    | cons c cs =>
      rw [takeDigits] at h
      split at h
      · rename_i d hd
        obtain ⟨rfl, hrest⟩ := Prod.mk.inj h
        rw [← hrest]
        refine .inr ⟨List.cons_ne_nil _ _, ?_, fun hend => ?_⟩
        · exact Nat.lt_succ_of_le (length_takeDigits_le rfl)
        · rw [hend c rfl] at hd
          cases hd
      · obtain ⟨rfl, rfl⟩ := Prod.mk.inj h
        exact .inl ⟨rfl, rfl⟩
  | cons hd ht ih =>
    subst heq
    rw [List.cons_append, takeDigits, hd] at h
    obtain ⟨rfl, hrest⟩ := Prod.mk.inj h
    rcases ih (Prod.ext rfl hrest) rfl with ⟨hds, hu⟩ | ⟨-, hlt⟩
    · exact .inl ⟨congrArg _ hds, hu⟩
    · exact .inr ⟨List.cons_ne_nil _ _, hlt⟩

/-! ## Signs and exponents -/

/-- The text does not go on with a sign. -/
def EndsSign (cs : List Char) : Prop := ∀ c ∈ cs.head?, c ≠ '-' ∧ c ≠ '+'

theorem takeSign_spec {negative : Bool} (h : takeSign cs = (negative, rest)) :
    ∃ sign, cs = sign ++ rest ∧ Signed sign negative := by
  unfold takeSign at h
  split at h
  · obtain ⟨rfl, rfl⟩ := Prod.mk.inj h
    exact ⟨['-'], rfl, .minus⟩
  · obtain ⟨rfl, rfl⟩ := Prod.mk.inj h
    exact ⟨['+'], rfl, .plus⟩
  · obtain ⟨rfl, rfl⟩ := Prod.mk.inj h
    exact ⟨[], rfl, .none⟩

theorem Signed.takeSign {sign : List Char} {negative : Bool} (h : Signed sign negative)
    (hrest : EndsSign rest) : takeSign (sign ++ rest) = (negative, rest) := by
  cases h with
  | plus => rfl
  | minus => rfl
  | none =>
    cases rest with
    | nil => rfl
    | cons c cs =>
      obtain ⟨hminus, hplus⟩ := hrest c rfl
      simp [Numeral.takeSign, hminus, hplus]

theorem Digits.endsSign {ds : List Nat} (h : Digits cs ds) (hne : ds ≠ []) (rest : List Char) :
    EndsSign (cs ++ rest) := by
  cases h with
  | nil => exact absurd rfl hne
  | cons hd _ =>
    intro c hc
    obtain rfl := Option.some.inj hc
    have hminus : Text.digit? '-' = none := by decide
    have hplus : Text.digit? '+' = none := by decide
    refine ⟨?_, ?_⟩
    · rintro rfl
      rw [hminus] at hd
      cases hd
    · rintro rfl
      rw [hplus] at hd
      cases hd

/-- An exponent is a mark, a sign and all the digits after it. -/
theorem takeExponent_cons {c : Char} {cs after mid : List Char} {negative : Bool} {ds : List Nat}
    (hc : c = 'e' ∨ c = 'E') (hsign : takeSign cs = (negative, after))
    (hdigits : takeDigits after = (ds, mid)) :
    takeExponent (c :: cs) =
      if ds = [] then (none, c :: cs) else (some (negative, ds), mid) := by
  have hmark : (c == 'e' || c == 'E') = true := by simpa using hc
  simp only [takeExponent, hmark, if_true, hsign, hdigits]
  cases ds <;> rfl

theorem takeExponent_spec {e : Option (Bool × List Nat)} (h : takeExponent cs = (e, rest)) :
    ∃ t, cs = t ++ rest ∧ Scaled t e := by
  cases cs with
  | nil =>
    obtain ⟨rfl, rfl⟩ := Prod.mk.inj h
    exact ⟨[], rfl, .none⟩
  | cons c cs =>
    by_cases hc : c = 'e' ∨ c = 'E'
    · rcases hsign : takeSign cs with ⟨negative, after⟩
      rcases hdigits : takeDigits after with ⟨ds, mid⟩
      rw [takeExponent_cons hc hsign hdigits] at h
      split at h
      · obtain ⟨rfl, rfl⟩ := Prod.mk.inj h
        exact ⟨[], rfl, .none⟩
      · rename_i hne
        obtain ⟨rfl, rfl⟩ := Prod.mk.inj h
        obtain ⟨sign, rfl, hsigned⟩ := takeSign_spec hsign
        obtain ⟨t, rfl, ht, -⟩ := takeDigits_spec hdigits
        exact ⟨c :: (sign ++ t), by simp, .some hc hsigned ht hne⟩
    · have hmark : (c == 'e' || c == 'E') = false := by simpa using hc
      rw [takeExponent, hmark] at h
      obtain ⟨rfl, rfl⟩ := Prod.mk.inj h
      exact ⟨[], rfl, .none⟩

theorem length_takeExponent_le {e : Option (Bool × List Nat)} (h : takeExponent cs = (e, rest)) :
    rest.length ≤ cs.length := by
  obtain ⟨t, rfl, -⟩ := takeExponent_spec h
  rw [List.length_append]
  omega

theorem takeExponent_longest {e : Option (Bool × List Nat)} (h : takeExponent cs = (e, rest))
    {t u : List Char} {e' : Option (Bool × List Nat)} (ht : Scaled t e') (heq : cs = t ++ u) :
    rest.length ≤ u.length := by
  cases ht with
  | none =>
    rw [List.nil_append] at heq
    rw [← heq]
    exact length_takeExponent_le h
  | @some c sign negative t ds hc hsigned ht hne =>
    subst heq
    rcases hdigits : takeDigits (t ++ u) with ⟨ds', mid⟩
    have hsign : takeSign (sign ++ (t ++ u)) = (negative, t ++ u) :=
      hsigned.takeSign (ht.endsSign hne u)
    have hne' : ds' ≠ [] ∧ mid.length ≤ u.length := by
      rcases takeDigits_longest hdigits ht rfl with ⟨rfl, rfl⟩ | ⟨hne', hlt, -⟩
      · exact ⟨hne, Nat.le_refl _⟩
      · exact ⟨hne', Nat.le_of_lt hlt⟩
    rw [List.cons_append, List.append_assoc, takeExponent_cons hc hsign hdigits,
      if_neg hne'.1] at h
    rw [← (Prod.mk.inj h).2]
    exact hne'.2

/-- An exponent is not longer where more digits come before it. -/
theorem exponent_longest {e : Option (Bool × List Nat)} (h : takeExponent cs = (e, rest))
    {t u : List Char} {e' : Option (Bool × List Nat)} (ht : Scaled t e')
    (hrest : t ++ u = cs ∨ cs.length < (t ++ u).length ∧ ¬ EndsDigits (t ++ u)) :
    rest.length ≤ u.length := by
  rcases hrest with heq | ⟨hlt, hdigit⟩
  · exact takeExponent_longest h ht heq.symm
  · cases ht with
    | none =>
      rw [List.nil_append] at hlt
      exact Nat.le_trans (length_takeExponent_le h) (Nat.le_of_lt hlt)
    | some hc =>
      refine absurd ?_ hdigit
      rintro _ ⟨⟩
      rcases hc with rfl | rfl
      · decide
      · decide

/-! ## Numerals -/

/-- What is read: nothing, digits and a point, or digits only; each with the exponent after it. -/
theorem take?_cases {negative : Bool} {body mid : List Char} {ds : List Nat}
    (hsign : takeSign cs = (negative, body)) (hdigits : takeDigits body = (ds, mid)) :
    (take? cs = none ∧ ds = [] ∧ ∀ after, mid = '.' :: after → (takeDigits after).1 = []) ∨
    (∃ after fs mid' e rest, mid = '.' :: after ∧ takeDigits after = (fs, mid') ∧
      (ds = [] → fs ≠ []) ∧ takeExponent mid' = (e, rest) ∧
      take? cs = some (⟨negative, ds, some fs, e⟩, rest)) ∨
    (∃ e rest, (∀ after, mid ≠ '.' :: after) ∧ ds ≠ [] ∧ takeExponent mid = (e, rest) ∧
      take? cs = some (⟨negative, ds, none, e⟩, rest)) := by
  by_cases hpoint : ∃ after, mid = '.' :: after
  · obtain ⟨after, rfl⟩ := hpoint
    rcases hfraction : takeDigits after with ⟨fs, mid'⟩
    rcases hexponent : takeExponent mid' with ⟨e, rest⟩
    by_cases hnone : ds = [] ∧ fs = []
    · obtain ⟨rfl, rfl⟩ := hnone
      refine .inl ⟨?_, rfl, fun after' heq => ?_⟩
      · simp [take?, hsign, hdigits, hfraction]
      · rw [← (List.cons.inj heq).2, hfraction]
    · refine .inr (.inl ⟨after, fs, mid', e, rest, rfl, hfraction, fun hds hfs => hnone ⟨hds, hfs⟩,
        hexponent, ?_⟩)
      cases ds with
      | nil =>
        cases fs with
        | nil => exact absurd ⟨rfl, rfl⟩ hnone
        | cons => simp [take?, hsign, hdigits, hfraction, hexponent]
      | cons => simp [take?, hsign, hdigits, hfraction, hexponent]
  · rw [not_exists] at hpoint
    rcases hexponent : takeExponent mid with ⟨e, rest⟩
    cases ds with
    | nil =>
      refine .inl ⟨?_, rfl, fun after heq => absurd heq (hpoint after)⟩
      simp [take?, hsign, hdigits]
    | cons d ds =>
      refine .inr (.inr ⟨e, rest, hpoint, List.cons_ne_nil d ds, rfl, ?_⟩)
      simp [take?, hsign, hdigits, hexponent]

/-- What is read is spelled there. -/
theorem take?_spells {n : Numeral} (h : take? cs = some (n, rest)) :
    ∃ t, cs = t ++ rest ∧ n.Spells t := by
  rcases hsign : takeSign cs with ⟨negative, body⟩
  rcases hdigits : takeDigits body with ⟨ds, mid⟩
  obtain ⟨sign, rfl, hsigned⟩ := takeSign_spec hsign
  obtain ⟨t, rfl, ht, -⟩ := takeDigits_spec hdigits
  rcases take?_cases hsign hdigits with ⟨hnone, -⟩ |
    ⟨after, fs, mid', e, rest', rfl, hfraction, hne, hexponent, hsome⟩ |
    ⟨e, rest', -, hne, hexponent, hsome⟩
  · rw [hnone] at h
    cases h
  · rw [hsome] at h
    obtain ⟨rfl, rfl⟩ := Prod.mk.inj (Option.some.inj h)
    obtain ⟨f, rfl, hf, -⟩ := takeDigits_spec hfraction
    obtain ⟨scale, rfl, hscaled⟩ := takeExponent_spec hexponent
    refine ⟨sign ++ ((t ++ '.' :: f) ++ scale), by simp, sign, t ++ '.' :: f, scale, rfl, hsigned,
      ?_, hscaled⟩
    cases ht with
    | nil => exact .fraction hf (hne rfl)
    | cons hd ht => exact .point (.cons hd ht) (List.cons_ne_nil _ _) hf
  · rw [hsome] at h
    obtain ⟨rfl, rfl⟩ := Prod.mk.inj (Option.some.inj h)
    obtain ⟨scale, rfl, hscaled⟩ := takeExponent_spec hexponent
    exact ⟨sign ++ (t ++ scale), by simp, sign, t, scale, rfl, hsigned, .whole ht hne, hscaled⟩

/-- The digits and the point of a numeral at the start of a text, and what is read there. -/
theorem Pointed.cases_takeDigits {mid p v : List Char} {ds w : List Nat} {f : Option (List Nat)}
    (hdigits : takeDigits cs = (ds, mid)) (hp : Pointed p w f) (heq : cs = p ++ v) :
    (ds ≠ [] ∧ (v = mid ∨ mid.length < v.length ∧ ¬ EndsDigits v)) ∨
    (∃ after fs es, mid = '.' :: after ∧ after = fs ++ v ∧ Digits fs es ∧ (ds = [] → es ≠ [])) := by
  have hpoint : ∀ u, EndsDigits ('.' :: u) := by
    rintro u _ ⟨⟩
    decide
  cases hp with
  | whole ht hne =>
    rcases takeDigits_longest hdigits ht heq with ⟨rfl, hv⟩ | ⟨hne', hlt, hend⟩
    · exact .inl ⟨hne, .inl hv⟩
    · exact .inl ⟨hne', .inr ⟨hlt, hend⟩⟩
  | @point t _ f es ht hne hf =>
    rw [List.append_assoc, List.cons_append] at heq
    rcases takeDigits_longest hdigits ht heq with ⟨rfl, hmid⟩ | ⟨-, -, hend⟩
    · exact .inr ⟨f ++ v, f, es, hmid.symm, rfl, hf, fun hnil => absurd hnil hne⟩
    · exact absurd (hpoint _) hend
  | @fraction f es hf hne =>
    rcases takeDigits_longest hdigits .nil heq with ⟨rfl, hmid⟩ | ⟨-, -, hend⟩
    · exact .inr ⟨f ++ v, f, es, hmid.symm, rfl, hf, fun _ => hne⟩
    · exact absurd (hpoint _) hend

theorem Pointed.endsSign {p : List Char} {w : List Nat} {f : Option (List Nat)}
    (hp : Pointed p w f) (rest : List Char) : EndsSign (p ++ rest) := by
  cases hp with
  | whole ht hne => exact ht.endsSign hne rest
  | point ht hne =>
    rw [List.append_assoc]
    exact ht.endsSign hne _
  | fraction =>
    rintro _ ⟨⟩
    decide

/-- Where something is spelled a numeral is read, and no longer one is spelled there. -/
theorem take?_longest {n : Numeral} {t u : List Char} (ht : n.Spells t) :
    ∃ n' rest, take? (t ++ u) = some (n', rest) ∧ rest.length ≤ u.length := by
  obtain ⟨sign, p, scale, rfl, hsigned, hp, hscaled⟩ := ht
  rw [List.append_assoc, List.append_assoc]
  have hsign := hsigned.takeSign (hp.endsSign (scale ++ u))
  rcases hdigits : takeDigits (p ++ (scale ++ u)) with ⟨ds, mid⟩
  have hcases := hp.cases_takeDigits hdigits rfl
  rcases take?_cases hsign hdigits with ⟨-, rfl, hnone⟩ |
    ⟨after, fs, mid', e, rest, rfl, hfraction, -, hexponent, hsome⟩ |
    ⟨e, rest, hpoint, -, hexponent, hsome⟩
  · rcases hcases with ⟨hne, -⟩ | ⟨after, fs, es, rfl, rfl, hfs, hne⟩
    · exact absurd rfl hne
    · rcases takeDigits_longest (Prod.ext (hnone _ rfl) rfl) hfs rfl with ⟨hes, -⟩ | ⟨hnil, -⟩
      · exact absurd hes (hne rfl)
      · exact absurd rfl hnil
  · refine ⟨_, rest, hsome, ?_⟩
    rcases hcases with ⟨-, hv⟩ | ⟨after', f, es, hafter, rfl, hf, -⟩
    · -- A numeral that ends before the point is shorter than the point and what follows.
      have hpoint : takeExponent ('.' :: after) = (none, '.' :: after) := rfl
      have hlength := exponent_longest hpoint hscaled hv
      have hmid := length_takeDigits_le hfraction
      have hrest := length_takeExponent_le hexponent
      exact hrest.trans (hmid.trans ((Nat.le_succ _).trans hlength))
    · obtain rfl := (List.cons.inj hafter).2
      refine exponent_longest hexponent hscaled ?_
      rcases takeDigits_longest hfraction hf rfl with ⟨-, hv⟩ | ⟨-, hv⟩
      · exact .inl hv
      · exact .inr hv
  · refine ⟨_, rest, hsome, ?_⟩
    rcases hcases with ⟨-, hv⟩ | ⟨after, fs, es, rfl, -⟩
    · exact exponent_longest hexponent hscaled hv
    · exact absurd rfl (hpoint after)

/-! ## One reading -/

theorem Digits.takeDigits {ds : List Nat} (h : Digits cs ds) (hend : EndsDigits rest) :
    takeDigits (cs ++ rest) = (ds, rest) := by
  induction h with
  | nil =>
    cases rest with
    | nil => rfl
    | cons c rest => simp [Numeral.takeDigits, hend c rfl]
  | cons hd _ ih => simp [Numeral.takeDigits, hd, ih]

theorem Scaled.takeExponent {e : Option (Bool × List Nat)} (h : Scaled cs e) :
    takeExponent cs = (e, []) := by
  cases h with
  | none => rfl
  | @some c sign negative t ds hc hsigned ht hne =>
    have hend : EndsSign t := by simpa using ht.endsSign hne []
    have hdigits : Numeral.takeDigits (t ++ []) = (ds, []) := ht.takeDigits nofun
    rw [List.append_nil] at hdigits
    rw [takeExponent_cons hc (hsigned.takeSign hend) hdigits, if_neg hne]

theorem Scaled.endsDigits {e : Option (Bool × List Nat)} (h : Scaled cs e) : EndsDigits cs := by
  cases h with
  | none => nofun
  | some hc =>
    rintro _ ⟨⟩
    rcases hc with rfl | rfl
    · decide
    · decide

theorem take?_point {negative : Bool} {body f scale : List Char} {ds es : List Nat}
    {e : Option (Bool × List Nat)} (hsign : takeSign cs = (negative, body))
    (hdigits : takeDigits body = (ds, '.' :: (f ++ scale))) (hf : Digits f es)
    (hne : ds = [] → es ≠ []) (hscaled : Scaled scale e) :
    take? cs = some (⟨negative, ds, some es, e⟩, []) := by
  have hfraction := hf.takeDigits hscaled.endsDigits
  rcases take?_cases hsign hdigits with ⟨-, hds, hnone⟩ |
    ⟨after, fs, mid, e', rest, hafter, hfs, -, hexponent, hsome⟩ | ⟨-, -, hpoint, -⟩
  · have hes := hnone _ rfl
    rw [hfraction] at hes
    exact absurd hes (hne hds)
  · rw [← (List.cons.inj hafter).2, hfraction] at hfs
    obtain ⟨rfl, rfl⟩ := Prod.mk.inj hfs
    rw [hscaled.takeExponent] at hexponent
    obtain ⟨rfl, rfl⟩ := Prod.mk.inj hexponent
    exact hsome
  · exact absurd rfl (hpoint _)

/-- What is spelled is read. -/
theorem Spells.take? {n : Numeral} (h : n.Spells cs) : take? cs = some (n, []) := by
  obtain ⟨negative, w, f, e⟩ := n
  obtain ⟨sign, p, scale, rfl, hsigned, hp, hscaled⟩ := h
  have hsign := hsigned.takeSign (hp.endsSign scale)
  have hend : ∀ u, EndsDigits ('.' :: u) := by
    rintro u _ ⟨⟩
    decide
  cases hp with
  | whole ht hne =>
    have hdigits := ht.takeDigits hscaled.endsDigits
    rcases take?_cases hsign hdigits with ⟨-, hnil, -⟩ |
      ⟨after, -, -, -, -, rfl, -⟩ | ⟨e, rest, -, -, hexponent, hsome⟩
    · exact absurd hnil hne
    · cases hscaled with
      | some hc => exact absurd hc (by decide)
    · rw [hscaled.takeExponent] at hexponent
      obtain ⟨rfl, rfl⟩ := Prod.mk.inj hexponent
      exact hsome
  | point ht hne hf =>
    rw [List.append_assoc, List.cons_append] at hsign ⊢
    exact take?_point hsign (ht.takeDigits (hend _)) hf (fun hnil => absurd hnil hne) hscaled
  | fraction hf hne =>
    exact take?_point hsign (Digits.takeDigits .nil (hend _)) hf (fun _ => hne) hscaled

/-- A text spells one numeral at most. -/
theorem Spells.unique {n n' : Numeral} (h : n.Spells cs) (h' : n'.Spells cs) : n = n' := by
  have hsome := h.take?.symm.trans h'.take?
  exact congrArg Prod.fst (Option.some.inj hsome)

/-! ## The number that is denoted -/

/-- The power of ten the exponent stands for. -/
def power (n : Numeral) : Int :=
  match n.exponent with
  | none => 0
  | some (true, ds) => -(Text.ofDigits 10 ds : Int)
  | some (false, ds) => Text.ofDigits 10 ds

/-- The value without its sign. -/
def magnitude (n : Numeral) : ℚ :=
  (Text.ofDigits 10 n.whole + Text.ofDigits 10 (n.fraction.getD []) /
    10 ^ (n.fraction.getD []).length) * 10 ^ n.power

/-- The value of the numeral. -/
def value (n : Numeral) : ℚ := if n.negative then -n.magnitude else n.magnitude

/-- The number is the value itself if that has no point, no exponent and 64 bits, and the double
nearest to it otherwise. -/
def Denotes (n : Numeral) : Number → Prop
  | .int i => n.fraction = none ∧ n.exponent = none ∧ fits i = true ∧ (i : ℚ) = n.value
  | .float x =>
    ¬ (n.fraction = none ∧ n.exponent = none ∧ ∃ i : Int, fits i = true ∧ (i : ℚ) = n.value) ∧
      x.Nearest n.negative n.magnitude

theorem ofDigits_append (base : Nat) (ds es : List Nat) :
    Text.ofDigits base (ds ++ es) =
      Text.ofDigits base ds * base ^ es.length + Text.ofDigits base es := by
  induction es using List.reverseRecOn with
  | nil => simp [Text.ofDigits]
  | append_singleton es e ih =>
    have hlast : ∀ ds : List Nat,
        Text.ofDigits base (ds ++ [e]) = Text.ofDigits base ds * base + e := by
      intro ds
      rw [Text.ofDigits, List.foldl_append]
      rfl
    rw [← List.append_assoc, hlast, ih, hlast, List.length_append, List.length_singleton, pow_succ]
    ring

/-- The double of a numeral is the one nearest to it. -/
theorem nearest_toDouble (n : Numeral) : n.toDouble.Nearest n.negative n.magnitude := by
  have hvalue : n.magnitude = Decimal.value ⟨Text.ofDigits 10 (n.whole ++ n.fraction.getD []),
      n.power - (n.fraction.getD []).length⟩ := by
    rw [magnitude, Decimal.value, ofDigits_append, zpow_sub₀ (by norm_num), zpow_natCast]
    push_cast
    field_simp
  rw [hvalue]
  exact Decimal.nearest_toDouble n.negative _

theorem magnitude_of_isInteger {n : Numeral} (h : n.isInteger = true) :
    n.magnitude = n.toInt.natAbs := by
  obtain ⟨hf, he⟩ : n.fraction = none ∧ n.exponent = none := by simpa [isInteger] using h
  have habs : n.toInt.natAbs = Text.ofDigits 10 n.whole := by
    rw [toInt]
    split <;> simp
  rw [habs, magnitude, power, hf, he]
  simp [Text.ofDigits]

theorem value_of_isInteger {n : Numeral} (h : n.isInteger = true) : n.value = n.toInt := by
  rw [value, magnitude_of_isInteger h, toInt]
  split <;> simp

theorem negative_eq_of_not_fits {n : Numeral} (h : ¬ fits n.toInt = true) :
    n.negative = decide (n.toInt < 0) := by
  have hne : n.toInt ≠ 0 := by
    intro hzero
    rw [hzero] at h
    exact h (by decide)
  rw [toInt] at hne ⊢
  split at hne
  · rename_i hneg
    rw [if_pos hneg, hneg, eq_comm, decide_eq_true_eq]
    omega
  · rename_i hpos
    rw [if_neg hpos, Bool.eq_false_of_not_eq_true hpos, eq_comm, decide_eq_false_iff_not]
    omega

theorem denotes_toNumber {n : Numeral} {v : Number} (h : n.toNumber = .ok v) : n.Denotes v := by
  unfold toNumber at h
  split at h
  · rename_i hinteger
    have hvalue := value_of_isInteger hinteger
    obtain ⟨hf, he⟩ : n.fraction = none ∧ n.exponent = none := by
      simpa [isInteger] using hinteger
    split at h
    · cases h
    · split at h
      · rename_i hfits
        obtain rfl := Except.ok.inj h
        exact ⟨hf, he, hfits, hvalue.symm⟩
      · rename_i hfits
        split at h
        · rename_i x hx
          obtain rfl := Except.ok.inj h
          refine ⟨?_, ?_⟩
          · rintro ⟨-, -, i, hi, heq⟩
            rw [hvalue, Int.cast_inj] at heq
            exact hfits (heq ▸ hi)
          · rw [magnitude_of_isInteger hinteger, negative_eq_of_not_fits hfits]
            exact Double.nearest_of_ofInt? hx
        · cases h
  · rename_i hinteger
    obtain rfl := Except.ok.inj h
    refine ⟨?_, nearest_toDouble n⟩
    rintro ⟨hf, he, -⟩
    simp [isInteger, hf, he] at hinteger

end Numeral

/-! ## Numeric strings -/

/-- The characters that may stand around a numeral. -/
def blanks : List Char := [' ', '\t', '\n', '\r', '\x0b', '\x0c']

theorem isAsciiBlank_iff {c : Char} : Text.isAsciiBlank c = true ↔ c ∈ blanks := by
  simp only [Text.isAsciiBlank, blanks, List.mem_cons, List.not_mem_nil, or_false,
    ← Char.toNat_inj, Bool.or_eq_true, Bool.and_eq_true, beq_iff_eq, decide_eq_true_eq]
  have hvalues : ' '.toNat = 32 ∧ '\t'.toNat = 9 ∧ '\n'.toNat = 10 ∧ '\r'.toNat = 13 ∧
      '\x0b'.toNat = 11 ∧ '\x0c'.toNat = 12 := by decide
  omega

/-- The string without the blanks it starts with. -/
def unpadded (s : String) : List Char := s.toList.dropWhile (· ∈ blanks)

/-- The text is a numeral. -/
def IsNumeral (t : List Char) : Prop := ∃ n : Numeral, n.Spells t

variable {s : String}

theorem readNumeric_eq :
    readNumeric s =
      match Numeral.take? (unpadded s) with
      | none => .ok .absent
      | some (n, rest) => n.toNumber.map fun v => .found v (rest.all Text.isAsciiBlank) := by
  have hpadding : Text.isAsciiBlank = fun c => decide (c ∈ blanks) := by
    funext c
    rw [Bool.eq_iff_iff, decide_eq_true_eq]
    exact isAsciiBlank_iff
  rw [readNumeric, unpadded, ← hpadding]
  cases Numeral.take? (s.toList.dropWhile Text.isAsciiBlank) with
  | none => rfl
  | some found => cases hv : found.1.toNumber <;> simp [hv] <;> rfl

/-- What is read is the longest numeral there, and the number it denotes. -/
theorem readNumeric_found {v : Number} {whole : Bool} (h : readNumeric s = .ok (.found v whole)) :
    ∃ t rest, unpadded s = t ++ rest ∧ IsNumeral t ∧
      (∀ t', t' <+: unpadded s → IsNumeral t' → t'.length ≤ t.length) ∧
      (∀ n : Numeral, n.Spells t → n.Denotes v) ∧ (whole = true ↔ ∀ c ∈ rest, c ∈ blanks) := by
  rw [readNumeric_eq] at h
  split at h
  · cases h
  · rename_i n rest htake
    cases hv : n.toNumber with
    | error =>
      rw [hv] at h
      cases h
    | ok v' =>
      rw [hv] at h
      obtain ⟨rfl, rfl⟩ := NumericPrefix.found.inj (Except.ok.inj h)
      obtain ⟨t, ht, hspells⟩ := Numeral.take?_spells htake
      refine ⟨t, rest, ht, ⟨n, hspells⟩, ?_, ?_, ?_⟩
      · rintro t' ⟨u, hu⟩ ⟨n', hn'⟩
        obtain ⟨n'', rest', htake', hle⟩ := Numeral.take?_longest (u := u) hn'
        rw [hu, htake] at htake'
        obtain ⟨rfl, rfl⟩ := Prod.mk.inj (Option.some.inj htake')
        have hlength := congrArg List.length (hu.trans ht)
        rw [List.length_append, List.length_append] at hlength
        omega
      · intro n' hn'
        rw [hn'.unique hspells]
        exact Numeral.denotes_toNumber hv
      · simp only [List.all_eq_true, isAsciiBlank_iff]

theorem readNumeric_absent_iff {r : NumericPrefix} (h : readNumeric s = .ok r) :
    r = .absent ↔ ∀ t, t <+: unpadded s → ¬ IsNumeral t := by
  cases r with
  | absent =>
    refine ⟨fun _ => ?_, fun _ => rfl⟩
    rintro t ⟨u, hu⟩ ⟨n, hn⟩
    obtain ⟨n', rest, htake, -⟩ := Numeral.take?_longest (u := u) hn
    rw [readNumeric_eq, ← hu, htake] at h
    dsimp only at h
    cases hv : n'.toNumber with
    | error =>
      rw [hv] at h
      cases h
    | ok =>
      rw [hv] at h
      cases h
  | found v whole =>
    obtain ⟨t, rest, ht, hnumeral, -⟩ := readNumeric_found h
    refine ⟨nofun, fun hnone => ?_⟩
    exact absurd hnumeral (hnone t ⟨rest, ht.symm⟩)

theorem exists_isNumeric {r : NumericPrefix} (h : readNumeric s = .ok r) :
    ∃ b, isNumeric s = .ok b := by
  unfold isNumeric wholeNumber?
  rw [h]
  match r with
  | .absent => exact ⟨false, rfl⟩
  | .found _ true => exact ⟨true, rfl⟩
  | .found _ false => exact ⟨false, rfl⟩

theorem isNumeric_eq_true_iff {r : NumericPrefix} (h : readNumeric s = .ok r) :
    isNumeric s = .ok true ↔ ∃ v, r = .found v true := by
  unfold isNumeric wholeNumber?
  rw [h]
  match r with
  | .absent => exact ⟨nofun, nofun⟩
  | .found v true => exact ⟨fun _ => ⟨v, rfl⟩, fun _ => rfl⟩
  | .found _ false => exact ⟨nofun, nofun⟩

theorem Numeral.Pointed.head_notMem {p : List Char} {w : List Nat} {f : Option (List Nat)}
    (h : Numeral.Pointed p w f) : ∃ c cs, p = c :: cs ∧ c ∉ blanks := by
  have hdigit : ∀ c ∈ blanks, Text.digit? c = none := by
    have hall : blanks.all (Text.digit? · == none) = true := by decide
    exact fun c hc => eq_of_beq (List.all_eq_true.1 hall c hc)
  have hdigits : ∀ {cs : List Char} {ds : List Nat}, Numeral.Digits cs ds → ds ≠ [] →
      ∃ c cs', cs = c :: cs' ∧ c ∉ blanks := by
    intro cs ds ht hne
    cases ht with
    | nil => exact absurd rfl hne
    | @cons c d cs ds hd _ =>
      refine ⟨c, cs, rfl, fun hc => ?_⟩
      rw [hdigit c hc] at hd
      cases hd
  cases h with
  | whole ht hne => exact hdigits ht hne
  | point ht hne =>
    obtain ⟨c, cs, rfl, hc⟩ := hdigits ht hne
    exact ⟨c, _, rfl, hc⟩
  | fraction => exact ⟨'.', _, rfl, by decide⟩

/-- Numerals do not start with a blank. -/
theorem IsNumeral.head_notMem {t : List Char} (h : IsNumeral t) :
    ∃ c cs, t = c :: cs ∧ c ∉ blanks := by
  obtain ⟨⟨negative, w, f, e⟩, sign, p, scale, rfl, hsigned, hp, -⟩ := h
  cases hsigned with
  | plus => exact ⟨'+', _, rfl, by decide⟩
  | minus => exact ⟨'-', _, rfl, by decide⟩
  | none =>
    obtain ⟨c, cs, rfl, hc⟩ := hp.head_notMem
    exact ⟨c, _, rfl, hc⟩

theorem unpadded_eq {before t after : List Char} (h : s.toList = before ++ (t ++ after))
    (hbefore : ∀ c ∈ before, c ∈ blanks) (ht : IsNumeral t) : unpadded s = t ++ after := by
  obtain ⟨c, cs, rfl, hc⟩ := ht.head_notMem
  rw [unpadded, h, List.dropWhile_append_of_pos (by simpa using hbefore)]
  simp [hc]

/-- The numeric strings are the numerals with blanks around them. -/
theorem isNumeric_iff {r : NumericPrefix} (h : readNumeric s = .ok r) :
    isNumeric s = .ok true ↔ ∃ before t after, s.toList = before ++ (t ++ after) ∧
      (∀ c ∈ before, c ∈ blanks) ∧ IsNumeral t ∧ ∀ c ∈ after, c ∈ blanks := by
  rw [isNumeric_eq_true_iff h]
  constructor
  · rintro ⟨v, rfl⟩
    obtain ⟨t, rest, ht, hnumeral, -, -, hrest⟩ := readNumeric_found h
    refine ⟨s.toList.takeWhile (· ∈ blanks), t, rest, ?_, ?_, hnumeral, hrest.1 rfl⟩
    · rw [← ht, unpadded, List.takeWhile_append_dropWhile]
    · intro c hc
      exact of_decide_eq_true (List.all_eq_true.1 List.all_takeWhile c hc)
  · rintro ⟨before, t, after, hs, hbefore, ht, hafter⟩
    have hstart := unpadded_eq hs hbefore ht
    cases r with
    | absent => exact absurd ht ((readNumeric_absent_iff h).1 rfl t ⟨after, hstart.symm⟩)
    | found v whole =>
      obtain ⟨t', rest, ht', -, hlongest, -, hrest⟩ := readNumeric_found h
      -- What follows the longest numeral is an end of what follows this one.
      have hlength := congrArg List.length (hstart.symm.trans ht')
      have hle := hlongest t ⟨after, hstart.symm⟩ ht
      rw [List.length_append, List.length_append] at hlength
      have hend : rest <:+ after :=
        List.suffix_of_suffix_length_le ⟨t', ht'.symm⟩ ⟨t, hstart.symm⟩ (by omega)
      obtain rfl : whole = true := hrest.2 fun c hc => hafter c (hend.subset hc)
      exact ⟨v, rfl⟩

/-- Of a string for which the reader returns: it is numeric if it is a numeral with blanks around
it; there is no value if no numeral follows the blanks it starts with; otherwise the value is that
of the longest one, and the string is numeric as a whole if only blanks follow. -/
theorem readNumeric_longest {r : NumericPrefix} (h : readNumeric s = .ok r) :
    (∃ b, isNumeric s = .ok b ∧ (b = true ↔ ∃ before t after,
      s.toList = before ++ (t ++ after) ∧ (∀ c ∈ before, c ∈ blanks) ∧ IsNumeral t ∧
        ∀ c ∈ after, c ∈ blanks)) ∧
    (r = .absent ↔ ∀ t, t <+: unpadded s → ¬ IsNumeral t) ∧
    ∀ v whole, r = .found v whole → ∃ t rest, unpadded s = t ++ rest ∧ IsNumeral t ∧
      (∀ t', t' <+: unpadded s → IsNumeral t' → t'.length ≤ t.length) ∧
      (∀ n : Numeral, n.Spells t → n.Denotes v) ∧ (whole = true ↔ ∀ c ∈ rest, c ∈ blanks) := by
  have hnumeric := isNumeric_iff h
  refine ⟨?_, readNumeric_absent_iff h, ?_⟩
  · obtain ⟨b, hb⟩ := exists_isNumeric h
    rw [hb, Except.ok.injEq] at hnumeric
    exact ⟨b, hb, hnumeric⟩
  · rintro v whole rfl
    exact readNumeric_found h

/-- An exponent without digits is no part of the numeral. -/
theorem readNumeric_longest_bare :
    readNumeric "\t-.5e+ " = .ok (.found (.float (.finite true (2 ^ 52) (-53))) false) ∧
      isNumeric "\t-.5e+ " = .ok false ∧ ∃ t rest, unpadded "\t-.5e+ " = t ++ rest ∧ IsNumeral t ∧
        (∀ t', t' <+: unpadded "\t-.5e+ " → IsNumeral t' → t'.length ≤ t.length) ∧
        ∀ n : Numeral, n.Spells t → n.Denotes (.float (.finite true (2 ^ 52) (-53))) := by
  have hread : readNumeric "\t-.5e+ " =
      .ok (.found (.float (.finite true (2 ^ 52) (-53))) false) := by decide +kernel
  obtain ⟨-, -, hfound⟩ := readNumeric_longest hread
  obtain ⟨t, rest, ht, hnumeral, hlongest, hdenotes, -⟩ := hfound _ _ rfl
  exact ⟨hread, by decide +kernel, t, rest, ht, hnumeral, hlongest, hdenotes⟩

end PhpInterpreter
