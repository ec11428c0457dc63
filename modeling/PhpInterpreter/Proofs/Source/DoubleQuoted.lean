import PhpInterpreter.Proofs.Source.Literal

/-!
Double-quoted literals. Read from left to right, with every backslash taking the next character with
it, a literal mentions a variable or stands for a text; what finds mentions by the backslashes
before a dollar sign and what replaces escapes both agree with this reading.
-/

namespace PhpInterpreter

namespace StringLiteral

/-! ## The reading -/

/-- Characters read to their end, each backslash with the next one. -/
inductive Scans : List Char → Prop
  | nil : Scans []
  | plain {c cs} : c ≠ '\\' → Scans cs → Scans (c :: cs)
  | taken {c cs} : Scans cs → Scans ('\\' :: c :: cs)

/-- A dollar sign that no backslash takes stands before the start of a name or a brace. -/
def Mentions (cs : List Char) : Prop :=
  ∃ before c after, cs = before ++ '$' :: c :: after ∧ Scans before ∧
    (Source.Terminal.startsName c = true ∨ c = '\x7b')

/-- Digits of these values. -/
def Digits (value? : Char → Option Nat) : List Char → List Nat → Prop :=
  List.Forall₂ fun c d => value? c = some d

/-- The text does not go on with a digit. -/
def EndsDigits (value? : Char → Option Nat) (cs : List Char) : Prop :=
  ∀ c ∈ cs.head?, value? c = none

/-- An escape without its backslash, before `rest`, and the code point it stands for. -/
inductive Escapes (rest : List Char) : List Char → Nat → Prop
  | simple {c d} : simpleEscape? c = some d → Escapes rest [c] d.toNat
  | octal {cs ds} : Digits octal? cs ds → ds ≠ [] → ds.length ≤ 3 →
      (ds.length = 3 ∨ EndsDigits octal? rest) → Escapes rest cs (Text.ofDigits 8 ds % 256)
  | hex {cs ds} : Digits hex? cs ds → ds ≠ [] → ds.length ≤ 2 →
      (ds.length = 2 ∨ EndsDigits hex? rest) → Escapes rest ('x' :: cs) (Text.ofDigits 16 ds)
  | codePoint {cs ds} : Digits hex? cs ds → ds ≠ [] →
      Escapes rest ('u' :: '\x7b' :: (cs ++ ['\x7d'])) (Text.ofDigits 16 ds)

/-- The text the characters stand for: escapes are replaced, and kept where they are unknown. -/
inductive Decodes : List Char → List Char → Prop
  | nil : Decodes [] []
  | plain {c cs out} : c ≠ '\\' → Decodes cs out → Decodes (c :: cs) (c :: out)
  | escape {t rest n out} : Escapes rest t n → n.isValidChar → Decodes rest out →
      Decodes ('\\' :: (t ++ rest)) (Char.ofNat n :: out)
  | verbatim {c cs out} : (∀ t rest n, c :: cs = t ++ rest → ¬ Escapes rest t n) →
      Decodes cs out → Decodes ('\\' :: c :: cs) ('\\' :: c :: out)

/-- Every code point that is escaped in braces is one of a character. -/
def ScalarEscapes (cs : List Char) : Prop :=
  ∀ before t ds after, cs = before ++ '\\' :: 'u' :: '\x7b' :: (t ++ '\x7d' :: after) →
    Scans before → Digits hex? t ds → ds ≠ [] → (Text.ofDigits 16 ds).isValidChar

variable {cs : List Char}

theorem Scans.append {before : List Char} (h : Scans before) (hcs : Scans cs) :
    Scans (before ++ cs) := by
  induction h with
  | nil => exact hcs
  | plain hc _ ih => exact .plain hc ih
  | taken _ ih => exact .taken ih

/-- Right after a character that is not a backslash nothing is taken. -/
theorem scans_concat (cs : List Char) {c : Char} (hc : c ≠ '\\') : Scans (cs ++ [c]) := by
  induction cs using List.twoStepInduction with
  | nil => exact .plain hc .nil
  | singleton d =>
    by_cases hd : d = '\\'
    · subst hd
      exact .taken .nil
    · exact .plain hd (.plain hc .nil)
  | cons_cons d e cs ih ih' =>
    by_cases hd : d = '\\'
    · subst hd
      exact .taken ih
    · exact .plain hd (ih' e)

/-! ## Mentions -/

theorem startsMention_iff {c : Char} :
    startsMention c = true ↔ Source.Terminal.startsName c = true ∨ c = '\x7b' := by
  rw [startsMention, Source.Terminal.startsName, Bool.or_eq_true, beq_iff_eq]

theorem exists_of_startsWithMention (h : startsWithMention cs = true) : Mentions cs := by
  fun_induction startsWithMention cs with
  | case1 rest ih =>
    obtain ⟨before, c, after, rfl, hbefore, hc⟩ := ih h
    exact ⟨'\\' :: '\\' :: before, c, after, rfl, .taken hbefore, hc⟩
  | case2 c after => exact ⟨[], c, after, rfl, .nil, startsMention_iff.1 h⟩
  | case3 => cases h

theorem exists_of_hasLaterMention (h : hasLaterMention cs = true) :
    ∃ before c rest, cs = before ++ c :: rest ∧ c ≠ '\\' ∧ startsWithMention rest = true := by
  induction cs with
  | nil => cases h
  | cons c cs ih =>
    rw [hasLaterMention, Bool.or_eq_true, Bool.and_eq_true, bne_iff_ne] at h
    rcases h with ⟨hc, hstart⟩ | hlater
    · exact ⟨[], c, cs, rfl, hc, hstart⟩
    · obtain ⟨before, d, rest, rfl, hd, hstart⟩ := ih hlater
      exact ⟨c :: before, d, rest, rfl, hd, hstart⟩

/-- A mention stays one behind what is read. -/
theorem mentions_append {before : List Char} (h : Scans before)
    (hstart : startsWithMention cs = true) : mentions (before ++ cs) = true := by
  induction h with
  | nil => rw [List.nil_append, mentions, hstart, Bool.true_or]
  | plain hc _ ih =>
    rw [mentions, Bool.or_eq_true] at ih
    rw [List.cons_append, mentions, hasLaterMention, bne_iff_ne.2 hc]
    rcases ih with ih | ih <;> simp [ih]
  | @taken c _ _ ih =>
    rw [mentions, Bool.or_eq_true] at ih
    rw [List.cons_append, List.cons_append, mentions, hasLaterMention, hasLaterMention]
    rcases ih with ih | ih
    · by_cases hc : c = '\\'
      · subst hc
        rw [startsWithMention, ih, Bool.true_or]
      · simp [hc, ih]
    · simp [ih]

/-- Counting the backslashes before a dollar sign agrees with reading from left to right. -/
theorem mentions_iff : mentions cs = true ↔ Mentions cs := by
  constructor
  · intro h
    rw [mentions, Bool.or_eq_true] at h
    rcases h with h | h
    · exact exists_of_startsWithMention h
    · obtain ⟨start, d, rest, rfl, hd, hstart⟩ := exists_of_hasLaterMention h
      obtain ⟨before, c, after, rfl, hbefore, hc⟩ := exists_of_startsWithMention hstart
      refine ⟨start ++ [d] ++ before, c, after, by simp, ?_, hc⟩
      exact (scans_concat start hd).append hbefore
  · rintro ⟨before, c, after, rfl, hbefore, hc⟩
    exact mentions_append hbefore (startsMention_iff.2 hc)

/-! ## Escapes -/

section Digits

variable {value? : Char → Option Nat} {limit : Nat} {t rest : List Char} {ds : List Nat}

theorem takeDigits_append (h : Digits value? t ds) (hlimit : ds.length ≤ limit)
    (hend : ds.length = limit ∨ EndsDigits value? rest) :
    takeDigits value? limit (t ++ rest) = ds := by
  induction h generalizing limit with
  | nil =>
    rcases hend with rfl | hend
    · rfl
    · cases rest with
      | nil => cases limit <;> rfl
      | cons c rest =>
        have hc : value? c = none := hend c rfl
        cases limit <;> simp [takeDigits, hc]
  | @cons c d t ds hd _ ih =>
    cases limit with
    | zero => exact absurd hlimit (Nat.not_succ_le_zero _)
    | succ limit =>
      have hrest := ih (Nat.le_of_succ_le_succ hlimit) (hend.imp_left Nat.succ.inj)
      simp [takeDigits, hd, hrest]

theorem exists_takeDigits (value? : Char → Option Nat) (limit : Nat) (cs : List Char) :
    ∃ t rest, cs = t ++ rest ∧ Digits value? t (takeDigits value? limit cs) ∧
      (takeDigits value? limit cs).length ≤ limit ∧
      ((takeDigits value? limit cs).length = limit ∨ EndsDigits value? rest) := by
  induction limit generalizing cs with
  | zero => exact ⟨[], cs, rfl, .nil, Nat.le_refl 0, .inl rfl⟩
  | succ limit ih =>
    cases cs with
    | nil => exact ⟨[], [], rfl, .nil, Nat.zero_le _, .inr nofun⟩
    | cons c cs =>
      rw [takeDigits]
      split
      · rename_i d hd
        obtain ⟨t, rest, heq, hdigits, hlimit, hend⟩ := ih cs
        exact ⟨c :: t, rest, congrArg (c :: ·) heq, .cons hd hdigits, Nat.succ_le_succ hlimit,
          hend.imp_left (congrArg Nat.succ)⟩
      · rename_i hnone
        refine ⟨[], c :: cs, rfl, .nil, Nat.zero_le _, .inr ?_⟩
        rintro _ ⟨⟩
        exact hnone

end Digits

theorem simpleEscape?_of_octal {c : Char} {d : Nat} (h : octal? c = some d) :
    simpleEscape? c = none := by
  unfold simpleEscape?
  split
  all_goals first | rfl | simp [octal?] at h

theorem ofNat_codePoint {n : Nat} (h : n.isValidChar) (length : Nat) :
    codePoint n length = .char (Char.ofNat n) length := by
  have hrange : n < 0x110000 ∧ ¬ (0xd800 ≤ n ∧ n < 0xe000) := by
    rw [Nat.isValidChar] at h
    omega
  obtain ⟨hlast, hsurrogate⟩ := hrange
  have hsurrogate' : (decide (0xd800 ≤ n) && decide (n < 0xe000)) = false := by
    simpa using hsurrogate
  rw [codePoint, if_neg (by omega), if_neg (by omega), hsurrogate']
  rfl

theorem escape_octal {c : Char} {d : Nat} (hc : octal? c = some d) (cs : List Char) :
    escape (c :: cs) = .char (Char.ofNat (Text.ofDigits 8 (takeDigits octal? 3 (c :: cs)) % 256))
      (takeDigits octal? 3 (c :: cs)).length := by
  simp [escape, simpleEscape?_of_octal hc, takeDigits, hc]

theorem escape_hex (cs : List Char) :
    escape ('x' :: cs) = if takeDigits hex? 2 cs = [] then .none
      else .char (Char.ofNat (Text.ofDigits 16 (takeDigits hex? 2 cs)))
        ((takeDigits hex? 2 cs).length + 1) := by
  have hsimple : simpleEscape? 'x' = none := rfl
  have hoctal : takeDigits octal? 3 ('x' :: cs) = [] := rfl
  simp only [escape, hsimple, hoctal]
  cases takeDigits hex? 2 cs <;> rfl

theorem escape_braced (cs : List Char) :
    escape ('u' :: '\x7b' :: cs) =
      if takeDigits hex? (cs.length + 1) cs = [] ∨
        (cs.drop (takeDigits hex? (cs.length + 1) cs).length).head? ≠ some '\x7d' then .none
      else codePoint (Text.ofDigits 16 (takeDigits hex? (cs.length + 1) cs))
        ((takeDigits hex? (cs.length + 1) cs).length + 3) := by
  have hsimple : simpleEscape? 'u' = none := rfl
  have hoctal : takeDigits octal? 3 ('u' :: '\x7b' :: cs) = [] := rfl
  simp [escape, hsimple, hoctal]

theorem escape_of_forall {c : Char} {cs : List Char} (hsimple : simpleEscape? c = none)
    (hoctal : octal? c = none) (hx : c ≠ 'x') (hu : c = 'u' → cs.head? ≠ some '\x7b') :
    escape (c :: cs) = .none := by
  have htake : takeDigits octal? 3 (c :: cs) = [] := by simp [takeDigits, hoctal]
  have hbrace : (c == 'u' && cs.head? == some '\x7b') = false := by simpa using hu
  simp [escape, hsimple, htake, hx, hbrace]

/-- An escape is found, with the character it stands for. -/
theorem escape_append {rest t : List Char} {n : Nat} (h : Escapes rest t n) (hn : n.isValidChar) :
    escape (t ++ rest) = .char (Char.ofNat n) t.length := by
  cases h with
  | @simple c d hd => simp [escape, hd]
  | @octal t ds ht hne hlimit hend =>
    have htake := takeDigits_append ht hlimit hend
    have hlength := ht.length_eq
    cases ht with
    | nil => exact absurd rfl hne
    | cons hd ht =>
      rw [List.cons_append] at htake ⊢
      rw [escape_octal hd, htake, hlength]
  | @hex t ds ht hne hlimit hend =>
    rw [List.cons_append, escape_hex, takeDigits_append ht hlimit hend, if_neg hne,
      List.length_cons, ht.length_eq]
  | @codePoint t ds ht hne =>
    have hend : EndsDigits hex? ('\x7d' :: rest) := by
      rintro _ ⟨⟩
      rfl
    have htake : takeDigits hex? ((t ++ '\x7d' :: rest).length + 1) (t ++ '\x7d' :: rest) = ds := by
      refine takeDigits_append ht ?_ (.inr hend)
      rw [← ht.length_eq, List.length_append]
      omega
    have htext : 'u' :: '\x7b' :: (t ++ ['\x7d']) ++ rest =
        'u' :: '\x7b' :: (t ++ '\x7d' :: rest) := by
      simp
    have hclosed : ((t ++ '\x7d' :: rest).drop ds.length).head? = some '\x7d' := by
      rw [← ht.length_eq, List.drop_left]
      rfl
    rw [htext, escape_braced, htake, hclosed, if_neg (by simpa using hne),
      ofNat_codePoint hn, ← ht.length_eq]
    simp

/-- What is found is an escape. -/
theorem exists_of_escape {cs : List Char} (h : escape cs ≠ .none) :
    ∃ t rest n, cs = t ++ rest ∧ Escapes rest t n := by
  cases cs with
  | nil => exact absurd rfl h
  | cons c cs =>
    cases hsimple : simpleEscape? c with
    | some d => exact ⟨[c], cs, _, rfl, .simple hsimple⟩
    | none =>
      cases hoctal : octal? c with
      | some d =>
        obtain ⟨t, rest, heq, hdigits, hlimit, hend⟩ := exists_takeDigits octal? 3 (c :: cs)
        have hne : takeDigits octal? 3 (c :: cs) ≠ [] := by simp [takeDigits, hoctal]
        exact ⟨t, rest, _, heq, .octal hdigits hne hlimit hend⟩
      | none =>
        by_cases hx : c = 'x'
        · subst hx
          obtain ⟨t, rest, rfl, hdigits, hlimit, hend⟩ := exists_takeDigits hex? 2 cs
          rw [escape_hex] at h
          refine ⟨'x' :: t, rest, _, rfl, .hex hdigits ?_ hlimit hend⟩
          intro hnil
          exact h (if_pos hnil)
        · by_cases hu : c = 'u' ∧ cs.head? = some '\x7b'
          · obtain ⟨rfl, hbrace⟩ := hu
            obtain ⟨cs, rfl⟩ := List.head?_eq_some_iff.1 hbrace
            obtain ⟨t, rest, heq, hdigits, hlimit, -⟩ := exists_takeDigits hex? (cs.length + 1) cs
            rw [escape_braced] at h
            generalize takeDigits hex? (cs.length + 1) cs = ds at h hdigits
            split at h
            · exact absurd rfl h
            · rename_i hclosed
              rw [not_or, not_not, heq, ← hdigits.length_eq, List.drop_left] at hclosed
              obtain ⟨hne, hclosed⟩ := hclosed
              obtain ⟨rest, rfl⟩ := List.head?_eq_some_iff.1 hclosed
              refine ⟨'u' :: '\x7b' :: (t ++ ['\x7d']), rest, _, ?_, .codePoint hdigits hne⟩
              rw [heq]
              simp
          · refine absurd (escape_of_forall hsimple hoctal hx ?_) h
            exact fun hc hbrace => hu ⟨hc, hbrace⟩

theorem ofDigits_lt {base : Nat} {ds : List Nat} (h : ∀ d ∈ ds, d < base) :
    Text.ofDigits base ds < base ^ ds.length := by
  induction ds using List.reverseRecOn with
  | nil => simp [Text.ofDigits]
  | append_singleton ds d ih =>
    have hd : d < base := h d (by simp)
    have hds := ih fun e he => h e (List.mem_append_left _ he)
    have hone : Text.ofDigits base [d] = d := by simp [Text.ofDigits]
    rw [Numeral.ofDigits_append, hone, List.length_append, List.length_singleton, pow_one, pow_succ]
    calc Text.ofDigits base ds * base + d < (Text.ofDigits base ds + 1) * base := by
          rw [Nat.add_mul, Nat.one_mul]
          exact Nat.add_lt_add_left hd _
      _ ≤ base ^ ds.length * base := Nat.mul_le_mul_right base hds

theorem hex?_lt {c : Char} {d : Nat} (h : hex? c = some d) : d < 16 := by
  unfold hex? at h
  split at h
  · rename_i hrange
    obtain rfl := Option.some.inj h
    simp at hrange ⊢
    omega
  · split at h
    · rename_i hrange
      obtain rfl := Option.some.inj h
      simp at hrange ⊢
      omega
    · split at h
      · rename_i hrange
        obtain rfl := Option.some.inj h
        simp at hrange ⊢
        omega
      · cases h

theorem Digits.hex_lt {t : List Char} {ds : List Nat} (h : Digits hex? t ds) :
    ∀ d ∈ ds, d < 16 := by
  induction h with
  | nil => nofun
  | cons hd _ ih => exact List.forall_mem_cons.2 ⟨hex?_lt hd, ih⟩

/-- An escape stands for a character, unless it is a code point in braces. -/
theorem Escapes.isValidChar {rest t : List Char} {n : Nat} (h : Escapes rest t n) :
    n.isValidChar ∨ ∃ cs ds, t = 'u' :: '\x7b' :: (cs ++ ['\x7d']) ∧ Digits hex? cs ds ∧ ds ≠ [] ∧
      n = Text.ofDigits 16 ds := by
  have hsmall : ∀ {n : Nat}, n < 256 → n.isValidChar := fun h => .inl (by omega)
  cases h with
  | @simple c d => exact .inl d.valid
  | octal => exact .inl (hsmall (Nat.mod_lt _ (by decide)))
  | @hex t ds ht _ hlimit =>
    refine .inl (hsmall ?_)
    calc Text.ofDigits 16 ds < 16 ^ ds.length := ofDigits_lt ht.hex_lt
      _ ≤ 16 ^ 2 := Nat.pow_le_pow_right (by decide) hlimit
  | codePoint ht hne => exact .inr ⟨_, _, rfl, ht, hne, rfl⟩

theorem Digits.ne_backslash {value? : Char → Option Nat} (hvalue : value? '\\' = none)
    {t : List Char} {ds : List Nat} (h : Digits value? t ds) : ∀ c ∈ t, c ≠ '\\' := by
  induction h with
  | nil => nofun
  | cons hd _ ih =>
    refine List.forall_mem_cons.2 ⟨?_, ih⟩
    rintro rfl
    rw [hvalue] at hd
    cases hd

/-- After its first character there is no backslash in an escape. -/
theorem Escapes.exists_cons {rest t : List Char} {n : Nat} (h : Escapes rest t n) :
    ∃ c cs, t = c :: cs ∧ ∀ d ∈ cs, d ≠ '\\' := by
  cases h with
  | simple => exact ⟨_, [], rfl, nofun⟩
  | octal ht hne =>
    cases ht with
    | nil => exact absurd rfl hne
    | cons _ ht => exact ⟨_, _, rfl, Digits.ne_backslash rfl ht⟩
  | hex ht => exact ⟨_, _, rfl, Digits.ne_backslash rfl ht⟩
  | codePoint ht =>
    refine ⟨_, _, rfl, List.forall_mem_cons.2 ⟨by decide, ?_⟩⟩
    rw [List.forall_mem_append, List.forall_mem_singleton]
    exact ⟨Digits.ne_backslash rfl ht, by decide⟩

/-! ## Decoding -/

/-- Characters of an escape are skipped. -/
theorem unescapeDouble_skip (t rest : List Char) :
    unescapeDouble t.length (t ++ rest) = unescapeDouble 0 rest := by
  induction t with
  | nil => rfl
  | cons c t ih => rw [List.length_cons, List.cons_append, unescapeDouble, ih]

theorem unescapeDouble_plain {c : Char} (hc : c ≠ '\\') (cs : List Char) :
    unescapeDouble 0 (c :: cs) = (unescapeDouble 0 cs).map (c :: ·) := by
  rw [unescapeDouble, if_neg (by simpa using hc)]

theorem unescapeDouble_escape {cs : List Char} {d : Char} {length : Nat}
    (h : escape cs = .char d length) :
    unescapeDouble 0 ('\\' :: cs) = (unescapeDouble length cs).map (d :: ·) := by
  rw [unescapeDouble, if_pos (by decide), h]

/-- What the characters stand for is what replacing the escapes gives. -/
theorem Decodes.unescapeDouble {out : List Char} (h : Decodes cs out) :
    unescapeDouble 0 cs = .ok out := by
  induction h with
  | nil => rfl
  | plain hc _ ih =>
    rw [unescapeDouble_plain hc, ih]
    rfl
  | @escape t rest n out ht hn _ ih =>
    rw [unescapeDouble_escape (escape_append ht hn), unescapeDouble_skip, ih]
    rfl
  | @verbatim c cs out hnone _ ih =>
    have hescape : StringLiteral.escape (c :: cs) = .none := by
      by_contra h
      obtain ⟨t, rest, n, heq, ht⟩ := exists_of_escape h
      exact hnone t rest n heq ht
    have hc : c ≠ '\\' := by
      rintro rfl
      exact hnone ['\\'] cs _ rfl (.simple rfl)
    rw [StringLiteral.unescapeDouble, if_pos (by decide), hescape]
    rw [unescapeDouble_plain hc, ih]
    rfl

theorem scans_of_forall (h : ∀ c ∈ cs, c ≠ '\\') : Scans cs := by
  induction cs with
  | nil => exact .nil
  | cons c cs ih =>
    obtain ⟨hc, hcs⟩ := List.forall_mem_cons.1 h
    exact .plain hc (ih hcs)

theorem Scans.tail {c : Char} (h : Scans (c :: cs)) (hc : c ≠ '\\') : Scans cs := by
  cases h with
  | plain _ h => exact h
  | taken => exact absurd rfl hc

theorem Scans.of_append {before : List Char} (h : Scans (before ++ cs))
    (hbefore : ∀ c ∈ before, c ≠ '\\') : Scans cs := by
  induction before with
  | nil => exact h
  | cons c before ih =>
    obtain ⟨hc, hbefore⟩ := List.forall_mem_cons.1 hbefore
    exact ih (h.tail hc) hbefore

theorem ScalarEscapes.of_append {before : List Char} (hbefore : Scans before)
    (h : ScalarEscapes (before ++ cs)) : ScalarEscapes cs := by
  rintro before' t ds after rfl hbefore' ht hne
  exact h (before ++ before') t ds after (by simp) (hbefore.append hbefore') ht hne

/-- What is read to its end stands for a text if all its code points are those of characters. -/
theorem Scans.exists_decodes (h : Scans cs) (hscalar : ScalarEscapes cs) :
    ∃ out, Decodes cs out := by
  -- An escape may be several steps of the reading, so the induction is on the length.
  induction hlength : cs.length using Nat.strongRecOn generalizing cs with
  | ind n ih =>
    cases h with
    | nil => exact ⟨[], .nil⟩
    | @plain c cs hc h =>
      subst hlength
      have htail := ScalarEscapes.of_append (Scans.plain hc .nil) hscalar
      obtain ⟨out, hout⟩ := ih cs.length (Nat.lt_succ_self _) h htail rfl
      exact ⟨c :: out, .plain hc hout⟩
    | @taken c cs h =>
      subst hlength
      by_cases hescape : ∃ t rest n, c :: cs = t ++ rest ∧ Escapes rest t n
      · obtain ⟨t, rest, n, heq, ht⟩ := hescape
        have hn : n.isValidChar := by
          rcases ht.isValidChar with hn | ⟨ds, es, rfl, hds, hne, rfl⟩
          · exact hn
          · exact hscalar [] ds es rest (by rw [heq]; simp) .nil hds hne
        obtain ⟨d, t, rfl, hplain⟩ := ht.exists_cons
        obtain ⟨rfl, rfl⟩ := List.cons.inj heq
        have htail : ScalarEscapes rest :=
          ScalarEscapes.of_append (Scans.taken (scans_of_forall hplain)) hscalar
        have hshorter : rest.length < ('\\' :: c :: (t ++ rest)).length := by
          simp only [List.length_cons, List.length_append]
          omega
        obtain ⟨out, hout⟩ := ih rest.length hshorter (h.of_append hplain) htail rfl
        exact ⟨_, .escape ht hn hout⟩
      · have htail : ScalarEscapes cs := ScalarEscapes.of_append (Scans.taken .nil) hscalar
        have hshorter : cs.length < ('\\' :: c :: cs).length := by
          simp only [List.length_cons]
          omega
        obtain ⟨out, hout⟩ := ih cs.length hshorter h htail rfl
        exact ⟨_, .verbatim (fun t rest n heq ht => hescape ⟨t, rest, n, heq, ht⟩) hout⟩

theorem decodeDouble_of_not_mentions {raw : String} (hmentions : ¬ Mentions (body raw.toList))
    {out : List Char} (h : Decodes (body raw.toList) out) :
    decodeDouble raw = .ok (String.ofList out) := by
  rw [← mentions_iff, Bool.not_eq_true] at hmentions
  rw [decodeDouble]
  simp only [hmentions, h.unescapeDouble]
  rfl

theorem codePoint_ne (n length : Nat) : codePoint n length ≠ .bad .interpolation := by
  unfold codePoint
  split
  · nofun
  · split <;> nofun

theorem escape_ne (cs : List Char) : escape cs ≠ .bad .interpolation := by
  unfold escape
  split
  · simp
  · split
    · simp
    · split
      · simp
      · split
        · split <;> simp
        · split
          · dsimp only
            split
            · simp
            · exact codePoint_ne _ _
          · simp

/-- Replacing escapes finds no mention. -/
theorem unescapeDouble_ne (skip : Nat) (cs : List Char) :
    unescapeDouble skip cs ≠ .error .interpolation := by
  have hmap : ∀ {r : Except Fault (List Char)} {c : Char}, r ≠ .error .interpolation →
      r.map (c :: ·) ≠ .error .interpolation := by
    intro r c hr
    cases r with
    | ok => nofun
    | error => exact fun h => hr (congrArg Except.error (Except.error.inj h))
  fun_induction unescapeDouble skip cs with
  | case1 => nofun
  | case2 _ _ _ ih => exact ih
  | case3 _ _ _ _ _ _ ih => exact hmap ih
  | case4 c cs hc fault hfault =>
    rintro ⟨⟩
    exact escape_ne cs hfault
  | case5 _ _ _ _ ih => exact hmap ih
  | case6 _ _ _ ih => exact hmap ih

theorem decodeDouble_eq_interpolation_iff (raw : String) :
    decodeDouble raw = .error .interpolation ↔ Mentions (body raw.toList) := by
  rw [← mentions_iff, decodeDouble]
  split
  · rename_i hmentions
    exact ⟨fun _ => hmentions, fun _ => rfl⟩
  · rename_i hmentions
    refine ⟨fun h => ?_, fun h => absurd h hmentions⟩
    cases hout : unescapeDouble 0 (body raw.toList) with
    | ok =>
      rw [hout] at h
      cases h
    | error =>
      rw [hout] at h
      obtain rfl := Except.error.inj h
      exact absurd hout (unescapeDouble_ne _ _)

/-! ## Tokens -/

theorem scans_of_closed {quote : Char} (h : Source.Terminal.Closed quote cs) : Scans cs := by
  induction h with
  | nil => exact .nil
  | plain hc _ _ ih => exact .plain hc ih
  | taken _ ih => exact .taken ih

theorem body_quoted (quote : Char) (inner : List Char) :
    body (quote :: (inner ++ [quote])) = inner := by
  rw [body, List.drop_one, List.tail_cons, List.dropLast_concat]

/-- The characters of a token are read to their end. -/
theorem scans_body {raw : String} (h : Source.Terminal.doubleQuoted.Spells raw) :
    Scans (body raw.toList) := by
  obtain ⟨inner, htext, hinner⟩ := h.quoted_toList (by decide) fun _ => rfl
  rw [htext, body_quoted]
  exact scans_of_closed hinner

/-- Escapes the backslash, the double quote and the dollar sign. -/
def escapeDouble : List Char → List Char
  | [] => []
  | c :: rest =>
    if c == '\\' || c == '\x22' || c == '$' then '\\' :: c :: escapeDouble rest
    else c :: escapeDouble rest

/-- A double-quoted literal of a text. -/
def encodeDouble (s : String) : String :=
  String.ofList ('\x22' :: (escapeDouble s.toList ++ ['\x22']))

/-- A character of the text comes with a backslash, or needs none. -/
theorem escapeDouble_cons (c : Char) (cs : List Char) :
    (escapeDouble (c :: cs) = '\\' :: c :: escapeDouble cs ∧ simpleEscape? c = some c) ∨
      (escapeDouble (c :: cs) = c :: escapeDouble cs ∧ c ≠ '\\' ∧ c ≠ '\x22' ∧ c ≠ '$') := by
  rw [escapeDouble]
  split
  · rename_i hc
    simp only [Bool.or_eq_true, beq_iff_eq] at hc
    refine .inl ⟨rfl, ?_⟩
    rcases hc with (rfl | rfl) | rfl <;> rfl
  · rename_i hc
    simp only [Bool.or_eq_true, beq_iff_eq, not_or] at hc
    exact .inr ⟨rfl, hc.1.1, hc.1.2, hc.2⟩

theorem closed_escapeDouble (cs : List Char) :
    Source.Terminal.Closed '\x22' (escapeDouble cs) := by
  induction cs with
  | nil => exact .nil
  | cons c cs ih =>
    rcases escapeDouble_cons c cs with ⟨heq, -⟩ | ⟨heq, hc, hquote, -⟩
    · rw [heq]
      exact .taken ih
    · rw [heq]
      exact .plain hc hquote ih

theorem decodes_escapeDouble (cs : List Char) : Decodes (escapeDouble cs) cs := by
  induction cs with
  | nil => exact .nil
  | cons c cs ih =>
    rcases escapeDouble_cons c cs with ⟨heq, hc⟩ | ⟨heq, hc, -⟩
    · have hescape := Decodes.escape (.simple hc) c.valid ih
      rw [Char.ofNat_toNat] at hescape
      rw [heq]
      exact hescape
    · rw [heq]
      exact .plain hc ih

/-- What quoting gives starts with a character and its backslash, or with one that needs none. -/
theorem exists_of_escapeDouble {c : Char} {rest : List Char} (h : escapeDouble cs = c :: rest) :
    (∃ d cs', c = '\\' ∧ rest = d :: escapeDouble cs') ∨
      ∃ cs', c ≠ '\\' ∧ c ≠ '$' ∧ rest = escapeDouble cs' := by
  cases cs with
  | nil => cases h
  | cons d cs =>
    rcases escapeDouble_cons d cs with ⟨heq, -⟩ | ⟨heq, hd, -, hdollar⟩
    · rw [heq] at h
      obtain ⟨rfl, rfl⟩ := List.cons.inj h
      exact .inl ⟨d, cs, rfl, rfl⟩
    · rw [heq] at h
      obtain ⟨rfl, rfl⟩ := List.cons.inj h
      exact .inr ⟨cs, hd, hdollar, rfl⟩

theorem not_mentions_escapeDouble (cs : List Char) : ¬ Mentions (escapeDouble cs) := by
  rintro ⟨before, d, after, htext, hbefore, -⟩
  induction hbefore generalizing cs with
  | nil =>
    rcases exists_of_escapeDouble htext with ⟨_, _, hc, -⟩ | ⟨_, -, hdollar, -⟩
    · exact absurd hc (by decide)
    · exact hdollar rfl
  | plain hplain _ ih =>
    rcases exists_of_escapeDouble htext with ⟨_, _, hc, -⟩ | ⟨cs', -, -, hrest⟩
    · exact hplain hc
    · exact ih cs' hrest.symm
  | taken _ ih =>
    rcases exists_of_escapeDouble htext with ⟨_, cs', -, hrest⟩ | ⟨_, hc, -⟩
    · exact ih cs' (List.cons.inj hrest).2.symm
    · exact hc rfl

theorem decodeDouble_encodeDouble (s : String) : decodeDouble (encodeDouble s) = .ok s := by
  have hbody : body (encodeDouble s).toList = escapeDouble s.toList := by
    rw [encodeDouble, String.toList_ofList, body_quoted]
  have hmentions := not_mentions_escapeDouble s.toList
  have hdecodes := decodes_escapeDouble s.toList
  rw [← hbody] at hmentions hdecodes
  rw [decodeDouble_of_not_mentions hmentions hdecodes, String.ofList_toList]

theorem first?_encodeDouble (s : String) {p : Source.Terminal → Bool}
    (hp : p .doubleQuoted = true) (rest : List Char) :
    Source.Terminal.first? p ((encodeDouble s).toList ++ rest) =
      some (.doubleQuoted, (encodeDouble s).length) := by
  have hspells : Source.Terminal.doubleQuoted.Spells (encodeDouble s) :=
    (closed_escapeDouble s.toList).spells (by decide) fun _ => rfl
  exact hspells.first?_quoted hp (fun _ => rfl) (by decide) rfl rest

/-- A double-quoted token has no text if it mentions a variable; otherwise, if its escapes name
characters, it stands for the one text that reading it from left to right gives. Every text is that
of the one token that quotes it. -/
theorem decodeDouble_scan :
    (∀ raw, Source.Terminal.doubleQuoted.Spells raw →
      (decodeDouble raw = .error .interpolation ↔ Mentions (body raw.toList)) ∧
      (¬ Mentions (body raw.toList) → ScalarEscapes (body raw.toList) →
        ∃ s, decodeDouble raw = .ok s ∧ ∀ out, Decodes (body raw.toList) out ↔ out = s.toList)) ∧
    ∀ s, (∀ p rest, p .doubleQuoted = true →
        Source.Terminal.first? p ((encodeDouble s).toList ++ rest) =
          some (.doubleQuoted, (encodeDouble s).length)) ∧
      decodeDouble (encodeDouble s) = .ok s := by
  refine ⟨fun raw hraw => ⟨decodeDouble_eq_interpolation_iff raw, fun hmentions hscalar => ?_⟩,
    fun s => ⟨fun p rest hp => first?_encodeDouble s hp rest, decodeDouble_encodeDouble s⟩⟩
  obtain ⟨out, hout⟩ := (scans_body hraw).exists_decodes hscalar
  refine ⟨String.ofList out, decodeDouble_of_not_mentions hmentions hout, fun out' => ?_⟩
  rw [String.toList_ofList]
  constructor
  · intro hout'
    exact Except.ok.inj (hout'.unescapeDouble.symm.trans hout.unescapeDouble)
  · rintro rfl
    exact hout

/-- A backslash, a dollar sign and two letters by their code points, and an unknown escape. -/
theorem decodeDouble_scan_escapes :
    Source.Terminal.doubleQuoted.Spells "\x22\\\\\\$a\\101\\x42\\q\x22" ∧
      decodeDouble "\x22\\\\\\$a\\101\\x42\\q\x22" = .ok "\\$aAB\\q" ∧
      ∀ out, Decodes "\\\\\\$a\\101\\x42\\q".toList out ↔ out = "\\$aAB\\q".toList := by
  have hspells : Source.Terminal.doubleQuoted.Spells "\x22\\\\\\$a\\101\\x42\\q\x22" :=
    ⟨"\x22\\\\\\$a\\101\\x42\\q\x22".toList, by decide, by decide⟩
  have hmentions : ¬ Mentions (body "\x22\\\\\\$a\\101\\x42\\q\x22".toList) := by
    rw [← mentions_iff]
    decide
  have hscalar : ScalarEscapes (body "\x22\\\\\\$a\\101\\x42\\q\x22".toList) := by
    intro before t ds after heq
    have hbrace : '\x7b' ∈ body "\x22\\\\\\$a\\101\\x42\\q\x22".toList := by
      rw [heq]
      simp
    exact absurd hbrace (by decide)
  obtain ⟨hscan, -⟩ := decodeDouble_scan
  obtain ⟨s, hs, hout⟩ := (hscan _ hspells).2 hmentions hscalar
  have hdecode : decodeDouble "\x22\\\\\\$a\\101\\x42\\q\x22" = .ok "\\$aAB\\q" := by decide +kernel
  rw [hdecode] at hs
  obtain rfl := Except.ok.inj hs
  exact ⟨hspells, hdecode, hout⟩

end StringLiteral

end PhpInterpreter
