import PhpInterpreter.Proofs.Source.Chunk

/-!
Carriage returns at the ends of lines. Between tokens and in comments they may be left out: the
text is read to the same tokens at the same positions, so it has the same tree.
-/

namespace PhpInterpreter.Source

/-- The characters without carriage returns. -/
def dropReturns (cs : List Char) : List Char := cs.filter (· != '\r')

/-- A carriage return stands only where a line or the text ends. -/
def endsLines : List Char → Bool
  | [] => true
  | c :: cs => (c != '\r' || cs.head?.all (· == '\n')) && endsLines cs

/-- The text ends here or goes on with a line break. -/
def AtLineEnd (cs : List Char) : Prop := cs.head?.all (· == '\n') = true

section

variable {c : Char} {cs : List Char}

@[simp] theorem dropReturns_return (cs : List Char) :
    dropReturns ('\r' :: cs) = dropReturns cs := rfl

theorem dropReturns_cons (hc : c ≠ '\r') (cs : List Char) :
    dropReturns (c :: cs) = c :: dropReturns cs := by
  rw [dropReturns, List.filter_cons_of_pos (by simpa using hc), dropReturns]

theorem dropReturns_append (cs cs' : List Char) :
    dropReturns (cs ++ cs') = dropReturns cs ++ dropReturns cs' := List.filter_append ..

theorem dropReturns_eq_self (h : '\r' ∉ cs) : dropReturns cs = cs := by
  refine List.filter_eq_self.2 fun c hc => ?_
  have hne : c ≠ '\r' := fun heq => h (heq ▸ hc)
  simpa using hne

theorem dropReturns_take_drop (n : Nat) (cs : List Char) :
    dropReturns (cs.take n) ++ dropReturns (cs.drop n) = dropReturns cs := by
  rw [← dropReturns_append, List.take_append_drop]

theorem endsLines_append (cs' : List Char) (h : endsLines (cs ++ cs') = true) :
    endsLines cs' = true := by
  induction cs with
  | nil => exact h
  | cons c cs ih =>
    rw [List.cons_append, endsLines, Bool.and_eq_true] at h
    exact ih h.2

theorem endsLines_drop (n : Nat) (h : endsLines cs = true) : endsLines (cs.drop n) = true := by
  rw [← List.take_append_drop n cs] at h
  exact endsLines_append _ h

theorem endsLines_tail (h : endsLines (c :: cs) = true) : endsLines cs = true :=
  endsLines_drop 1 h

theorem atLineEnd_of_return (h : endsLines ('\r' :: cs) = true) : AtLineEnd cs := by
  rw [endsLines, Bool.and_eq_true] at h
  exact h.1

/-- A line break is no carriage return, so it stays in front. -/
theorem AtLineEnd.dropReturns (h : AtLineEnd cs) : AtLineEnd (dropReturns cs) := by
  cases cs with
  | nil => exact h
  | cons d cs =>
    have hd : d = '\n' := by simpa [AtLineEnd] using h
    subst hd
    exact h

end

/-! ## Positions -/

/-- Positions before and after carriage returns are left out: the columns may differ where the
line ends. -/
def Aligned (here there : Position) (cs : List Char) : Prop :=
  there = here ∨ there.line = here.line ∧ AtLineEnd (dropReturns cs)

theorem Aligned.line_eq {here there : Position} {cs : List Char} (h : Aligned here there cs) :
    there.line = here.line := by
  rcases h with rfl | h
  · rfl
  · exact h.1

theorem Aligned.eq {here there : Position} {c : Char} {cs : List Char}
    (h : Aligned here there (c :: cs)) (hr : c ≠ '\r') (hn : c ≠ '\n') : there = here := by
  rcases h with h | ⟨-, h⟩
  · exact h
  · rw [dropReturns_cons hr] at h
    exact absurd (by simpa [AtLineEnd] using h) hn

theorem Aligned.step {here there : Position} {c : Char} {cs : List Char}
    (h : Aligned here there (c :: cs)) (hends : endsLines (c :: cs) = true) :
    Aligned (here.step c) (there.advance (dropReturns [c])) cs := by
  by_cases hr : c = '\r'
  · subst hr
    exact .inr ⟨h.line_eq, (atLineEnd_of_return hends).dropReturns⟩
  · rw [dropReturns_cons hr]
    by_cases hn : c = '\n'
    · subst hn
      left
      show (⟨there.line + 1, 1⟩ : Position) = ⟨here.line + 1, 1⟩
      rw [h.line_eq]
    · rw [h.eq hr hn]
      exact .inl rfl

/-- Positions stay aligned while text is passed. -/
theorem Aligned.advance {here there : Position} {cs : List Char} (h : Aligned here there cs)
    (hends : endsLines cs = true) (n : Nat) :
    Aligned (here.advance (cs.take n)) (there.advance (dropReturns (cs.take n))) (cs.drop n) := by
  induction n generalizing here there cs with
  | zero => exact h
  | succ n ih =>
    cases cs with
    | nil => exact h
    | cons c cs =>
      have hrest := ih (h.step hends) (endsLines_tail hends)
      rwa [← Position.advance_append, ← dropReturns_append] at hrest

/-! ## Comments -/

namespace Terminal

variable {c : Char} {cs : List Char}

theorem lineCommentLength_ne_zero_iff :
    lineCommentLength cs ≠ 0 ↔ ['#'] <+: cs ∨ ['/', '/'] <+: cs := by
  constructor
  · intro h
    unfold lineCommentLength at h
    split at h
    · exact .inl ⟨_, rfl⟩
    · exact .inr ⟨_, rfl⟩
    · exact absurd rfl h
  · rintro (⟨cs, rfl⟩ | ⟨cs, rfl⟩)
    · simp [lineCommentLength]
    · simp [lineCommentLength]

theorem blockCommentLength_eq_zero (h : ¬ ['/', '*'] <+: cs) : blockCommentLength cs = 0 := by
  unfold blockCommentLength
  split
  · exact absurd ⟨_, rfl⟩ h
  · rfl

/-- Where a comment matches, nothing else is found. -/
theorem first?_comment {t : Terminal} (ht : t ∈ [blockComment, lineComment])
    (h : t.length cs ≠ 0) (accept : Terminal → Bool) :
    first? (fun t => t.ignored || accept t) cs = some (t, t.length cs) := by
  have hslash : all.filter (starts '/') = [blockComment, lineComment, assignOp, productOp] := rfl
  have hhash : all.filter (starts '#') = [lineComment] := rfl
  simp only [List.mem_cons, List.not_mem_nil, or_false] at ht
  rcases ht with rfl | rfl
  · have hopen : ['/', '*'] <+: cs :=
      Decidable.byContradiction fun hopen => h (blockCommentLength_eq_zero hopen)
    obtain ⟨cs, rfl⟩ := hopen
    rw [List.cons_append, first?_cons, hslash, List.find?_cons_of_pos]
    · rfl
    · simpa [ignored] using h
  · rcases lineCommentLength_ne_zero_iff.1 h with ⟨cs, rfl⟩ | ⟨cs, rfl⟩
    · rw [List.cons_append, first?_cons, hhash, List.find?_cons_of_pos]
      · rfl
      · simpa [ignored] using h
    · rw [List.cons_append, first?_cons, hslash, List.find?_cons_of_neg, List.find?_cons_of_pos]
      · rfl
      · simpa [ignored] using h
      · simp [length, blockCommentLength]

theorem run_dropReturns (cs : List Char) :
    run (· != '\n') (dropReturns cs) = (dropReturns (cs.take (run (· != '\n') cs))).length := by
  induction cs with
  | nil => rfl
  | cons d cs ih =>
    by_cases hn : d = '\n'
    · subst hn
      rfl
    · have hrun : ∀ ds, run (· != '\n') (d :: ds) = run (· != '\n') ds + 1 := by
        intro ds
        rw [run, List.takeWhile_cons_of_pos (by simpa using hn), List.length_cons, run]
      rw [hrun, List.take_succ_cons]
      by_cases hr : d = '\r'
      · subst hr
        exact ih
      · rw [dropReturns_cons hr, dropReturns_cons hr, hrun, List.length_cons, ih]

/-- A line comment without its carriage returns. -/
theorem lineCommentLength_dropReturns (h : lineCommentLength cs ≠ 0) :
    lineCommentLength (dropReturns cs) ≠ 0 ∧
      lineCommentLength (dropReturns cs) =
        (dropReturns (cs.take (lineCommentLength cs))).length := by
  rcases lineCommentLength_ne_zero_iff.1 h with ⟨cs, rfl⟩ | ⟨cs, rfl⟩
  · show 1 + run (· != '\n') (dropReturns cs) ≠ 0 ∧ 1 + run (· != '\n') (dropReturns cs) =
      (dropReturns (('#' :: cs).take (1 + run (· != '\n') cs))).length
    rw [run_dropReturns, Nat.add_comm 1 (run _ cs), List.take_succ_cons,
      dropReturns_cons (by decide), List.length_cons]
    omega
  · show 2 + run (· != '\n') (dropReturns cs) ≠ 0 ∧ 2 + run (· != '\n') (dropReturns cs) =
      (dropReturns (('/' :: '/' :: cs).take (2 + run (· != '\n') cs))).length
    rw [run_dropReturns, Nat.add_comm 2 (run _ cs), List.take_succ_cons, List.take_succ_cons,
      dropReturns_cons (by decide), dropReturns_cons (by decide), List.length_cons,
      List.length_cons]
    omega

/-- Leaving out a carriage return before a line break ends no comment. -/
theorem closingComment_dropReturns (h : closingComment cs ≠ 0) (hends : endsLines cs = true) :
    closingComment (dropReturns cs) ≠ 0 ∧
      closingComment (dropReturns cs) = (dropReturns (cs.take (closingComment cs))).length := by
  fun_induction closingComment cs with
  | case1 | case3 => exact absurd rfl h
  | case2 cs => exact ⟨by simp [dropReturns_cons, closingComment], rfl⟩
  | case4 d cs hend hcs ih =>
    have hrest := ih hcs (endsLines_tail hends)
    rw [List.take_succ_cons]
    by_cases hr : d = '\r'
    · subst hr
      exact hrest
    · have hend' : ∀ ds, d = '*' → dropReturns cs ≠ '/' :: ds := by
        intro ds hd heq
        cases cs with
        | nil => cases heq
        | cons e es =>
          by_cases he : e = '\r'
          · subst he
            have hline := (atLineEnd_of_return (endsLines_tail hends)).dropReturns
            rw [dropReturns_return] at heq
            rw [heq] at hline
            cases hline
          · rw [dropReturns_cons he] at heq
            exact hend es hd (by rw [(List.cons.inj heq).1])
      rw [dropReturns_cons hr, dropReturns_cons hr, List.length_cons, ← hrest.2,
        closingComment.eq_3 _ _ hend']
      split
      · exact absurd ‹_› hrest.1
      · exact ⟨Nat.succ_ne_zero _, rfl⟩

/-- A block comment without its carriage returns. -/
theorem blockCommentLength_dropReturns (h : blockCommentLength cs ≠ 0)
    (hends : endsLines cs = true) :
    blockCommentLength (dropReturns cs) ≠ 0 ∧
      blockCommentLength (dropReturns cs) =
        (dropReturns (cs.take (blockCommentLength cs))).length := by
  have hopen : ['/', '*'] <+: cs :=
    Decidable.byContradiction fun hopen => h (blockCommentLength_eq_zero hopen)
  obtain ⟨cs, rfl⟩ := hopen
  have hcs : closingComment cs ≠ 0 := by
    intro hcs
    simp [blockCommentLength, hcs] at h
  obtain ⟨hclosed, hlength⟩ := closingComment_dropReturns hcs (endsLines_append _ hends)
  have hblock : ∀ ds, closingComment ds ≠ 0 →
      blockCommentLength ('/' :: '*' :: ds) = closingComment ds + 2 := by
    intro ds hds
    rw [blockCommentLength]
    split
    · contradiction
    · rfl
  show blockCommentLength ('/' :: '*' :: dropReturns cs) ≠ 0 ∧
    blockCommentLength ('/' :: '*' :: dropReturns cs) =
      (dropReturns (('/' :: '*' :: cs).take (blockCommentLength ('/' :: '*' :: cs)))).length
  rw [hblock _ hcs, hblock _ hclosed]
  refine ⟨Nat.succ_ne_zero _, ?_⟩
  rw [hlength]
  simp [dropReturns_cons]

/-! ## Tokens before a carriage return -/

/-- A quoted text that is closed within some characters is closed there. -/
theorem quotedLength_of_le {quote : Char} {rest : List Char} (hquote : quote ≠ '\\')
    (h : quotedLength quote (cs ++ rest) ≠ 0)
    (hle : quotedLength quote (cs ++ rest) ≤ cs.length) :
    quotedLength quote cs = quotedLength quote (cs ++ rest) := by
  have hagain := quotedLength_take_append hquote
    (cs.drop (quotedLength quote (cs ++ rest))) h
  rwa [List.take_append_of_le_length hle, List.take_append_drop] at hagain

/-- What is found of a line is found of the line alone. -/
theorem first?_of_return {accept : Terminal → Bool} {t : Terminal} {n : Nat} {rest : List Char}
    (h : first? (fun t => t.ignored || accept t) (cs ++ '\r' :: rest) = some (t, n))
    (ht : t.ignored = false) (hn : n ≤ cs.length) (hopen : ¬ ['/', '*'] <+: cs ++ '\r' :: rest) :
    first? (fun t => t.ignored || accept t) cs = some (t, n) := by
  obtain ⟨hpos, rfl⟩ := ne_nil_of_first? h
  cases cs with
  | nil => exact absurd (Nat.le_zero.1 hn) hpos
  | cons d ds =>
    have honly : ∀ u, all.filter (starts d) = [u] → t = u := by
      intro u hu
      exact List.mem_singleton.1 (hu ▸ mem_starts_of_first? h)
    have hprefix : d :: ds <+: d :: ds ++ '\r' :: rest := List.prefix_append ..
    rw [← h]
    refine first?_congr fun u hu => ?_
    have hstarts : u.starts d = true := (List.mem_filter.1 hu).2
    cases hcompact : u.compact with
    | true => exact (length_append hcompact rfl (d :: ds) rest).symm
    | false =>
      cases u with
      | doubleQuoted =>
        obtain rfl := eq_of_beq hstarts
        obtain rfl := honly doubleQuoted rfl
        have hclosed : quotedLength '\x22' ('\x22' :: ds ++ '\r' :: rest) ≠ 0 := hpos
        exact quotedLength_of_le (by decide) hclosed hn
      | singleQuoted =>
        obtain rfl := eq_of_beq hstarts
        obtain rfl := honly singleQuoted rfl
        have hclosed : quotedLength '\x27' ('\x27' :: ds ++ '\r' :: rest) ≠ 0 := hpos
        exact quotedLength_of_le (by decide) hclosed hn
      | blockComment =>
        have hopen' : ¬ ['/', '*'] <+: d :: ds := fun hd => hopen (hd.trans hprefix)
        exact (blockCommentLength_eq_zero hopen').trans (blockCommentLength_eq_zero hopen).symm
      | lineComment =>
        -- A line comment would have been found in place of the token.
        have hlong : lineCommentLength (d :: ds ++ '\r' :: rest) = 0 := by
          apply Decidable.byContradiction
          intro hne
          have hcomment := first?_comment (t := lineComment) (by simp) hne accept
          obtain ⟨rfl, -⟩ := Prod.mk.inj (Option.some.inj (h.symm.trans hcomment))
          cases ht
        have hshort : lineCommentLength (d :: ds) = 0 := by
          apply Decidable.byContradiction
          intro hne
          refine lineCommentLength_ne_zero_iff.2 ?_ hlong
          exact (lineCommentLength_ne_zero_iff.1 hne).imp (·.trans hprefix) (·.trans hprefix)
        exact hshort.trans hlong.symm
      | space =>
        obtain rfl := honly space (filter_starts_space hstarts)
        cases ht
      | comma | closeParen | closeBracket | semicolon =>
        exact (oneOf_append (by decide) (d :: ds) rest).symm
      | _ => cases hcompact

/-- A token without carriage return is found when the carriage returns behind it are left out. -/
theorem first?_dropReturns {accept : Terminal → Bool} {t : Terminal} {n : Nat}
    (h : first? (fun t => t.ignored || accept t) cs = some (t, n)) (ht : t.ignored = false)
    (hopen : ¬ ['/', '*'] <+: cs) (htext : '\r' ∉ cs.take n) (hends : endsLines cs = true) :
    first? (fun t => t.ignored || accept t) (dropReturns cs) = some (t, n) := by
  by_cases hr : '\r' ∈ cs
  · obtain ⟨line, rest, rfl, hline⟩ := List.eq_append_cons_of_mem hr
    have hn : n ≤ line.length := by
      apply Nat.le_of_not_lt
      intro hlt
      apply htext
      obtain ⟨k, hk⟩ : ∃ k, n - line.length = k + 1 := ⟨n - line.length - 1, by omega⟩
      rw [List.take_append, hk, List.take_succ_cons]
      exact List.mem_append_right _ List.mem_cons_self
    have hfound := first?_of_return h ht hn hopen
    have hline' : ¬ ['/', '*'] <+: line := fun hp => hopen (hp.trans (List.prefix_append ..))
    have hend := (atLineEnd_of_return (endsLines_append _ hends)).dropReturns
    rw [dropReturns_append, dropReturns_return, dropReturns_eq_self hline]
    cases hrest : dropReturns rest with
    | nil => rwa [List.append_nil]
    | cons e es =>
      have he : e = '\n' := by simpa [AtLineEnd, hrest] using hend
      subst he
      refine first?_line hfound ?_ (.inr hline') es
      rintro rfl
      cases ht
  · rwa [dropReturns_eq_self hr]

end Terminal

/-! ## Texts -/

section

variable {p q : Parser} {here there : Position} {cs : List Char} {ts : List Token} {t : Terminal}
  {n : Nat}

/-- A token does not start where a line ends, so it is at the same position. -/
theorem Aligned.eq_of_token (h : Aligned here there cs)
    (hfirst : Terminal.first? (fun t => t.ignored || p.accepts t) cs = some (t, n))
    (ht : t.ignored = false) : there = here := by
  cases cs with
  | nil =>
    obtain ⟨hn, rfl⟩ := Terminal.ne_nil_of_first? hfirst
    exact absurd (Nat.le_zero.1 (t.length_le [])) hn
  | cons c cs =>
    have hblank : Terminal.isSpace c = false := by
      apply Bool.eq_false_iff.2
      intro hc
      have hspace := Terminal.first?_space hc p.accepts cs
      obtain ⟨rfl, -⟩ := Prod.mk.inj (Option.some.inj (hfirst.symm.trans hspace))
      cases ht
    exact h.eq (by rintro rfl; cases hblank) (by rintro rfl; cases hblank)

/-- Space and comments are still space and comments without their carriage returns. -/
theorem Scanned.dropReturns_ignored
    (hfirst : Terminal.first? (fun t => t.ignored || p.accepts t) cs = some (t, n))
    (ht : t.ignored = true) (hends : endsLines cs = true)
    (h : Scanned p (there.advance (dropReturns (cs.take n))) (dropReturns (cs.drop n)) ts q) :
    Scanned p there (dropReturns cs) ts q := by
  obtain ⟨hn, hlength⟩ := Terminal.ne_nil_of_first? hfirst
  by_cases hspace : t = .space
  · subst hspace
    rw [← dropReturns_take_drop n]
    refine .spaces (fun c hc => ?_) h
    have hblanks : cs.takeWhile Terminal.isSpace = cs.take n := by
      rw [hlength]
      exact List.prefix_iff_eq_take.1 (cs.takeWhile_prefix Terminal.isSpace)
    have hmem : c ∈ cs.takeWhile Terminal.isSpace := hblanks ▸ (List.mem_filter.1 hc).1
    exact List.all_eq_true.1 List.all_takeWhile c hmem
  · obtain ⟨hcomment, hpos, hsame⟩ : t ∈ [.blockComment, .lineComment] ∧
        t.length (dropReturns cs) ≠ 0 ∧
        t.length (dropReturns cs) = (dropReturns (cs.take n)).length := by
      subst hlength
      cases t with
      | blockComment => exact ⟨by simp, Terminal.blockCommentLength_dropReturns hn hends⟩
      | lineComment => exact ⟨by simp, Terminal.lineCommentLength_dropReturns hn⟩
      | space => exact absurd rfl hspace
      | _ => cases ht
    refine .ignored (Terminal.first?_comment hcomment hpos p.accepts) ht ?_
    rw [hsame, ← dropReturns_take_drop n cs, List.take_left, List.drop_left]
    exact h

/-- Carriage returns at line ends, in no token, make no difference to what is read. -/
theorem Scanned.dropReturns (h : Scanned p here cs ts q) (hends : endsLines cs = true)
    (hts : ∀ t ∈ ts, '\r' ∉ t.text.toList) (halign : Aligned here there cs) :
    Scanned p there (dropReturns cs) ts q := by
  induction h generalizing there with
  | nil hfinish => exact .nil hfinish
  | @ignored p q here cs ts t n hfirst ht h ih =>
    have hrest := ih (endsLines_drop n hends) hts (halign.advance hends n)
    exact .dropReturns_ignored hfirst ht hends hrest
  | @token p p' q here cs ts t n hfirst ht hfeed h ih =>
    obtain ⟨htext, hts⟩ := List.forall_mem_cons.1 hts
    rw [String.toList_ofList] at htext
    have hopen := Scanned.closed_of_token hfirst ht hfeed h
    have hfound := Terminal.first?_dropReturns hfirst ht hopen htext hends
    have hrest := ih (endsLines_drop n hends) hts (halign.advance hends n)
    obtain rfl := halign.eq_of_token hfirst ht
    have hle : n ≤ cs.length := (Terminal.ne_nil_of_first? hfirst).2 ▸ t.length_le cs
    have hparts : Source.dropReturns cs = cs.take n ++ Source.dropReturns (cs.drop n) := by
      rw [← dropReturns_take_drop n, dropReturns_eq_self htext]
    have htake : (Source.dropReturns cs).take n = cs.take n := by
      rw [hparts, List.take_left' (List.length_take_of_le hle)]
    have hdrop : (Source.dropReturns cs).drop n = Source.dropReturns (cs.drop n) := by
      rw [hparts, List.drop_left' (List.length_take_of_le hle)]
    rw [dropReturns_eq_self htext] at hrest
    rw [← htake] at hfeed hrest ⊢
    rw [← hdrop] at hrest
    exact .token hfound ht hfeed hrest

end

/-- Leaving out the carriage returns at line ends, in no token, changes no program. -/
theorem parse_dropReturns {text : String} {program : Program} (h : parse text = .ok program)
    (hends : endsLines text.toList = true)
    (hts : ∀ t ∈ tokens .init .start text.toList, '\r' ∉ t.text.toList) :
    parse (String.ofList (dropReturns text.toList)) = .ok program := by
  obtain ⟨q, hq, rfl⟩ := scanned_of_parse h
  have hdropped := hq.dropReturns hends hts (.inl rfl)
  rw [← String.toList_ofList (l := dropReturns text.toList)] at hdropped
  exact hdropped.parse

end PhpInterpreter.Source
