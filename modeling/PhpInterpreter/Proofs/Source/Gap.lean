import PhpInterpreter.Proofs.Outcome
import PhpInterpreter.Proofs.Source.LineEnd
import PhpInterpreter.Proofs.Source.Printing

/-!
Space and comments between tokens. Before a blank every token ends where it ended before anything
else, so what is put between two tokens changes the positions of a tree and nothing else. Only at
the end of a text something can end up inside the last line comment.
-/

namespace PhpInterpreter.Source

/-! ## Comments alone -/

/-- A comment up to the end of its line. -/
def LineComment (cs : List Char) : Prop := (['#'] <+: cs ∨ ['/', '/'] <+: cs) ∧ '\n' ∉ cs

/-- The text ends here or goes on with a blank. -/
def Breaks (rest : List Char) : Prop := rest.head?.all Terminal.isSpace = true

theorem Breaks.cons {c : Char} {rest : List Char} (h : Breaks (c :: rest)) :
    Terminal.isSpace c = true := h

namespace Terminal

variable {c : Char} {cs rest : List Char}

theorem separates_of_isSpace (hc : isSpace c = true) : separates c = true := by
  have hmem : c ∈ [' ', '\t', '\x0c', '\r', '\n'] := by
    simpa [isSpace, or_assoc] using hc
  simp only [List.mem_cons, List.not_mem_nil, or_false] at hmem
  rcases hmem with rfl | rfl | rfl | rfl | rfl <;> decide

/-- Text without blanks that stands at the start before a blank stands there alone. -/
theorem prefix_of_breaks {word : List Char} (hword : ∀ c ∈ word, isSpace c = false)
    (hrest : Breaks rest) (h : word <+: cs ++ rest) : word <+: cs := by
  cases rest with
  | nil => rwa [List.append_nil] at h
  | cons c rest =>
    have hc : c ∉ word := by
      intro hmem
      have hblank := hword c hmem
      rw [hrest.cons] at hblank
      cases hblank
    rw [← List.isPrefixOf_iff_prefix, isPrefixOf_append hc] at h
    exact List.isPrefixOf_iff_prefix.1 h

theorem run_append_of_forall {p : Char → Bool} (h : ∀ c ∈ cs, p c = true) (rest : List Char) :
    run p (cs ++ rest) = cs.length + run p rest := by
  rw [run, List.takeWhile_append_of_pos h, List.length_append, run]

/-- A line comment takes what follows on its line with it. -/
theorem lineCommentLength_append (h : LineComment cs) (rest : List Char) :
    lineCommentLength (cs ++ rest) = cs.length + run (· != '\n') rest := by
  have hline : ∀ ds : List Char, '\n' ∉ ds → ∀ c ∈ ds, (c != '\n') = true := by
    intro ds hds c hc
    rw [bne_iff_ne]
    rintro rfl
    exact hds hc
  obtain ⟨⟨ds, rfl⟩ | ⟨ds, rfl⟩, hend⟩ := h
  · have hds : '\n' ∉ ds := fun hmem => hend (List.mem_append_right _ hmem)
    show 1 + run (· != '\n') (ds ++ rest) = ('#' :: ds).length + run (· != '\n') rest
    rw [run_append_of_forall (hline ds hds), List.length_cons]
    omega
  · have hds : '\n' ∉ ds := fun hmem => hend (List.mem_append_right _ hmem)
    show 2 + run (· != '\n') (ds ++ rest) = ('/' :: '/' :: ds).length + run (· != '\n') rest
    rw [run_append_of_forall (hline ds hds), List.length_cons, List.length_cons]
    omega

theorem take_run (p : Char → Bool) (cs : List Char) : cs.take (run p cs) = cs.takeWhile p :=
  (List.prefix_iff_eq_take.1 (cs.takeWhile_prefix p)).symm

/-- What is taken of a line comment is one, and its line ends there. -/
theorem lineComment_take (h : lineCommentLength cs ≠ 0) :
    LineComment (cs.take (lineCommentLength cs)) := by
  have hline : ∀ ds : List Char, '\n' ∉ ds.takeWhile (· != '\n') := by
    intro ds hmem
    have hn := List.all_eq_true.1 (List.all_takeWhile (p := (· != '\n')) (l := ds)) _ hmem
    cases hn
  rcases lineCommentLength_ne_zero_iff.1 h with ⟨ds, rfl⟩ | ⟨ds, rfl⟩
  · show LineComment (('#' :: ds).take (1 + run (· != '\n') ds))
    rw [Nat.add_comm, List.take_succ_cons, take_run]
    exact ⟨.inl ⟨_, rfl⟩, by simpa using hline ds⟩
  · show LineComment (('/' :: '/' :: ds).take (2 + run (· != '\n') ds))
    rw [Nat.add_comm, List.take_succ_cons, List.take_succ_cons, take_run]
    exact ⟨.inr ⟨_, rfl⟩, by simpa using hline ds⟩

/-- A block comment ends at the first end mark. -/
theorem closingComment_body {body : List Char} (hbody : ¬ ['*', '/'] <:+: body)
    (rest : List Char) : closingComment (body ++ '*' :: '/' :: rest) = body.length + 2 := by
  induction body with
  | nil => rfl
  | cons d body ih =>
    have hend : ∀ ds, d = '*' → body ++ '*' :: '/' :: rest ≠ '/' :: ds := by
      rintro ds rfl heq
      cases body with
      | nil => cases heq
      | cons e body =>
        obtain ⟨rfl, -⟩ := List.cons.inj heq
        exact hbody (List.prefix_append ['*', '/'] body).isInfix
    have hrest := ih fun h => hbody (h.trans (List.suffix_cons d body).isInfix)
    rw [List.cons_append, closingComment.eq_3 _ _ hend, hrest, List.length_cons]
    rfl

theorem blockCommentLength_body {body : List Char} (hbody : ¬ ['*', '/'] <:+: body)
    (rest : List Char) :
    blockCommentLength ('/' :: '*' :: (body ++ '*' :: '/' :: rest)) = body.length + 4 := by
  rw [blockCommentLength, closingComment_body hbody]
  rfl

/-- A comment that is closed ends there, whatever follows. -/
theorem closingComment_take_append (h : closingComment cs ≠ 0) (rest : List Char) :
    closingComment (cs.take (closingComment cs) ++ rest) = closingComment cs := by
  fun_induction closingComment cs with
  | case1 | case3 => exact absurd rfl h
  | case2 cs => rfl
  | case4 d cs hend hcs ih =>
    have hend' : ∀ ds, d = '*' → cs.take (closingComment cs) ++ rest ≠ '/' :: ds := by
      rintro ds rfl heq
      obtain ⟨k, hk⟩ := Nat.exists_eq_succ_of_ne_zero hcs
      cases cs with
      | nil => exact hcs rfl
      | cons e es =>
        rw [hk, List.take_succ_cons, List.cons_append] at heq
        exact hend es rfl (by rw [(List.cons.inj heq).1])
    rw [List.take_succ_cons, List.cons_append, closingComment.eq_3 _ _ hend', ih hcs]
    split
    · contradiction
    · rfl

theorem blockCommentLength_of_closed {ds : List Char} (h : closingComment ds ≠ 0) :
    blockCommentLength ('/' :: '*' :: ds) = closingComment ds + 2 := by
  rw [blockCommentLength]
  split
  · contradiction
  · rfl

theorem blockCommentLength_take_append (h : blockCommentLength cs ≠ 0) (rest : List Char) :
    blockCommentLength (cs.take (blockCommentLength cs) ++ rest) = blockCommentLength cs := by
  have hopen : ['/', '*'] <+: cs :=
    Decidable.byContradiction fun hopen => h (blockCommentLength_eq_zero hopen)
  obtain ⟨ds, rfl⟩ := hopen
  have hds : closingComment ds ≠ 0 := by
    intro hds
    simp [blockCommentLength, hds] at h
  have hsame := closingComment_take_append hds rest
  have hlength : blockCommentLength (['/', '*'] ++ ds) = closingComment ds + 2 :=
    blockCommentLength_of_closed hds
  calc blockCommentLength
        ((['/', '*'] ++ ds).take (blockCommentLength (['/', '*'] ++ ds)) ++ rest)
    _ = blockCommentLength ('/' :: '*' :: (ds.take (closingComment ds) ++ rest)) := by
        rw [hlength]
        rfl
    _ = closingComment ds + 2 := by
        rw [blockCommentLength_of_closed (by rwa [hsame]), hsame]
    _ = blockCommentLength (['/', '*'] ++ ds) := hlength.symm

/-! ## Tokens before a blank -/

/-- A find stands if every terminal looked for keeps its length, as far as it is within reach. -/
theorem first?_of_reach {accept : Terminal → Bool} {cs' : List Char} {t : Terminal} {n m : Nat}
    (h : first? accept cs = some (t, n)) (hn : n ≤ m)
    (hsame : ∀ u, accept u = true → u.length cs ≤ m → u.length cs' = u.length cs) :
    first? accept cs' = some (t, n) := by
  have haccept := accept_of_first? h
  obtain ⟨hpos, rfl⟩ := ne_nil_of_first? h
  rw [first?_eq_find?] at h ⊢
  obtain ⟨u, hu, heq⟩ := Option.map_eq_some_iff.1 h
  obtain ⟨rfl, -⟩ := Prod.mk.inj heq
  obtain ⟨-, before, after, hall, hbefore⟩ := List.find?_eq_some_iff_append.1 hu
  have hlength := hsame u haccept hn
  have hfind : all.find? (fun t => accept t && t.length cs' != 0) = some u := by
    refine List.find?_eq_some_iff_append.2 ⟨by simp [haccept, hlength, hpos], before, after, hall,
      fun v hv => ?_⟩
    cases hacc : accept v with
    | false => rfl
    | true =>
      have hzero : v.length cs = 0 := by simpa [hacc] using hbefore v hv
      have hzero' := hsame v hacc (by omega)
      simp [hzero', hzero]
  rw [hfind, Option.map_some, hlength]

/-- A closed quote within some characters stays, whatever follows them. -/
theorem quotedLength_of_reach {quote : Char} {after : List Char} (hquote : quote ≠ '\\')
    (h : quotedLength quote (cs ++ after) ≠ 0)
    (hle : quotedLength quote (cs ++ after) ≤ cs.length) (rest : List Char) :
    quotedLength quote (cs ++ rest) = quotedLength quote (cs ++ after) := by
  have hwithin := quotedLength_of_le hquote h hle
  rw [← hwithin]
  exact quotedLength_append hquote (by rwa [hwithin]) rest

theorem contained_append {t : Terminal} (ht : t.contained = true) {after : List Char}
    (hle : t.length (cs ++ after) ≤ cs.length) (hrest : Breaks rest) :
    t.length (cs ++ rest) = t.length (cs ++ after) := by
  have hwithin : t.length cs = t.length (cs ++ after) := by
    rw [← length_take ht hle, List.take_left]
  rw [← hwithin]
  cases rest with
  | nil => rw [List.append_nil]
  | cons c rest =>
    have hc := separates_of_isSpace hrest.cons
    have hblank : c ∉ [',', ')', ']', ';'] := by
      intro hmem
      have hspace := hrest.cons
      simp only [List.mem_cons, List.not_mem_nil, or_false] at hmem
      rcases hmem with rfl | rfl | rfl | rfl <;> cases hspace
    simp only [List.mem_cons, List.not_mem_nil, or_false, not_or] at hblank
    cases hcompact : t.compact with
    | true => exact length_append hcompact hc cs rest
    | false =>
      cases t with
      | comma | closeParen | closeBracket | semicolon =>
        apply oneOf_append
        simp [hblank]
      | doubleQuoted | singleQuoted | blockComment | lineComment | space => cases ht
      | _ => cases hcompact

/-- No other character is folded to the first one of a tag. -/
theorem eq_of_foldCase (h : foldCase c = '<') : c = '<' := by
  unfold foldCase at h
  split at h
  · cases h
  · unfold Char.toLower at h
    split at h
    · rename_i hc
      have hlow : 65 ≤ c.val.toNat := UInt32.le_iff_toNat_le.1 hc.1
      have hhigh : c.val.toNat ≤ 90 := UInt32.le_iff_toNat_le.1 hc.2
      have hsum : (c.val + 32).toNat = 60 := congrArg (fun d : Char => d.val.toNat) h
      have h32 : (32 : UInt32).toNat = 32 := rfl
      rw [UInt32.toNat_add] at hsum
      omega
    · exact h

theorem isWord_of_isSpace (hc : isSpace c = true) : Text.isWord c = false := by
  refine of_separates (separates_of_isSpace hc) ?_
  decide

/-- An open tag within some characters stays if they break off. -/
theorem openTagLength_of_reach {after : List Char} (h : openTagLength (cs ++ after) ≠ 0)
    (hle : openTagLength (cs ++ after) ≤ cs.length) (hrest : Breaks rest) :
    openTagLength (cs ++ rest) = openTagLength (cs ++ after) := by
  have hopen : openTagLength (cs ++ after) = keyword "<?php" (cs ++ after) ∧
      (((cs ++ after).drop (keyword "<?php" (cs ++ after))).head?.any Text.isWord) = false := by
    simp only [openTagLength] at h ⊢
    split at h
    · rename_i hword
      rw [if_pos hword]
      simp_all
    · exact absurd rfl h
  obtain ⟨hlength, hword⟩ := hopen
  rw [hlength] at h hle ⊢
  have hwithin : keyword "<?php" cs = keyword "<?php" (cs ++ after) := by
    rw [← keyword_take hle, List.take_left]
  have hsame : keyword "<?php" (cs ++ rest) = keyword "<?php" (cs ++ after) := by
    cases rest with
    | nil => rw [List.append_nil, hwithin]
    | cons c rest =>
      have hmem : foldCase c ∉ "<?php".toList := by
        refine of_separates (separates_of_isSpace hrest.cons) ?_
        decide +kernel
      rw [keyword_append hmem, hwithin]
  have hnext : (((cs ++ rest).drop (keyword "<?php" (cs ++ rest))).head?.any Text.isWord) =
      false := by
    rw [hsame, List.drop_append_of_le_length hle]
    rw [List.drop_append_of_le_length hle] at hword
    cases hds : cs.drop (keyword "<?php" (cs ++ after)) with
    | cons d ds =>
      rw [hds] at hword
      exact hword
    | nil =>
      cases rest with
      | nil => rfl
      | cons c rest => exact isWord_of_isSpace hrest.cons
  rw [openTagLength, hnext, hsame]
  exact if_pos (by simpa using h)

end Terminal

theorem Parser.phase_of_accepts_openTag {p : Parser} (h : p.accepts .openTag = true) :
    p.phase = .start := by
  obtain ⟨pos?, done, phase⟩ := p
  cases phase with
  | start => rfl
  | operand context frames =>
    simp only [accepts, operandAccepts] at h
    split at h <;> simp [startsOperand, startsPrimary] at h
    split at h <;> cases h
  | _ => cases h

/-- Where an open tag can stand, no other token starts like one. -/
theorem Terminal.eq_openTag {p : Parser} {t : Terminal} {d : Char}
    (hopen : p.accepts .openTag = true) (ht : p.accepts t = true) (hd : openTag.starts d = true)
    (hstart : t ∈ all.filter (starts d)) : t = .openTag := by
  have hphase := Parser.phase_of_accepts_openTag hopen
  obtain rfl := eq_of_foldCase (eq_of_beq hd)
  have hmem : t ∈ [openTag, equalityOp, comparisonOp] := hstart
  simp only [List.mem_cons, List.not_mem_nil, or_false] at hmem
  rcases hmem with rfl | rfl | rfl
  · rfl
  · rw [Parser.accepts, hphase] at ht
    cases ht
  · rw [Parser.accepts, hphase] at ht
    cases ht

/-- What starts after some characters does not start a comment with the last of them. -/
theorem Terminal.lineCommentLength_breaks {cs after rest : List Char}
    (h : lineCommentLength (cs ++ after) = 0) (hrest : Breaks rest) :
    lineCommentLength (cs ++ rest) = 0 := by
  have hkept : ∀ {word : List Char}, (∀ c ∈ word, isSpace c = false) →
      word <+: cs ++ rest → word <+: cs ++ after :=
    fun hword hstart => (prefix_of_breaks hword hrest hstart).trans (List.prefix_append _ _)
  apply Decidable.byContradiction
  intro hne
  apply lineCommentLength_ne_zero_iff.2 _ h
  exact (lineCommentLength_ne_zero_iff.1 hne).imp (hkept (by simp [isSpace]))
    (hkept (by simp [isSpace]))

/-- A token within some characters is found again if they break off. -/
theorem Terminal.first?_breaks {p : Parser} {cs after rest : List Char} {t : Terminal} {n : Nat}
    (h : first? (fun t => t.ignored || p.accepts t) (cs ++ after) = some (t, n))
    (ht : t.ignored = false) (hn : n ≤ cs.length) (hopen : ¬ ['/', '*'] <+: cs ++ after)
    (hrest : Breaks rest) :
    first? (fun t => t.ignored || p.accepts t) (cs ++ rest) = some (t, n) := by
  obtain ⟨hpos, hlength⟩ := ne_nil_of_first? h
  have hnil : cs ≠ [] := by
    rintro rfl
    exact hpos (Nat.le_zero.1 hn)
  obtain ⟨d, ds, rfl⟩ := List.exists_cons_of_ne_nil hnil
  rw [hlength] at hpos
  have hstart := mem_starts_of_first? h
  have honly : ∀ u, all.filter (starts d) = [u] → t = u := by
    intro u hu
    exact List.mem_singleton.1 (hu ▸ hstart)
  refine first?_of_reach h hn fun u hu hreach => ?_
  cases hstarts : u.starts d with
  | false =>
    rw [List.cons_append, List.cons_append, length_eq_zero hstarts, length_eq_zero hstarts]
  | true =>
    cases hcontained : u.contained with
    | true => exact contained_append hcontained hreach hrest
    | false =>
      cases u with
      | doubleQuoted =>
        obtain rfl := eq_of_beq hstarts
        obtain rfl := honly doubleQuoted rfl
        have hclosed : quotedLength '\x22' ('\x22' :: ds ++ after) ≠ 0 := hpos
        exact quotedLength_of_reach (by decide) hclosed hreach rest
      | singleQuoted =>
        obtain rfl := eq_of_beq hstarts
        obtain rfl := honly singleQuoted rfl
        have hclosed : quotedLength '\x27' ('\x27' :: ds ++ after) ≠ 0 := hpos
        exact quotedLength_of_reach (by decide) hclosed hreach rest
      | blockComment =>
        have hopen' : ¬ ['/', '*'] <+: d :: ds ++ rest := by
          intro hslash
          have hword := prefix_of_breaks (by simp [isSpace]) hrest hslash
          exact hopen (hword.trans (List.prefix_append _ _))
        exact (blockCommentLength_eq_zero hopen').trans (blockCommentLength_eq_zero hopen).symm
      | lineComment =>
        -- A line comment would have been found in place of the token.
        have hnone : lineCommentLength (d :: ds ++ after) = 0 := by
          apply Decidable.byContradiction
          intro hne
          have hcomment := first?_comment (t := lineComment) (by simp) hne p.accepts
          obtain ⟨rfl, -⟩ := Prod.mk.inj (Option.some.inj (h.symm.trans hcomment))
          cases ht
        exact (lineCommentLength_breaks hnone hrest).trans hnone.symm
      | space =>
        obtain rfl := honly space (filter_starts_space hstarts)
        cases ht
      | openTag =>
        have haccept : p.accepts t = true := by simpa [ht] using accept_of_first? h
        obtain rfl := eq_openTag (by simpa [ignored] using hu) haccept hstarts hstart
        exact openTagLength_of_reach hpos hreach hrest
      | _ => cases hcontained

/-! ## Where tokens start and end -/

theorem Position.column_advance {cs : List Char} (h : '\n' ∉ cs) (pos : Position) :
    (pos.advance cs).column = pos.column + cs.length := by
  induction cs generalizing pos with
  | nil => rfl
  | cons c cs ih =>
    rw [List.mem_cons, not_or] at h
    have hstep : (pos.step c).column = pos.column + 1 := by
      simp [step, Ne.symm h.1]
    have hrest := ih h.2 (pos.step c)
    rw [hstep] at hrest
    rw [List.length_cons, Nat.add_comm cs.length, ← Nat.add_assoc]
    exact hrest

/-- Every character leads to another position. -/
theorem Position.eq_nil_of_advance {pos : Position} {cs : List Char} (h : pos.advance cs = pos) :
    cs = [] := by
  have hline := pos.line_advance cs
  rw [h] at hline
  have hcolumn := column_advance (List.count_eq_zero.1 (show cs.count '\n' = 0 by omega)) pos
  rw [h] at hcolumn
  exact List.eq_nil_of_length_eq_zero (by omega)

/-- A token starts or ends where `before` ends. -/
def Touches (here : Position) (before : List Char) (ts : List Token) : Prop :=
  ∃ t ∈ ts, here.advance before = t.pos ∨ here.advance before = t.pos.advance t.text.toList

section

variable {p p' p₁ q r : Parser} {here : Position} {cs before after : List Char}
  {ts ts' : List Token} {t : Terminal} {n : Nat}

theorem Terminal.length_take_of_first? {accept : Terminal → Bool}
    (h : first? accept cs = some (t, n)) : (cs.take n).length = n ∧ n ≠ 0 := by
  obtain ⟨hpos, rfl⟩ := ne_nil_of_first? h
  exact ⟨List.length_take_of_le (t.length_le cs), hpos⟩

theorem Terminal.take_ne_nil_of_first? {accept : Terminal → Bool}
    (h : first? accept cs = some (t, n)) : cs.take n ≠ [] := by
  obtain ⟨hlength, hpos⟩ := length_take_of_first? h
  exact List.ne_nil_of_length_pos (by omega)

/-- Tokens have texts, which stand at their positions, and none starts with a blank. -/
theorem Scanned.exists_pos (h : Scanned p here cs ts q) {token : Token} (ht : token ∈ ts) :
    ∃ way, way ++ token.text.toList <+: cs ∧ token.pos = here.advance way ∧
      token.text.toList ≠ [] ∧ (way = [] → cs.head?.any Terminal.isSpace = false) := by
  -- What stands further on stands after the text that is passed over.
  have hlater : ∀ {cs way text : List Char} {n : Nat}, way ++ text <+: cs.drop n →
      cs.take n ++ way ++ text <+: cs := by
    intro cs way text n hprefix
    have hwhole := (List.prefix_append_right_inj (cs.take n)).2 hprefix
    rwa [List.take_append_drop, ← List.append_assoc] at hwhole
  induction h with
  | nil => cases ht
  | @ignored p q here cs ts t n hfirst hignored h ih =>
    obtain ⟨way, hprefix, hpos, htext, -⟩ := ih ht
    refine ⟨cs.take n ++ way, hlater hprefix, by rw [hpos, Position.advance_append], htext,
      fun hway => ?_⟩
    exact absurd (List.append_eq_nil_iff.1 hway).1 (Terminal.take_ne_nil_of_first? hfirst)
  | @token p p' q here cs ts t n hfirst hignored hfeed h ih =>
    rcases List.mem_cons.1 ht with rfl | ht
    · refine ⟨[], ?_, rfl, ?_, fun _ => ?_⟩
      · rw [String.toList_ofList]
        exact List.take_prefix n cs
      · rw [String.toList_ofList]
        exact Terminal.take_ne_nil_of_first? hfirst
      · cases cs with
        | nil => rfl
        | cons c cs =>
          apply Bool.eq_false_iff.2
          intro hc
          have hspace := Terminal.first?_space hc p.accepts cs
          obtain ⟨rfl, -⟩ := Prod.mk.inj (Option.some.inj (hfirst.symm.trans hspace))
          cases hignored
    · obtain ⟨way, hprefix, hpos, htext, -⟩ := ih ht
      refine ⟨cs.take n ++ way, hlater hprefix, by rw [hpos, Position.advance_append], htext,
        fun hway => ?_⟩
      exact absurd (List.append_eq_nil_iff.1 hway).1 (Terminal.take_ne_nil_of_first? hfirst)

/-- No token that comes later touches a place before it. -/
theorem Scanned.not_touches {between : List Char}
    (h : Scanned p (here.advance (before ++ between)) cs ts q)
    (hbetween : between ≠ [] ∨ cs.head?.any Terminal.isSpace = true) :
    ¬ Touches here before ts := by
  rintro ⟨token, ht, htouches⟩
  obtain ⟨way, -, hpos, htext, hblank⟩ := h.exists_pos ht
  rw [Position.advance_append, ← Position.advance_append] at hpos
  rcases htouches with hstart | hend
  · have hnil := Position.eq_nil_of_advance (hpos.symm.trans hstart.symm)
    obtain ⟨rfl, rfl⟩ := List.append_eq_nil_iff.1 hnil
    rcases hbetween with hne | hspace
    · exact hne rfl
    · rw [hblank rfl] at hspace
      cases hspace
  · rw [hpos, ← Position.advance_append] at hend
    have hnil := Position.eq_nil_of_advance hend.symm
    exact htext (List.append_eq_nil_iff.1 hnil).2

/-! ## Reading up to a place -/

/-- Before `tail` the text `before` is read with some tokens, from one parser to another, and so it
is before every beginning of `tail` that breaks off. -/
def Stable (p p₁ : Parser) (here : Position) (before tail : List Char) (ts : List Token) : Prop :=
  ∀ {near far rest : List Char} {ts' : List Token} {r : Parser}, tail = near ++ far → Breaks rest →
    Scanned p₁ (here.advance before) (near ++ rest) ts' r →
      Scanned p here (before ++ (near ++ rest)) (ts ++ ts') r

theorem Stable.nil (p : Parser) (here : Position) (tail : List Char) :
    Stable p p here [] tail [] := fun _ _ h => h

/-- A comment that ends where it should is skipped. -/
theorem Scanned.comment {comment : List Char} (ht : t ∈ [.blockComment, .lineComment])
    (hcomment : comment ≠ []) (hlength : t.length (comment ++ cs) = comment.length)
    (h : Scanned p (here.advance comment) cs ts q) : Scanned p here (comment ++ cs) ts q := by
  have hne : t.length (comment ++ cs) ≠ 0 := by
    rw [hlength]
    exact fun hzero => hcomment (List.eq_nil_of_length_eq_zero hzero)
  have hignored : t.ignored = true := by
    simp only [List.mem_cons, List.not_mem_nil, or_false] at ht
    rcases ht with rfl | rfl <;> rfl
  refine .ignored (Terminal.first?_comment ht hne p.accepts) hignored ?_
  rwa [hlength, List.take_left, List.drop_left]

theorem LineComment.ne_nil {comment : List Char} (h : LineComment comment) : comment ≠ [] := by
  rintro rfl
  rcases h.1 with h | h <;> cases List.prefix_nil.1 h

theorem LineComment.head?_ne {comment : List Char} (h : LineComment comment) :
    comment.head?.all (· == '\n') = false := by
  obtain ⟨⟨cs, rfl⟩ | ⟨cs, rfl⟩, -⟩ := h <;> rfl

theorem LineComment.append {comment line : List Char} (h : LineComment comment)
    (hline : '\n' ∉ line) : LineComment (comment ++ line) := by
  refine ⟨h.1.imp (·.trans (List.prefix_append ..)) (·.trans (List.prefix_append ..)), ?_⟩
  rw [List.mem_append, not_or]
  exact ⟨h.2, hline⟩

theorem LineComment.scanned {comment : List Char} (hcomment : LineComment comment)
    (hcs : cs.head?.all (· == '\n') = true) (h : Scanned p (here.advance comment) cs ts q) :
    Scanned p here (comment ++ cs) ts q := by
  refine .comment (t := .lineComment) (by simp) hcomment.ne_nil ?_ h
  have hrun : Terminal.run (· != '\n') cs = 0 := by
    cases cs with
    | nil => rfl
    | cons c cs =>
      obtain rfl := eq_of_beq hcs
      rfl
  exact (Terminal.lineCommentLength_append hcomment cs).trans (by rw [hrun, Nat.add_zero])

theorem Terminal.lineComment_of_first? {accept : Terminal → Bool}
    (h : first? accept cs = some (.lineComment, n)) : LineComment (cs.take n) := by
  obtain ⟨hpos, rfl⟩ := ne_nil_of_first? h
  exact lineComment_take hpos

/-- After a line comment comes a line break. -/
theorem Terminal.head?_drop_lineComment {accept : Terminal → Bool}
    (h : first? accept cs = some (.lineComment, n)) :
    (cs.drop n).head?.all (· == '\n') = true := by
  have hlength : n = lineCommentLength cs := (ne_nil_of_first? h).2
  have hcomment := lineComment_of_first? h
  have htake : (cs.take n).length = n := (length_take_of_first? h).1
  rw [← List.take_append_drop n cs, lineCommentLength_append hcomment, htake, run] at hlength
  cases hrest : cs.drop n with
  | nil => rfl
  | cons c rest =>
    rw [hrest] at hlength
    cases hc : c != '\n' with
    | false => simpa using hc
    | true =>
      simp only [List.takeWhile_cons, hc, ↓reduceIte, List.length_cons] at hlength
      omega

theorem Stable.ignored {text tail : List Char}
    (hfirst : Terminal.first? (fun t => t.ignored || p.accepts t) (text ++ (before ++ tail)) =
      some (t, text.length))
    (ht : t.ignored = true) (hline : t = .lineComment → before ≠ [])
    (h : Stable p p₁ (here.advance text) before tail ts) :
    Stable p p₁ here (text ++ before) tail ts := by
  intro near far rest ts' r htail hrest hscanned
  rw [Position.advance_append] at hscanned
  have hnext := h htail hrest hscanned
  obtain ⟨hpos, hlength⟩ := Terminal.ne_nil_of_first? hfirst
  have htext : text ≠ [] := fun hnil => hpos (by rw [hnil]; rfl)
  have htake : (text ++ (before ++ tail)).take text.length = text := List.take_left
  rw [List.append_assoc]
  cases t with
  | blockComment =>
    refine .comment (t := .blockComment) (by simp) htext ?_ hnext
    rw [hlength] at hpos
    have hsame := Terminal.blockCommentLength_take_append hpos (before ++ (near ++ rest))
    change Terminal.blockCommentLength _ = _
    change text.length = Terminal.blockCommentLength _ at hlength
    rwa [← hlength, htake] at hsame
  | lineComment =>
    have hcomment := Terminal.lineComment_of_first? hfirst
    rw [htake] at hcomment
    refine hcomment.scanned ?_ hnext
    -- The rest goes on with the line break that ends the comment.
    obtain ⟨c, more, rfl⟩ := List.exists_cons_of_ne_nil (hline rfl)
    have hend := Terminal.head?_drop_lineComment hfirst
    rwa [List.drop_left] at hend
  | space =>
    refine .spaces (fun c hc => ?_) hnext
    generalize text ++ (before ++ tail) = whole at hlength htake
    have hblanks := List.prefix_iff_eq_take.1 (whole.takeWhile_prefix Terminal.isSpace)
    change text.length = (whole.takeWhile Terminal.isSpace).length at hlength
    rw [← hlength, htake] at hblanks
    exact List.all_eq_true.1 List.all_takeWhile c (hblanks ▸ hc)
  | _ => cases ht

theorem Scanned.of_token {text : List Char}
    (hfirst : Terminal.first? (fun t => t.ignored || p.accepts t) (text ++ cs) =
      some (t, text.length))
    (ht : t.ignored = false) (hfeed : p.feed ⟨t, String.ofList text, here⟩ = some p')
    (h : Scanned p' (here.advance text) cs ts q) :
    Scanned p here (text ++ cs) (⟨t, String.ofList text, here⟩ :: ts) q := by
  have hscanned : Scanned p here (text ++ cs)
      (⟨t, String.ofList ((text ++ cs).take text.length), here⟩ :: ts) q := by
    refine .token hfirst ht (?_ : _ = some p') ?_
    · rwa [List.take_left]
    · rwa [List.take_left, List.drop_left]
  rwa [List.take_left] at hscanned

theorem Stable.token {text tail : List Char}
    (hfirst : Terminal.first? (fun t => t.ignored || p.accepts t) (text ++ (before ++ tail)) =
      some (t, text.length))
    (ht : t.ignored = false) (hfeed : p.feed ⟨t, String.ofList text, here⟩ = some p')
    (hopen : ¬ ['/', '*'] <+: text ++ (before ++ tail))
    (h : Stable p' p₁ (here.advance text) before tail ts) :
    Stable p p₁ here (text ++ before) tail (⟨t, String.ofList text, here⟩ :: ts) := by
  intro near far rest ts' r htail hrest hscanned
  rw [Position.advance_append] at hscanned
  have hnext := h htail hrest hscanned
  have hparts : text ++ (before ++ tail) = text ++ (before ++ near) ++ far := by
    rw [htail, List.append_assoc, List.append_assoc]
  rw [hparts] at hfirst hopen
  have hfound := Terminal.first?_breaks hfirst ht (by simp) hopen hrest
  have hwhole : text ++ (before ++ near) ++ rest = text ++ (before ++ (near ++ rest)) := by
    simp only [List.append_assoc]
  rw [hwhole] at hfound
  rw [List.append_assoc]
  exact .of_token hfound ht hfeed hnext

/-- The first characters of a text end within its first part or go on into the second. -/
theorem take_of_append (hcs : cs = before ++ after) (n : Nat) :
    (∃ more, before = cs.take n ++ more ∧ cs.drop n = more ++ after) ∨
      ∃ beyond, beyond ≠ [] ∧ cs.take n = before ++ beyond := by
  subst hcs
  rcases Nat.lt_or_ge before.length n with hlt | hge
  · have htake : (before ++ after).take n = before ++ after.take (n - before.length) := by
      rw [List.take_append, List.take_of_length_le (Nat.le_of_lt hlt)]
    by_cases hbeyond : after.take (n - before.length) = []
    · obtain rfl := (List.take_eq_nil_iff.1 hbeyond).resolve_left (by omega)
      refine .inl ⟨[], by simpa using htake.symm, ?_⟩
      simp [Nat.le_of_lt hlt]
    · exact .inr ⟨_, hbeyond, htake⟩
  · refine .inl ⟨before.drop n, ?_, List.drop_append_of_le_length hge⟩
    rw [List.take_append_of_le_length hge, List.take_append_drop]

theorem touches_append {first : List Char} :
    Touches here (first ++ before) ts ↔ Touches (here.advance first) before ts := by
  simp only [Touches, Position.advance_append]

/-- A place later tokens touch is behind what is read first. -/
theorem Scanned.exists_more (h : Scanned p (here.advance (cs.take n)) (cs.drop n) ts q)
    (hle : n ≤ cs.length) (hcs : cs = before ++ after)
    (hplace : after = [] ∨ Touches here before ts) :
    ∃ more, before = cs.take n ++ more ∧ cs.drop n = more ++ after ∧
      (after = [] ∨ Touches (here.advance (cs.take n)) more ts) := by
  rcases take_of_append hcs n with ⟨more, rfl, hdrop⟩ | ⟨beyond, hbeyond, hlonger⟩
  · exact ⟨more, rfl, hdrop, hplace.imp_right touches_append.1⟩
  · exfalso
    rcases hplace with rfl | htouches
    · have hlength := congrArg List.length hlonger
      rw [List.append_nil] at hcs
      rw [List.length_take_of_le hle, List.length_append, ← hcs] at hlength
      exact hbeyond (List.eq_nil_of_length_eq_zero (by omega))
    · rw [hlonger] at h
      exact h.not_touches (.inl hbeyond) htouches

theorem eq_take_of_advance (hcs : cs = before ++ after)
    (h : here.advance before = here.advance (cs.take n)) : before = cs.take n := by
  rcases take_of_append hcs n with ⟨more, rfl, -⟩ | ⟨beyond, hbeyond, hlonger⟩
  · rw [Position.advance_append] at h
    rw [Position.eq_nil_of_advance h, List.append_nil]
  · rw [hlonger, Position.advance_append] at h
    exact absurd (Position.eq_nil_of_advance h.symm) hbeyond

/-- A place that a token or later ones touch is behind the token, or inside none. -/
theorem Scanned.exists_more_token {token : Token}
    (h : Scanned p (here.advance (cs.take n)) (cs.drop n) ts q) (hle : n ≤ cs.length)
    (hpos : token.pos = here) (htext : token.text = String.ofList (cs.take n))
    (hcs : cs = before ++ after) (hbefore : before ≠ [])
    (hplace : after = [] ∨ Touches here before (token :: ts)) :
    ∃ more, before = cs.take n ++ more ∧ cs.drop n = more ++ after ∧
      (more = [] ∨ after = [] ∨ Touches (here.advance (cs.take n)) more ts) := by
  by_cases hend : here.advance before = here.advance (cs.take n)
  · have htake := eq_take_of_advance hcs hend
    have hparts := hcs
    rw [← List.take_append_drop n cs, htake] at hparts
    exact ⟨[], by rw [htake, List.append_nil], List.append_cancel_left hparts, .inl rfl⟩
  · have hlater : after = [] ∨ Touches here before ts := by
      refine hplace.imp_right ?_
      rintro ⟨u, hmem, htouches⟩
      rcases List.mem_cons.1 hmem with rfl | hmem
      · rw [hpos, htext, String.toList_ofList] at htouches
        rcases htouches with hstart | hend'
        · exact absurd (Position.eq_nil_of_advance hstart) hbefore
        · exact absurd hend' hend
      · exact ⟨u, hmem, htouches⟩
    obtain ⟨more, hmore⟩ := h.exists_more hle hcs hlater
    exact ⟨more, hmore.1, hmore.2.1, .inr hmore.2.2⟩

/-- No token touches the end of a line comment, so only the end of the text can be there. -/
theorem Scanned.eq_nil_of_lineComment {accept : Terminal → Bool}
    (hfirst : Terminal.first? accept cs = some (.lineComment, n))
    (h : Scanned p (here.advance (cs.take n)) (cs.drop n) ts q) (hdrop : cs.drop n = after)
    (hmore : after = [] ∨ Touches (here.advance (cs.take n)) [] ts) : after = [] := by
  have hend := Terminal.head?_drop_lineComment hfirst
  rw [hdrop] at hend
  cases after with
  | nil => rfl
  | cons c after =>
    obtain rfl := eq_of_beq hend
    have hlater : Scanned p ((here.advance (cs.take n)).advance ([] ++ [])) (cs.drop n) ts q := h
    exact hmore.resolve_right (hlater.not_touches (.inr (by rw [hdrop]; rfl)))

/-- At the start, at the end, and where a token starts or ends, a text can be cut: what stands
before is read in the same way whatever follows, unless it ends in a line comment. -/
theorem Scanned.exists_cut (h : Scanned p here cs ts q) (hcs : cs = before ++ after)
    (hplace : before = [] ∨ after = [] ∨ Touches here before ts) :
    ∃ done comment p₁ ts₁ ts₂, before = done ++ comment ∧
      (comment = [] ∨ after = [] ∧ LineComment comment) ∧
      Stable p p₁ here done (comment ++ after) ts₁ ∧
      Scanned p₁ (here.advance done) (comment ++ after) ts₂ q := by
  induction h generalizing before with
  | @nil p here hfinish =>
    obtain ⟨rfl, rfl⟩ := List.append_eq_nil_iff.1 hcs.symm
    exact ⟨[], [], p, [], [], rfl, .inl rfl, Stable.nil p here [], .nil hfinish⟩
  | @ignored p q here cs ts t n hfirst ht h ih =>
    by_cases hbefore : before = []
    · subst hbefore
      obtain rfl : cs = after := hcs
      exact ⟨[], [], p, [], ts, rfl, .inl rfl, Stable.nil p here cs, .ignored hfirst ht h⟩
    obtain ⟨htake, hpos⟩ := Terminal.length_take_of_first? hfirst
    have hle : n ≤ cs.length := by rw [← htake, List.length_take]; omega
    obtain ⟨more, rfl, hdrop, hmore⟩ := h.exists_more hle hcs (hplace.resolve_left hbefore)
    by_cases hline : t = .lineComment ∧ more = []
    · obtain ⟨rfl, rfl⟩ := hline
      rw [List.nil_append] at hdrop
      obtain rfl := h.eq_nil_of_lineComment hfirst hdrop hmore
      have hcomment := Terminal.lineComment_of_first? hfirst
      rw [List.append_nil, List.append_nil] at hcs
      rw [List.append_nil, ← hcs]
      rw [← hcs] at hcomment
      refine ⟨[], cs, p, [], ts, rfl, .inr ⟨rfl, hcomment⟩, Stable.nil p here _, ?_⟩
      rw [List.append_nil]
      exact .ignored hfirst ht h
    · obtain ⟨done, comment, p₁, ts₁, ts₂, rfl, hcomment, hstable, hrest⟩ := ih hdrop (.inr hmore)
      refine ⟨cs.take n ++ done, comment, p₁, ts₁, ts₂, (List.append_assoc ..).symm, hcomment,
        hstable.ignored ?_ ht ?_, by rwa [Position.advance_append]⟩
      · rw [List.append_assoc] at hdrop
        rw [← hdrop, List.take_append_drop, htake]
        exact hfirst
      · rintro rfl rfl
        have hend := Terminal.head?_drop_lineComment hfirst
        rw [hdrop] at hend
        rcases hcomment with rfl | ⟨rfl, hcomment⟩
        · exact hline ⟨rfl, rfl⟩
        · rw [List.nil_append, List.append_nil, hcomment.head?_ne] at hend
          cases hend
  | @token p p' q here cs ts t n hfirst ht hfeed h ih =>
    by_cases hbefore : before = []
    · subst hbefore
      obtain rfl : cs = after := hcs
      exact ⟨[], [], p, [], _, rfl, .inl rfl, Stable.nil p here cs, .token hfirst ht hfeed h⟩
    obtain ⟨htake, hpos⟩ := Terminal.length_take_of_first? hfirst
    have hle : n ≤ cs.length := by rw [← htake, List.length_take]; omega
    obtain ⟨more, rfl, hdrop, hmore⟩ :=
      h.exists_more_token hle rfl rfl hcs hbefore (hplace.resolve_left hbefore)
    obtain ⟨done, comment, p₁, ts₁, ts₂, rfl, hcomment, hstable, hrest⟩ := ih hdrop hmore
    refine ⟨cs.take n ++ done, comment, p₁, _, ts₂, (List.append_assoc ..).symm, hcomment,
      hstable.token ?_ ht hfeed ?_, by rwa [Position.advance_append]⟩
    · rw [List.append_assoc] at hdrop
      rw [← hdrop, List.take_append_drop, htake]
      exact hfirst
    · rw [List.append_assoc] at hdrop
      rw [← hdrop, List.take_append_drop]
      exact Scanned.closed_of_token hfirst ht hfeed h

/-! ## What may stand between tokens -/

/-- Space, or a blank and a comment. -/
inductive Gap : List Char → Prop
  | blanks {space} (hne : space ≠ []) (hspace : ∀ c ∈ space, Terminal.isSpace c = true) : Gap space
  | block {c body} (hc : Terminal.isSpace c = true) (hbody : ¬ ['*', '/'] <:+: body) :
    Gap (c :: '/' :: '*' :: (body ++ ['*', '/']))
  | line {c comment} (hc : Terminal.isSpace c = true) (hcomment : LineComment comment) :
    Gap (c :: (comment ++ ['\n']))

variable {gap : List Char}

theorem Gap.breaks (hgap : Gap gap) (rest : List Char) : Breaks (gap ++ rest) := by
  cases hgap with
  | block hc hbody => exact hc
  | line hc hcomment => exact hc
  | blanks hne hspace =>
    obtain ⟨c, more, rfl⟩ := List.exists_cons_of_ne_nil hne
    exact hspace c List.mem_cons_self

/-- A gap is skipped. -/
theorem Gap.scanned (hgap : Gap gap) (h : Scanned p (here.advance gap) cs ts q) :
    Scanned p here (gap ++ cs) ts q := by
  cases hgap with
  | blanks hne hspace => exact .spaces hspace h
  | @block c body hc hbody =>
    refine .space hc ?_
    have hlength := Terminal.blockCommentLength_body hbody cs
    have hcomment : Scanned p (here.step c) (('/' :: '*' :: (body ++ ['*', '/'])) ++ cs) ts q := by
      refine .comment (t := .blockComment) (by simp) (List.cons_ne_nil _ _) ?_ h
      simpa [Terminal.length] using hlength
    exact hcomment
  | @line c comment hc hcomment =>
    refine .space hc ?_
    show Scanned p (here.step c) (comment ++ ['\n'] ++ cs) ts q
    rw [List.append_assoc]
    refine hcomment.scanned rfl (.space rfl ?_)
    rw [← List.cons_append, ← List.singleton_append, Position.advance_append,
      Position.advance_append] at h
    exact h

/-- A block comment in the gap starts on a line of its own or stays on one line. -/
def StaysInLine (gap : List Char) : Prop :=
  ∀ c body, gap = c :: '/' :: '*' :: (body ++ ['*', '/']) → c = '\n' ∨ '\n' ∉ body

/-- Behind a line comment, the comment takes the first line of a gap with it. -/
theorem Gap.scanned_comment {comment : List Char} (hgap : Gap gap) (hcomment : LineComment comment)
    (hstays : StaysInLine gap) (h : p.finish?.isSome = true) :
    Scanned p here (comment ++ gap) [] p := by
  -- The part of the gap that is left when its first line is part of the comment.
  obtain ⟨line, more, rfl, hline, hmore, hrest⟩ : ∃ line more, gap = line ++ more ∧ '\n' ∉ line ∧
      more.head?.all (· == '\n') = true ∧ ∀ here, Scanned p here more [] p := by
    have hwhole : gap.head?.all (· == '\n') = true → ∃ line more, gap = line ++ more ∧
        '\n' ∉ line ∧ more.head?.all (· == '\n') = true ∧ ∀ here, Scanned p here more [] p := by
      intro hhead
      refine ⟨[], gap, rfl, by simp, hhead, fun here => ?_⟩
      have hskipped : Scanned p here (gap ++ []) [] p := hgap.scanned (.nil h)
      rwa [List.append_nil] at hskipped
    cases hgap with
    | blanks hne hspace =>
      refine ⟨gap.takeWhile (· != '\n'), gap.dropWhile (· != '\n'),
        List.takeWhile_append_dropWhile.symm, ?_, ?_, fun here => ?_⟩
      · intro hmem
        have hn := List.all_eq_true.1 List.all_takeWhile _ hmem
        cases hn
      · have hhead := List.head?_dropWhile_not (· != '\n') gap
        cases hrest : (gap.dropWhile (· != '\n')).head? with
        | none => rfl
        | some c =>
          rw [hrest] at hhead
          simpa using hhead
      · have hskipped : Scanned p here (gap.dropWhile (· != '\n') ++ []) [] p :=
          .spaces (fun c hc => hspace c ((List.dropWhile_suffix _).subset hc)) (.nil h)
        rwa [List.append_nil] at hskipped
    | @block c body hc hbody =>
      by_cases hn : c = '\n'
      · exact hwhole (by simp [hn])
      · have hbody' := (hstays c body rfl).resolve_left hn
        refine ⟨_, [], (List.append_nil _).symm, ?_, rfl, fun here => .nil h⟩
        simp [Ne.symm hn, hbody']
    | @line c comment hc hcomment' =>
      by_cases hn : c = '\n'
      · exact hwhole (by simp [hn])
      · refine ⟨c :: comment, ['\n'], rfl, ?_, rfl, fun here => .space rfl (.nil h)⟩
        rw [List.mem_cons, not_or]
        exact ⟨Ne.symm hn, hcomment'.2⟩
  rw [← List.append_assoc]
  exact (hcomment.append hline).scanned hmore (hrest _)

end

/-! ## Trees -/

/-- The tree of a program without its places. -/
theorem Program.erase_of_toNode {p : Program} {ns : List Node} {n : Node}
    (hns : p.statements.mapM Stmt.toNode = .ok ns) (hn : p.toNode = .ok n) :
    n.erase = nodeAt .start "program"
      [("children", .list ((ns.map Node.erase).map .node)), ("errors", .list [])] := by
  have hfields : Node.mapPlaces (fun _ => Position.start.place)
      [("children", .list (ns.map .node)), ("errors", .list [])] =
        [("children", .list ((ns.map Node.erase).map .node)), ("errors", .list [])] := by
    simp [Node.mapPlaces, Datum.mapPlace, Datum.mapPlaces, mapPlaces_nodes, Node.erase]
  rw [toNode, hns] at hn
  cases hpos : p.pos? with
  | none =>
    rw [hpos] at hn
    obtain rfl := Except.ok.inj hn
    rw [Node.erase, Node.mapPlace, hfields]
    rfl
  | some pos =>
    rw [hpos] at hn
    obtain rfl := Except.ok.inj hn
    rw [Node.erase, nodeAt, Node.mapPlace, hfields]
    rfl

/-- Programs that differ in their positions only have trees that differ in their places only. -/
theorem Program.toNode_of_erase {p p' : Program} {n : Node}
    (h : p'.statements.map (Stmt.mapPos fun _ => .start) =
      p.statements.map (Stmt.mapPos fun _ => .start)) (hn : p.toNode = .ok n) :
    ∃ n', p'.toNode = .ok n' ∧ n'.erase = n.erase := by
  have hmoved (ss : List Stmt) : (ss.map (Stmt.mapPos fun _ => .start)).mapM Stmt.toNode =
      relocate (fun _ => .start) (List.map Node.erase) (ss.mapM Stmt.toNode) :=
    relocate_mapM (Stmt.toNode_mapPos (f := fun _ => Position.start.place) fun _ => rfl) ss
  obtain ⟨ns, hns, -⟩ := exists_of_bind_eq_ok hn
  have hsame := hmoved p'.statements
  rw [h, hmoved, hns] at hsame
  obtain ⟨ns', hns', herase⟩ : ∃ ns', p'.statements.mapM Stmt.toNode = .ok ns' ∧
      ns'.map Node.erase = ns.map Node.erase := by
    cases hns' : p'.statements.mapM Stmt.toNode with
    | error fault =>
      rw [hns'] at hsame
      cases hsame
    | ok ns' =>
      rw [hns'] at hsame
      exact ⟨ns', rfl, (Except.ok.inj hsame).symm⟩
  obtain ⟨n', hn'⟩ := Program.exists_toNode p'.pos? hns'
  refine ⟨n', hn', ?_⟩
  rw [erase_of_toNode hns' hn', erase_of_toNode hns hn, herase]

/-- What is read at one position is read at another, positions aside. -/
theorem Scanned.exists_moved {p q : Parser} {here : Position} {cs : List Char} {ts : List Token}
    (h : Scanned p here cs ts q) (there : Position) :
    ∃ ts' q', Scanned p there cs ts' q' ∧ q'.erase = q.erase := by
  have hsame := scan_of_erase (p := p) rfl here here there there cs
  rw [h.read] at hsame
  cases hread : Source.read p there there cs with
  | error e =>
    rw [hread] at hsame
    cases hsame
  | ok q' =>
    rw [hread] at hsame
    exact ⟨_, q', scanned_of_read hread, (Option.some.inj hsame).symm⟩

/-- Nothing is taken of a line comment, and the text may end before it if it may end there. -/
theorem LineComment.of_scanned {p q : Parser} {here : Position} {comment : List Char}
    {ts : List Token} (hcomment : LineComment comment) (h : Scanned p here comment ts q) :
    q = p ∧ p.finish?.isSome = true := by
  have hlength := Terminal.lineCommentLength_append hcomment []
  rw [List.append_nil] at hlength
  have hne : Terminal.lineComment.length comment ≠ 0 := by
    intro hzero
    exact hcomment.ne_nil (List.eq_nil_of_length_eq_zero (hlength.symm.trans hzero))
  have hfound := Terminal.first?_comment (by simp) hne p.accepts
  cases h with
  | nil => exact absurd rfl hcomment.ne_nil
  | ignored hfirst ht h =>
    obtain ⟨rfl, rfl⟩ := Prod.mk.inj (Option.some.inj (hfound.symm.trans hfirst))
    have hrest : comment.drop (Terminal.lineComment.length comment) = [] :=
      List.drop_of_length_le (Nat.le_of_eq hlength.symm)
    rw [hrest] at h
    cases h with
    | nil hfinish => exact ⟨rfl, hfinish⟩
    | ignored hfirst => cases (Terminal.take_ne_nil_of_first? hfirst) List.take_nil
    | token hfirst => cases (Terminal.take_ne_nil_of_first? hfirst) List.take_nil
  | token hfirst ht =>
    obtain ⟨rfl, -⟩ := Prod.mk.inj (Option.some.inj (hfound.symm.trans hfirst))
    cases ht

/-- A text that is read to the same end as another one, positions aside, has the same tree, places
aside. -/
theorem Scanned.exists_tree {text text' : String} {ts ts' : List Token} {q q' : Parser} {n : Node}
    (h : Scanned .init .start text.toList ts q) (hn : tree text = .ok n)
    (h' : Scanned .init .start text'.toList ts' q') (herase : q'.erase = q.erase) :
    ∃ n', tree text' = .ok n' ∧ n'.erase = n.erase := by
  rw [tree, h.parse] at hn
  rw [tree, h'.parse]
  refine Program.toNode_of_erase ?_ hn
  have hdone : q'.done.map (Stmt.mapPos fun _ => .start) =
      q.done.map (Stmt.mapPos fun _ => .start) := congrArg Parser.done herase
  rw [List.map_reverse, List.map_reverse, hdone]

/-- Whether a text ends in a line comment: without it, it is a text that is read to its end. -/
def EndsInComment (text : String) : Prop :=
  ∃ done comment : String, text = done ++ comment ∧ LineComment comment.toList ∧
    (parse done).isOk = true

/-- At the start or the end of a text, or where one of its tokens starts or ends. -/
def AtToken (before after : String) : Prop :=
  before = "" ∨ after = "" ∨
    Touches .start before.toList (tokens .init .start (before ++ after).toList)

/-- Space and comments between the tokens of a text, before the first and after the last one change
the positions of its tree and nothing else. At the end of a text that ends in a line comment, a
block comment has to start on a line of its own or stay on one line. -/
theorem tree_insert {before gap after : String} {n : Node} (h : tree (before ++ after) = .ok n)
    (hplace : AtToken before after) (hgap : Gap gap.toList)
    (hend : after = "" → EndsInComment before → StaysInLine gap.toList) :
    ∃ n', tree (before ++ gap ++ after) = .ok n' ∧ n'.erase = n.erase := by
  obtain ⟨program, hprogram, -⟩ := exists_of_tree h
  obtain ⟨q, hq, -⟩ := scanned_of_parse hprogram
  have hplace' : before.toList = [] ∨ after.toList = [] ∨
      Touches .start before.toList (tokens .init .start (before ++ after).toList) :=
    hplace.imp (by simp) (.imp (by simp) id)
  obtain ⟨done, comment, p₁, ts₁, ts₂, hbefore, hcomment, hstable, hrest⟩ :=
    hq.exists_cut String.toList_append hplace'
  have hwhole : (before ++ gap ++ after).toList =
      done ++ (comment ++ (gap.toList ++ after.toList)) := by
    simp only [String.toList_append, hbefore, List.append_assoc]
  rcases hcomment with rfl | ⟨hafter, hcomment⟩
  · -- The gap stands between two tokens, and what follows is read further on.
    obtain ⟨ts', q', hmoved, herase⟩ :=
      hrest.exists_moved ((Position.start.advance done).advance gap.toList)
    have hread : Scanned .init .start (before ++ gap ++ after).toList (ts₁ ++ ts') q' := by
      rw [hwhole]
      exact hstable rfl (hgap.breaks after.toList) (hgap.scanned hmoved)
    exact hq.exists_tree h hread herase
  · -- The text ends in a comment, which takes the first line of the gap with it.
    rw [hafter, List.append_nil] at hrest hstable
    rw [hafter, List.append_nil] at hwhole
    obtain ⟨rfl, hfinish⟩ := hcomment.of_scanned hrest
    have hends : EndsInComment before := by
      have hdone : Scanned .init .start (String.ofList done).toList (ts₁ ++ []) q := by
        rw [String.toList_ofList, ← List.append_nil done]
        exact hstable (List.nil_append comment).symm rfl (.nil hfinish)
      refine ⟨String.ofList done, String.ofList comment, ?_, by rwa [String.toList_ofList], ?_⟩
      · rw [← String.toList_inj, String.toList_append, String.toList_ofList, String.toList_ofList,
          hbefore]
      · rw [hdone.parse]
        rfl
    have hstays := hend (by simpa using hafter) hends
    have hread : Scanned .init .start (before ++ gap ++ after).toList (ts₁ ++ []) q := by
      rw [hwhole]
      exact hstable (List.append_nil comment).symm (by simpa using hgap.breaks [])
        (hgap.scanned_comment hcomment hstays hfinish)
    exact hq.exists_tree h hread rfl

/-- A block comment of two lines inside a power. -/
theorem tree_insert_block :
    ∃ n n', tree ("<?php $a=2**" ++ "-.5;#") = .ok n ∧ AtToken "<?php $a=2**" "-.5;#" ∧
      Gap "\t/* **\n#*/".toList ∧
      tree ("<?php $a=2**" ++ "\t/* **\n#*/" ++ "-.5;#") = .ok n' ∧ n'.erase = n.erase := by
  have hok : (tree ("<?php $a=2**" ++ "-.5;#")).isOk = true := by decide +kernel
  have hplace : AtToken "<?php $a=2**" "-.5;#" := by
    unfold AtToken Touches
    decide +kernel
  have hbody : ¬ ['*', '/'] <:+: " **\n#".toList := by decide
  have hgap : Gap "\t/* **\n#*/".toList := .block (c := '\t') rfl hbody
  cases hn : tree ("<?php $a=2**" ++ "-.5;#") with
  | error e =>
    rw [hn] at hok
    cases hok
  | ok n =>
    obtain ⟨n', hn', herase⟩ := tree_insert hn hplace hgap (fun hend => absurd hend (by decide))
    exact ⟨n, n', rfl, hplace, hgap, hn', herase⟩

/-- Behind a line comment the start of a block comment is part of it, and its end is not. -/
theorem tree_insert_swallowed :
    (tree ("1;//" ++ "")).isOk = true ∧ AtToken "1;//" "" ∧ Gap " /*\n*/".toList ∧
      (tree ("1;//" ++ " /*\n*/" ++ "")).isOk = false := by
  have hbody : ¬ ['*', '/'] <:+: ['\n'] := by decide
  have hgap : Gap " /*\n*/".toList := .block (c := ' ') rfl hbody
  exact ⟨by decide +kernel, .inr (.inl rfl), hgap, by decide +kernel⟩

end PhpInterpreter.Source
