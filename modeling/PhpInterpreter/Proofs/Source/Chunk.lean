import PhpInterpreter.Proofs.Source.Relocation
import PhpInterpreter.Proofs.Source.Scan

/-!
Source texts one after the other. A line break after a text that is read to its end changes no token
of it, and a text without tags is read after another one as it is read alone, further down.
-/

namespace PhpInterpreter.Source

/-! ## Extents before a line break -/

namespace Terminal

variable {c : Char} {cs : List Char}

/-- A closed quote stays as it is, whatever follows. -/
theorem quotedLength_append {quote : Char} (hquote : quote ≠ '\\') (h : quotedLength quote cs ≠ 0)
    (rest : List Char) : quotedLength quote (cs ++ rest) = quotedLength quote cs := by
  have htext := quotedLength_take_append hquote (cs.drop (quotedLength quote cs) ++ rest) h
  rwa [← List.append_assoc, List.take_append_drop] at htext

theorem closingComment_append (h : closingComment cs ≠ 0) (rest : List Char) :
    closingComment (cs ++ rest) = closingComment cs := by
  fun_induction closingComment cs with
  | case1 | case3 => exact absurd rfl h
  | case2 cs => rfl
  | case4 d cs hend hcs ih =>
    have hend' : ∀ ds, d = '*' → cs ++ rest ≠ '/' :: ds := by
      rintro ds rfl heq
      cases cs with
      | nil => exact hcs rfl
      | cons x xs => exact hend xs rfl (by rw [(List.cons.inj heq).1])
    rw [List.cons_append, closingComment, ih hcs]
    · split <;> simp_all
    · exact hend'

/-- A closed comment stays as it is, whatever follows. -/
theorem blockCommentLength_append (h : blockCommentLength cs ≠ 0) (rest : List Char) :
    blockCommentLength (cs ++ rest) = blockCommentLength cs := by
  unfold blockCommentLength at h
  split at h
  · rename_i cs
    have hcs : closingComment cs ≠ 0 := by
      intro hcs
      simp [hcs] at h
    simp only [List.cons_append, blockCommentLength, closingComment_append hcs]
  · exact absurd rfl h

theorem blockCommentLength_line (h : ¬ ['/', '*'] <+: cs) (rest : List Char) :
    blockCommentLength (cs ++ '\n' :: rest) = blockCommentLength cs := by
  match cs with
  | [] => rfl
  | [d] => simp [blockCommentLength]
  | d :: e :: cs =>
    have hde : ¬ (d = '/' ∧ e = '*') := by
      rintro ⟨rfl, rfl⟩
      exact h (List.prefix_append ['/', '*'] cs)
    unfold blockCommentLength
    split <;> split <;> simp_all

theorem lineCommentLength_line (cs rest : List Char) :
    lineCommentLength (cs ++ '\n' :: rest) = lineCommentLength cs := by
  match cs with
  | [] => rfl
  | '#' :: cs => exact congrArg (1 + ·) (run_append rfl cs rest)
  | [d] => by_cases hd : d = '#' <;> simp [lineCommentLength, hd, run]
  | d :: e :: cs =>
    by_cases hslashes : d = '/' ∧ e = '/'
    · obtain ⟨rfl, rfl⟩ := hslashes
      exact congrArg (2 + ·) (run_append rfl cs rest)
    · by_cases hd : d = '#'
      · subst hd
        exact congrArg (1 + ·) (run_append rfl (e :: cs) rest)
      · unfold lineCommentLength
        split <;> split <;> simp_all

/-- Terminals that need not see past a line break. -/
theorem length_line {t : Terminal} (ht : t ∉ [doubleQuoted, singleQuoted, blockComment, space])
    (cs rest : List Char) : t.length (cs ++ '\n' :: rest) = t.length cs := by
  cases hcompact : t.compact with
  | true => exact length_append hcompact rfl cs rest
  | false =>
    cases t with
    | lineComment => exact lineCommentLength_line cs rest
    | comma | closeParen | closeBracket | semicolon => exact oneOf_append (by decide) cs rest
    | doubleQuoted | singleQuoted | blockComment | space => simp at ht
    | _ => cases hcompact

theorem mem_starts_of_first? {accept : Terminal → Bool} {t : Terminal} {n : Nat}
    (h : first? accept (c :: cs) = some (t, n)) : t ∈ all.filter (starts c) := by
  rw [first?_cons] at h
  obtain ⟨u, hu, heq⟩ := Option.map_eq_some_iff.1 h
  obtain ⟨rfl, -⟩ := Prod.mk.inj heq
  exact List.mem_of_find?_eq_some hu

theorem accept_of_first? {accept : Terminal → Bool} {t : Terminal} {n : Nat}
    (h : first? accept cs = some (t, n)) : accept t = true := by
  rw [first?_eq_find?] at h
  obtain ⟨u, hu, heq⟩ := Option.map_eq_some_iff.1 h
  obtain ⟨rfl, -⟩ := Prod.mk.inj heq
  have haccept := List.find?_some hu
  exact (Bool.and_eq_true_iff.1 haccept).1

/-- What is found before a line break is found if the text goes on, unless an unclosed comment
starts there. -/
theorem first?_line {accept : Terminal → Bool} {t : Terminal} {n : Nat}
    (h : first? accept cs = some (t, n)) (hspace : t ≠ space)
    (hcomment : blockCommentLength cs ≠ 0 ∨ ¬ ['/', '*'] <+: cs) (rest : List Char) :
    first? accept (cs ++ '\n' :: rest) = some (t, n) := by
  obtain ⟨hn, hlength⟩ := ne_nil_of_first? h
  rw [hlength] at hn
  cases cs with
  | nil => exact absurd (Nat.le_zero.1 (t.length_le [])) hn
  | cons d ds =>
    have honly : ∀ u, all.filter (starts d) = [u] → t = u := by
      intro u hu
      exact List.mem_singleton.1 (hu ▸ mem_starts_of_first? h)
    rw [← h]
    refine first?_congr fun u hu => ?_
    have hstarts : u.starts d = true := (List.mem_filter.1 hu).2
    by_cases hmem : u ∈ [doubleQuoted, singleQuoted, blockComment, space]
    · simp only [List.mem_cons, List.not_mem_nil, or_false] at hmem
      rcases hmem with rfl | rfl | rfl | rfl
      · obtain rfl := eq_of_beq hstarts
        obtain rfl := honly doubleQuoted rfl
        have hclosed : quotedLength '\x22' ('\x22' :: ds) ≠ 0 := hn
        exact quotedLength_append (by decide) hclosed _
      · obtain rfl := eq_of_beq hstarts
        obtain rfl := honly singleQuoted rfl
        have hclosed : quotedLength '\x27' ('\x27' :: ds) ≠ 0 := hn
        exact quotedLength_append (by decide) hclosed _
      · rcases hcomment with hclosed | hopen
        · exact blockCommentLength_append hclosed _
        · exact blockCommentLength_line hopen rest
      · exact absurd (honly space (filter_starts_space hstarts)) hspace
    · exact length_line hmem (d :: ds) rest

end Terminal

/-! ## Texts read token by token -/

/-- The tokens that are read of a text, up to where reading stops. -/
def tokens (p : Parser) (here : Position) : List Char → List Token
  | [] => []
  | c :: rest =>
    match Terminal.first? (fun t => t.ignored || p.accepts t) (c :: rest) with
    | none => []
    | some (terminal, n) =>
      let text := (c :: rest).take n
      if terminal.ignored then tokens p (here.advance text) (rest.drop (n - 1))
      else
        let token : Token := ⟨terminal, String.ofList text, here⟩
        match p.feed token with
        | none => []
        | some p => token :: tokens p (here.advance text) (rest.drop (n - 1))
termination_by cs => cs.length
decreasing_by all_goals simp only [List.length_drop, List.length_cons]; omega

/-- No token of the text is a tag. -/
def Tagless (text : String) : Prop :=
  ∀ t ∈ tokens .init .start text.toList, t.terminal ≠ .openTag ∧ t.terminal ≠ .closeTag

instance (text : String) : Decidable (Tagless text) :=
  inferInstanceAs (Decidable (∀ t ∈ tokens .init .start text.toList, _))

/-- A text that is read to its end, from one parser to another, with its tokens. -/
inductive Scanned : Parser → Position → List Char → List Token → Parser → Prop
  | nil {p here} (h : p.finish?.isSome = true) : Scanned p here [] [] p
  | ignored {p q here cs ts t n}
      (hfirst : Terminal.first? (fun t => t.ignored || p.accepts t) cs = some (t, n))
      (ht : t.ignored = true) (h : Scanned p (here.advance (cs.take n)) (cs.drop n) ts q) :
      Scanned p here cs ts q
  | token {p p' q here cs ts t n}
      (hfirst : Terminal.first? (fun t => t.ignored || p.accepts t) cs = some (t, n))
      (ht : t.ignored = false) (hfeed : p.feed ⟨t, String.ofList (cs.take n), here⟩ = some p')
      (h : Scanned p' (here.advance (cs.take n)) (cs.drop n) ts q) :
      Scanned p here cs (⟨t, String.ofList (cs.take n), here⟩ :: ts) q

section

variable {p p' q r : Parser} {here last : Position} {cs cs' : List Char} {ts ts' : List Token}
  {t : Terminal} {n : Nat}

theorem Terminal.drop_of_first? {accept : Terminal → Bool} {c : Char}
    (h : Terminal.first? accept (c :: cs) = some (t, n)) : (c :: cs).drop n = cs.drop (n - 1) := by
  obtain ⟨n, rfl⟩ := Nat.exists_eq_succ_of_ne_zero (ne_nil_of_first? h).1
  rfl

/-- What the reader reads to the end has its tokens. -/
theorem scanned_of_read (h : read p here last cs = .ok q) :
    Scanned p here cs (tokens p here cs) q := by
  fun_induction read p here last cs with
  | case1 p here last program hprogram =>
    obtain rfl := Except.ok.inj h
    rw [tokens]
    exact .nil (by rw [hprogram]; rfl)
  | case2 | case3 | case5 => cases h
  | case4 p here last c rest terminal n hfirst text after hignored =>
    rename_i ih
    rw [tokens, hfirst]
    simp only [hignored, ↓reduceIte]
    refine .ignored hfirst hignored ?_
    rw [Terminal.drop_of_first? hfirst]
    exact ih h
  | case6 p here last c rest terminal n hfirst text after hignored p' hfeed =>
    rename_i ih
    rw [tokens, hfirst]
    simp only [hignored, Bool.false_eq_true, ↓reduceIte]
    rw [hfeed]
    refine .token hfirst (by simpa using hignored) hfeed ?_
    rw [Terminal.drop_of_first? hfirst]
    exact ih h

theorem Scanned.finish? (h : Scanned p here cs ts q) : q.finish?.isSome = true := by
  induction h with
  | nil h => exact h
  | ignored hfirst ht h ih => exact ih
  | token hfirst ht hfeed h ih => exact ih

theorem Scanned.read (h : Scanned p here cs ts q) (last : Position) :
    read p here last cs = .ok q := by
  induction h generalizing last with
  | nil h =>
    obtain ⟨program, hprogram⟩ := Option.isSome_iff_exists.1 h
    rw [Source.read, hprogram]
  | ignored hfirst ht h ih => rw [read_ignored hfirst ht, ih]
  | token hfirst ht hfeed h ih => rw [read_token hfirst ht hfeed, ih]

theorem Scanned.parse {text : String} (h : Scanned .init .start text.toList ts q) :
    Source.parse text = .ok ⟨q.pos?, q.done.reverse⟩ := by
  simp only [Source.parse, h.read, Parser.finish?_eq h.finish?, Option.getD_some]

theorem scanned_of_parse {text : String} {program : Program} (h : parse text = .ok program) :
    ∃ q, Scanned .init .start text.toList (tokens .init .start text.toList) q ∧
      program = ⟨q.pos?, q.done.reverse⟩ := by
  cases hread : read .init .start .start text.toList with
  | error e =>
    rw [parse, hread] at h
    cases h
  | ok q =>
    have hscanned := scanned_of_read hread
    rw [hscanned.parse] at h
    exact ⟨q, hscanned, (Except.ok.inj h).symm⟩

/-! ## A line break and more text -/

/-- Space is skipped one character at a time. -/
theorem Scanned.space {c : Char} (hc : Terminal.isSpace c = true)
    (h : Scanned p (here.step c) cs ts q) : Scanned p here (c :: cs) ts q := by
  refine .ignored (Terminal.first?_space hc _ cs) rfl ?_
  rw [Terminal.run, List.takeWhile_cons_of_pos hc, List.length_cons, List.take_succ_cons,
    List.drop_succ_cons]
  cases cs with
  | nil => exact h
  | cons d cs =>
    cases hd : Terminal.isSpace d with
    | false =>
      rw [List.takeWhile_cons_of_neg (by simp [hd])]
      exact h
    | true =>
      -- The blanks of the rest are skipped with this one.
      have hspace := Terminal.first?_space hd p.accepts cs
      cases h with
      | ignored hfirst ht h =>
        obtain ⟨rfl, rfl⟩ := Prod.mk.inj (Option.some.inj (hspace.symm.trans hfirst))
        exact h
      | token hfirst ht hfeed h =>
        obtain ⟨rfl, rfl⟩ := Prod.mk.inj (Option.some.inj (hspace.symm.trans hfirst))
        cases ht

theorem Scanned.spaces {blanks : List Char} (hblanks : ∀ c ∈ blanks, Terminal.isSpace c = true)
    (h : Scanned p (here.advance blanks) cs ts q) : Scanned p here (blanks ++ cs) ts q := by
  induction blanks generalizing here with
  | nil => exact h
  | cons c blanks ih =>
    obtain ⟨hc, hblanks⟩ := List.forall_mem_cons.1 hblanks
    exact .space hc (ih hblanks h)

/-- A division sign is followed by an operand. -/
theorem Parser.phase_of_feed_productOp {text : String} {pos : Position}
    (h : p.feed ⟨.productOp, text, pos⟩ = some p') :
    ∃ context left op frames, p'.phase = .operand context (.binary left op :: frames) := by
  obtain ⟨pos?, done, phase⟩ := p
  cases phase with
  | operator context frames o =>
    simp only [feed, takeOperator, assignOp?] at h
    cases hop : binaryOp? ⟨.productOp, text, pos⟩ with
    | none => simp [hop, takeEnd] at h
    | some op =>
      simp only [hop] at h
      by_cases hadmits : admitsOperator (reduce (completes op) frames o).1 = true
      · simp only [hadmits, ↓reduceIte, Option.some.injEq] at h
        subst h
        exact ⟨_, _, _, _, rfl⟩
      · simp [hadmits] at h
  | _ => cases h

/-- Where a comment starts that is not closed, nothing is read. -/
theorem Scanned.closed_of_token
    (hfirst : Terminal.first? (fun t => t.ignored || p.accepts t) cs = some (t, n))
    (ht : t.ignored = false) (hfeed : p.feed ⟨t, String.ofList (cs.take n), here⟩ = some p')
    (h : Scanned p' (here.advance (cs.take n)) (cs.drop n) ts q) : ¬ ['/', '*'] <+: cs := by
  rintro ⟨cs, rfl⟩
  obtain ⟨hn, hlength⟩ := Terminal.ne_nil_of_first? hfirst
  obtain ⟨rfl, rfl⟩ : t = .productOp ∧ n = 1 := by
    have hmem : t ∈ [.blockComment, .lineComment, .assignOp, .productOp] :=
      Terminal.mem_starts_of_first? hfirst
    simp only [List.mem_cons, List.not_mem_nil, or_false] at hmem
    rcases hmem with rfl | rfl | rfl | rfl
    · cases ht
    · cases ht
    · exact absurd hlength hn
    · exact ⟨rfl, hlength⟩
  obtain ⟨context, left, op, frames, hphase⟩ := Parser.phase_of_feed_productOp hfeed
  have hnone : Terminal.first? (fun t => t.ignored || p'.accepts t) ('*' :: cs) = none := by
    have hstar : Terminal.all.filter (Terminal.starts '*') =
      [.assignOp, .powerOp, .productOp] := rfl
    rw [Terminal.first?_cons, hstar]
    simp [Terminal.ignored, Parser.accepts, hphase, Parser.operandAccepts,
      Parser.startsOperand, Parser.startsPrimary]
  cases h with
  | ignored hfirst => cases hnone.symm.trans hfirst
  | token hfirst => cases hnone.symm.trans hfirst

theorem Position.advance_append (here : Position) (cs cs' : List Char) :
    here.advance (cs ++ cs') = (here.advance cs).advance cs' := List.foldl_append

/-- A text that is read to its end is read to the same parser if a line break and more text
follow. -/
theorem Scanned.append (h : Scanned p here cs ts q)
    (h' : Scanned q (here.advance (cs ++ ['\n'])) cs' ts' r) :
    Scanned p here (cs ++ '\n' :: cs') (ts ++ ts') r := by
  induction h with
  | nil hfinish => exact .space rfl h'
  | @ignored p q here cs ts t n hfirst ht h ih =>
    obtain ⟨hn, rfl⟩ := Terminal.ne_nil_of_first? hfirst
    have hle := t.length_le cs
    rw [← List.take_append_drop (t.length cs) cs, List.append_assoc, Position.advance_append] at h'
    have hrest := ih h'
    by_cases hspace : t = .space
    · subst hspace
      rw [← List.take_append_drop (Terminal.space.length cs) cs, List.append_assoc]
      refine .spaces (fun c hc => ?_) hrest
      have hblanks := List.prefix_iff_eq_take.1 (cs.takeWhile_prefix Terminal.isSpace)
      exact List.all_eq_true.1 List.all_takeWhile c (hblanks ▸ hc)
    · have hcomment : Terminal.blockCommentLength cs ≠ 0 ∨ ¬ ['/', '*'] <+: cs := by
        cases t with
        | blockComment => exact .inl hn
        | lineComment =>
          refine .inr ?_
          rintro ⟨cs, rfl⟩
          exact hn rfl
        | space => exact absurd rfl hspace
        | _ => cases ht
      refine .ignored (Terminal.first?_line hfirst hspace hcomment cs') ht ?_
      rwa [List.take_append_of_le_length hle, List.drop_append_of_le_length hle]
  | @token p p' q here cs ts t n hfirst ht hfeed h ih =>
    have hclosed := Scanned.closed_of_token hfirst ht hfeed h
    obtain ⟨hn, rfl⟩ := Terminal.ne_nil_of_first? hfirst
    have hle := t.length_le cs
    rw [← List.take_append_drop (t.length cs) cs, List.append_assoc, Position.advance_append] at h'
    have hrest := ih h'
    have hspace : t ≠ .space := by
      rintro rfl
      cases ht
    have htake : (cs ++ '\n' :: cs').take (t.length cs) = cs.take (t.length cs) :=
      List.take_append_of_le_length hle
    rw [← htake] at hfeed hrest ⊢
    rw [← List.drop_append_of_le_length hle] at hrest
    exact .token (Terminal.first?_line hfirst hspace (.inr hclosed) cs') ht hfeed hrest

/-! ## A text further down -/

/-- The position some lines further down. -/
def Position.down (k : Nat) (pos : Position) : Position := ⟨pos.line + k, pos.column⟩

theorem Position.down_step (k : Nat) (pos : Position) (c : Char) :
    (pos.step c).down k = (pos.down k).step c := by
  simp only [step, down]
  split <;> simp [Nat.add_right_comm]

theorem Position.down_advance (k : Nat) (pos : Position) (cs : List Char) :
    (pos.advance cs).down k = (pos.down k).advance cs := by
  induction cs generalizing pos with
  | nil => rfl
  | cons c cs ih => exact (ih (pos.step c)).trans (congrArg (advance · cs) (down_step k pos c))

theorem Position.line_advance (pos : Position) (cs : List Char) :
    (pos.advance cs).line = pos.line + cs.count '\n' := by
  induction cs generalizing pos with
  | nil => rfl
  | cons c cs ih =>
    rw [List.count_cons, ← Nat.add_assoc, Nat.add_right_comm]
    refine (ih (pos.step c)).trans (congrArg (· + _) ?_)
    simp only [step]
    split <;> rfl

/-- The number of lines of a text. -/
def lineCount (text : String) : Nat := text.toList.count '\n' + 1

/-- A line break after a text leads to the start of a line. -/
theorem Position.advance_line (cs : List Char) :
    start.advance (cs ++ ['\n']) = start.down (cs.count '\n' + 1) := by
  have hstep : (start.advance (cs ++ ['\n'])) = ⟨(start.advance cs).line + 1, 1⟩ :=
    advance_append start cs ['\n']
  rw [hstep, line_advance]
  rfl

/-- Further down a text is read in the same way. -/
theorem Scanned.down (k : Nat) (h : Scanned p here cs ts q) :
    Scanned (p.mapPos (.down k)) (here.down k) cs (ts.map (Token.mapPos (.down k)))
      (q.mapPos (.down k)) := by
  have haccepts : ∀ p : Parser, (p.mapPos (.down k)).accepts = p.accepts :=
    fun p => funext (Parser.accepts_mapPos _ p)
  induction h with
  | nil h => exact .nil (by rwa [Parser.finish?_mapPos])
  | ignored hfirst ht h ih =>
    rw [Position.down_advance] at ih
    exact .ignored (by rwa [haccepts]) ht ih
  | token hfirst ht hfeed h ih =>
    rw [Position.down_advance] at ih
    refine .token (by rwa [haccepts]) ht ?_ ih
    exact (Parser.feed_mapPos (.down k) _ _).trans (congrArg (Option.map _) hfeed)

/-! ## A text after another one -/

namespace Parser

/-- The parser that has read `p`'s text after `r`'s. -/
structure Resumes (r p p' : Parser) : Prop where
  pos? : p'.pos? = r.pos?.or p.pos?
  done : p'.done = p.done ++ r.done
  phase : p'.phase = p.phase ∨ p.phase = .start ∧ p'.phase = .statement

/-- What a token leads to depends on the phase only. -/
theorem feed_eq_map (p : Parser) (t : Token) :
    p.feed t = ((⟨none, [], p.phase⟩ : Parser).feed t).map fun q =>
      ⟨p.pos?.or (some t.pos), q.done ++ p.done, q.phase⟩ := by
  obtain ⟨pos?, done, phase⟩ := p
  cases phase with
  | start =>
    simp only [feed]
    split
    · rfl
    · cases takeStatement t <;> rfl
  | statement =>
    simp only [feed]
    cases takeStatement t <;> rfl
  | closed => rfl
  | operand context frames =>
    simp only [feed]
    cases takeOperand context frames t <;> rfl
  | operator context frames o =>
    simp only [feed]
    cases takeOperator context frames o t with
    | none => rfl
    | some r => cases r <;> rfl
  | _ =>
    simp only [feed]
    split <;> rfl

variable {t : Token}

/-- What is looked for in a text is looked for in a later text, open tags apart. -/
theorem Resumes.first? {t : Terminal} (h : Resumes r p p')
    (hfirst : Terminal.first? (fun t => t.ignored || p.accepts t) cs = some (t, n))
    (hopen : t ≠ .openTag) :
    Terminal.first? (fun t => t.ignored || p'.accepts t) cs = some (t, n) := by
  rcases h.phase with hphase | ⟨hp, hp'⟩
  · have haccepts : p'.accepts = p.accepts := by
      funext u
      rw [accepts, accepts, hphase]
    rwa [haccepts]
  · have haccepts : ∀ u, p.accepts u = (p'.accepts u || u == .openTag) := by
      intro u
      simp only [accepts, hp, hp', Bool.or_right_comm]
    have ht := Terminal.accept_of_first? hfirst
    refine Terminal.first?_of_first hfirst (fun u hu => ?_) ?_
    · rw [haccepts, ← Bool.or_assoc, hu, Bool.true_or]
    · simpa [haccepts, hopen] using ht

theorem Resumes.feed (h : Resumes r p p') (hopen : t.terminal ≠ .openTag)
    (hq : p.feed t = some q) : ∃ q', p'.feed t = some q' ∧ Resumes r q q' := by
  have hfresh : (⟨none, [], p'.phase⟩ : Parser).feed t = (⟨none, [], p.phase⟩ : Parser).feed t := by
    rcases h.phase with hphase | ⟨hp, hp'⟩
    · rw [hphase]
    · simp [Parser.feed, hp, hp', hopen]
  rw [feed_eq_map] at hq
  obtain ⟨q₀, hq₀, rfl⟩ := Option.map_eq_some_iff.1 hq
  refine ⟨⟨p'.pos?.or (some t.pos), q₀.done ++ p'.done, q₀.phase⟩, ?_, ?_, ?_, .inl rfl⟩
  · rw [feed_eq_map, hfresh, hq₀, Option.map_some]
  · rw [h.pos?, Option.or_assoc]
  · rw [h.done, List.append_assoc]

theorem Resumes.finish? (h : Resumes r p p') (hp : p.finish?.isSome = true) :
    p'.finish?.isSome = true := by
  rcases h.phase with hphase | ⟨-, hp'⟩
  · rw [Parser.finish?, hphase]
    rw [Parser.finish?] at hp
    split at hp
    · rfl
    · rfl
    · rfl
    · cases hp
  · simp [Parser.finish?, hp']

theorem phase_of_finish? (h : p.finish?.isSome = true) (hp : p.phase ≠ .closed) :
    p.phase = .start ∨ Phase.start = .start ∧ p.phase = .statement := by
  rw [Parser.finish?] at h
  split at h
  · exact .inl ‹_›
  · exact .inr ⟨rfl, ‹_›⟩
  · exact absurd ‹_› hp
  · cases h

theorem TakesEnd.ne_closed {o : Operand} {terminal : Terminal} {frames : List Frame}
    {context : Context} {r : Outcome} (h : TakesEnd o terminal frames context r) :
    r ≠ .next .closed := by
  cases h <;> nofun

theorem TakesStatement.ne_closed {phase : Phase} (h : TakesStatement t phase)
    (hclose : t.terminal ≠ .closeTag) : phase ≠ .closed := by
  rintro rfl
  cases h with
  | close ht => exact hclose ht
  | operand h => cases h

/-- Only a close tag closes a text. -/
theorem phase_ne_closed (h : p.feed t = some q) (hclose : t.terminal ≠ .closeTag) :
    q.phase ≠ .closed := by
  obtain ⟨pos?, done, phase⟩ := p
  cases feeds_of_eq h with
  | moves hmoves =>
    rintro rfl
    cases hmoves with
    | start h | statement h => exact h.ne_closed hclose rfl
    | operand h => cases h
    | operator h =>
      cases h with
      | ends _ _ _ h => exact h.ne_closed rfl
  | finishes => exact nofun

end Parser

theorem Scanned.phase_ne_closed (h : Scanned p here cs ts q)
    (hts : ∀ t ∈ ts, t.terminal ≠ .closeTag) (hp : p.phase ≠ .closed) : q.phase ≠ .closed := by
  induction h with
  | nil h => exact hp
  | ignored hfirst ht h ih => exact ih hts hp
  | token hfirst ht hfeed h ih =>
    obtain ⟨hclose, hts⟩ := List.forall_mem_cons.1 hts
    exact ih hts (Parser.phase_ne_closed hfeed hclose)

/-- A text without open tag is read after another one as it is read alone. -/
theorem Scanned.resume (h : Scanned p here cs ts q) (hts : ∀ t ∈ ts, t.terminal ≠ .openTag)
    (hp : Parser.Resumes r p p') : ∃ q', Scanned p' here cs ts q' ∧ Parser.Resumes r q q' := by
  induction h generalizing p' with
  | nil h => exact ⟨p', .nil (hp.finish? h), hp⟩
  | @ignored p q here cs ts t n hfirst ht h ih =>
    obtain ⟨q', hq', hresumes⟩ := ih hts hp
    refine ⟨q', .ignored (hp.first? hfirst ?_) ht hq', hresumes⟩
    rintro rfl
    cases ht
  | @token p p₁ q here cs ts t n hfirst ht hfeed h ih =>
    obtain ⟨hopen, hts⟩ := List.forall_mem_cons.1 hts
    obtain ⟨p₁', hfeed', hp₁⟩ := hp.feed hopen hfeed
    obtain ⟨q', hq', hresumes⟩ := ih hts hp₁
    exact ⟨q', .token (hp.first? hfirst hopen) ht hfeed' hq', hresumes⟩

end

/-- Two texts without tags, the second on the lines after the first, are read as the statements of
the first and those of the second, further down. -/
theorem parse_append {s₁ s₂ : String} {p₁ p₂ : Program} (h₁ : parse s₁ = .ok p₁)
    (h₂ : parse s₂ = .ok p₂) (ht₁ : Tagless s₁) (ht₂ : Tagless s₂) :
    parse (s₁ ++ "\n" ++ s₂) = .ok ⟨p₁.pos?.or (p₂.pos?.map (.down (lineCount s₁))),
      p₁.statements ++ p₂.statements.map (Stmt.mapPos (.down (lineCount s₁)))⟩ := by
  obtain ⟨q₁, hq₁, rfl⟩ := scanned_of_parse h₁
  obtain ⟨q₂, hq₂, rfl⟩ := scanned_of_parse h₂
  have hopened : q₁.phase ≠ .closed :=
    hq₁.phase_ne_closed (fun t ht => (ht₁ t ht).2) (by exact nofun)
  have hresumes : Parser.Resumes q₁ .init q₁ :=
    ⟨Option.or_none.symm, rfl, Parser.phase_of_finish? hq₁.finish? hopened⟩
  have hopen : ∀ t ∈ (tokens .init .start s₂.toList).map (Token.mapPos (.down (lineCount s₁))),
      t.terminal ≠ .openTag := by
    intro t ht
    obtain ⟨u, hu, rfl⟩ := List.mem_map.1 ht
    exact (ht₂ u hu).1
  obtain ⟨q, hq, hresumed⟩ := (hq₂.down _).resume hopen hresumes
  rw [lineCount, ← Position.advance_line] at hq
  have htext : (s₁ ++ "\n" ++ s₂).toList = s₁.toList ++ '\n' :: s₂.toList := by simp
  have hscanned := hq₁.append hq
  rw [← htext] at hscanned
  rw [hscanned.parse, hresumed.pos?, hresumed.done]
  simp only [Parser.mapPos, List.reverse_append, List.map_reverse]

end PhpInterpreter.Source
