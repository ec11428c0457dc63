import PhpInterpreter.Proofs.Source.Lexeme
import PhpInterpreter.Proofs.Source.Position
import PhpInterpreter.Proofs.Source.Step

/-!
Reading laid-out tokens. A text of tokens with space between them is read by feeding the tokens to
the parser one after the other, wherever each of them is still one token before what follows.
-/

namespace PhpInterpreter.Source

/-! ## Steps of the reader -/

section

variable {p q : Parser} {here last : Position} {cs : List Char} {t : Terminal} {n : Nat}

theorem Terminal.ne_nil_of_first? {accept : Terminal → Bool}
    (h : Terminal.first? accept cs = some (t, n)) : n ≠ 0 ∧ n = t.length cs := by
  rw [Terminal.first?_eq_find?] at h
  obtain ⟨u, hu, heq⟩ := Option.map_eq_some_iff.1 h
  obtain ⟨rfl, rfl⟩ := Prod.mk.inj heq
  have hlength := List.find?_some hu
  simp_all

theorem read_ignored (h : Terminal.first? (fun t => t.ignored || p.accepts t) cs = some (t, n))
    (ht : t.ignored = true) :
    read p here last cs = read p (here.advance (cs.take n)) last (cs.drop n) := by
  obtain ⟨hn, hlength⟩ := Terminal.ne_nil_of_first? h
  obtain ⟨n, rfl⟩ := Nat.exists_eq_succ_of_ne_zero hn
  cases cs with
  | nil =>
    have hle := t.length_le []
    rw [List.length_nil] at hle
    omega
  | cons c cs =>
    rw [read, h]
    simp only [ht, ↓reduceIte, Nat.succ_eq_add_one, Nat.add_sub_cancel, List.drop_succ_cons]

theorem read_token (h : Terminal.first? (fun t => t.ignored || p.accepts t) cs = some (t, n))
    (ht : t.ignored = false) (hq : p.feed ⟨t, String.ofList (cs.take n), here⟩ = some q) :
    read p here last cs = read q (here.advance (cs.take n)) here (cs.drop n) := by
  obtain ⟨hn, hlength⟩ := Terminal.ne_nil_of_first? h
  obtain ⟨n, rfl⟩ := Nat.exists_eq_succ_of_ne_zero hn
  cases cs with
  | nil =>
    have hle := t.length_le []
    rw [List.length_nil] at hle
    omega
  | cons c cs =>
    rw [read, h]
    simp only [ht, hq, Nat.succ_eq_add_one, Nat.add_sub_cancel, List.drop_succ_cons]
    rfl

/-- Nothing but space starts with a blank. -/
theorem Terminal.filter_starts_space {c : Char} (hc : isSpace c = true) :
    all.filter (starts c) = [space] := by
  have hmem : c ∈ [' ', '\t', '\x0c', '\r', '\n'] := by
    simpa [isSpace, or_assoc] using hc
  simp only [List.mem_cons, List.not_mem_nil, or_false] at hmem
  rcases hmem with rfl | rfl | rfl | rfl | rfl <;> decide

/-- Only space matches at a blank. -/
theorem Terminal.first?_space {c : Char} (hc : isSpace c = true) (accept : Terminal → Bool)
    (cs : List Char) : first? (fun t => t.ignored || accept t) (c :: cs) =
      some (space, run isSpace (c :: cs)) := by
  rw [first?_cons, filter_starts_space hc, List.find?_cons_of_pos]
  · rfl
  · simp [ignored, length, run, hc]

/-- Space is skipped one character at a time. -/
theorem read_space {c : Char} (hc : Terminal.isSpace c = true) :
    read p here last (c :: cs) = read p (here.step c) last cs := by
  rw [read_ignored (Terminal.first?_space hc _ cs) rfl, Terminal.run,
    List.takeWhile_cons_of_pos hc, List.length_cons, List.take_succ_cons, List.drop_succ_cons]
  cases cs with
  | nil => rfl
  | cons d cs =>
    cases hd : Terminal.isSpace d with
    | true =>
      rw [read_ignored (Terminal.first?_space hd _ cs) rfl]
      rfl
    | false =>
      rw [List.takeWhile_cons_of_neg (by simp [hd])]
      rfl

end

/-! ## Reading without positions -/

def Expr.erase (e : Expr) : Expr := e.mapPos fun _ => .start

theorem Expr.erase_erase (e : Expr) : e.erase.erase = e.erase := Expr.mapPos_mapPos _ _ e

def Parser.erase (p : Parser) : Parser := p.mapPos fun _ => .start

theorem Parser.accepts_of_erase {p q : Parser} (h : p.erase = q.erase) : p.accepts = q.accepts := by
  funext t
  rw [← accepts_mapPos (fun _ => .start) p, ← accepts_mapPos (fun _ => .start) q]
  exact congrArg (Parser.accepts · t) h

theorem Parser.feed_of_erase {p q : Parser} (h : p.erase = q.erase) (terminal : Terminal)
    (text : String) (here there : Position) :
    (p.feed ⟨terminal, text, here⟩).map Parser.erase =
      (q.feed ⟨terminal, text, there⟩).map Parser.erase := by
  have hp := feed_mapPos (fun _ => .start) p ⟨terminal, text, here⟩
  have hq := feed_mapPos (fun _ => .start) q ⟨terminal, text, there⟩
  exact hp.symm.trans ((congrArg (Parser.feed · ⟨terminal, text, .start⟩) h).trans hq)

/-- What a text is read to, positions aside; none if it is not read to its end. -/
def scan (p : Parser) (cs : List Char) : Option Parser :=
  (read p .start .start cs).toOption.map Parser.erase

/-- Where the text stands makes no difference to what it is read to. -/
theorem scan_of_erase {p q : Parser} (h : p.erase = q.erase) (here last there final : Position)
    (cs : List Char) :
    (read p here last cs).toOption.map Parser.erase =
      (read q there final cs).toOption.map Parser.erase := by
  revert q there final
  fun_induction read p here last cs with
  | case1 p here last program hprogram =>
    intro q h there final
    have hq : q.finish?.isSome = true := by
      rw [← Parser.finish?_mapPos (fun _ => .start) q, ← Parser.erase, ← h, Parser.erase,
        Parser.finish?_mapPos, hprogram]
      rfl
    obtain ⟨program', hprogram'⟩ := Option.isSome_iff_exists.1 hq
    rw [read, hprogram']
    exact congrArg some h
  | case2 p here last hprogram =>
    intro q h there final
    have hq : q.finish?.isSome = false := by
      rw [← Parser.finish?_mapPos (fun _ => .start) q, ← Parser.erase, ← h, Parser.erase,
        Parser.finish?_mapPos, hprogram]
      rfl
    rw [read, Option.isNone_iff_eq_none.1 (Option.isSome_eq_false_iff.1 hq)]
    rfl
  | case3 p here last c rest hfirst =>
    intro q h there final
    rw [Parser.accepts_of_erase h] at hfirst
    rw [read, hfirst]
    rfl
  | case4 p here last c rest terminal n hfirst text after hignored =>
    rename_i ih
    intro q h there final
    rw [Parser.accepts_of_erase h] at hfirst
    rw [read, hfirst]
    simp only [hignored, ↓reduceIte]
    exact ih h _ _
  | case5 p here last c rest terminal n hfirst text hignored =>
    rename_i hfeed
    intro q h there final
    have hfeed' := Parser.feed_of_erase h terminal (String.ofList ((c :: rest).take n)) here there
    rw [hfeed, Option.map_none, eq_comm, Option.map_eq_none_iff] at hfeed'
    rw [Parser.accepts_of_erase h] at hfirst
    rw [read, hfirst]
    simp only [hignored, hfeed']
    rfl
  | case6 p here last c rest terminal n hfirst text after hignored p' hfeed =>
    rename_i ih
    intro q h there final
    have hfeed' := Parser.feed_of_erase h terminal (String.ofList ((c :: rest).take n)) here there
    rw [hfeed, Option.map_some, eq_comm] at hfeed'
    obtain ⟨q', hq', herase⟩ := Option.map_eq_some_iff.1 hfeed'
    rw [Parser.accepts_of_erase h] at hfirst
    rw [read, hfirst]
    simp only [hignored, hq']
    exact ih herase.symm _ _

variable {p q : Parser} {cs : List Char}

theorem read_eq_scan (here last : Position) :
    (read p here last cs).toOption.map Parser.erase = scan p cs :=
  scan_of_erase rfl here last .start .start cs

theorem scan_space {c : Char} (hc : Terminal.isSpace c = true) : scan p (c :: cs) = scan p cs := by
  rw [scan, read_space hc, read_eq_scan]

theorem scan_nil (h : p.finish?.isSome = true) : scan p [] = some p.erase := by
  obtain ⟨program, hprogram⟩ := Option.isSome_iff_exists.1 h
  rw [scan, read, hprogram]
  rfl

/-! ## What the parser takes -/

namespace Parser

theorem operandAccepts_of_primary {t : Terminal} (h : startsPrimary t = true)
    (frames : List Frame) : operandAccepts frames t = true := by
  have hoperand : startsOperand t = true := by
    cases t <;> first | rfl | cases h
  unfold operandAccepts
  split <;> simp [h, hoperand]

theorem TakesOperand.accepts {context : Context} {frames : List Frame} {t : Token} {phase : Phase}
    (h : TakesOperand context t frames phase) : operandAccepts frames t.terminal = true := by
  cases h with
  | leaf he =>
    have hprimary : startsPrimary t.terminal = true := by
      cases he with
      | «variable» ht | number ht | null ht => rw [ht]; rfl
      | string ht =>
        simp only [List.mem_cons, List.not_mem_nil, or_false] at ht
        rcases ht with ht | ht <;> rw [ht] <;> rfl
      | @boolean b ht => rw [ht]; cases b <;> rfl
    exact operandAccepts_of_primary hprimary frames
  | group ht | bracket ht | array ht => exact operandAccepts_of_primary (by rw [ht]; rfl) frames
  | sign ht haccepts => exact haccepts
  | reference ht | append ht => rw [ht]; rfl
  | @item _ _ done _ ht | @keyed _ _ done _ _ ht =>
    rw [ht]
    cases done <;> rfl
  | @close _ short done _ ht =>
    rw [ht]
    cases done <;> cases short <;> rfl

theorem TakesEnd.follows {o : Operand} {terminal : Terminal} {frames : List Frame}
    {context : Context} {r : Outcome} (h : TakesEnd o terminal frames context r) :
    followsOperand terminal = true := by
  cases h with
  | @close _ short => cases short <;> rfl
  | _ => rfl

theorem TakesOperator.follows {context : Context} {frames : List Frame} {o : Operand} {t : Token}
    {r : Outcome} (h : TakesOperator context frames o t r) : followsOperand t.terminal = true := by
  cases h with
  | binary hop =>
    unfold binaryOp? at hop
    split at hop <;> first | cases hop | (rename_i ht; rw [ht]; rfl)
  | assign _ hop =>
    unfold assignOp? at hop
    split at hop
    · rename_i ht
      rw [ht]
      rfl
    · rename_i ht
      rw [ht]
      rfl
    · cases hop
  | subscript _ _ ht => rw [ht]; rfl
  | ends _ _ _ h => exact h.follows

theorem TakesStatement.starts {t : Token} {phase : Phase} (h : TakesStatement t phase) :
    (startsStatement t.terminal || t.terminal == .closeTag) = true := by
  cases h with
  | empty ht | global ht | echo ht | unset ht | close ht => rw [ht]; rfl
  | operand h =>
    have haccepts := h.accepts
    revert haccepts
    cases t.terminal <;> decide

/-- A token the parser takes is one it looked for. -/
theorem accepts_of_feed {t : Token} (h : p.feed t = some q) : p.accepts t.terminal = true := by
  obtain ⟨pos?, done, phase⟩ := p
  cases feeds_of_eq h with
  | moves hmoves =>
    cases hmoves with
    | start h => simp only [accepts, Bool.or_right_comm, h.starts, Bool.true_or]
    | statement h => exact h.starts
    | operand h => exact h.accepts
    | operator h => exact h.follows
    | openTag ht | arrayParen ht | globalName ht | globalComma ht | unsetParen ht | unsetName ht
    | unsetComma ht | unsetClose ht | unsetMore ht | unsetMoreClose ht => simp [accepts, ht]
  | finishes hfinishes =>
    cases hfinishes with
    | operator h => exact h.follows
    | global ht | unset ht => simp [accepts, ht]

/-- Space and comments are never taken. -/
theorem ignored_of_feed {t : Token} (h : p.feed t = some q) : t.terminal.ignored = false := by
  obtain ⟨terminal, text, pos⟩ := t
  obtain ⟨pos?, done, phase⟩ := p
  cases terminal with
  | blockComment | lineComment | space =>
    cases phase with
    | operator context frames o =>
      simp [feed, takeOperator, binaryOp?, assignOp?, takeEnd] at h
    | _ => cases h
  | _ => rfl

end Parser

/-! ## Tokens one after the other -/

/-- A text as a token. -/
def Token.ofText (text : String) : Token := ⟨Terminal.ofText text, text, .start⟩

/-- The parser after the tokens of some texts. -/
def Parser.feedAll (p : Parser) (texts : List String) : Option Parser :=
  texts.foldlM (fun p text => p.feed (Token.ofText text)) p

/-- A text that lays out tokens: space may stand between them, and each is still one token before
what follows. -/
inductive Layout : List String → List Char → Prop
  | nil : Layout [] []
  | space {texts cs c} (hc : Terminal.isSpace c = true) (h : Layout texts cs) :
    Layout texts (c :: cs)
  | token {text texts cs} (htext : Terminal.Lexes text cs) (h : Layout texts cs) :
    Layout (text :: texts) (text.toList ++ cs)

theorem scan_token {text : String} (h : Terminal.Lexes text cs)
    (hq : p.feed (Token.ofText text) = some q) : scan p (text.toList ++ cs) = scan q cs := by
  have haccepts := Parser.accepts_of_feed hq
  have hfirst : Terminal.first? (fun t => t.ignored || p.accepts t) (text.toList ++ cs) =
      some (Terminal.ofText text, text.length) := by
    refine Terminal.first?_of_first h (fun _ _ => rfl) ?_
    rw [Bool.or_eq_true]
    exact .inr haccepts
  have htake : (text.toList ++ cs).take text.length = text.toList := by
    rw [← String.length_toList, List.take_left]
  have hdrop : (text.toList ++ cs).drop text.length = cs := by
    rw [← String.length_toList, List.drop_left]
  rw [scan, read_token hfirst (Parser.ignored_of_feed hq) (q := q), hdrop, read_eq_scan]
  rw [htake, String.ofList_toList]
  exact hq

/-- A laid-out text is read by feeding its tokens. -/
theorem Layout.scan {texts : List String} (h : Layout texts cs) (hq : p.feedAll texts = some q)
    (hfinish : q.finish?.isSome = true) : scan p cs = some q.erase := by
  induction h generalizing p with
  | nil =>
    obtain rfl := Option.some.inj hq
    exact scan_nil hfinish
  | space hc h ih => rw [scan_space hc, ih hq]
  | token htext h ih =>
    obtain ⟨p', hp', hq'⟩ := Option.bind_eq_some_iff.1 hq
    rw [scan_token htext hp', ih hq']

theorem Parser.finish?_eq (h : p.finish?.isSome = true) :
    p.finish? = some ⟨p.pos?, p.done.reverse⟩ := by
  unfold finish? at h ⊢
  split at h <;> first | rfl | cases h

/-- A laid-out text is the program of the statements its tokens make. -/
theorem Layout.parse {texts : List String} {text : String} (h : Layout texts text.toList)
    (hq : Parser.init.feedAll texts = some q) (hfinish : q.finish?.isSome = true) :
    ∃ program, Source.parse text = .ok program ∧
      program.statements.map (Stmt.mapPos fun _ => .start) =
        q.done.reverse.map (Stmt.mapPos fun _ => .start) := by
  have hscan := h.scan hq hfinish
  rw [Source.scan] at hscan
  obtain ⟨p', hread, herase⟩ := Option.map_eq_some_iff.1 hscan
  have hok : read .init .start .start text.toList = .ok p' := by
    cases hresult : read .init .start .start text.toList with
    | error e => simp [hresult, Except.toOption] at hread
    | ok p => simpa [hresult, Except.toOption] using hread
  have hsome := (read_sound Parser.init_sound hok).2
  have hdone : p'.done.map (Stmt.mapPos fun _ => .start) =
      q.done.map (Stmt.mapPos fun _ => .start) := congrArg Parser.done herase
  refine ⟨⟨p'.pos?, p'.done.reverse⟩, ?_, ?_⟩
  · simp only [Source.parse, hok, Parser.finish?_eq hsome, Option.getD_some]
  · rw [List.map_reverse, List.map_reverse, hdone]

end PhpInterpreter.Source
