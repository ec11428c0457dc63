import PhpInterpreter.Proofs.Machine.Chunk
import PhpInterpreter.Proofs.Machine.Quiet
import PhpInterpreter.Proofs.Source.LineEnd
import PhpInterpreter.Shell

/-!
Programs submitted to the shell. A line that is no command runs as a program does on the machine
the shell has: it ends in the same machine, writes the same and stops with the same error. What
runs is the line without its invisible characters, and that is the line itself unless one of them
stands inside a token, or elsewhere than at the end of a line.
-/

namespace PhpInterpreter

/-! ## What was written before -/

/-- A machine that has written and logged this much more at the start. -/
def Machine.resumed (m : Machine) (output : String) (log : List Diagnostic) : Machine :=
  { m with output := output ++ m.output, log := log ++ m.log }

/-- The second run starts with nothing written and nothing logged. -/
def Comparison.afresh (output : String) (log : List Diagnostic) : Comparison where
  toTranscript := .after .same log []
  bond := Guard.none.bond
  outputs s s' := s = output ++ s'
  outputs_append := by
    rintro _ s' later rfl
    exact String.append_assoc ..

namespace Comparison

variable {output : String} {log : List Diagnostic} {m m' : Machine}

theorem Tied.quiet (m : Machine) : (afresh m.output m.log).Tied m (Shell.quiet m) := by
  have hsame : (guarding .none (.after .same m.log m.log)).Tied m m :=
    .start trivial (Transcript.logs_after ..)
  exact ⟨hsame.envs, hsame.held, String.append_empty.symm, hsame.stack, Transcript.logs_after ..⟩

theorem Tied.afresh_eq (hm : (afresh output log).Tied m m') : m = m'.resumed output log := by
  obtain ⟨later, hlog, hlog'⟩ := hm.log
  obtain ⟨env, stack, held, written, logged⟩ := m
  obtain ⟨env', stack', held', written', logged'⟩ := m'
  have hstack : stack = stack' := Item.eq_of_forall₂_alike hm.stack
  have hheld : held = held' := View.eq_of_forall₂_alike hm.held
  have henv : env' = env := hm.envs.1
  have hwritten : written = output ++ written' := hm.output
  have hlater : logged' = later := by
    rw [Renumbering.remark_same, List.map_id] at hlog'
    exact hlog'
  subst hstack hheld henv hwritten hlater
  rw [Machine.resumed, Machine.mk.injEq]
  exact ⟨rfl, rfl, rfl, rfl, hlog⟩

end Comparison

/-- What was written and logged before statements run makes no difference to them. -/
theorem Run.statements_outcome (ts : List Term) (m : Machine) :
    (statements ts .null).outcome m =
      (((statements ts .null).outcome (Shell.quiet m)).1,
        ((statements ts .null).outcome (Shell.quiet m)).2.resumed m.output m.log) := by
  have hboth := (Comparison.Tied.quiet m).statements (v := .null)
    (Q := fun v w t t' => v = w ∧ (Comparison.afresh m.output m.log).Tied t t')
    (fun t (_ : t ∈ ts) => t.globalsIn_true) fun _ _ _ ht => ⟨rfl, ht⟩
  have hmove : ts.map (Comparison.afresh m.output m.log).move = ts := by
    have hid : (Comparison.afresh m.output m.log).move = id := funext Term.mapPlace_id
    rw [hid, List.map_id]
  rw [hmove] at hboth
  rcases paired_iff.1 hboth with ⟨v, w, t, t', hr, hr', rfl, ht⟩ | ⟨f, f', t, t', hr, hr', hf, ht⟩
  · rw [outcome, outcome, hr, hr']
    exact congrArg (Prod.mk _) ht.afresh_eq
  · obtain rfl : f' = f := hf.trans (Renumbering.fault_same f)
    rw [outcome, outcome, hr, hr']
    exact congrArg (Prod.mk _) ht.afresh_eq

/-- What was written and logged before a program runs makes no difference to it. -/
theorem Machine.interpret_eq (m : Machine) (text : String) :
    m.interpret text = (((Shell.quiet m).interpret text).1,
      ((Shell.quiet m).interpret text).2.resumed m.output m.log) := by
  unfold Machine.interpret
  cases htree : Source.tree text with
  | error e => simp [Shell.quiet, Machine.resumed]
  | ok n =>
    obtain ⟨p, -, hn⟩ := Source.exists_of_tree htree
    obtain ⟨head, ns, -, -, hterm⟩ := Source.Program.toTerm_toNode hn
    simp only [Machine.execute, Node.run_eq hterm]
    rw [Run.statements_outcome]

/-! ## Answers -/

namespace Shell

/-- The result of a program is shown or not: its tree has statements. -/
theorem exists_resultText {text : String} {n : Node} (h : Source.tree text = .ok n) (v : Value) :
    ∃ shown, resultText n v = .ok shown := by
  obtain ⟨p, -, hn⟩ := Source.exists_of_tree h
  obtain ⟨head, ns, -, hfield, -⟩ := Source.Program.toTerm_toNode hn
  unfold resultText Node.showsResult
  rw [hfield]
  dsimp only [Except.map]
  split
  · exact ⟨_, rfl⟩
  · exact ⟨_, rfl⟩
  · cases ‹Except.ok _ = Except.error _›

/-- The answer tells how a run of the text, from the shell's machine, ended: what the run wrote,
then the value if it is one to be shown, what it logged, and its error. The shell goes on with the
machine of the run, unless the error is none of the language. -/
def Reports (sh : Shell) (text : String) (run : Except Failure Value × Machine)
    (answer : Reply × Except Failure Shell) : Prop :=
  ∃ m : Machine, run.2 = m.resumed sh.machine.output sh.machine.log ∧
    match run.1 with
    | .ok v => ∃ n shown, Source.tree text = .ok n ∧ resultText n v = .ok shown ∧
      answer = (⟨false, m.output ++ shown, sh.settings.logText m.log⟩, .ok { sh with machine := m })
    | .error f =>
      match f.report? with
      | some report =>
        answer = (⟨false, m.output, sh.settings.logText m.log ++ sh.settings.errorText report⟩,
          .ok { sh with machine := m })
      | none => answer = (⟨false, m.output, sh.settings.logText m.log⟩, .error f)

/-- A failed run is answered with its error. -/
theorem reports_fail {sh : Shell} {text : String} {m : Machine} {f : Failure} :
    sh.Reports text (.error f, m.resumed sh.machine.output sh.machine.log)
      (fail { sh with machine := m } f) := by
  refine ⟨m, rfl, ?_⟩
  dsimp only [fail]
  split <;> simp_all

/-- A program is answered with its run. -/
theorem reports_evaluate (sh : Shell) (text : String) :
    sh.Reports text (sh.machine.interpret text) (sh.evaluate text) := by
  rw [Machine.interpret_eq]
  unfold evaluate Machine.interpret
  cases htree : Source.tree text with
  | error e => exact reports_fail
  | ok n =>
    dsimp only
    generalize hrun : (quiet sh.machine).execute n = run
    obtain ⟨r, m⟩ := run
    cases r with
    | error f => exact reports_fail
    | ok v =>
      obtain ⟨shown, hshown⟩ := exists_resultText htree v
      refine ⟨m, rfl, n, shown, htree, hshown, ?_⟩
      simp only [bind, Except.bind, hshown]

end Shell

/-! ## The first character of a program -/

namespace Source

variable {p q : Parser} {here : Position} {cs : List Char} {ts : List Token}

/-- The code points of blank and of invisible characters. -/
def unseenCodes : List Nat :=
  List.range' 9 5 ++ List.range' 28 5 ++ List.range' 0x2000 14 ++
    [0x85, 0xa0, 0x1680, 0x2028, 0x2029, 0x202f, 0x205f, 0x3000, 0xfeff]

/-- Blank and invisible characters start nothing but space. -/
theorem Terminal.isSpace_of_starts {c : Char} {t : Terminal} (ht : t ∈ all.filter (starts c))
    (hc : (Text.isBlank c || Shell.isInvisible c) = true) : isSpace c = true := by
  have hcode : c.toNat ∈ unseenCodes := by
    rcases (Bool.or_eq_true ..).mp hc with hblank | hinvisible
    · simp only [Text.isBlank, Bool.or_eq_true, Bool.and_eq_true, decide_eq_true_eq,
        beq_iff_eq] at hblank
      simp only [unseenCodes, List.mem_append, List.mem_range'_1, List.mem_cons, List.not_mem_nil,
        or_false]
      omega
    · have hmem := List.mem_map_of_mem (f := Char.toNat) (List.contains_iff_mem.1 hinvisible)
      revert hmem
      generalize c.toNat = k
      revert k
      decide
  have hall : unseenCodes.all (fun k => isSpace (Char.ofNat k) ||
      (all.filter (starts (Char.ofNat k))).isEmpty) = true := by decide +kernel
  have hstarts := List.all_eq_true.1 hall _ hcode
  rw [Char.ofNat_toNat, Bool.or_eq_true, List.isEmpty_iff] at hstarts
  rcases hstarts with hspace | hnone
  · exact hspace
  · rw [hnone] at ht
    cases ht

theorem Scanned.starts {c : Char} (h : Scanned p here (c :: cs) ts q) :
    ∃ t, t ∈ Terminal.all.filter (Terminal.starts c) := by
  cases h with
  | ignored hfirst => exact ⟨_, Terminal.mem_starts_of_first? hfirst⟩
  | token hfirst => exact ⟨_, Terminal.mem_starts_of_first? hfirst⟩

/-- Space in front is skipped. -/
theorem Scanned.skip (h : Scanned p here cs ts q) :
    ∃ there, Scanned p there (cs.dropWhile Terminal.isSpace) ts q := by
  cases cs with
  | nil => exact ⟨here, h⟩
  | cons c cs =>
    cases hc : Terminal.isSpace c with
    | false =>
      rw [List.dropWhile_cons_of_neg (by simp [hc])]
      exact ⟨here, h⟩
    | true =>
      have hspace := Terminal.first?_space hc p.accepts cs
      have hdrop : (c :: cs).drop (Terminal.run Terminal.isSpace (c :: cs)) =
          (c :: cs).dropWhile Terminal.isSpace := by
        have hleft : ((c :: cs).takeWhile Terminal.isSpace ++
            (c :: cs).dropWhile Terminal.isSpace).drop
              ((c :: cs).takeWhile Terminal.isSpace).length =
            (c :: cs).dropWhile Terminal.isSpace := List.drop_left
        rwa [List.takeWhile_append_dropWhile] at hleft
      cases h with
      | ignored hfirst ht h =>
        obtain ⟨rfl, rfl⟩ := Prod.mk.inj (Option.some.inj (hspace.symm.trans hfirst))
        exact ⟨_, hdrop ▸ h⟩
      | token hfirst ht hfeed h =>
        obtain ⟨rfl, rfl⟩ := Prod.mk.inj (Option.some.inj (hspace.symm.trans hfirst))
        cases ht

/-- After its blanks, a program starts with a character that is neither blank nor invisible. -/
theorem Scanned.exists_lead (h : Scanned p here cs ts q) :
    ∃ lead rest, cs = lead ++ rest ∧ (∀ c ∈ lead, Terminal.isSpace c = true) ∧
      ∀ c ds, rest = c :: ds → Text.isBlank c = false ∧ Shell.isInvisible c = false := by
  refine ⟨cs.takeWhile Terminal.isSpace, cs.dropWhile Terminal.isSpace,
    List.takeWhile_append_dropWhile.symm, List.all_eq_true.1 List.all_takeWhile, ?_⟩
  intro c ds hrest
  obtain ⟨there, hskip⟩ := h.skip
  have hc : Terminal.isSpace c = false := by
    have hhead := List.head?_dropWhile_not Terminal.isSpace cs
    rw [hrest] at hhead
    simpa using hhead
  rw [hrest] at hskip
  obtain ⟨t, ht⟩ := hskip.starts
  rw [← Bool.or_eq_false_iff, ← Bool.not_eq_true]
  intro hunseen
  rw [Terminal.isSpace_of_starts ht hunseen] at hc
  cases hc

end Source

namespace Text

theorem isBlank_of_isSpace {c : Char} (h : Source.Terminal.isSpace c = true) :
    isBlank c = true := by
  have hmem : c ∈ [' ', '\t', '\x0c', '\r', '\n'] := by
    simpa [Source.Terminal.isSpace, or_assoc] using h
  simp only [List.mem_cons, List.not_mem_nil, or_false] at hmem
  rcases hmem with rfl | rfl | rfl | rfl | rfl <;> rfl

theorem trimBy_eq_nil {p : Char → Bool} {cs : List Char} (h : ∀ c ∈ cs, p c = true) :
    trimBy p cs = [] := by
  have hdrop : cs.dropWhile p = [] := by
    have happend : (cs ++ []).dropWhile p = [] := List.dropWhile_append_of_pos h
    rwa [List.append_nil] at happend
  rw [trimBy, hdrop]
  rfl

/-- A trimmed text starts with its first character outside the class. -/
theorem exists_trimBy {p : Char → Bool} {lead : List Char} {c : Char}
    (hlead : ∀ d ∈ lead, p d = true) (hc : p c = false) (rest : List Char) :
    ∃ tail, trimBy p (lead ++ c :: rest) = c :: tail := by
  have hdrop : (lead ++ c :: rest).dropWhile p = c :: rest := by
    rw [List.dropWhile_append_of_pos hlead, List.dropWhile_cons_of_neg (by simp [hc])]
  rw [trimBy, hdrop, List.reverse_cons, List.dropWhile_append]
  split
  · rw [List.dropWhile_cons_of_neg (by simp [hc])]
    exact ⟨[], rfl⟩
  · exact ⟨_, List.reverse_append ..⟩

end Text

namespace Shell

/-- Nothing a program is read by is removed: there is no invisible character, or carriage returns
only, at line ends and in no token. -/
def Untouched (text : String) : Prop :=
  normalize text = text ∨
    (text.toList.all fun c => !isInvisible c || c == '\r') = true ∧
      Source.endsLines text.toList = true ∧
      ∀ t ∈ Source.tokens .init .start text.toList, '\r' ∉ t.text.toList

theorem Untouched.tree_normalize {text : String} {n : Node} (h : Untouched text)
    (hn : Source.tree text = .ok n) : Source.tree (normalize text) = .ok n := by
  rcases h with h | ⟨honly, hends, htokens⟩
  · rwa [h]
  · have hnormal : normalize text = String.ofList (Source.dropReturns text.toList) := by
      apply congrArg String.ofList
      apply List.filter_congr
      intro c hc
      by_cases hr : c = '\r'
      · subst hr
        rfl
      · have hseen : isInvisible c = false := by
          simpa [hr] using List.all_eq_true.1 honly c hc
        simp [hseen, hr]
    obtain ⟨program, hparse, hnode⟩ := Source.exists_of_tree hn
    rw [hnormal, Source.tree, Source.parse_dropReturns hparse hends htokens]
    exact hnode

/-- A program that is not blank starts, blanks aside, with the character it was typed with. -/
theorem exists_trim {text : String} {n : Node} (hn : Source.tree text = .ok n)
    (hblank : Text.trim text ≠ "") :
    ∃ c tail tail', Text.trim text = String.ofList (c :: tail) ∧
      Text.trim (normalize text) = String.ofList (c :: tail') := by
  obtain ⟨program, hparse, -⟩ := Source.exists_of_tree hn
  obtain ⟨q, hscanned, -⟩ := Source.scanned_of_parse hparse
  obtain ⟨lead, rest, htext, hlead, hrest⟩ := hscanned.exists_lead
  have hlead' : ∀ c ∈ lead, Text.isBlank c = true := fun c hc =>
    Text.isBlank_of_isSpace (hlead c hc)
  cases rest with
  | nil =>
    rw [List.append_nil] at htext
    refine absurd ?_ hblank
    rw [Text.trim, htext, Text.trimBy_eq_nil hlead']
  | cons c ds =>
    obtain ⟨hc, hseen⟩ := hrest c ds rfl
    obtain ⟨tail, htail⟩ := Text.exists_trimBy hlead' hc ds
    have hnormal : (normalize text).toList =
        lead.filter (!isInvisible ·) ++ c :: ds.filter (!isInvisible ·) := by
      rw [normalize, String.toList_ofList, htext, List.filter_append,
        List.filter_cons_of_pos (by simp [hseen])]
    obtain ⟨tail', htail'⟩ := Text.exists_trimBy
      (fun d hd => hlead' d (List.mem_filter.1 hd).1) hc (ds.filter (!isInvisible ·))
    refine ⟨c, tail, tail', ?_, ?_⟩
    · rw [Text.trim, htext, htail]
    · rw [Text.trim, hnormal, htail']

/-- A program that does not begin with a slash is run, without its invisible characters. -/
theorem submit_eq_evaluate (sh : Shell) {text : String} {n : Node} (hn : Source.tree text = .ok n)
    (hblank : Text.trim text ≠ "") (hslash : Text.startsWith "/" (Text.trim text) = false) :
    sh.submit text = sh.evaluate (normalize text) := by
  obtain ⟨c, tail, tail', htrim, hnormal⟩ := exists_trim hn hblank
  have hc : '/' ≠ c := by
    rintro rfl
    simp [htrim, Text.startsWith] at hslash
  simp [submit, hnormal, Text.startsWith, hc]

/-- A program that is not blank and does not begin with a slash is answered with the run, on the
shell's machine, of what is left of it without invisible characters; with its own run if none that
it is read by is removed. -/
theorem submit_reports (sh : Shell) {text : String} {n : Node} (hn : Source.tree text = .ok n)
    (hblank : Text.trim text ≠ "") (hslash : Text.startsWith "/" (Text.trim text) = false) :
    sh.Reports (normalize text) (sh.machine.interpret (normalize text)) (sh.submit text) ∧
      (Untouched text → sh.Reports text (sh.machine.interpret text) (sh.submit text)) := by
  have hreports := reports_evaluate sh (normalize text)
  rw [← submit_eq_evaluate sh hn hblank hslash] at hreports
  refine ⟨hreports, fun huntouched => ?_⟩
  have htree := huntouched.tree_normalize hn
  have hrun : sh.machine.interpret (normalize text) = sh.machine.interpret text := by
    rw [Machine.interpret, Machine.interpret, htree, hn]
  rw [hrun] at hreports
  obtain ⟨m, hm, hanswer⟩ := hreports
  refine ⟨m, hm, ?_⟩
  rw [htree, ← hn] at hanswer
  exact hanswer

/-- The lines end in carriage returns, and the second stops. -/
theorem submit_reports_lines :
    ∃ n, Source.tree "echo $b; // none\r\n$a = 1 / [];\r\n" = .ok n ∧
      (init ⟨.info, false⟩).Reports "echo $b; // none\r\n$a = 1 / [];\r\n"
        (Machine.init.interpret "echo $b; // none\r\n$a = 1 / [];\r\n")
        ((init ⟨.info, false⟩).submit "echo $b; // none\r\n$a = 1 / [];\r\n") := by
  have hok : (Source.tree "echo $b; // none\r\n$a = 1 / [];\r\n").isOk = true := by decide +kernel
  have huntouched : Untouched "echo $b; // none\r\n$a = 1 / [];\r\n" :=
    .inr (by decide +kernel)
  cases hn : Source.tree "echo $b; // none\r\n$a = 1 / [];\r\n" with
  | error e =>
    rw [hn] at hok
    cases hok
  | ok n =>
    have hreports := submit_reports (init ⟨.info, false⟩) hn (by decide +kernel) (by decide +kernel)
    exact ⟨n, rfl, hreports.2 huntouched⟩

/-- The variables of a machine, as the shell lists them. -/
def listing (m : Machine) : String := ((⟨m, ⟨.info, false⟩⟩ : Shell).obey "" .vars).1.out

/-- A no-break space in a string is lost, and a program that begins with a comment does not run:
both are programs, neither is blank and neither begins with a command. -/
theorem submit_unfaithful :
    let typed := ["$a = 'x\u00a0y';", "// one\n$a = 1;"]
    (∀ s ∈ typed, (Source.tree s).isOk = true ∧ Text.trim s ≠ "" ∧
      ShellCommand.ofName? (Text.splitWord (Text.trim s)).1 = none) ∧
    (typed.map fun s => ((init ⟨.info, false⟩).submit s).2.toOption.map fun sh =>
      listing sh.machine) = [some "$a = 'xy'\n", some "(no variables)\n"] ∧
    (typed.map fun s => listing (Machine.init.interpret s).2) =
      ["$a = 'x\u00a0y'\n", "$a = 1\n"] := by
  decide +kernel

end Shell

end PhpInterpreter
