import PhpInterpreter.Source.Parser

/-!
What a token does to the parser. Each way in which a token can be taken is one constructor, with
the terminal it takes and the frames it finds. The invariants of the parser are shown from these,
case by case.
-/

namespace PhpInterpreter.Source.Parser

/-- The expressions that are one token. -/
inductive Leaf (t : Token) : Expr → Prop
  | variable (ht : t.terminal = .variable) : Leaf t (.variable t.pos (name t).name)
  | number (ht : t.terminal = .number) : Leaf t (.number t.pos t.text)
  | string (ht : t.terminal ∈ [.doubleQuoted, .singleQuoted]) : Leaf t (.string t.pos t.text)
  | boolean {b : Bool} (ht : t.terminal = if b then .trueWord else .falseWord) :
      Leaf t (.boolean t.pos b)
  | null (ht : t.terminal = .nullWord) : Leaf t (.null t.pos)

/-- What a token leads to where an operand is due. -/
inductive TakesOperand (context : Context) (t : Token) : List Frame → Phase → Prop
  | leaf {frames} {e : Expr} (he : Leaf t e) :
      TakesOperand context t frames (.operator context frames ⟨e, t.pos⟩)
  | group {frames} (ht : t.terminal = .openParen) :
      TakesOperand context t frames (.operand context (.group t.pos :: frames))
  | bracket {frames} (ht : t.terminal = .openBracket) :
      TakesOperand context t frames (.operand context (.entries t.pos true [] .fresh :: frames))
  | array {frames} (ht : t.terminal = .array) :
      TakesOperand context t frames (.arrayParen context frames t.pos)
  | sign {frames} {op : UnaryOp} (ht : t.terminal ∈ [.sumOp, .bang])
      (haccepts : operandAccepts frames t.terminal = true)
      (hop : UnaryOp.ofSymbol? t.text = some op) :
      TakesOperand context t frames (.operand context (.unary t.pos op :: frames))
  | reference {target rest} (ht : t.terminal = .ampersand) :
      TakesOperand context t (.assign target .plain :: rest)
        (.operand context (.reference target :: rest))
  | item {pos short done rest} (ht : t.terminal = .ampersand) :
      TakesOperand context t (.entries pos short done .fresh :: rest)
        (.operand context (.entries pos short done (.ref t.pos) :: rest))
  | keyed {pos short done k rest} (ht : t.terminal = .ampersand) :
      TakesOperand context t (.entries pos short done (.key k) :: rest)
        (.operand context (.entries pos short done (.keyRef k) :: rest))
  | append {base rest} (ht : t.terminal = .closeBracket) :
      TakesOperand context t (.subscript base :: rest)
        (.operator context rest ⟨.append base.start base.expr, base.start⟩)
  | close {pos short done rest} (ht : t.terminal = if short then .closeBracket else .closeParen) :
      TakesOperand context t (.entries pos short done .fresh :: rest)
        (.operator context rest (finishArray pos short done))

/-- What a token leads to that ends an operand, all operators complete. -/
inductive TakesEnd (o : Operand) : Terminal → List Frame → Context → Outcome → Prop
  | expression : TakesEnd o .semicolon [] .expression (.finished (.expression o.start o.expr))
  | echo {pos operands} : TakesEnd o .semicolon [] (.echo pos operands)
      (.finished (.echo pos (o.expr :: operands).reverse))
  | comma {pos operands} : TakesEnd o .comma [] (.echo pos operands)
      (.next (.operand (.echo pos (o.expr :: operands)) []))
  | entry {pos short done head rest context} :
      TakesEnd o .comma (.entries pos short done head :: rest) context
      (.next (.operand context (.entries pos short (finishEntry head o :: done) .fresh :: rest)))
  | key {pos short done rest context} :
      TakesEnd o .arrow (.entries pos short done .fresh :: rest) context
      (.next (.operand context (.entries pos short done (.key o) :: rest)))
  | group {pos rest context} : TakesEnd o .closeParen (.group pos :: rest) context
      (.next (.operator context rest ⟨o.expr, pos⟩))
  | close {pos short done head rest context} :
      TakesEnd o (if short then .closeBracket else .closeParen)
      (.entries pos short done head :: rest) context
      (.next (.operator context rest (finishArray pos short (finishEntry head o :: done))))
  | subscript {base rest context} : TakesEnd o .closeBracket (.subscript base :: rest) context
      (.next (.operator context rest ⟨.subscript base.start base.expr o.expr, base.start⟩))

/-- What a token leads to after an operand. A binary operator completes the frames that bind at
least as tight, the end of an operand all of them, an assignment none. -/
inductive TakesOperator (context : Context) (frames : List Frame) (o : Operand) (t : Token) :
    Outcome → Prop
  | binary {op : BinaryOp} (hop : binaryOp? t = some op)
      (hadmits : admitsOperator (reduce (completes op) frames o).1 = true) :
      TakesOperator context frames o t (.next (.operand context
        (.binary (reduce (completes op) frames o).2 op :: (reduce (completes op) frames o).1)))
  | assign {op : AssignOp} (hbinary : binaryOp? t = none) (hop : assignOp? t = some op)
      (hadmits : admitsAssign frames = true) :
      TakesOperator context frames o t (.next (.operand context (.assign o op :: frames)))
  | subscript (hbinary : binaryOp? t = none) (hassign : assignOp? t = none)
      (ht : t.terminal = .openBracket) :
      TakesOperator context frames o t (.next (.operand context (.subscript o :: frames)))
  | ends {r : Outcome} (hbinary : binaryOp? t = none) (hassign : assignOp? t = none)
      (ht : t.terminal ≠ .openBracket)
      (h : TakesEnd (reduce 0 frames o).2 t.terminal (reduce 0 frames o).1 context r) :
      TakesOperator context frames o t r

/-- What a token leads to at the start of a statement. -/
inductive TakesStatement (t : Token) : Phase → Prop
  | empty (ht : t.terminal = .semicolon) : TakesStatement t .statement
  | global (ht : t.terminal = .global) : TakesStatement t (.globalName t.pos [])
  | echo (ht : t.terminal = .echo) : TakesStatement t (.operand (.echo t.pos []) [])
  | unset (ht : t.terminal = .unset) : TakesStatement t (.unsetParen t.pos)
  | close (ht : t.terminal = .closeTag) : TakesStatement t .closed
  | operand {phase : Phase} (h : TakesOperand .expression t [] phase) : TakesStatement t phase

/-- A token leads from one phase to another within a statement, or to the next statement. -/
inductive Moves (t : Token) : Phase → Phase → Prop
  | openTag (ht : t.terminal = .openTag) : Moves t .start .statement
  | start {phase : Phase} (h : TakesStatement t phase) : Moves t .start phase
  | statement {phase : Phase} (h : TakesStatement t phase) : Moves t .statement phase
  | operand {context frames phase} (h : TakesOperand context t frames phase) :
      Moves t (.operand context frames) phase
  | operator {context frames o phase} (h : TakesOperator context frames o t (.next phase)) :
      Moves t (.operator context frames o) phase
  | arrayParen {context frames pos} (ht : t.terminal = .openParen) :
      Moves t (.arrayParen context frames pos)
        (.operand context (.entries pos false [] .fresh :: frames))
  | globalName {pos names} (ht : t.terminal = .variable) :
      Moves t (.globalName pos names) (.globalNext pos (name t :: names))
  | globalComma {pos names} (ht : t.terminal = .comma) :
      Moves t (.globalNext pos names) (.globalName pos names)
  | unsetParen {pos} (ht : t.terminal = .openParen) : Moves t (.unsetParen pos) (.unsetName pos)
  | unsetName {pos} (ht : t.terminal = .variable) :
      Moves t (.unsetName pos) (.unsetNext pos [name t])
  | unsetComma {pos names} (ht : t.terminal = .comma) :
      Moves t (.unsetNext pos names) (.unsetMore pos names)
  | unsetClose {pos names} (ht : t.terminal = .closeParen) :
      Moves t (.unsetNext pos names) (.unsetEnd pos names)
  | unsetMore {pos names} (ht : t.terminal = .variable) :
      Moves t (.unsetMore pos names) (.unsetNext pos (name t :: names))
  | unsetMoreClose {pos names} (ht : t.terminal = .closeParen) :
      Moves t (.unsetMore pos names) (.unsetEnd pos names)

/-- A token finishes a statement. -/
inductive Finishes (t : Token) : Phase → Stmt → Prop
  | operator {context frames o s} (h : TakesOperator context frames o t (.finished s)) :
      Finishes t (.operator context frames o) s
  | global {pos names} (ht : t.terminal = .semicolon) :
      Finishes t (.globalNext pos names) (.global pos names.reverse)
  | unset {pos names} (ht : t.terminal = .semicolon) :
      Finishes t (.unsetEnd pos names) (.unset pos names.reverse)

/-- The parser before and after a token. -/
inductive Feeds (t : Token) (p : Parser) : Parser → Prop
  | moves {phase} (h : Moves t p.phase phase) : Feeds t p ⟨p.pos?.or (some t.pos), p.done, phase⟩
  | finishes {s} (h : Finishes t p.phase s) :
      Feeds t p ⟨p.pos?.or (some t.pos), s :: p.done, .statement⟩

variable {context : Context} {frames : List Frame} {o : Operand} {t : Token}

theorem takesOperand_of_eq {phase : Phase} (h : takeOperand context frames t = some phase) :
    TakesOperand context t frames phase := by
  unfold takeOperand at h
  dsimp only at h
  split at h <;> rename_i ht
  · cases h
    exact .leaf (.variable ht)
  · cases h
    exact .leaf (.number ht)
  · cases h
    exact .leaf (.string (by simp [ht]))
  · cases h
    exact .leaf (.string (by simp [ht]))
  · cases h
    exact .leaf (.boolean ht)
  · cases h
    exact .leaf (.boolean ht)
  · cases h
    exact .leaf (.null ht)
  · cases h
    exact .group ht
  · cases h
    exact .bracket ht
  · cases h
    exact .array ht
  · split at h
    · obtain ⟨op, hop, rfl⟩ := Option.map_eq_some_iff.1 h
      exact .sign (by simp [ht]) ‹_› hop
    · cases h
  · split at h
    · obtain ⟨op, hop, rfl⟩ := Option.map_eq_some_iff.1 h
      exact .sign (by simp [ht]) ‹_› hop
    · cases h
  · split at h
    · cases h
      exact .reference ht
    · cases h
      exact .item ht
    · cases h
      exact .keyed ht
    · cases h
  · split at h
    · cases h
      exact .append ht
    · cases h
      exact .close ht
    · cases h
  · split at h
    · cases h
      exact .close ht
    · cases h
  · cases h

theorem takesEnd_of_eq {terminal : Terminal} {r : Outcome}
    (h : takeEnd context frames o terminal = some r) : TakesEnd o terminal frames context r := by
  unfold takeEnd at h
  split at h <;> cases h
  · exact .expression
  · exact .echo
  · exact .comma
  · exact .entry
  · exact .key
  · exact .group
  · exact @TakesEnd.close o _ false ..
  · exact @TakesEnd.close o _ true ..
  · exact .subscript

theorem takesOperator_of_eq {r : Outcome} (h : takeOperator context frames o t = some r) :
    TakesOperator context frames o t r := by
  unfold takeOperator at h
  dsimp only at h
  split at h
  · split at h
    · cases h
      exact .binary ‹_› ‹_›
    · cases h
  · split at h
    · cases h
      exact .assign ‹_› ‹_› ‹_›
    · cases h
  · split at h
    · rename_i ht
      cases h
      exact .subscript ‹_› ‹_› (eq_of_beq ht)
    · rename_i ht
      exact .ends ‹_› ‹_› (fun heq => ht (beq_iff_eq.2 heq)) (takesEnd_of_eq h)

theorem takesStatement_of_eq {phase : Phase} (h : takeStatement t = some phase) :
    TakesStatement t phase := by
  unfold takeStatement at h
  split at h
  · cases h
    exact .empty ‹_›
  · cases h
    exact .global ‹_›
  · cases h
    exact .echo ‹_›
  · cases h
    exact .unset ‹_›
  · cases h
    exact .close ‹_›
  · exact .operand (takesOperand_of_eq h)

/-- A token that is taken moves on in its statement or finishes it. -/
theorem feeds_of_eq {p q : Parser} (h : p.feed t = some q) : Feeds t p q := by
  have hgo : ∀ {phase : Phase}, some (Parser.mk (p.pos?.or (some t.pos)) p.done phase) = some q →
      Moves t p.phase phase → Feeds t p q := by
    rintro phase ⟨⟩ hmoves
    exact .moves hmoves
  have hfinish : ∀ {s : Stmt},
      some (Parser.mk (p.pos?.or (some t.pos)) (s :: p.done) .statement) = some q →
      Finishes t p.phase s → Feeds t p q := by
    rintro s ⟨⟩ hfinishes
    exact .finishes hfinishes
  have hbind : ∀ {phase? : Option Phase},
      phase?.bind (fun phase => some (Parser.mk (p.pos?.or (some t.pos)) p.done phase)) = some q →
      (∀ phase, phase? = some phase → Moves t p.phase phase) → Feeds t p q := by
    intro phase? hq hmoves
    obtain ⟨phase, hphase, hq⟩ := Option.bind_eq_some_iff.1 hq
    exact hgo hq (hmoves phase hphase)
  unfold feed at h
  dsimp only at h
  split at h <;> rename_i hphase <;> rw [hphase] at hgo hfinish hbind
  · split at h
    · rename_i ht
      exact hgo h (.openTag (eq_of_beq ht))
    · exact hbind h fun _ hphase => .start (takesStatement_of_eq hphase)
  · exact hbind h fun _ hphase => .statement (takesStatement_of_eq hphase)
  · cases h
  · exact hbind h fun _ hphase => .operand (takesOperand_of_eq hphase)
  · split at h
    · exact hgo h (.operator (takesOperator_of_eq ‹_›))
    · exact hfinish h (.operator (takesOperator_of_eq ‹_›))
    · cases h
  · split at h
    · rename_i ht
      exact hgo h (.arrayParen (eq_of_beq ht))
    · cases h
  · split at h
    · rename_i ht
      exact hgo h (.globalName (eq_of_beq ht))
    · cases h
  · split at h
    · exact hgo h (.globalComma ‹_›)
    · exact hfinish h (.global ‹_›)
    · cases h
  · split at h
    · rename_i ht
      exact hgo h (.unsetParen (eq_of_beq ht))
    · cases h
  · split at h
    · rename_i ht
      exact hgo h (.unsetName (eq_of_beq ht))
    · cases h
  · split at h
    · exact hgo h (.unsetComma ‹_›)
    · exact hgo h (.unsetClose ‹_›)
    · cases h
  · split at h
    · exact hgo h (.unsetMore ‹_›)
    · exact hgo h (.unsetMoreClose ‹_›)
    · cases h
  · split at h
    · rename_i ht
      exact hfinish h (.unset (eq_of_beq ht))
    · cases h

end PhpInterpreter.Source.Parser
