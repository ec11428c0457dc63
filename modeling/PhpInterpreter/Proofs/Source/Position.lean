import PhpInterpreter.Proofs.Source.Sound

/-!
Positions in programs and in the parser. The parser reads positions nowhere: moving all positions
before a token is taken or after it leads to the same parser.
-/

namespace PhpInterpreter.Source

variable (f : Position → Position)

/-! ## Moving positions -/

mutual

def Expr.mapPos : Expr → Expr
  | .variable pos name => .variable (f pos) name
  | .number pos text => .number (f pos) text
  | .string pos raw => .string (f pos) raw
  | .boolean pos b => .boolean (f pos) b
  | .null pos => .null (f pos)
  | .array pos short entries => .array (f pos) short (Entry.mapPosAll entries)
  | .subscript pos base key => .subscript (f pos) base.mapPos key.mapPos
  | .append pos base => .append (f pos) base.mapPos
  | .unary pos op operand => .unary (f pos) op operand.mapPos
  | .binary pos op left right => .binary (f pos) op left.mapPos right.mapPos
  | .assign pos op target value => .assign (f pos) op target.mapPos value.mapPos
  | .reference pos target source => .reference (f pos) target.mapPos source.mapPos

def Entry.mapPos : Entry → Entry
  | .item pos value byRef => .item (f pos) value.mapPos byRef
  | .keyed pos key value byRef => .keyed (f pos) key.mapPos value.mapPos byRef

def Entry.mapPosAll : List Entry → List Entry
  | [] => []
  | e :: rest => e.mapPos :: Entry.mapPosAll rest

end

theorem Entry.mapPosAll_eq_map (entries : List Entry) :
    Entry.mapPosAll f entries = entries.map (Entry.mapPos f) := by
  induction entries with
  | nil => rfl
  | cons e rest ih => rw [Entry.mapPosAll, ih, List.map_cons]

mutual

theorem Expr.mapPos_mapPos (g : Position → Position) :
    ∀ e : Expr, (e.mapPos f).mapPos g = e.mapPos (g ∘ f)
  | .variable .. | .number .. | .string .. | .boolean .. | .null _ => rfl
  | .array _ _ entries => by simp [Expr.mapPos, Entry.mapPosAll_mapPosAll g entries]
  | .subscript _ base key => by
    simp [Expr.mapPos, Expr.mapPos_mapPos g base, Expr.mapPos_mapPos g key]
  | .append _ base => by simp [Expr.mapPos, Expr.mapPos_mapPos g base]
  | .unary _ _ operand => by simp [Expr.mapPos, Expr.mapPos_mapPos g operand]
  | .binary _ _ left right => by
    simp [Expr.mapPos, Expr.mapPos_mapPos g left, Expr.mapPos_mapPos g right]
  | .assign _ _ target value => by
    simp [Expr.mapPos, Expr.mapPos_mapPos g target, Expr.mapPos_mapPos g value]
  | .reference _ target source => by
    simp [Expr.mapPos, Expr.mapPos_mapPos g target, Expr.mapPos_mapPos g source]

theorem Entry.mapPos_mapPos (g : Position → Position) :
    ∀ e : Entry, (e.mapPos f).mapPos g = e.mapPos (g ∘ f)
  | .item _ value _ => by simp [Entry.mapPos, Expr.mapPos_mapPos g value]
  | .keyed _ key value _ => by
    simp [Entry.mapPos, Expr.mapPos_mapPos g key, Expr.mapPos_mapPos g value]

theorem Entry.mapPosAll_mapPosAll (g : Position → Position) : ∀ entries : List Entry,
    Entry.mapPosAll g (Entry.mapPosAll f entries) = Entry.mapPosAll (g ∘ f) entries
  | [] => rfl
  | e :: rest => by
    simp [Entry.mapPosAll, Entry.mapPos_mapPos g e, Entry.mapPosAll_mapPosAll g rest]

end

def Name.mapPos (n : Name) : Name := ⟨f n.pos, n.name⟩

def Stmt.mapPos : Stmt → Stmt
  | .expression pos e => .expression (f pos) (e.mapPos f)
  | .echo pos operands => .echo (f pos) (operands.map (Expr.mapPos f))
  | .global pos names => .global (f pos) (names.map (Name.mapPos f))
  | .unset pos names => .unset (f pos) (names.map (Name.mapPos f))

def Token.mapPos (t : Token) : Token := ⟨t.terminal, t.text, f t.pos⟩

def Operand.mapPos (o : Operand) : Operand := ⟨o.expr.mapPos f, f o.start⟩

def EntryHead.mapPos : EntryHead → EntryHead
  | fresh => fresh
  | ref pos => ref (f pos)
  | key k => key (k.mapPos f)
  | keyRef k => keyRef (k.mapPos f)

@[simp] theorem EntryHead.mapPos_fresh : EntryHead.fresh.mapPos f = .fresh := rfl

def Frame.mapPos : Frame → Frame
  | group pos => group (f pos)
  | subscript base => subscript (base.mapPos f)
  | entries pos short done head =>
    entries (f pos) short (done.map (Entry.mapPos f)) (head.mapPos f)
  | unary pos op => unary (f pos) op
  | binary left op => binary (left.mapPos f) op
  | assign target op => assign (target.mapPos f) op
  | reference target => reference (target.mapPos f)

def Context.mapPos : Context → Context
  | expression => expression
  | echo pos done => echo (f pos) (done.map (Expr.mapPos f))

def Phase.mapPos : Phase → Phase
  | start => start
  | statement => statement
  | closed => closed
  | operand context frames => operand (context.mapPos f) (frames.map (Frame.mapPos f))
  | operator context frames left =>
    operator (context.mapPos f) (frames.map (Frame.mapPos f)) (left.mapPos f)
  | arrayParen context frames pos =>
    arrayParen (context.mapPos f) (frames.map (Frame.mapPos f)) (f pos)
  | globalName pos done => globalName (f pos) (done.map (Name.mapPos f))
  | globalNext pos done => globalNext (f pos) (done.map (Name.mapPos f))
  | unsetParen pos => unsetParen (f pos)
  | unsetName pos => unsetName (f pos)
  | unsetNext pos done => unsetNext (f pos) (done.map (Name.mapPos f))
  | unsetMore pos done => unsetMore (f pos) (done.map (Name.mapPos f))
  | unsetEnd pos done => unsetEnd (f pos) (done.map (Name.mapPos f))

namespace Parser

def mapPos (p : Parser) : Parser :=
  ⟨p.pos?.map f, p.done.map (Stmt.mapPos f), p.phase.mapPos f⟩

def Outcome.mapPos : Outcome → Outcome
  | next phase => next (phase.mapPos f)
  | finished s => finished (s.mapPos f)

/-! ## The parser does not read positions -/

theorem operandAccepts_mapPos (frames : List Frame) (t : Terminal) :
    operandAccepts (frames.map (Frame.mapPos f)) t = operandAccepts frames t := by
  cases frames with
  | nil => rfl
  | cons frame rest =>
    cases frame with
    | entries pos short done head => cases head <;> cases done <;> rfl
    | assign target op => cases op <;> rfl
    | _ => rfl

theorem accepts_mapPos (p : Parser) (t : Terminal) : (p.mapPos f).accepts t = p.accepts t := by
  obtain ⟨pos?, done, phase⟩ := p
  cases phase with
  | operand context frames => exact operandAccepts_mapPos f frames t
  | _ => rfl

theorem reduce_mapPos (limit : Nat) (frames : List Frame) (o : Operand) :
    reduce limit (frames.map (Frame.mapPos f)) (o.mapPos f) =
      ((reduce limit frames o).1.map (Frame.mapPos f), (reduce limit frames o).2.mapPos f) := by
  fun_induction reduce limit frames o with
  | case1 pos op rest o hlimit ih | case3 left op rest o hlimit ih
  | case5 target op rest o hlimit ih | case7 target rest o hlimit ih =>
    simp only [List.map_cons, Frame.mapPos, reduce, if_pos hlimit]
    exact ih
  | case2 pos op rest o hlimit | case4 left op rest o hlimit
  | case6 target op rest o hlimit | case8 target rest o hlimit =>
    simp only [List.map_cons, Frame.mapPos, reduce, if_neg hlimit]
  | case9 frames o h1 h2 h3 h4 =>
    cases frames with
    | nil => rfl
    | cons frame rest =>
      cases frame with
      | unary pos op => exact absurd rfl (h1 pos op rest)
      | binary left op => exact absurd rfl (h2 left op rest)
      | assign target op => exact absurd rfl (h3 target op rest)
      | reference target => exact absurd rfl (h4 target rest)
      | _ => rfl

theorem admitsOperator_mapPos (frames : List Frame) :
    admitsOperator (frames.map (Frame.mapPos f)) = admitsOperator frames := by
  cases frames with
  | nil => rfl
  | cons frame rest =>
    cases frame with
    | entries pos short done head => cases head <;> rfl
    | _ => rfl

theorem admitsAssign_mapPos (frames : List Frame) :
    admitsAssign (frames.map (Frame.mapPos f)) = admitsAssign frames := by
  cases frames with
  | nil => rfl
  | cons frame rest =>
    cases frame with
    | entries pos short done head => cases head <;> rfl
    | _ => rfl

theorem finishEntry_mapPos (head : EntryHead) (o : Operand) :
    finishEntry (head.mapPos f) (o.mapPos f) = (finishEntry head o).mapPos f := by
  cases head <;> simp [finishEntry, EntryHead.mapPos, Operand.mapPos, Entry.mapPos]

theorem finishArray_mapPos (pos : Position) (short : Bool) (done : List Entry) :
    finishArray (f pos) short (done.map (Entry.mapPos f)) =
      (finishArray pos short done).mapPos f := by
  simp [finishArray, Operand.mapPos, Expr.mapPos, Entry.mapPosAll_eq_map, List.map_reverse]

theorem takeOperand_mapPos (context : Context) (frames : List Frame) (t : Token) :
    takeOperand (context.mapPos f) (frames.map (Frame.mapPos f)) (t.mapPos f) =
      (takeOperand context frames t).map (Phase.mapPos f) := by
  obtain ⟨terminal, text, pos⟩ := t
  cases terminal with
  | sumOp | bang =>
    simp only [takeOperand, Token.mapPos, operandAccepts_mapPos]
    split
    · simp only [Option.map_map]
      rfl
    · rfl
  | ampersand | closeBracket | closeParen =>
    cases frames with
    | nil => rfl
    | cons frame rest =>
      cases frame with
      | entries pos short done head =>
        cases head <;> cases short <;>
          simp [takeOperand, Token.mapPos, Frame.mapPos, EntryHead.mapPos, Phase.mapPos,
            finishArray_mapPos]
      | assign target op => cases op <;> rfl
      | _ => rfl
  | _ => rfl

theorem takeEnd_mapPos (context : Context) (frames : List Frame) (o : Operand) (t : Terminal) :
    takeEnd (context.mapPos f) (frames.map (Frame.mapPos f)) (o.mapPos f) t =
      (takeEnd context frames o t).map (Outcome.mapPos f) := by
  cases frames with
  | nil =>
    cases context <;> cases t <;>
      simp [takeEnd, Context.mapPos, Operand.mapPos, Outcome.mapPos, Stmt.mapPos, Phase.mapPos]
  | cons frame rest =>
    cases frame with
    | group => cases t <;> rfl
    | subscript => cases t <;> rfl
    | entries pos short done head =>
      cases t with
      | comma | closeParen | closeBracket =>
        cases short <;>
          simp [takeEnd, Frame.mapPos, Outcome.mapPos, Phase.mapPos, finishEntry_mapPos,
            ← finishArray_mapPos]
      | arrow => cases head <;> rfl
      | _ => rfl
    | _ => cases t <;> rfl

theorem takeOperator_mapPos (context : Context) (frames : List Frame) (o : Operand) (t : Token) :
    takeOperator (context.mapPos f) (frames.map (Frame.mapPos f)) (o.mapPos f) (t.mapPos f) =
      (takeOperator context frames o t).map (Outcome.mapPos f) := by
  have hbinary : binaryOp? (t.mapPos f) = binaryOp? t := rfl
  have hassign : assignOp? (t.mapPos f) = assignOp? t := rfl
  unfold takeOperator
  rw [hbinary, hassign]
  simp only [reduce_mapPos, admitsOperator_mapPos, admitsAssign_mapPos]
  split
  · split <;> rfl
  · split <;> rfl
  · by_cases hbracket : t.terminal = .openBracket
    · simp [Token.mapPos, hbracket, Outcome.mapPos, Phase.mapPos, Frame.mapPos]
    · simp [Token.mapPos, hbracket, takeEnd_mapPos]

theorem takeStatement_mapPos (t : Token) :
    takeStatement (t.mapPos f) = (takeStatement t).map (Phase.mapPos f) := by
  have hterminal : (t.mapPos f).terminal = t.terminal := rfl
  unfold takeStatement
  rw [hterminal]
  split
  · rfl
  · rfl
  · rfl
  · rfl
  · rfl
  · exact takeOperand_mapPos f .expression [] t

/-- A token at a moved position leads to the moved parser. -/
theorem feed_mapPos (p : Parser) (t : Token) :
    (p.mapPos f).feed (t.mapPos f) = (p.feed t).map (Parser.mapPos f) := by
  obtain ⟨pos?, done, phase⟩ := p
  have hgo : ∀ (done : List Stmt) (phase : Phase),
      some ((⟨pos?.or (some t.pos), done, phase⟩ : Parser).mapPos f) =
        some ⟨(pos?.map f).or (some (f t.pos)), done.map (Stmt.mapPos f), phase.mapPos f⟩ := by
    intro done phase
    cases pos? <;> rfl
  have hbind : ∀ phase? : Option Phase,
      (phase?.map (Phase.mapPos f)).bind (fun phase => some
          (⟨(pos?.map f).or (some (f t.pos)), done.map (Stmt.mapPos f), phase⟩ : Parser)) =
        (phase?.bind fun phase => some (⟨pos?.or (some t.pos), done, phase⟩ : Parser)).map
          (Parser.mapPos f) := by
    intro phase?
    cases phase? with
    | none => rfl
    | some phase => exact (hgo done phase).symm
  have hterminal : (t.mapPos f).terminal = t.terminal := rfl
  have hname : name (t.mapPos f) = (name t).mapPos f := rfl
  cases phase with
  | start =>
    simp only [feed, mapPos, Phase.mapPos, takeStatement_mapPos, hterminal]
    split
    · exact (hgo done .statement).symm
    · exact hbind (takeStatement t)
  | statement =>
    simp only [feed, mapPos, Phase.mapPos, takeStatement_mapPos]
    exact hbind (takeStatement t)
  | closed => rfl
  | operand context frames =>
    simp only [feed, mapPos, Phase.mapPos, takeOperand_mapPos]
    exact hbind (takeOperand context frames t)
  | operator context frames o =>
    simp only [feed, mapPos, Phase.mapPos, takeOperator_mapPos]
    cases takeOperator context frames o t with
    | none => rfl
    | some r =>
      cases r with
      | next phase => exact (hgo done phase).symm
      | finished s => exact (hgo (s :: done) .statement).symm
  | globalNext pos names | unsetNext pos names | unsetMore pos names =>
    simp only [feed, mapPos, Phase.mapPos, hterminal, hname, ← List.map_cons, ← List.map_reverse]
    split
    · rw [Option.map_some, hgo]
      rfl
    · rw [Option.map_some, hgo]
      rfl
    · rfl
  | arrayParen | globalName | unsetParen | unsetName | unsetEnd =>
    simp only [feed, mapPos, Phase.mapPos, hterminal, hname, ← List.map_cons, ← List.map_reverse]
    split
    · rw [Option.map_some, hgo]
      rfl
    · rfl

theorem finish?_mapPos (p : Parser) :
    (p.mapPos f).finish?.isSome = p.finish?.isSome := by
  obtain ⟨pos?, done, phase⟩ := p
  cases phase <;> rfl

end Parser

end PhpInterpreter.Source
