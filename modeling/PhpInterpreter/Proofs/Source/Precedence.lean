import PhpInterpreter.Proofs.Source.Scan
import PhpInterpreter.Source.Print

/-!
Precedence of operators. The tokens of an expression are read back as that expression wherever it
binds tight enough for its place: what still waits in the frames is completed by every token that
can follow there.
-/

namespace PhpInterpreter.Source

open Source.Parser

/-! ## Tokens inside a statement -/

/-- The tokens lead from one phase to another, whatever was read before. -/
def Takes (a : Phase) (texts : List String) (b : Phase) : Prop :=
  ∀ pos? done, feedAll ⟨pos?, done, a⟩ texts = some ⟨pos?.or (some .start), done, b⟩

namespace Takes

variable {a b c : Phase} {texts more : List String}

theorem append (h : Takes a texts b) (hmore : Takes b more c) : Takes a (texts ++ more) c := by
  intro pos? done
  have hor : (pos?.or (some Position.start)).or (some .start) = pos?.or (some .start) := by
    cases pos? <;> rfl
  have hfirst := h pos? done
  have hsecond := hmore (pos?.or (some .start)) done
  rw [feedAll] at hfirst hsecond
  rw [feedAll, List.foldlM_append, hfirst]
  rw [hor] at hsecond
  exact hsecond

theorem cons {text : String} (h : Takes a [text] b) (hmore : Takes b more c) :
    Takes a (text :: more) c :=
  h.append hmore

theorem operand {context : Context} {frames : List Frame} {t : Terminal} {text : String}
    {phase : Phase} (ht : Terminal.ofText text = t)
    (h : takeOperand context frames ⟨t, text, .start⟩ = some phase) :
    Takes (.operand context frames) [text] phase := by
  subst ht
  intro pos? done
  have hfeed : feed ⟨pos?, done, .operand context frames⟩ (Token.ofText text) =
      some ⟨pos?.or (some .start), done, phase⟩ := by
    simp only [feed, Token.ofText, h]
    rfl
  simp [feedAll, hfeed]

theorem operator {context : Context} {frames : List Frame} {o : Operand} {t : Terminal}
    {text : String} {phase : Phase} (ht : Terminal.ofText text = t)
    (h : takeOperator context frames o ⟨t, text, .start⟩ = some (.next phase)) :
    Takes (.operator context frames o) [text] phase := by
  subst ht
  intro pos? done
  have hfeed : feed ⟨pos?, done, .operator context frames o⟩ (Token.ofText text) =
      some ⟨pos?.or (some .start), done, phase⟩ := by
    simp only [feed, Token.ofText, h]
  simp [feedAll, hfeed]

/-- A statement that starts with an operand is an expression. -/
theorem start (h : Takes (.operand .expression []) texts b) (hne : texts ≠ []) :
    Takes .start texts b := by
  intro pos? done
  have hall := h pos? done
  cases texts with
  | nil => exact absurd rfl hne
  | cons text texts =>
    obtain ⟨p, hp, hrest⟩ := Option.bind_eq_some_iff.1 hall
    have hfeed : feed ⟨pos?, done, .start⟩ (Token.ofText text) = some p := by
      obtain ⟨phase, hphase, hgo⟩ := Option.bind_eq_some_iff.1 hp
      have haccepts := (takesOperand_of_eq hphase).accepts
      have hopen : (Token.ofText text).terminal ≠ .openTag := by
        intro heq
        rw [heq] at haccepts
        cases haccepts
      have hstatement : takeStatement (Token.ofText text) = some phase := by
        rw [takeStatement]
        split <;> rename_i heq
        · rw [heq] at haccepts
          cases haccepts
        · rw [heq] at haccepts
          cases haccepts
        · rw [heq] at haccepts
          cases haccepts
        · rw [heq] at haccepts
          cases haccepts
        · rw [heq] at haccepts
          cases haccepts
        · exact hphase
      simp only [feed, beq_iff_eq, hopen, ↓reduceIte, hstatement]
      exact hgo
    exact Option.bind_eq_some_iff.2 ⟨p, hfeed, hrest⟩

/-- A token that ends an operand. -/
theorem close {context : Context} {frames inner : List Frame} {o value : Operand} {t : Terminal}
    {text : String} {phase : Phase} (ht : Terminal.ofText text = t)
    (hreduce : reduce 0 inner o = (frames, value))
    (hclose : t ∈ [.comma, .arrow, .closeParen, .closeBracket])
    (h : takeEnd context frames value t = some (.next phase)) :
    Takes (.operator context inner o) [text] phase := by
  have htake : takeOperator context inner o ⟨t, text, .start⟩ =
      takeEnd context (reduce 0 inner o).1 (reduce 0 inner o).2 t := by
    simp only [List.mem_cons, List.not_mem_nil, or_false] at hclose
    rcases hclose with rfl | rfl | rfl | rfl <;> rfl
  apply operator ht
  rw [htake, hreduce]
  exact h

end Takes

/-! ## Places -/

/-- An expression of this tightness may stand inside the frames without parentheses. -/
def Admits (k : Nat) : List Frame → Prop
  | .unary .. :: _ => unaryLevel ≤ k
  | .binary _ op :: _ => rightLevel op ≤ k
  | .assign .. :: _ => assignLevel ≤ k
  | .reference _ :: _ => subscriptLevel ≤ k
  | .entries _ _ _ (.ref _) :: _ => subscriptLevel ≤ k
  | .entries _ _ _ (.keyRef _) :: _ => subscriptLevel ≤ k
  | _ => True

section

variable {frames : List Frame} {k : Nat}

theorem Admits.mono {n : Nat} (h : Admits k frames) (hn : k ≤ n) : Admits n frames := by
  unfold Admits at h ⊢
  split at h
  · exact Nat.le_trans h hn
  · exact Nat.le_trans h hn
  · exact Nat.le_trans h hn
  · exact Nat.le_trans h hn
  · exact Nat.le_trans h hn
  · exact Nat.le_trans h hn
  · trivial

theorem admits_subscript (frames : List Frame) : Admits subscriptLevel frames := by
  unfold Admits
  split
  · decide
  · rename_i op _
    cases op <;> decide
  · decide
  · decide
  · decide
  · decide
  · trivial

/-- No operator waits for a primary expression with subscripts. -/
theorem reduce_subscript (frames : List Frame) (o : Operand) :
    reduce subscriptLevel frames o = (frames, o) := by
  unfold reduce
  split
  · rfl
  · rename_i left op rest
    rw [if_neg]
    cases op <;> decide
  · rfl
  · rfl
  · rfl

/-- Where coalescing, unary operators and powers stand among the levels. -/
theorem completes_spec (op : BinaryOp) :
    level op ≤ completes op ∧ completes op ≠ 13 ∧ level op ≠ 3 ∧ level op < 14 ∧
      (level op = 4 → completes op = 5) ∧ (12 ≤ level op → completes op = 14) := by
  cases op <;> decide

theorem rightLevel_spec (op : BinaryOp) :
    (level op < rightLevel op ∧ rightLevel op ≤ 12) ∨ (level op = 4 ∧ rightLevel op = 4) ∨
      (level op = 13 ∧ rightLevel op = 12) := by
  cases op <;> decide

/-- A binary operator that may stand inside the frames completes none of them. -/
theorem Admits.reduce_completes {op : BinaryOp} (h : Admits k frames) (hop : k ≤ level op)
    (o : Operand) : reduce (completes op) frames o = (frames, o) := by
  have hcompletes := completes_spec op
  cases frames with
  | nil => rfl
  | cons frame rest =>
    cases frame with
    | unary pos op' =>
      simp only [Admits, unaryLevel] at h
      rw [reduce, if_neg]
      rw [unaryLevel]
      omega
    | binary left op' =>
      have hright := rightLevel_spec op'
      simp only [Admits] at h
      rw [reduce, if_neg]
      omega
    | assign target op' =>
      simp only [Admits, assignLevel] at h
      rw [reduce, if_neg]
      rw [assignLevel]
      omega
    | reference target =>
      simp only [Admits, subscriptLevel] at h
      rw [reduce, if_neg]
      rw [assignLevel]
      omega
    | _ => rfl

theorem Admits.admitsOperator (h : Admits k frames) (hk : k < subscriptLevel) :
    admitsOperator frames = true := by
  unfold Parser.admitsOperator
  unfold Admits at h
  split <;> simp_all
  all_goals omega

theorem Admits.admitsAssign (h : Admits k frames) (hk : k ≤ assignLevel) :
    admitsAssign frames = true := by
  cases frames with
  | nil => rfl
  | cons frame rest =>
    simp only [assignLevel] at hk
    cases frame with
    | unary pos op =>
      simp only [Admits, unaryLevel] at h
      omega
    | binary left op =>
      have hright := rightLevel_spec op
      simp only [Admits] at h
      rw [Parser.admitsAssign, decide_eq_true_eq, assignLevel]
      omega
    | _ => exact h.admitsOperator (by simp only [subscriptLevel]; omega)

theorem Admits.operandAccepts {t : Terminal} (h : Admits k frames) (hk : k < subscriptLevel)
    (ht : startsOperand t = true) : operandAccepts frames t = true := by
  unfold Parser.operandAccepts
  unfold Admits at h
  split <;> simp_all
  all_goals omega

end

/-! ## Reading an operand -/

/-- Where an operand is due that may bind as loose as `k`, the tokens are read as the expression.
Frames may be left around its last part; all but the level of powers, which no operator completes,
leads to the same. -/
def Reads (k : Nat) (texts : List String) (e : Expr) : Prop :=
  ∀ context frames, Admits k frames → ∃ inner o,
    Takes (.operand context frames) texts (.operator context inner o) ∧
      ∀ limit ≤ k, limit ≠ level .pow → reduce limit inner o = reduce limit frames ⟨e, .start⟩

namespace Reads

variable {k : Nat} {texts : List String} {e : Expr}

/-- Tokens that leave no frame are read at every place. -/
theorem of_takes (h : ∀ context frames,
    Takes (.operand context frames) texts (.operator context frames ⟨e, .start⟩)) :
    Reads k texts e :=
  fun context frames _ => ⟨frames, ⟨e, .start⟩, h context frames, fun _ _ _ => rfl⟩

/-- A primary expression with subscripts leaves no frame. -/
theorem takes (h : Reads subscriptLevel texts e) (context : Context) (frames : List Frame) :
    Takes (.operand context frames) texts (.operator context frames ⟨e, .start⟩) := by
  obtain ⟨inner, o, htakes, hreduce⟩ := h context frames (admits_subscript frames)
  have heq := hreduce subscriptLevel (Nat.le_refl _) (by decide)
  rw [reduce_subscript, reduce_subscript] at heq
  obtain ⟨rfl, rfl⟩ := Prod.mk.inj heq
  exact htakes

/-- Inside brackets any expression is completed by the token that ends it. -/
theorem inside (h : Reads 0 texts e) (context : Context) {frames : List Frame}
    (hframes : Admits 0 frames) (hreduce : reduce 0 frames ⟨e, .start⟩ = (frames, ⟨e, .start⟩)) :
    ∃ inner o, Takes (.operand context frames) texts (.operator context inner o) ∧
      reduce 0 inner o = (frames, ⟨e, .start⟩) := by
  obtain ⟨inner, o, htakes, hlimit⟩ := h context frames hframes
  exact ⟨inner, o, htakes, (hlimit 0 (Nat.le_refl 0) (by decide)).trans hreduce⟩

theorem atom {t : Terminal} {text : String} (ht : Terminal.ofText text = t)
    (h : ∀ context frames, takeOperand context frames ⟨t, text, .start⟩ =
      some (.operator context frames ⟨e, .start⟩)) : Reads k [text] e :=
  of_takes fun context frames => Takes.operand ht (h context frames)

theorem paren (h : Reads 0 texts e) : Reads k ("(" :: (texts ++ [")"])) e := by
  apply of_takes
  intro context frames
  have hgroup : Admits 0 (.group .start :: frames) := trivial
  obtain ⟨inner, o, htakes, hreduce⟩ := h.inside context hgroup rfl
  have hopen : Takes (.operand context frames) ["("] (.operand context (.group .start :: frames)) :=
    Takes.operand Terminal.ofText_openParen rfl
  have hclose : Takes (.operator context inner o) [")"] (.operator context frames ⟨e, .start⟩) :=
    Takes.close Terminal.ofText_closeParen hreduce (by decide) rfl
  exact hopen.cons (htakes.append hclose)

/-- Parentheses stand exactly where they are needed. -/
theorem enclosed {own : Nat} (h : ∀ n ≤ own, Reads n texts e) (k : Nat) :
    Reads k (enclose k own texts) e := by
  rw [enclose]
  split
  · exact (h 0 (Nat.zero_le own)).paren
  · rename_i hk
    exact h k (Nat.le_of_not_lt hk)

theorem subscript {keyTexts : List String} {key : Expr} (h : Reads subscriptLevel texts e)
    (hkey : Reads 0 keyTexts key) :
    Reads k (texts ++ "[" :: (keyTexts ++ ["]"])) (.subscript .start e key) := by
  apply of_takes
  intro context frames
  have hbase : Admits 0 (.subscript ⟨e, .start⟩ :: frames) := trivial
  obtain ⟨inner, o, htakes, hreduce⟩ := hkey.inside context hbase rfl
  have hopen : Takes (.operator context frames ⟨e, .start⟩) ["["]
      (.operand context (.subscript ⟨e, .start⟩ :: frames)) :=
    Takes.operator Terminal.ofText_openBracket rfl
  have hclose : Takes (.operator context inner o) ["]"]
      (.operator context frames ⟨.subscript .start e key, .start⟩) :=
    Takes.close Terminal.ofText_closeBracket hreduce (by decide) rfl
  exact (h.takes context frames).append (hopen.cons (htakes.append hclose))

theorem append (h : Reads subscriptLevel texts e) :
    Reads k (texts ++ ["[", "]"]) (.append .start e) := by
  apply of_takes
  intro context frames
  have hopen : Takes (.operator context frames ⟨e, .start⟩) ["["]
      (.operand context (.subscript ⟨e, .start⟩ :: frames)) :=
    Takes.operator Terminal.ofText_openBracket rfl
  have hclose : Takes (.operand context (.subscript ⟨e, .start⟩ :: frames)) ["]"]
      (.operator context frames ⟨.append .start e, .start⟩) :=
    Takes.operand Terminal.ofText_closeBracket rfl
  exact (h.takes context frames).append (hopen.cons hclose)

theorem unary (op : UnaryOp) (hk : k ≤ unaryLevel) (h : Reads unaryLevel texts e) :
    Reads k (op.symbol :: texts) (.unary .start op e) := by
  intro context frames hframes
  have hpos : k < subscriptLevel := by
    rw [unaryLevel] at hk
    rw [subscriptLevel]
    omega
  obtain ⟨inner, o, htakes, hreduce⟩ :=
    h context (.unary .start op :: frames) (Nat.le_refl unaryLevel)
  have hsign : Takes (.operand context frames) [op.symbol]
      (.operand context (.unary .start op :: frames)) := by
    cases op with
    | plus =>
      have haccepts : operandAccepts frames .sumOp = true := hframes.operandAccepts hpos rfl
      have hmem := Terminal.mem_symbols_binary .add
      exact Takes.operand (Terminal.ofText_symbol .sumOp hmem) (if_pos haccepts)
    | minus =>
      have haccepts : operandAccepts frames .sumOp = true := hframes.operandAccepts hpos rfl
      have hmem := Terminal.mem_symbols_binary .sub
      exact Takes.operand (Terminal.ofText_symbol .sumOp hmem) (if_pos haccepts)
    | not =>
      have haccepts : operandAccepts frames .bang = true := hframes.operandAccepts hpos rfl
      exact Takes.operand Terminal.ofText_bang (if_pos haccepts)
  refine ⟨inner, o, hsign.cons htakes, ?_⟩
  intro limit hlimit hpow
  rw [hreduce limit (Nat.le_trans hlimit hk) hpow, reduce, if_pos (Nat.le_trans hlimit hk)]

theorem binaryOp?_symbol (op : BinaryOp) :
    binaryOp? ⟨Terminal.ofBinary op, op.symbol, .start⟩ = some op := by
  have hmatch : binaryOp? ⟨Terminal.ofBinary op, op.symbol, .start⟩ =
      BinaryOp.ofSymbol? (Text.lower op.symbol) := by
    cases op <;> rfl
  have hlower : Text.lower op.symbol = op.symbol := by
    cases op <;> decide +kernel
  rw [hmatch, hlower, BinaryOp.ofSymbol?_symbol]

theorem binary {rightTexts : List String} {right : Expr} (op : BinaryOp) (hk : k ≤ level op)
    (h : Reads (completes op) texts e) (hright : Reads (rightLevel op) rightTexts right) :
    Reads k (texts ++ op.symbol :: rightTexts) (.binary .start op e right) := by
  intro context frames hframes
  have hcompletes := completes_spec op
  have hlevel := rightLevel_spec op
  obtain ⟨inner, o, htakes, hreduce⟩ :=
    h context frames (hframes.mono (Nat.le_trans hk hcompletes.1))
  have hleft : reduce (completes op) inner o = (frames, ⟨e, .start⟩) := by
    rw [hreduce _ (Nat.le_refl _) hcompletes.2.1, hframes.reduce_completes hk]
  have hop : Takes (.operator context inner o) [op.symbol]
      (.operand context (.binary ⟨e, .start⟩ op :: frames)) := by
    apply Takes.operator (Terminal.ofText_symbol _ (Terminal.mem_symbols_binary op))
    have hadmits : admitsOperator frames = true := by
      apply hframes.admitsOperator
      rw [subscriptLevel]
      omega
    simp only [takeOperator, binaryOp?_symbol, hleft, hadmits, ↓reduceIte]
  obtain ⟨inner', o', htakes', hreduce'⟩ :=
    hright context (.binary ⟨e, .start⟩ op :: frames) (Nat.le_refl (rightLevel op))
  refine ⟨inner', o', htakes.append (hop.cons htakes'), ?_⟩
  intro limit hlimit hpow
  have hne : limit ≠ 13 := hpow
  rw [hreduce' limit (by omega) hpow, reduce, if_pos (Nat.le_trans hlimit hk)]

/-- The terminal of an assignment, and what is read from it. -/
theorem assignOp?_symbol {op : AssignOp} (h : op.Sound) :
    ∃ t, (op.symbol, t) ∈ Terminal.symbols ∧ binaryOp? ⟨t, op.symbol, .start⟩ = none ∧
      assignOp? ⟨t, op.symbol, .start⟩ = some op := by
  cases op with
  | plain => exact ⟨.equals, by simp [Terminal.symbols, AssignOp.symbol], rfl, rfl⟩
  | compound op =>
    have hdrop : String.ofList (op.symbol ++ "=").toList.dropLast = op.symbol := by simp
    refine ⟨.assignOp, Terminal.mem_symbols_assign h, rfl, ?_⟩
    simp only [assignOp?, AssignOp.symbol, hdrop, BinaryOp.ofSymbol?_symbol, Option.map_some]

theorem assign {valueTexts : List String} {value : Expr} {op : AssignOp} (hop : op.Sound)
    (hk : k ≤ assignLevel) (h : Reads subscriptLevel texts e)
    (hvalue : Reads assignLevel valueTexts value) :
    Reads k (texts ++ op.symbol :: valueTexts) (.assign .start op e value) := by
  intro context frames hframes
  have hsymbol : Takes (.operator context frames ⟨e, .start⟩) [op.symbol]
      (.operand context (.assign ⟨e, .start⟩ op :: frames)) := by
    obtain ⟨t, hmem, hbinary, hassign⟩ := assignOp?_symbol hop
    apply Takes.operator (Terminal.ofText_symbol t hmem)
    simp only [takeOperator, hbinary, hassign, hframes.admitsAssign hk, ↓reduceIte]
  obtain ⟨inner, o, htakes, hreduce⟩ :=
    hvalue context (.assign ⟨e, .start⟩ op :: frames) (Nat.le_refl assignLevel)
  refine ⟨inner, o, (h.takes context frames).append (hsymbol.cons htakes), ?_⟩
  intro limit hlimit hpow
  rw [hreduce limit (Nat.le_trans hlimit hk) hpow, reduce, if_pos (Nat.le_trans hlimit hk)]

theorem reference {sourceTexts : List String} {source : Expr} (hk : k ≤ assignLevel)
    (h : Reads subscriptLevel texts e) (hsource : Reads subscriptLevel sourceTexts source) :
    Reads k (texts ++ "=" :: "&" :: sourceTexts) (.reference .start e source) := by
  intro context frames hframes
  have hequals : Takes (.operator context frames ⟨e, .start⟩) ["="]
      (.operand context (.assign ⟨e, .start⟩ .plain :: frames)) := by
    apply Takes.operator Terminal.ofText_equals
    exact if_pos (hframes.admitsAssign hk)
  have hampersand : Takes (.operand context (.assign ⟨e, .start⟩ .plain :: frames)) ["&"]
      (.operand context (.reference ⟨e, .start⟩ :: frames)) :=
    Takes.operand Terminal.ofText_ampersand rfl
  refine ⟨.reference ⟨e, .start⟩ :: frames, ⟨source, .start⟩, ?_, ?_⟩
  · exact (h.takes context frames).append
      (hequals.cons (hampersand.cons (hsource.takes context _)))
  · intro limit hlimit hpow
    rw [reduce, if_pos (Nat.le_trans hlimit hk)]

end Reads

/-! ## Array literals -/

/-- Where an entry is due, the tokens are read up to its end as this entry. -/
def ReadsEntry (texts : List String) (entry : Entry) : Prop :=
  ∀ context short done frames, ∃ inner o head value,
    Takes (.operand context (.entries .start short done .fresh :: frames)) texts
        (.operator context inner o) ∧
      reduce 0 inner o = (.entries .start short done head :: frames, value) ∧
      finishEntry head value = entry

namespace ReadsEntry

variable {texts keyTexts : List String} {value key : Expr}

theorem item (h : Reads 0 texts value) : ReadsEntry texts (.item .start value false) := by
  intro context short done frames
  have hfresh : Admits 0 (.entries .start short done .fresh :: frames) := trivial
  obtain ⟨inner, o, htakes, hreduce⟩ := h.inside context hfresh rfl
  exact ⟨inner, o, .fresh, _, htakes, hreduce, rfl⟩

theorem itemRef (h : Reads subscriptLevel texts value) :
    ReadsEntry ("&" :: texts) (.item .start value true) := by
  intro context short done frames
  have hampersand : Takes (.operand context (.entries .start short done .fresh :: frames)) ["&"]
      (.operand context (.entries .start short done (.ref .start) :: frames)) :=
    Takes.operand Terminal.ofText_ampersand rfl
  exact ⟨_, _, .ref .start, _, hampersand.cons (h.takes context _), rfl, rfl⟩

theorem arrow (h : Reads 0 keyTexts key) (context : Context) (short : Bool) (done : List Entry)
    (frames : List Frame) :
    Takes (.operand context (.entries .start short done .fresh :: frames)) (keyTexts ++ ["=>"])
      (.operand context (.entries .start short done (.key ⟨key, .start⟩) :: frames)) := by
  have hfresh : Admits 0 (.entries .start short done .fresh :: frames) := trivial
  obtain ⟨inner, o, htakes, hreduce⟩ := h.inside context hfresh rfl
  exact htakes.append (Takes.close Terminal.ofText_arrow hreduce (by decide) rfl)

theorem keyed (hkey : Reads 0 keyTexts key) (h : Reads 0 texts value) :
    ReadsEntry (keyTexts ++ "=>" :: texts) (.keyed .start key value false) := by
  intro context short done frames
  have hafter : Admits 0 (.entries .start short done (.key ⟨key, .start⟩) :: frames) := trivial
  obtain ⟨inner, o, htakes, hreduce⟩ := h.inside context hafter rfl
  refine ⟨inner, o, .key ⟨key, .start⟩, _, ?_, hreduce, rfl⟩
  rw [List.append_cons]
  exact (arrow hkey context short done frames).append htakes

theorem keyedRef (hkey : Reads 0 keyTexts key) (h : Reads subscriptLevel texts value) :
    ReadsEntry (keyTexts ++ "=>" :: "&" :: texts) (.keyed .start key value true) := by
  intro context short done frames
  have hampersand : Takes
      (.operand context (.entries .start short done (.key ⟨key, .start⟩) :: frames)) ["&"]
      (.operand context (.entries .start short done (.keyRef ⟨key, .start⟩) :: frames)) :=
    Takes.operand Terminal.ofText_ampersand rfl
  refine ⟨.entries .start short done (.keyRef ⟨key, .start⟩) :: frames, ⟨value, .start⟩,
    .keyRef ⟨key, .start⟩, ⟨value, .start⟩, ?_, rfl, rfl⟩
  rw [List.append_cons]
  exact (arrow hkey context short done frames).append
    (hampersand.cons (h.takes context _))

variable {entry : Entry}

/-- After a comma the next entry is due. -/
theorem comma (h : ReadsEntry texts entry) (context : Context) (short : Bool) (done : List Entry)
    (frames : List Frame) :
    Takes (.operand context (.entries .start short done .fresh :: frames)) (texts ++ [","])
      (.operand context (.entries .start short (entry :: done) .fresh :: frames)) := by
  obtain ⟨inner, o, head, value, htakes, hreduce, hentry⟩ := h context short done frames
  rw [← hentry]
  exact htakes.append (Takes.close Terminal.ofText_comma hreduce (by decide) rfl)

end ReadsEntry

/-- The bracket that closes an array literal. -/
def closing (short : Bool) : String := if short then "]" else ")"

/-- Tokens that are read, after some entries, as the rest of an array literal. -/
def ReadsRest (texts : List String) (entries : List Entry) : Prop :=
  ∀ context short done frames,
    Takes (.operand context (.entries .start short done .fresh :: frames))
      (texts ++ [closing short])
      (.operator context frames (finishArray .start short (entries.reverse ++ done)))

namespace ReadsRest

variable {texts more : List String} {entry : Entry} {entries : List Entry}

/-- No more entries, after a comma or in an empty literal. -/
theorem nil : ReadsRest [] [] := by
  intro context short done frames
  cases short with
  | true => exact Takes.operand Terminal.ofText_closeBracket rfl
  | false => exact Takes.operand Terminal.ofText_closeParen rfl

theorem last (h : ReadsEntry texts entry) : ReadsRest texts [entry] := by
  intro context short done frames
  obtain ⟨inner, o, head, value, htakes, hreduce, hentry⟩ := h context short done frames
  rw [← hentry]
  cases short with
  | true =>
    exact htakes.append (Takes.close Terminal.ofText_closeBracket hreduce (by decide) rfl)
  | false =>
    exact htakes.append (Takes.close Terminal.ofText_closeParen hreduce (by decide) rfl)

theorem cons (h : ReadsEntry texts entry) (hmore : ReadsRest more entries) :
    ReadsRest (texts ++ "," :: more) (entry :: entries) := by
  intro context short done frames
  have hrest := hmore context short (entry :: done) frames
  have hcomma := h.comma context short done frames
  have htexts : texts ++ "," :: more ++ [closing short] =
      texts ++ [","] ++ (more ++ [closing short]) := by simp
  have hdone : (entry :: entries).reverse ++ done = entries.reverse ++ entry :: done := by simp
  rw [htexts, hdone]
  exact hcomma.append hrest

theorem short {k : Nat} (h : ReadsRest texts entries) :
    Reads k ("[" :: (texts ++ ["]"])) (.array .start true entries) := by
  apply Reads.of_takes
  intro context frames
  have hopen : Takes (.operand context frames) ["["]
      (.operand context (.entries .start true [] .fresh :: frames)) :=
    Takes.operand Terminal.ofText_openBracket rfl
  have hrest := hopen.cons (h context true [] frames)
  rw [finishArray, List.append_nil, List.reverse_reverse] at hrest
  exact hrest

theorem long {k : Nat} (h : ReadsRest texts entries) :
    Reads k ("array" :: "(" :: (texts ++ [")"])) (.array .start false entries) := by
  apply Reads.of_takes
  intro context frames
  have hword : Takes (.operand context frames) ["array"] (.arrayParen context frames .start) :=
    Takes.operand Terminal.ofText_array rfl
  have hopen : Takes (.arrayParen context frames .start) ["("]
      (.operand context (.entries .start false [] .fresh :: frames)) := by
    intro pos? done
    simp [feedAll, feed, Token.ofText, Terminal.ofText_openParen]
  have hrest := hword.cons (hopen.cons (h context false [] frames))
  rw [finishArray, List.append_nil, List.reverse_reverse] at hrest
  exact hrest

end ReadsRest

/-! ## Expressions -/

section

variable {k : Nat} {text : String}

theorem reads_variable {name : String} (h : Terminal.variable.Spells ("$" ++ name)) :
    Reads k ["$" ++ name] (.variable .start name) := by
  apply Reads.atom h.ofText_variable
  intro context frames
  simp [takeOperand, Parser.name]

theorem reads_number (h : Terminal.number.Spells text) : Reads k [text] (.number .start text) := by
  exact Reads.atom h.ofText_number fun _ _ => rfl

theorem reads_string
    (h : Terminal.doubleQuoted.Spells text ∨ Terminal.singleQuoted.Spells text) :
    Reads k [text] (.string .start text) := by
  rcases h with h | h
  · exact Reads.atom h.ofText_doubleQuoted fun _ _ => rfl
  · exact Reads.atom h.ofText_singleQuoted fun _ _ => rfl

theorem reads_boolean (b : Bool) :
    Reads k [if b then "true" else "false"] (.boolean .start b) := by
  cases b with
  | true => exact Reads.atom Terminal.ofText_trueWord fun _ _ => rfl
  | false => exact Reads.atom Terminal.ofText_falseWord fun _ _ => rfl

end

mutual

/-- The tokens of an expression are read as that expression, positions aside. -/
theorem Expr.reads : ∀ (e : Expr), e.Sound → ∀ k ≤ e.tightness, Reads k e.tokens e.erase
  | .variable _ name, h, _, _ => reads_variable h
  | .number _ text, h, _, _ => reads_number h
  | .string _ raw, h, _, _ => reads_string h
  | .boolean _ b, _, _, _ => reads_boolean b
  | .null _, _, _, _ => Reads.atom Terminal.ofText_nullWord fun _ _ => rfl
  | .array _ short entries, h, k, _ => by
    have hrest := Entry.readsRest entries h
    cases short with
    | true => exact hrest.short
    | false => exact hrest.long
  | .subscript _ base key, h, k, _ =>
    Reads.subscript (Reads.enclosed (base.reads h.1) subscriptLevel)
      (key.reads h.2 0 (Nat.zero_le _))
  | .append _ base, h, k, _ => Reads.append (Reads.enclosed (base.reads h) subscriptLevel)
  | .unary _ op operand, h, k, hk =>
    Reads.unary op hk (Reads.enclosed (operand.reads h) unaryLevel)
  | .binary _ op left right, h, k, hk =>
    Reads.binary op hk (Reads.enclosed (left.reads h.1) (completes op))
      (Reads.enclosed (right.reads h.2) (rightLevel op))
  | .assign _ op target value, h, k, hk =>
    Reads.assign h.1 hk (Reads.enclosed (target.reads h.2.1) subscriptLevel)
      (Reads.enclosed (value.reads h.2.2) assignLevel)
  | .reference _ target source, h, k, hk =>
    Reads.reference hk (Reads.enclosed (target.reads h.1) subscriptLevel)
      (Reads.enclosed (source.reads h.2) subscriptLevel)

theorem Entry.reads : ∀ (e : Entry), e.Sound → ReadsEntry e.tokens (e.mapPos fun _ => .start)
  | .item _ value byRef, h => by
    cases byRef with
    | true => exact ReadsEntry.itemRef (Reads.enclosed (value.reads h) subscriptLevel)
    | false => exact ReadsEntry.item (value.reads h 0 (Nat.zero_le _))
  | .keyed _ key value byRef, h => by
    have hkey := key.reads h.1 0 (Nat.zero_le _)
    cases byRef with
    | true => exact ReadsEntry.keyedRef hkey (Reads.enclosed (value.reads h.2) subscriptLevel)
    | false => exact ReadsEntry.keyed hkey (value.reads h.2 0 (Nat.zero_le _))

theorem Entry.readsRest : ∀ (entries : List Entry), Entry.SoundAll entries →
    ReadsRest (Entry.tokensOf entries) (Entry.mapPosAll (fun _ => .start) entries)
  | [], _ => ReadsRest.nil
  | [e], h => ReadsRest.last (e.reads h.1)
  | e :: e' :: rest, h => ReadsRest.cons (e.reads h.1) (Entry.readsRest (e' :: rest) h.2)

end

end PhpInterpreter.Source
