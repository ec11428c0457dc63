import PhpInterpreter.Proofs.Source.Gap
import PhpInterpreter.Proofs.Source.Span
import PhpInterpreter.Proofs.Source.Step

/-!
Where the nodes of a source text are. Every token the parser takes continues the form that waits in
it or completes it. So each node of a tree is at the first token of its own text, and a walk goes
through a source text from its start to its end.
-/

namespace PhpInterpreter.Source

variable {f : Form} {pos : Position} {t : Token} {ts us vs ws : List Token}

namespace Parser

variable {context : Context} {frames : List Frame} {o : Operand}

def Outcome.Spans : Outcome → List Token → Prop
  | next phase, ts => phase.Spans ts
  | finished s, ts => s.Spans ts

theorem stacked_cons {frame : Frame} (hf : Stacked frames us) (h : frame.Spans vs) :
    Stacked (frame :: frames) (us ++ vs) := ⟨us, vs, rfl, hf, h⟩

/-- Completing operators only moves tokens from the frames to the operand. -/
theorem reduce_spans (limit : Nat) (hf : Stacked frames us) (ho : o.Spans .operand vs) :
    ∃ us' vs', us ++ vs = us' ++ vs' ∧ Stacked (reduce limit frames o).1 us' ∧
      (reduce limit frames o).2.Spans .operand vs' := by
  fun_induction reduce limit frames o generalizing us vs with
  | case1 pos op rest o hlimit ih =>
    obtain ⟨us, ws, rfl, hrest, hunary⟩ := hf
    rw [List.append_assoc]
    exact ih hrest (Operand.spans_unary hunary.1 hunary.2 ho)
  | case3 left op rest o hlimit ih =>
    obtain ⟨us, ws, rfl, hrest, hleft⟩ := hf
    rw [List.append_assoc]
    exact ih hrest (Operand.spans_binary hleft ho)
  | case5 target op rest o hlimit ih =>
    obtain ⟨us, ws, rfl, hrest, htarget⟩ := hf
    rw [List.append_assoc]
    exact ih hrest (Operand.spans_assign htarget ho)
  | case7 target rest o hlimit ih =>
    obtain ⟨us, ws, rfl, hrest, htarget⟩ := hf
    rw [List.append_assoc]
    exact ih hrest (Operand.spans_reference htarget ho)
  | case2 | case4 | case6 | case8 | case9 => exact ⟨us, vs, rfl, hf, ho⟩

theorem entries_head {short : Bool} {done : List Entry} {head head' : EntryHead}
    (h : (Frame.entries pos short done head).Spans ts)
    (hhead : ∀ us, head.Spans us → head'.Spans (us ++ vs)) :
    (Frame.entries pos short done head').Spans (ts ++ vs) := by
  obtain ⟨us, ws, rfl, hdone, hws⟩ := h
  exact ⟨us, ws ++ vs, List.append_assoc us ws vs, hdone, hhead ws hws⟩

theorem fills_closing {short : Bool}
    (ht : t.terminal = if short then .closeBracket else .closeParen) :
    Fills (.closing short) [] [t] := by
  cases short <;> exact .token ht

theorem Leaf.spans {e : Expr} (h : Leaf t e) : Operand.Spans ⟨e, t.pos⟩ .operand [t] := by
  cases h with
  | «variable» ht => exact Operand.spans_variable ht
  | number ht => exact Operand.spans_number ht
  | string ht => exact Operand.spans_string ht
  | @boolean b ht => exact Operand.spans_boolean (by cases b <;> simp [ht])
  | null ht => exact Operand.spans_null ht

/-- A token where an operand is due is an operand, or it opens or closes a frame. -/
theorem TakesOperand.spans {phase : Phase} (hc : context.Spans us) (hf : Stacked frames vs)
    (h : TakesOperand context t frames phase) : phase.Spans (us ++ vs ++ [t]) := by
  have hstack : ∀ {fs : List Frame}, Stacked fs (vs ++ [t]) →
      (Phase.operand context fs).Spans (us ++ vs ++ [t]) :=
    fun hfs => ⟨us, vs ++ [t], List.append_assoc us vs [t], hc, hfs⟩
  have hclose : ∀ {fs : List Frame} {o : Operand} {vs' ws : List Token}, vs = vs' ++ ws →
      Stacked fs vs' → o.Spans .operand (ws ++ [t]) →
      (Phase.operator context fs o).Spans (us ++ vs ++ [t]) := by
    rintro fs o vs' ws rfl hfs ho
    exact ⟨us, vs', ws ++ [t], by simp only [List.append_assoc], hc, hfs, ho⟩
  cases h with
  | leaf he => exact ⟨us, vs, [t], rfl, hc, hf, he.spans⟩
  | group ht => exact hstack (stacked_cons hf ⟨.intro t [], .token ht⟩)
  | bracket ht =>
    refine hstack (stacked_cons hf ⟨[t], [], rfl, ⟨.intro t [], ?_⟩, rfl⟩)
    rintro items ⟨⟩
    exact Fills.append_none (.token ht)
  | array ht => exact ⟨us, vs, [t], rfl, hc, hf, .intro t [], .token ht⟩
  | sign ht => exact hstack (stacked_cons hf ⟨.intro t [], .mark ht⟩)
  | reference ht =>
    obtain ⟨vs, ws, rfl, hrest, htarget⟩ := hf
    rw [List.append_assoc] at hstack
    exact hstack (stacked_cons hrest (Operand.Spans.append_token htarget ht))
  | item ht =>
    obtain ⟨vs, ws, rfl, hrest, hentries⟩ := hf
    rw [List.append_assoc] at hstack
    refine hstack (stacked_cons hrest (entries_head hentries fun us hus => ?_))
    obtain rfl := hus
    exact ⟨.intro t [], .token ht⟩
  | keyed ht =>
    obtain ⟨vs, ws, rfl, hrest, hentries⟩ := hf
    rw [List.append_assoc] at hstack
    refine hstack (stacked_cons hrest (entries_head hentries fun us hus => ?_))
    exact Operand.Spans.append_token hus ht
  | append ht =>
    obtain ⟨vs, ws, rfl, hrest, hbase⟩ := hf
    exact hclose rfl hrest (Operand.spans_append hbase ht)
  | close ht =>
    obtain ⟨vs, ws, rfl, hrest, ws, _, rfl, hdone, rfl⟩ := hf
    refine hclose ?_ hrest (hdone.finish_empty (fills_closing ht))
    rw [List.append_nil]

/-- A token that ends an expression completes the innermost frame, an operand or a statement. -/
theorem TakesEnd.spans {r : Outcome} {terminal : Terminal} (hterminal : t.terminal = terminal)
    (hc : context.Spans us) (hf : Stacked frames vs) (ho : o.Spans .operand ws)
    (h : TakesEnd o terminal frames context r) : r.Spans (us ++ vs ++ ws ++ [t]) := by
  have hstack : ∀ {frame : Frame} {fs : List Frame} {vs' xs : List Token}, vs = vs' ++ xs →
      Stacked fs vs' → frame.Spans (xs ++ ws ++ [t]) →
      (Outcome.next (.operand context (frame :: fs))).Spans (us ++ vs ++ ws ++ [t]) := by
    rintro frame fs vs' xs rfl hfs hframe
    exact ⟨us, vs' ++ (xs ++ ws ++ [t]), by simp only [List.append_assoc], hc,
      stacked_cons hfs hframe⟩
  have hclose : ∀ {fs : List Frame} {o : Operand} {vs' xs : List Token}, vs = vs' ++ xs →
      Stacked fs vs' → o.Spans .operand (xs ++ ws ++ [t]) →
      (Outcome.next (.operator context fs o)).Spans (us ++ vs ++ ws ++ [t]) := by
    rintro fs o vs' xs rfl hfs ho
    exact ⟨us, vs', xs ++ ws ++ [t], by simp only [List.append_assoc], hc, hfs, ho⟩
  cases h with
  | expression =>
    obtain rfl := hc
    obtain rfl := hf
    exact Stmt.spans_expression ho hterminal
  | echo =>
    obtain rfl := hf
    rw [List.append_nil]
    exact Stmt.spans_echo hc ho hterminal
  | comma =>
    obtain rfl := hf
    exact ⟨us ++ ws ++ [t], [], by simp, Context.spans_echo hc ho hterminal, rfl⟩
  | entry =>
    obtain ⟨vs, xs, rfl, hrest, as, bs, rfl, hdone, hhead⟩ := hf
    have hentries := (hdone.entry (finishEntry_spans hhead ho)).comma hterminal
    exact hstack rfl hrest ⟨as ++ (bs ++ ws) ++ [t], [], by simp, hentries, rfl⟩
  | key =>
    obtain ⟨vs, xs, rfl, hrest, hentries⟩ := hf
    refine hstack rfl hrest ?_
    rw [List.append_assoc]
    refine entries_head hentries fun us hus => ?_
    obtain rfl := hus
    exact Operand.Spans.append_token ho hterminal
  | group =>
    obtain ⟨vs, xs, rfl, hrest, hgroup⟩ := hf
    exact hclose rfl hrest (Operand.spans_group hgroup.2 ho hgroup.1 hterminal)
  | close =>
    obtain ⟨vs, xs, rfl, hrest, as, bs, rfl, hdone, hhead⟩ := hf
    have harray := hdone.finish_entry (finishEntry_spans hhead ho) (fills_closing hterminal)
    refine hclose rfl hrest ?_
    rwa [List.append_assoc as]
  | subscript =>
    obtain ⟨vs, xs, rfl, hrest, hbase⟩ := hf
    exact hclose rfl hrest (Operand.spans_subscript hbase ho hterminal)

theorem terminal_of_binaryOp? {op : BinaryOp} (h : binaryOp? t = some op) :
    t.terminal ∈ binaryTerminals := by
  unfold binaryOp? at h
  split at h
  case h_13 => cases h
  all_goals
    rename_i ht
    simp [ht, binaryTerminals]

theorem terminal_of_assignOp? {op : AssignOp} (h : assignOp? t = some op) :
    t.terminal = op.terminal := by
  unfold assignOp? at h
  split at h
  · obtain rfl := Option.some.inj h
    assumption
  · obtain ⟨b, -, rfl⟩ := Option.map_eq_some_iff.1 h
    assumption
  · cases h

theorem TakesOperator.spans {r : Outcome} (hc : context.Spans us) (hf : Stacked frames vs)
    (ho : o.Spans .operand ws) (h : TakesOperator context frames o t r) :
    r.Spans (us ++ vs ++ ws ++ [t]) := by
  have hnext : ∀ {frame : Frame} {fs : List Frame} {vs' ws' : List Token}, vs ++ ws = vs' ++ ws' →
      Stacked fs vs' → frame.Spans (ws' ++ [t]) →
      (Outcome.next (.operand context (frame :: fs))).Spans (us ++ vs ++ ws ++ [t]) := by
    intro frame fs vs' ws' htext hfs hframe
    refine ⟨us, vs' ++ (ws' ++ [t]), ?_, hc, stacked_cons hfs hframe⟩
    rw [List.append_assoc us, htext, List.append_assoc, List.append_assoc]
  cases h with
  | @binary op hop =>
    obtain ⟨vs', ws', htext, hf', ho'⟩ := reduce_spans (completes op) hf ho
    exact hnext htext hf' (ho'.append_mark (terminal_of_binaryOp? hop))
  | assign _ hop => exact hnext rfl hf (Operand.Spans.append_token ho (terminal_of_assignOp? hop))
  | subscript _ _ ht => exact hnext rfl hf (Operand.Spans.append_token ho ht)
  | ends _ _ _ h =>
    obtain ⟨vs', ws', htext, hf', ho'⟩ := reduce_spans 0 hf ho
    rw [List.append_assoc us, htext, ← List.append_assoc]
    exact h.spans rfl hc hf' ho'

/-- A token at the start of a statement is an empty statement, or the first one of a text. -/
theorem TakesStatement.spans {phase : Phase} (h : TakesStatement t phase) :
    (phase = .statement ∧ t.terminal = .semicolon) ∨ phase.Spans [t] := by
  cases h with
  | empty ht => exact .inl ⟨rfl, ht⟩
  | global ht => exact .inr ⟨.intro t [], Fills.append_none (.token ht)⟩
  | echo ht =>
    have hecho : Fills (.mark [.echo] ++ .commas .operand) [] [t] :=
      Fills.append_none (.token ht)
    refine .inr ⟨[t], [], rfl, ⟨.intro t [], ?_⟩, rfl⟩
    rintro ns ⟨⟩
    exact hecho
  | unset ht => exact .inr ⟨.intro t [], .token ht⟩
  | close ht => exact .inr (.token ht)
  | operand h =>
    have hcontext : Context.expression.Spans [] := rfl
    have hframes : Stacked [] [] := rfl
    exact .inr (h.spans hcontext hframes)

/-- A token within a statement continues its text. -/
theorem Moves.spans {phase phase' : Phase} (hphase : phase.Spans vs) (h : Moves t phase phase') :
    (phase' = .statement ∧ vs = [] ∧ t.terminal = .semicolon) ∨ phase'.Spans (vs ++ [t]) := by
  cases h with
  | openTag | start => exact hphase.elim
  | statement h =>
    obtain rfl := hphase
    exact h.spans.imp_left fun hempty => ⟨hempty.1, rfl, hempty.2⟩
  | operand h =>
    obtain ⟨as, bs, rfl, hc, hf⟩ := hphase
    exact .inr (h.spans hc hf)
  | operator h =>
    obtain ⟨as, bs, cs, rfl, hc, hf, ho⟩ := hphase
    exact .inr (h.spans hc hf ho)
  | @arrayParen context frames pos ht =>
    obtain ⟨as, bs, cs, rfl, hc, hf, hbegins, harray⟩ := hphase
    have hopening : Fills (.opening false) [] (cs ++ [t]) := harray.append_token ht
    have hframe : (Frame.entries pos false [] .fresh).Spans (cs ++ [t]) := by
      refine ⟨cs ++ [t], [], (List.append_nil _).symm, ⟨hbegins.append [t], ?_⟩, rfl⟩
      rintro items ⟨⟩
      exact hopening.append_none
    exact .inr ⟨as, bs ++ (cs ++ [t]), by simp, hc, stacked_cons hf hframe⟩
  | globalName ht => exact .inr (hphase.name ht)
  | globalComma ht => exact .inr (hphase.token ht).commas
  | unsetParen ht => exact .inr (hphase.token ht).none
  | unsetName ht => exact .inr (hphase.name ht)
  | unsetComma ht => exact .inr (hphase.token ht)
  | unsetClose ht => exact .inr (hphase.empty.token ht)
  | unsetMore ht => exact .inr (hphase.commas.name ht)
  | unsetMoreClose ht => exact .inr (hphase.optional.token ht)

theorem Finishes.spans {phase : Phase} {s : Stmt} (hphase : phase.Spans vs)
    (h : Finishes t phase s) : s.Spans (vs ++ [t]) := by
  cases h with
  | operator h =>
    obtain ⟨as, bs, cs, rfl, hc, hf, ho⟩ := hphase
    exact h.spans hc hf ho
  | global ht => exact hphase.global ht
  | unset ht => exact hphase.unset ht

/-- All that the parser holds was read from the tokens. -/
def Spans (p : Parser) (ts : List Token) : Prop :=
  p = .init ∧ ts = [] ∨ ∃ pos us vs, p.pos? = some pos ∧ Begins pos ts ∧ ts = us ++ vs ∧
    StmtsSpan p.done us ∧ p.phase.Spans vs

/-- What the parser knows after a token, besides its phase: where the text begins, and which of the
tokens before belong to statements that are finished. -/
def Follows (p : Parser) (t : Token) (us vs : List Token) : Prop :=
  ∃ pos, p.pos?.or (some t.pos) = some pos ∧ Begins pos (us ++ vs ++ [t]) ∧ StmtsSpan p.done us

namespace Follows

variable {p q : Parser}

theorem next {phase : Phase} (h : p.Follows t us vs) (hphase : phase.Spans (vs ++ [t])) :
    Spans ⟨p.pos?.or (some t.pos), p.done, phase⟩ (us ++ vs ++ [t]) := by
  obtain ⟨pos, hpos, hbegins, hdone⟩ := h
  exact .inr ⟨pos, us, vs ++ [t], hpos, hbegins, List.append_assoc us vs [t], hdone, hphase⟩

theorem finish {s : Stmt} (h : p.Follows t us vs) (hs : s.Spans (vs ++ [t])) :
    Spans ⟨p.pos?.or (some t.pos), s :: p.done, .statement⟩ (us ++ vs ++ [t]) := by
  obtain ⟨pos, hpos, hbegins, hdone⟩ := h
  exact .inr ⟨pos, us ++ (vs ++ [t]), [], hpos, hbegins, by simp, hdone.cons hs, rfl⟩

theorem skip (h : p.Follows t us []) (hdone : StmtsSpan p.done (us ++ [t])) :
    Spans ⟨p.pos?.or (some t.pos), p.done, .statement⟩ (us ++ [] ++ [t]) := by
  obtain ⟨pos, hpos, hbegins, -⟩ := h
  exact .inr ⟨pos, us ++ [t], [], hpos, hbegins, by simp, hdone, rfl⟩

theorem move {phase : Phase} (h : p.Follows t us vs)
    (hphase : (phase = .statement ∧ vs = [] ∧ t.terminal = .semicolon) ∨ phase.Spans (vs ++ [t])) :
    Spans ⟨p.pos?.or (some t.pos), p.done, phase⟩ (us ++ vs ++ [t]) := by
  rcases hphase with ⟨rfl, rfl, ht⟩ | hspans
  · obtain ⟨pos, hpos, hbegins, hdone⟩ := h
    exact skip ⟨pos, hpos, hbegins, hdone⟩ (hdone.semicolon ht)
  · exact h.next hspans

end Follows

/-- The first token opens a program or starts its first statement. -/
theorem feed_init_spans {q : Parser} (h : init.feed t = some q) : q.Spans [t] := by
  have hfollows : init.Follows t [] [] := ⟨t.pos, rfl, .intro t [], .nil⟩
  cases feeds_of_eq h with
  | moves hmoves =>
    cases hmoves with
    | openTag ht => exact hfollows.skip (.openTag ht)
    | start h => exact hfollows.move (h.spans.imp_left fun hempty => ⟨hempty.1, rfl, hempty.2⟩)
  | finishes hfinishes => cases hfinishes

/-- A token that is taken continues what waits in the parser. -/
theorem feed_spans {p q : Parser} (hp : p.Spans ts) (h : p.feed t = some q) :
    q.Spans (ts ++ [t]) := by
  rcases hp with ⟨rfl, rfl⟩ | ⟨pos, us, vs, hpos, hbegins, rfl, hdone, hphase⟩
  · exact feed_init_spans h
  have hfollows : p.Follows t us vs := ⟨pos, by rw [hpos]; rfl, hbegins.append [t], hdone⟩
  cases feeds_of_eq h with
  | moves hmoves => exact hfollows.move (hmoves.spans hphase)
  | finishes hfinishes => exact hfollows.finish (hfinishes.spans hphase)

/-- What is left of a parser that may stop is a program. -/
theorem finish_spans {p : Parser} {n : Node} (hp : p.Spans ts) (hts : ts ≠ [])
    (hfinish : p.finish?.isSome = true) (hn : Program.toNode ⟨p.pos?, p.done.reverse⟩ = .ok n) :
    Fills .part [n] ts := by
  rcases hp with ⟨-, rfl⟩ | ⟨pos, us, vs, hpos, hbegins, rfl, hdone, hphase⟩
  · exact absurd rfl hts
  obtain ⟨ns, hns, hn⟩ := exists_of_bind_eq_ok hn
  rw [hpos] at hn
  obtain rfl := Except.ok.inj hn
  have hgrammar : ("program", (.statements ++ .optional (.mark [.closeTag]) : Form)) ∈ grammar := by
    simp [grammar]
  have hchildren : Node.childrenIn [("children", .list (ns.map .node)), ("errors", .list [])] =
      ns := (List.append_nil _).trans (Datum.nodes_map_node ns)
  refine .node hgrammar hbegins ?_
  rw [hchildren]
  unfold finish? at hfinish
  split at hfinish <;> rename_i heq
  · rw [heq] at hphase
    exact hphase.elim
  · rw [heq] at hphase
    obtain rfl := hphase
    rw [List.append_nil]
    exact (hdone ns hns).append_empty
  · rw [heq] at hphase
    rw [← List.append_nil ns]
    exact .seq (hdone ns hns) (.first hphase)
  · cases hfinish

end Parser

/-! ## Source texts -/

section

variable {p q : Parser} {here : Position} {cs : List Char}

theorem Scanned.spans (h : Scanned p here cs ts q) (hp : p.Spans us) : q.Spans (us ++ ts) := by
  induction h generalizing us with
  | nil =>
    rw [List.append_nil]
    exact hp
  | ignored hfirst ht h ih => exact ih hp
  | token hfirst ht hfeed h ih =>
    rw [List.append_cons]
    exact ih (Parser.feed_spans hp hfeed)

theorem Position.lt_step (pos : Position) (c : Char) : pos < pos.step c := by
  rw [lt_iff, step]
  split
  · exact .inl (Nat.lt_succ_self _)
  · exact .inr ⟨rfl, Nat.lt_succ_self _⟩

theorem Position.le_advance (pos : Position) (cs : List Char) : pos ≤ pos.advance cs := by
  induction cs generalizing pos with
  | nil => exact le_refl pos
  | cons c cs ih => exact le_of_lt (lt_of_lt_of_le (lt_step pos c) (ih (pos.step c)))

theorem Position.lt_advance {cs : List Char} (h : cs ≠ []) (pos : Position) :
    pos < pos.advance cs := by
  cases cs with
  | nil => exact absurd rfl h
  | cons c cs => exact lt_of_lt_of_le (lt_step pos c) (le_advance (pos.step c) cs)

/-- Tokens are read one after the other. -/
theorem Scanned.pairwise_pos (h : Scanned p here cs ts q) : ts.Pairwise (·.pos < ·.pos) := by
  induction h with
  | nil => exact .nil
  | ignored hfirst ht h ih => exact ih
  | token hfirst ht hfeed h ih =>
    refine .cons (fun token htoken => ?_) ih
    obtain ⟨way, -, hpos, -⟩ := h.exists_pos htoken
    rw [hpos]
    exact Position.lt_of_lt_of_le (Position.lt_advance (Terminal.take_ne_nil_of_first? hfirst) _)
      (Position.le_advance _ way)

end

/-- The token's text is in a source text at the token's position. -/
def Token.StandsIn (t : Token) (text : String) : Prop :=
  ∃ before, before ++ t.text.toList <+: text.toList ∧ t.text.toList ≠ [] ∧
    t.pos = Position.start.advance before

/-- The nodes of a source text are laid out over its tokens by the grammar, which places each of
them at the first token of its own text, and a walk never goes back in the source text. -/
theorem tree_placed {text : String} {n : Node} (h : tree text = .ok n)
    (hts : tokens .init .start text.toList ≠ []) :
    Fills .part [n] (tokens .init .start text.toList) ∧
    (∀ m ∈ n.walk, ∃ t ts, t :: ts <:+: tokens .init .start text.toList ∧
      Fills .part [m] (t :: ts) ∧ m.At t.pos ∧ t.StandsIn text) ∧
    n.walk.Pairwise fun m m' => ∃ p p', m.At p ∧ m'.At p' ∧ p ≤ p' := by
  obtain ⟨program, hparse, hn⟩ := exists_of_tree h
  obtain ⟨q, hscanned, rfl⟩ := scanned_of_parse hparse
  have hinit : Parser.init.Spans [] := .inl ⟨rfl, rfl⟩
  have hspans := hscanned.spans hinit
  have hwhole := Parser.finish_spans hspans hts hscanned.finish? hn
  refine ⟨hwhole, fun m hm => ?_, hwhole.pairwise_walk hscanned.pairwise_pos⟩
  obtain ⟨us, hinfix, hm⟩ := hwhole.exists_infix m hm
  cases hm with
  | @part _ f t ts hf hfills hat =>
    have hmem := hinfix.subset List.mem_cons_self
    obtain ⟨before, hprefix, hpos, hne, -⟩ := hscanned.exists_pos hmem
    exact ⟨t, ts, hinfix, .part hf hfills hat, hat, before, hprefix, hne, hpos⟩

/-- A product starts with the parenthesis before its first factor, the sum in there after it. -/
theorem tree_placed_parenthesis :
    ∃ n, tree "(1+2)*3;" = .ok n ∧ tokens .init .start "(1+2)*3;".toList ≠ [] ∧
      Fills .part [n] (tokens .init .start "(1+2)*3;".toList) ∧
      n.walk.map (fun m => (m.kind, m.column)) =
        [("program", some 1), ("expressionstatement", some 1), ("bin", some 1), ("bin", some 2),
          ("number", some 2), ("number", some 4), ("number", some 7)] := by
  have hwalk : (tree "(1+2)*3;").toOption.map (fun n => n.walk.map fun m => (m.kind, m.column)) =
      some [("program", some 1), ("expressionstatement", some 1), ("bin", some 1), ("bin", some 2),
        ("number", some 2), ("number", some 4), ("number", some 7)] := by decide +kernel
  obtain ⟨n, hn, hcolumns⟩ := Option.map_eq_some_iff.1 hwalk
  have htree := eq_ok_of_toOption hn
  have hts : tokens .init .start "(1+2)*3;".toList ≠ [] := by decide +kernel
  exact ⟨n, htree, hts, (tree_placed htree hts).1, hcolumns⟩

end PhpInterpreter.Source
