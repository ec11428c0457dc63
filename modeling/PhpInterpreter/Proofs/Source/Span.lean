import PhpInterpreter.Proofs.Outcome
import PhpInterpreter.Proofs.Source.Grammar

/-!
The texts of expressions and statements, from the positions the parser gives them. What waits in the
parser begins a form of the grammar with the tokens it was read from; when the form is complete, its
node is at the first of them.
-/

namespace PhpInterpreter.Source

variable {f : Form} {pos : Position} {t : Token} {ts us vs ws : List Token}

/-! ## Nodes with their texts -/

/-- The tokens begin at the position. -/
inductive Begins : Position → List Token → Prop
  | intro (t : Token) (ts : List Token) : Begins t.pos (t :: ts)

theorem Begins.append (h : Begins pos ts) (us : List Token) : Begins pos (ts ++ us) := by
  cases h with
  | intro t ts => exact .intro t (ts ++ us)

theorem Fills.node {kind : String} {fields : List (String × Datum)} (hf : (kind, f) ∈ grammar)
    (hb : Begins pos ts) (h : Fills f (Node.childrenIn fields) ts) :
    Fills .part [nodeAt pos kind fields] ts := by
  cases hb with
  | intro t ts => exact .part hf h ⟨rfl, rfl⟩

/-- The operand, as the start of a text of the form, was read from the tokens. -/
def Operand.Spans (o : Operand) (f : Form) (ts : List Token) : Prop :=
  Begins o.start ts ∧ ∀ n, o.expr.toNode = .ok n → Fills f [n] ts

def Entry.Spans (e : Entry) (ts : List Token) : Prop :=
  ∀ n, e.toNode = .ok n → Fills .part [n] ts

def Stmt.Spans (s : Stmt) (ts : List Token) : Prop :=
  ∀ n, s.toNode = .ok n → Fills .part [n] ts

def Name.node (n : Name) : Node := variableNode n.pos n.name

theorem Name.nodes_toDatum (names : List Name) :
    Datum.nodes (names.map Name.toDatum) = names.map Name.node := by
  rw [← Datum.nodes_map_node (names.map Name.node), List.map_map]
  rfl

theorem Parser.fills_name (ht : t.terminal = .variable) : Fills .part [(name t).node] [t] := by
  have hgrammar : ("variable", .mark [.variable]) ∈ grammar := by simp [grammar]
  exact .node hgrammar (.intro t []) (.token ht)

theorem Operand.Spans.append_mark {o : Operand} {terminals : List Terminal} (h : o.Spans f ts)
    (ht : t.terminal ∈ terminals) : o.Spans (f ++ .mark terminals) (ts ++ [t]) :=
  ⟨h.1.append [t], fun n hn => (h.2 n hn).append_mark ht⟩

theorem Operand.Spans.append_token {o : Operand} {terminal : Terminal} (h : o.Spans f ts)
    (ht : t.terminal = terminal) : o.Spans (f ++ .mark [terminal]) (ts ++ [t]) :=
  h.append_mark (List.mem_singleton.2 ht)

namespace Operand

variable {o left right : Operand} {e : Expr} {kind : String}

theorem spans_leaf {terminals : List Terminal} (hkind : (kind, .mark terminals) ∈ grammar)
    (ht : t.terminal ∈ terminals) (he : ∀ n, e.toNode = .ok n →
      ∃ fields, n = nodeAt t.pos kind fields ∧ Node.childrenIn fields = []) :
    Spans ⟨e, t.pos⟩ .operand [t] := by
  refine ⟨.intro t [], fun n hn => ?_⟩
  obtain ⟨fields, rfl, hfields⟩ := he n hn
  refine .bare (.node hkind (.intro t []) ?_)
  rw [hfields]
  exact .mark ht

theorem spans_variable {name : String} (ht : t.terminal = .variable) :
    Spans ⟨.variable t.pos name, t.pos⟩ .operand [t] := by
  have hgrammar : ("variable", .mark [.variable]) ∈ grammar := by simp [grammar]
  refine spans_leaf hgrammar (List.mem_singleton.2 ht) ?_
  rintro n ⟨⟩
  exact ⟨_, rfl, rfl⟩

theorem spans_number {text : String} (ht : t.terminal = .number) :
    Spans ⟨.number t.pos text, t.pos⟩ .operand [t] := by
  have hgrammar : ("number", .mark [.number]) ∈ grammar := by simp [grammar]
  refine spans_leaf hgrammar (List.mem_singleton.2 ht) ?_
  rintro n ⟨⟩
  exact ⟨_, rfl, rfl⟩

theorem spans_string {raw : String} (ht : t.terminal ∈ [.doubleQuoted, .singleQuoted]) :
    Spans ⟨.string t.pos raw, t.pos⟩ .operand [t] := by
  have hgrammar : ("string", .mark [.doubleQuoted, .singleQuoted]) ∈ grammar := by simp [grammar]
  refine spans_leaf hgrammar ht fun n hn => ?_
  obtain ⟨text, -, hn⟩ := exists_of_bind_eq_ok hn
  obtain rfl := Except.ok.inj hn
  exact ⟨_, rfl, rfl⟩

theorem spans_boolean {b : Bool} (ht : t.terminal ∈ [.trueWord, .falseWord]) :
    Spans ⟨.boolean t.pos b, t.pos⟩ .operand [t] := by
  have hgrammar : ("boolean", .mark [.trueWord, .falseWord]) ∈ grammar := by simp [grammar]
  refine spans_leaf hgrammar ht ?_
  rintro n ⟨⟩
  exact ⟨_, rfl, rfl⟩

theorem spans_null (ht : t.terminal = .nullWord) : Spans ⟨.null t.pos, t.pos⟩ .operand [t] := by
  have hgrammar : ("nullkeyword", .mark [.nullWord]) ∈ grammar := by simp [grammar]
  refine spans_leaf hgrammar (List.mem_singleton.2 ht) ?_
  rintro n ⟨⟩
  exact ⟨_, rfl, rfl⟩

theorem spans_group (hl : Fills (.mark [.openParen]) [] us) (ho : o.Spans .operand vs)
    (hb : Begins pos us) (hr : t.terminal = .closeParen) :
    Spans ⟨o.expr, pos⟩ .operand (us ++ vs ++ [t]) := by
  obtain ⟨l, -, rfl, hopen⟩ := hl.exists_of_mark
  refine ⟨(hb.append vs).append [t], fun n hn => ?_⟩
  exact .paren (List.mem_singleton.1 hopen) (ho.2 n hn) hr

theorem spans_unary {op : UnaryOp} (hb : Begins pos us) (hop : Fills (.mark [.sumOp, .bang]) [] us)
    (ho : o.Spans .operand vs) : Spans ⟨.unary pos op o.expr, pos⟩ .operand (us ++ vs) := by
  refine ⟨hb.append vs, fun n hn => ?_⟩
  obtain ⟨v, hv, hn⟩ := exists_of_bind_eq_ok hn
  obtain rfl := Except.ok.inj hn
  have hgrammar : ("unary", (.mark [.sumOp, .bang] ++ .operand : Form)) ∈ grammar := by
    simp [grammar]
  exact .bare (.node hgrammar (hb.append vs) (.seq hop (ho.2 v hv)))

theorem spans_binary {op : BinaryOp}
    (hleft : left.Spans (.operand ++ .mark binaryTerminals) us) (hright : right.Spans .operand vs) :
    Spans ⟨.binary left.start op left.expr right.expr, left.start⟩ .operand (us ++ vs) := by
  refine ⟨hleft.1.append vs, fun n hn => ?_⟩
  obtain ⟨l, hl, hn⟩ := exists_of_bind_eq_ok hn
  obtain ⟨r, hr, hn⟩ := exists_of_bind_eq_ok hn
  obtain rfl := Except.ok.inj hn
  have hgrammar : ("bin", (.operand ++ .mark binaryTerminals ++ .operand : Form)) ∈ grammar := by
    simp [grammar]
  exact .bare (.node hgrammar (hleft.1.append vs) (.seq (hleft.2 l hl) (hright.2 r hr)))

end Operand

/-- The terminal of an assignment operator. -/
def AssignOp.terminal : AssignOp → Terminal
  | plain => .equals
  | compound _ => .assignOp

namespace Operand

variable {o left right : Operand}

theorem spans_assign {op : AssignOp} (hleft : left.Spans (.operand ++ .mark [op.terminal]) us)
    (hright : right.Spans .operand vs) :
    Spans ⟨.assign left.start op left.expr right.expr, left.start⟩ .operand (us ++ vs) := by
  refine ⟨hleft.1.append vs, fun n hn => ?_⟩
  obtain ⟨l, hl, hn⟩ := exists_of_bind_eq_ok hn
  obtain ⟨r, hr, hn⟩ := exists_of_bind_eq_ok hn
  obtain rfl := Except.ok.inj hn
  have hgrammar : ("assign", (.operand ++ .mark [op.terminal] ++ .operand : Form)) ∈ grammar := by
    cases op <;> simp [grammar, AssignOp.terminal]
  exact .bare (.node hgrammar (hleft.1.append vs) (.seq (hleft.2 l hl) (hright.2 r hr)))

/-- The mark of a reference is no node. -/
theorem byref_of_toNode {e : Expr} {n : Node} (h : e.toNode = .ok n) :
    ∀ d, Assoc.get? "byref" n.fields = some d → ∃ v, d = .scalar v := by
  have hbool : ∀ {d : Datum} {b : Bool}, some (Datum.bool b) = some d → ∃ v, d = .scalar v := by
    rintro d b ⟨⟩
    exact ⟨_, rfl⟩
  match e with
  | .variable .. =>
    obtain rfl := Except.ok.inj h
    exact fun d => hbool
  | .number .. | .boolean .. | .null _ =>
    obtain rfl := Except.ok.inj h
    exact nofun
  | .string .. | .array .. | .unary .. =>
    obtain ⟨a, -, h⟩ := exists_of_bind_eq_ok h
    obtain rfl := Except.ok.inj h
    exact nofun
  | .append .. =>
    obtain ⟨a, -, h⟩ := exists_of_bind_eq_ok h
    obtain rfl := Except.ok.inj h
    exact fun d => hbool
  | .subscript .. =>
    obtain ⟨a, -, h⟩ := exists_of_bind_eq_ok h
    obtain ⟨b, -, h⟩ := exists_of_bind_eq_ok h
    obtain rfl := Except.ok.inj h
    exact fun d => hbool
  | .binary .. | .assign .. | .reference .. =>
    obtain ⟨a, -, h⟩ := exists_of_bind_eq_ok h
    obtain ⟨b, -, h⟩ := exists_of_bind_eq_ok h
    obtain rfl := Except.ok.inj h
    exact nofun

theorem spans_reference
    (hleft : left.Spans (.operand ++ .mark [.equals] ++ .mark [.ampersand]) us)
    (hright : right.Spans .operand vs) :
    Spans ⟨.reference left.start left.expr right.expr, left.start⟩ .operand (us ++ vs) := by
  refine ⟨hleft.1.append vs, fun n hn => ?_⟩
  obtain ⟨l, hl, hn⟩ := exists_of_bind_eq_ok hn
  obtain ⟨r, hr, hn⟩ := exists_of_bind_eq_ok hn
  obtain rfl := Except.ok.inj hn
  have hgrammar : ("assign",
      (.operand ++ .mark [.equals] ++ .mark [.ampersand] ++ .operand : Form)) ∈ grammar := by
    simp [grammar]
  have hchildren : (r.replace "byref" (.bool true)).children = r.children :=
    Node.children_replace (byref_of_toNode hr)
  have hmarked : Fills .operand [r.replace "byref" (.bool true)] vs :=
    .operand_congr (n := r) rfl hchildren (fun _ => id) (hright.2 r hr)
  exact .bare (.node hgrammar (hleft.1.append vs) (.seq (hleft.2 l hl) hmarked))

theorem spans_append (hbase : o.Spans (.operand ++ .mark [.openBracket]) us)
    (ht : t.terminal = .closeBracket) :
    Spans ⟨.append o.start o.expr, o.start⟩ .operand (us ++ [t]) := by
  refine ⟨hbase.1.append [t], fun n hn => ?_⟩
  obtain ⟨b, hb, hn⟩ := exists_of_bind_eq_ok hn
  obtain rfl := Except.ok.inj hn
  have hgrammar : ("offsetlookup",
      (.operand ++ .mark [.openBracket] ++ .mark [.closeBracket] : Form)) ∈ grammar := by
    simp [grammar]
  refine .bare (.node hgrammar (hbase.1.append [t]) ?_)
  exact (hbase.2 b hb).append_token ht

theorem spans_subscript {key : Operand} (hbase : o.Spans (.operand ++ .mark [.openBracket]) us)
    (hkey : key.Spans .operand vs) (ht : t.terminal = .closeBracket) :
    Spans ⟨.subscript o.start o.expr key.expr, o.start⟩ .operand (us ++ vs ++ [t]) := by
  refine ⟨(hbase.1.append vs).append [t], fun n hn => ?_⟩
  obtain ⟨b, hb, hn⟩ := exists_of_bind_eq_ok hn
  obtain ⟨k, hk, hn⟩ := exists_of_bind_eq_ok hn
  obtain rfl := Except.ok.inj hn
  have hgrammar : ("offsetlookup",
      (.operand ++ .mark [.openBracket] ++ .operand ++
        .mark [.closeBracket] : Form)) ∈ grammar := by
    simp [grammar]
  refine .bare (.node hgrammar ((hbase.1.append vs).append [t]) ?_)
  have hkeyed : Fills (.operand ++ .mark [.openBracket] ++ .operand) [b, k] (us ++ vs) :=
    .seq (hbase.2 b hb) (hkey.2 k hk)
  exact hkeyed.append_token ht

end Operand

/-! ## Array literals -/

def EntryHead.Spans : EntryHead → List Token → Prop
  | fresh, ts => ts = []
  | ref pos, ts => Begins pos ts ∧ Fills (.mark [.ampersand]) [] ts
  | key k, ts => k.Spans (.operand ++ .mark [.arrow]) ts
  | keyRef k, ts => k.Spans (.operand ++ .mark [.arrow] ++ .mark [.ampersand]) ts

/-- An array literal after some entries, in reverse, as the start of a text of the form. -/
def ArraySpans (pos : Position) (f : Form) (done : List Entry) (ts : List Token) : Prop :=
  Begins pos ts ∧
    ∀ items, Entry.toNodes done.reverse = .ok items → Fills f (Datum.nodes items) ts

theorem Entry.exists_of_toNodes_concat {es : List Entry} {e : Entry} {items : List Datum}
    (h : Entry.toNodes (es ++ [e]) = .ok items) :
    ∃ items' n, Entry.toNodes es = .ok items' ∧ e.toNode = .ok n ∧ items = items' ++ [.node n] := by
  induction es generalizing items with
  | nil =>
    obtain ⟨n, hn, h⟩ := exists_of_bind_eq_ok h
    obtain rfl := Except.ok.inj h
    exact ⟨[], n, rfl, hn, rfl⟩
  | cons e' es ih =>
    obtain ⟨n', hn', h⟩ := exists_of_bind_eq_ok h
    obtain ⟨ns, hns, h⟩ := exists_of_bind_eq_ok h
    obtain rfl := Except.ok.inj h
    obtain ⟨items', n, hitems', hn, rfl⟩ := ih hns
    exact ⟨Datum.node n' :: items', n, by rw [toNodes, hn', hitems']; rfl, hn, rfl⟩

namespace Parser

variable {o : Operand} {short : Bool} {done : List Entry} {head : EntryHead}

theorem finishEntry_spans (hh : head.Spans us) (ho : o.Spans .operand vs) :
    (finishEntry head o).Spans (us ++ vs) := by
  intro n hn
  cases head with
  | fresh =>
    obtain rfl := hh
    obtain ⟨v, hv, hn⟩ := exists_of_bind_eq_ok hn
    obtain rfl := Except.ok.inj hn
    have hgrammar : ("entry", .operand) ∈ grammar := by simp [grammar]
    exact .node hgrammar ho.1 (ho.2 v hv)
  | ref pos =>
    obtain ⟨v, hv, hn⟩ := exists_of_bind_eq_ok hn
    obtain rfl := Except.ok.inj hn
    have hgrammar : ("entry", (.mark [.ampersand] ++ .operand : Form)) ∈ grammar := by
      simp [grammar]
    exact .node hgrammar (hh.1.append vs) (.seq hh.2 (ho.2 v hv))
  | key k =>
    obtain ⟨k', hk, hn⟩ := exists_of_bind_eq_ok hn
    obtain ⟨v, hv, hn⟩ := exists_of_bind_eq_ok hn
    obtain rfl := Except.ok.inj hn
    have hgrammar : ("entry", (.operand ++ .mark [.arrow] ++ .operand : Form)) ∈ grammar := by
      simp [grammar]
    exact .node hgrammar (hh.1.append vs) (.seq (hh.2 k' hk) (ho.2 v hv))
  | keyRef k =>
    obtain ⟨k', hk, hn⟩ := exists_of_bind_eq_ok hn
    obtain ⟨v, hv, hn⟩ := exists_of_bind_eq_ok hn
    obtain rfl := Except.ok.inj hn
    have hgrammar : ("entry",
        (.operand ++ .mark [.arrow] ++ .mark [.ampersand] ++ .operand : Form)) ∈ grammar := by
      simp [grammar]
    exact .node hgrammar (hh.1.append vs) (.seq (hh.2 k' hk) (ho.2 v hv))

end Parser

namespace ArraySpans

variable {o : Operand} {short : Bool} {done : List Entry} {e : Entry}

theorem entry (h : ArraySpans pos f done us) (he : e.Spans vs) :
    ArraySpans pos (f ++ .part) (e :: done) (us ++ vs) := by
  refine ⟨h.1.append vs, fun items hitems => ?_⟩
  rw [List.reverse_cons] at hitems
  obtain ⟨items', n, hitems', hn, rfl⟩ := Entry.exists_of_toNodes_concat hitems
  rw [Datum.nodes_append]
  exact .seq (h.2 items' hitems') (he n hn)

theorem comma (h : ArraySpans pos (f ++ .commas .part ++ .part) done us)
    (ht : t.terminal = .comma) : ArraySpans pos (f ++ .commas .part) done (us ++ [t]) :=
  ⟨h.1.append [t], fun items hitems =>
    ((h.2 items hitems).append_token ht).commas_of_mark⟩

theorem finish
    (h : ArraySpans pos (.opening short ++ .commas .part ++ .optional .part) done us)
    (ht : Fills (.closing short) [] [t]) :
    (Parser.finishArray pos short done).Spans .operand (us ++ [t]) := by
  refine ⟨h.1.append [t], fun n hn => ?_⟩
  obtain ⟨items, hitems, hn⟩ := exists_of_bind_eq_ok hn
  obtain rfl := Except.ok.inj hn
  have hgrammar : ("array", .array short) ∈ grammar := by cases short <;> simp [grammar]
  exact .bare (.node hgrammar (h.1.append [t]) (.seq (h.2 items hitems) ht))

theorem finish_empty (h : ArraySpans pos (.opening short ++ .commas .part) done us)
    (ht : Fills (.closing short) [] [t]) :
    (Parser.finishArray pos short done).Spans .operand (us ++ [t]) :=
  finish ⟨h.1, fun items hitems => (h.2 items hitems).append_empty⟩ ht

theorem finish_entry (h : ArraySpans pos (.opening short ++ .commas .part) done us)
    (he : e.Spans vs) (ht : Fills (.closing short) [] [t]) :
    (Parser.finishArray pos short (e :: done)).Spans .operand (us ++ vs ++ [t]) := by
  have hentry := h.entry he
  exact finish ⟨hentry.1, fun items hitems => (hentry.2 items hitems).append_optional⟩ ht

end ArraySpans

/-! ## All that waits in the parser -/

def Frame.Spans : Frame → List Token → Prop
  | group pos, ts => Begins pos ts ∧ Fills (.mark [.openParen]) [] ts
  | subscript base, ts => base.Spans (.operand ++ .mark [.openBracket]) ts
  | entries pos short done head, ts => ∃ us vs, ts = us ++ vs ∧
      ArraySpans pos (.opening short ++ .commas .part) done us ∧ head.Spans vs
  | unary pos _, ts => Begins pos ts ∧ Fills (.mark [.sumOp, .bang]) [] ts
  | binary left _, ts => left.Spans (.operand ++ .mark binaryTerminals) ts
  | assign target op, ts => target.Spans (.operand ++ .mark [op.terminal]) ts
  | reference target, ts => target.Spans (.operand ++ .mark [.equals] ++ .mark [.ampersand]) ts

/-- The frames, the innermost first, were read from the tokens. -/
def Stacked : List Frame → List Token → Prop
  | [], ts => ts = []
  | frame :: frames, ts => ∃ us vs, ts = us ++ vs ∧ Stacked frames us ∧ frame.Spans vs

def Context.Spans : Context → List Token → Prop
  | expression, ts => ts = []
  | echo pos done, ts => Begins pos ts ∧ ∀ ns, done.reverse.mapM Expr.toNode = .ok ns →
      Fills (.mark [.echo] ++ .commas .operand) ns ts

/-- A declaration after some names, in reverse, as the start of a text of the form. -/
def NamesSpan (pos : Position) (f : Form) (done : List Name) (ts : List Token) : Prop :=
  Begins pos ts ∧ Fills f (done.reverse.map Name.node) ts

def globalForm : Form := .mark [.global] ++ .commas .part

def unsetForm : Form := .mark [.unset] ++ .mark [.openParen] ++ .commas .part

def Phase.Spans : Phase → List Token → Prop
  | start, _ => False
  | statement, ts => ts = []
  | closed, ts => Fills (.mark [.closeTag]) [] ts
  | operand context frames, ts => ∃ us vs, ts = us ++ vs ∧ context.Spans us ∧ Stacked frames vs
  | operator context frames o, ts => ∃ us vs ws, ts = us ++ vs ++ ws ∧ context.Spans us ∧
      Stacked frames vs ∧ o.Spans .operand ws
  | arrayParen context frames pos, ts => ∃ us vs ws, ts = us ++ vs ++ ws ∧ context.Spans us ∧
      Stacked frames vs ∧ Begins pos ws ∧ Fills (.mark [.array]) [] ws
  | globalName pos done, ts => NamesSpan pos globalForm done ts
  | globalNext pos done, ts => NamesSpan pos (globalForm ++ .part) done ts
  | unsetParen pos, ts => NamesSpan pos (.mark [.unset]) [] ts
  | unsetName pos, ts => NamesSpan pos unsetForm [] ts
  | unsetNext pos done, ts => NamesSpan pos (unsetForm ++ .part) done ts
  | unsetMore pos done, ts => NamesSpan pos (unsetForm ++ .part ++ .mark [.comma]) done ts
  | unsetEnd pos done, ts => NamesSpan pos
      (unsetForm ++ .part ++ .optional (.mark [.comma]) ++ .mark [.closeParen]) done ts

/-! ## Statements -/

section

variable {o : Operand}

theorem Stmt.spans_expression (ho : o.Spans .operand us) (ht : t.terminal = .semicolon) :
    (Stmt.expression o.start o.expr).Spans (us ++ [t]) := by
  intro n hn
  obtain ⟨m, hm, hn⟩ := exists_of_bind_eq_ok hn
  obtain rfl := Except.ok.inj hn
  have hgrammar : ("expressionstatement", (.operand ++ .mark [.semicolon] : Form)) ∈ grammar := by
    simp [grammar]
  exact .node hgrammar (ho.1.append [t]) ((ho.2 m hm).append_token ht)

variable {done : List Expr}

theorem Context.spans_echo (hc : (Context.echo pos done).Spans us) (ho : o.Spans .operand vs)
    (ht : t.terminal = .comma) :
    (Context.echo pos (o.expr :: done)).Spans (us ++ vs ++ [t]) := by
  refine ⟨(hc.1.append vs).append [t], fun ns hns => ?_⟩
  rw [List.reverse_cons] at hns
  obtain ⟨ns', n, hns', hn, rfl⟩ := exists_of_mapM_concat hns
  have hoperand := (ho.2 n hn).append_token ht
  rw [List.append_assoc]
  exact (hc.2 ns' hns').append_many hoperand

theorem Stmt.spans_echo (hc : (Context.echo pos done).Spans us) (ho : o.Spans .operand vs)
    (ht : t.terminal = .semicolon) :
    (Stmt.echo pos (o.expr :: done).reverse).Spans (us ++ vs ++ [t]) := by
  intro n hn
  obtain ⟨ns, hns, hn⟩ := exists_of_bind_eq_ok hn
  obtain rfl := Except.ok.inj hn
  rw [List.reverse_cons] at hns
  obtain ⟨ns', m, hns', hm, rfl⟩ := exists_of_mapM_concat hns
  have hgrammar : ("echo",
      (.mark [.echo] ++ .commas .operand ++ .operand ++ .mark [.semicolon] : Form)) ∈ grammar := by
    simp [grammar]
  have hoperands : Fills (.mark [.echo] ++ .commas .operand ++ .operand) (ns' ++ [m]) (us ++ vs) :=
    .seq (hc.2 ns' hns') (ho.2 m hm)
  have hchildren : Node.childrenIn [("expressions", .list ((ns' ++ [m]).map .node)),
      ("shortForm", .bool false)] = ns' ++ [m] :=
    (List.append_nil _).trans (Datum.nodes_map_node _)
  refine .node hgrammar ((hc.1.append vs).append [t]) ?_
  rw [hchildren]
  exact hoperands.append_token ht

end

/-! ## Declarations -/

namespace NamesSpan

variable {done : List Name}

theorem token {terminal : Terminal} (h : NamesSpan pos f done us) (ht : t.terminal = terminal) :
    NamesSpan pos (f ++ .mark [terminal]) done (us ++ [t]) :=
  ⟨h.1.append [t], h.2.append_token ht⟩

theorem name (h : NamesSpan pos f done us) (ht : t.terminal = .variable) :
    NamesSpan pos (f ++ .part) (Parser.name t :: done) (us ++ [t]) := by
  refine ⟨h.1.append [t], ?_⟩
  rw [List.reverse_cons, List.map_append]
  exact .seq h.2 (Parser.fills_name ht)

theorem commas (h : NamesSpan pos (f ++ .commas .part ++ .part ++ .mark [.comma]) done us) :
    NamesSpan pos (f ++ .commas .part) done us := ⟨h.1, h.2.commas_of_mark⟩

theorem none (h : NamesSpan pos f done us) : NamesSpan pos (f ++ .commas .part) done us :=
  ⟨h.1, h.2.append_none⟩

theorem empty {g : Form} (h : NamesSpan pos f done us) : NamesSpan pos (f ++ .optional g) done us :=
  ⟨h.1, h.2.append_empty⟩

theorem optional {g : Form} (h : NamesSpan pos (f ++ g) done us) :
    NamesSpan pos (f ++ .optional g) done us := ⟨h.1, h.2.append_optional⟩

theorem childrenIn_names (field : String) (names : List Name) :
    Node.childrenIn [(field, .list (names.map Name.toDatum))] = names.map Name.node :=
  (List.append_nil _).trans (Name.nodes_toDatum names)

theorem global (h : NamesSpan pos (globalForm ++ .part) done us) (ht : t.terminal = .semicolon) :
    (Stmt.global pos done.reverse).Spans (us ++ [t]) := by
  rintro n ⟨⟩
  have hgrammar : ("global", globalForm ++ .part ++ .mark [.semicolon]) ∈ grammar := by
    simp [grammar, globalForm]
  have hnames := h.token ht
  refine .node hgrammar hnames.1 ?_
  rw [childrenIn_names]
  exact hnames.2

theorem unset (h : NamesSpan pos
      (unsetForm ++ .part ++ .optional (.mark [.comma]) ++ .mark [.closeParen]) done us)
    (ht : t.terminal = .semicolon) : (Stmt.unset pos done.reverse).Spans (us ++ [t]) := by
  rintro n ⟨⟩
  have hgrammar : ("unset",
      (unsetForm ++ .part ++ .optional (.mark [.comma]) ++ .mark [.closeParen] ++
        .mark [.semicolon] : Form)) ∈ grammar := by
    simp [grammar, unsetForm]
  have hnames := h.token ht
  refine .node hgrammar hnames.1 ?_
  rw [childrenIn_names]
  exact hnames.2

end NamesSpan

/-! ## Whole programs -/

/-- The statements, in reverse, were read from the tokens. -/
def StmtsSpan (done : List Stmt) (ts : List Token) : Prop :=
  ∀ ns, done.reverse.mapM Stmt.toNode = .ok ns → Fills .statements ns ts

namespace StmtsSpan

variable {done : List Stmt}

theorem cons {s : Stmt} (h : StmtsSpan done us) (hs : s.Spans vs) :
    StmtsSpan (s :: done) (us ++ vs) := by
  intro ns hns
  rw [List.reverse_cons] at hns
  obtain ⟨ns', n, hns', hn, rfl⟩ := exists_of_mapM_concat hns
  exact (h ns' hns').append_many (.first (hs n hn))

theorem semicolon (h : StmtsSpan done us) (ht : t.terminal = .semicolon) :
    StmtsSpan done (us ++ [t]) := by
  intro ns hns
  rw [← List.append_nil ns]
  exact (h ns hns).append_many (.second (.token ht))

theorem nil : StmtsSpan [] [] := by
  rintro ns ⟨⟩
  exact Fills.append_none (.second .empty)

theorem openTag (ht : t.terminal = .openTag) : StmtsSpan [] [t] := by
  rintro ns ⟨⟩
  exact Fills.append_none (.first (.token ht))

end StmtsSpan

end PhpInterpreter.Source
