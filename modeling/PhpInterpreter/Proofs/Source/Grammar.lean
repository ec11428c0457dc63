import PhpInterpreter.Proofs.Node.Walk
import PhpInterpreter.Source.Tree

/-!
The grammar of the source language, over nodes. It says which tokens are the text of a node and
which of them are the texts of its children, with parentheses around operands or without, and it
places every node at the first token of its text. Precedence is left open: which node is inside
which other one is read off the tree.
-/

namespace PhpInterpreter

/-- The node has the line and the column of a position. -/
def Node.At (n : Node) (pos : Source.Position) : Prop :=
  n.line = .scalar (.number (.int pos.line)) ∧ n.column = some (pos.column : Int)

namespace Source

/-- What a text consists of. -/
inductive Form
  /-- A token of one of the terminals. -/
  | mark (terminals : List Terminal)
  /-- The text of a child. -/
  | part
  /-- The text of a child, maybe in parentheses. -/
  | operand
  | empty
  | seq (first second : Form)
  | either (first second : Form)
  | many (f : Form)

namespace Form

instance : Append Form := ⟨seq⟩

def optional (f : Form) : Form := either f empty

/-- Texts with a comma after each. -/
def commas (f : Form) : Form := many (f ++ mark [.comma])

def opening : Bool → Form
  | true => mark [.openBracket]
  | false => mark [.array] ++ mark [.openParen]

def closing : Bool → Form
  | true => mark [.closeBracket]
  | false => mark [.closeParen]

/-- The array literals of the short form, or of the long one. -/
def array (short : Bool) : Form :=
  opening short ++ commas part ++ optional part ++ closing short

/-- The statements of a program after the opening tag, empty ones included. -/
def statements : Form :=
  optional (mark [.openTag]) ++ many (either part (mark [.semicolon]))

end Form

/-- The terminals of the binary operators. -/
def binaryTerminals : List Terminal :=
  [.equalityOp, .comparisonOp, .andOp, .orOp, .coalesce, .powerOp, .productOp, .sumOp, .dot,
    .lowAnd, .lowXor, .lowOr]

open Form in
/-- The forms of the texts of nodes, by kind. -/
def grammar : List (String × Form) :=
  [("variable", mark [.variable]),
    ("number", mark [.number]),
    ("string", mark [.doubleQuoted, .singleQuoted]),
    ("boolean", mark [.trueWord, .falseWord]),
    ("nullkeyword", mark [.nullWord]),
    ("array", array true),
    ("array", array false),
    ("entry", operand),
    ("entry", mark [.ampersand] ++ operand),
    ("entry", operand ++ mark [.arrow] ++ operand),
    ("entry", operand ++ mark [.arrow] ++ mark [.ampersand] ++ operand),
    ("offsetlookup", operand ++ mark [.openBracket] ++ operand ++ mark [.closeBracket]),
    ("offsetlookup", operand ++ mark [.openBracket] ++ mark [.closeBracket]),
    ("unary", mark [.sumOp, .bang] ++ operand),
    ("bin", operand ++ mark binaryTerminals ++ operand),
    ("assign", operand ++ mark [.equals] ++ operand),
    ("assign", operand ++ mark [.assignOp] ++ operand),
    ("assign", operand ++ mark [.equals] ++ mark [.ampersand] ++ operand),
    ("expressionstatement", operand ++ mark [.semicolon]),
    ("echo", mark [.echo] ++ commas operand ++ operand ++ mark [.semicolon]),
    ("global", mark [.global] ++ commas part ++ part ++ mark [.semicolon]),
    ("unset", mark [.unset] ++ mark [.openParen] ++ commas part ++ part ++
      optional (mark [.comma]) ++ mark [.closeParen] ++ mark [.semicolon]),
    ("program", statements ++ optional (mark [.closeTag]))]

/-- The nodes, in order, have texts that together with other tokens are of the form. A node has the
position of the first token of its text; parentheses around it are no part of its text, but those
around its first operand are. -/
inductive Fills : Form → List Node → List Token → Prop
  | mark {terminals t} (ht : t.terminal ∈ terminals) : Fills (.mark terminals) [] [t]
  | part {n f t ts} (hf : (n.kind, f) ∈ grammar) (h : Fills f n.children (t :: ts))
      (hat : n.At t.pos) : Fills .part [n] (t :: ts)
  | bare {ns ts} (h : Fills .part ns ts) : Fills .operand ns ts
  | paren {ns ts l r} (hl : l.terminal = .openParen) (h : Fills .operand ns ts)
      (hr : r.terminal = .closeParen) : Fills .operand ns ([l] ++ ts ++ [r])
  | empty : Fills .empty [] []
  | seq {f g ns ns' ts ts'} (h : Fills f ns ts) (h' : Fills g ns' ts') :
      Fills (.seq f g) (ns ++ ns') (ts ++ ts')
  | first {f g ns ts} (h : Fills f ns ts) : Fills (.either f g) ns ts
  | second {f g ns ts} (h : Fills g ns ts) : Fills (.either f g) ns ts
  | none {f} : Fills (.many f) [] []
  | more {f ns ns' ts ts'} (h : Fills (.many f) ns ts) (h' : Fills f ns' ts') :
      Fills (.many f) (ns ++ ns') (ts ++ ts')

/-! ## Texts of the nodes in a tree -/

/-- Line before column. -/
instance : LT Position := ⟨fun p q => p.line < q.line ∨ p.line = q.line ∧ p.column < q.column⟩

instance : LE Position := ⟨fun p q => p.line < q.line ∨ p.line = q.line ∧ p.column ≤ q.column⟩

theorem Position.lt_iff {p q : Position} :
    p < q ↔ p.line < q.line ∨ p.line = q.line ∧ p.column < q.column := Iff.rfl

theorem Position.le_iff {p q : Position} :
    p ≤ q ↔ p.line < q.line ∨ p.line = q.line ∧ p.column ≤ q.column := Iff.rfl

theorem Position.le_refl (p : Position) : p ≤ p := .inr ⟨rfl, Nat.le_refl _⟩

theorem Position.le_of_lt {p q : Position} (h : p < q) : p ≤ q :=
  h.imp_right fun hcolumn => ⟨hcolumn.1, Nat.le_of_lt hcolumn.2⟩

theorem Position.lt_of_lt_of_le {p q r : Position} (h : p < q) (h' : q ≤ r) : p < r := by
  rw [lt_iff] at h ⊢
  rw [le_iff] at h'
  omega

namespace Fills

variable {f g : Form} {n m : Node} {ns ns' : List Node} {ts ts' : List Token}

theorem exists_at (h : Fills .part [n] ts) : ∃ t ∈ ts, n.At t.pos := by
  cases h with
  | part hf h hat => exact ⟨_, List.mem_cons_self, hat⟩

/-- Every node of a tree has its text inside the text of the tree. -/
theorem exists_infix (h : Fills f ns ts) :
    ∀ m ∈ Node.walkPending ns, ∃ text, text <:+: ts ∧ Fills .part [m] text := by
  -- Two texts in a row hold the texts of the nodes of both.
  have hrow : ∀ {ns ns' : List Node} {ts ts' : List Token},
      (∀ m ∈ Node.walkPending ns, ∃ text, text <:+: ts ∧ Fills .part [m] text) →
      (∀ m ∈ Node.walkPending ns', ∃ text, text <:+: ts' ∧ Fills .part [m] text) →
      ∀ m ∈ Node.walkPending (ns ++ ns'),
        ∃ text, text <:+: ts ++ ts' ∧ Fills .part [m] text := by
    intro ns ns' ts ts' hns hns' m hm
    rw [Node.walkPending_append] at hm
    rcases List.mem_append.1 hm with hm | hm
    · obtain ⟨text, htext, hfills⟩ := hns m hm
      exact ⟨text, htext.trans (List.prefix_append ts ts').isInfix, hfills⟩
    · obtain ⟨text, htext, hfills⟩ := hns' m hm
      exact ⟨text, htext.trans (List.suffix_append ts ts').isInfix, hfills⟩
  induction h with
  | mark | empty | none =>
    rw [Node.walkPending]
    exact List.forall_mem_nil _
  | @part n f t ts hf h hat ih =>
    rw [Node.walkPending_singleton]
    refine List.forall_mem_cons.2 ⟨⟨t :: ts, List.infix_refl _, .part hf h hat⟩, ih⟩
  | bare h ih | first h ih | second h ih => exact ih
  | @paren ns ts l r hl h hr ih =>
    intro m hm
    obtain ⟨text, htext, hfills⟩ := ih m hm
    exact ⟨text, htext.trans ⟨[l], [r], rfl⟩, hfills⟩
  | seq h h' ih ih' => exact hrow ih ih'
  | more h h' ih ih' => exact hrow ih ih'

theorem exists_token (h : Fills f ns ts) (hm : m ∈ Node.walkPending ns) :
    ∃ t ∈ ts, m.At t.pos := by
  obtain ⟨text, htext, hfills⟩ := h.exists_infix m hm
  obtain ⟨t, ht, hat⟩ := hfills.exists_at
  exact ⟨t, htext.subset ht, hat⟩

/-- Where tokens come one after the other, so do the nodes of a walk. -/
theorem pairwise_walk (h : Fills f ns ts) (hts : ts.Pairwise (·.pos < ·.pos)) :
    (Node.walkPending ns).Pairwise fun m m' => ∃ p p', m.At p ∧ m'.At p' ∧ p ≤ p' := by
  have hrow : ∀ {f g : Form} {ns ns' : List Node} {ts ts' : List Token},
      Fills f ns ts → Fills g ns' ts' → (ts ++ ts').Pairwise (·.pos < ·.pos) →
      ∀ m ∈ Node.walkPending ns, ∀ m' ∈ Node.walkPending ns',
        ∃ p p', m.At p ∧ m'.At p' ∧ p ≤ p' := by
    intro f g ns ns' ts ts' h h' hts m hm m' hm'
    obtain ⟨t, ht, hat⟩ := h.exists_token hm
    obtain ⟨t', ht', hat'⟩ := h'.exists_token hm'
    have hlt := (List.pairwise_append.1 hts).2.2 t ht t' ht'
    exact ⟨t.pos, t'.pos, hat, hat', Position.le_of_lt hlt⟩
  induction h with
  | mark | empty | none =>
    rw [Node.walkPending]
    exact .nil
  | @part n f t ts hf h hat ih =>
    rw [Node.walkPending_singleton]
    refine .cons (fun m hm => ?_) (ih hts)
    obtain ⟨t', ht', hat'⟩ := h.exists_token hm
    refine ⟨t.pos, t'.pos, hat, hat', ?_⟩
    rcases List.mem_cons.1 ht' with rfl | ht'
    · exact Position.le_refl _
    · exact Position.le_of_lt (List.rel_of_pairwise_cons hts ht')
  | bare h ih | first h ih | second h ih => exact ih hts
  | paren hl h hr ih =>
    exact ih (List.pairwise_append.1 (List.pairwise_append.1 hts).1).2.1
  | seq h h' ih ih' | more h h' ih ih' =>
    have hparts := List.pairwise_append.1 hts
    rw [Node.walkPending_append]
    exact List.pairwise_append.2 ⟨ih hparts.1, ih' hparts.2.1, hrow h h' hts⟩

/-! ## Texts put together -/

theorem exists_of_append (h : Fills (f ++ g) ns ts) :
    ∃ ms ms' us us', ns = ms ++ ms' ∧ ts = us ++ us' ∧ Fills f ms us ∧ Fills g ms' us' := by
  cases h with
  | seq h h' => exact ⟨_, _, _, _, rfl, rfl, h, h'⟩

theorem exists_of_mark {terminals : List Terminal} (h : Fills (.mark terminals) ns ts) :
    ∃ t, ns = [] ∧ ts = [t] ∧ t.terminal ∈ terminals := by
  cases h with
  | mark ht => exact ⟨_, rfl, rfl, ht⟩

theorem append_mark {terminals : List Terminal} {t : Token} (h : Fills f ns ts)
    (ht : t.terminal ∈ terminals) : Fills (f ++ .mark terminals) ns (ts ++ [t]) := by
  rw [← List.append_nil ns]
  exact .seq h (.mark ht)

theorem token {terminal : Terminal} {t : Token} (ht : t.terminal = terminal) :
    Fills (.mark [terminal]) [] [t] := .mark (List.mem_singleton.2 ht)

theorem append_token {terminal : Terminal} {t : Token} (h : Fills f ns ts)
    (ht : t.terminal = terminal) : Fills (f ++ .mark [terminal]) ns (ts ++ [t]) :=
  h.append_mark (List.mem_singleton.2 ht)

theorem append_many (h : Fills (f ++ .many g) ns ts) (h' : Fills g ns' ts') :
    Fills (f ++ .many g) (ns ++ ns') (ts ++ ts') := by
  obtain ⟨ms, ms', us, us', rfl, rfl, hf, hg⟩ := h.exists_of_append
  rw [List.append_assoc, List.append_assoc]
  exact .seq hf (.more hg h')

theorem append_none (h : Fills f ns ts) : Fills (f ++ .many g) ns ts := by
  rw [← List.append_nil ns, ← List.append_nil ts]
  exact .seq h .none

theorem append_empty (h : Fills f ns ts) : Fills (f ++ .optional g) ns ts := by
  rw [← List.append_nil ns, ← List.append_nil ts]
  exact .seq h (.second .empty)

theorem append_optional (h : Fills (f ++ g) ns ts) : Fills (f ++ .optional g) ns ts := by
  obtain ⟨ms, ms', us, us', rfl, rfl, hf, hg⟩ := h.exists_of_append
  exact .seq hf (.first hg)

/-- A text with the comma after it is one more of the texts with commas. -/
theorem commas_of_mark (h : Fills (f ++ .commas g ++ g ++ .mark [.comma]) ns ts) :
    Fills (f ++ .commas g) ns ts := by
  obtain ⟨ms, ms', us, us', rfl, rfl, hfront, hcomma⟩ := h.exists_of_append
  obtain ⟨ms, ns, us, ts, rfl, rfl, hcommas, hg⟩ := hfront.exists_of_append
  rw [List.append_assoc, List.append_assoc]
  exact hcommas.append_many (.seq hg hcomma)

/-- A node of the same kind at the same place, with the same children, has the same texts. -/
theorem operand_congr (hkind : m.kind = n.kind) (hchildren : m.children = n.children)
    (hat : ∀ pos, n.At pos → m.At pos) (h : Fills .operand [n] ts) : Fills .operand [m] ts := by
  generalize hf : Form.operand = f at h
  generalize hns : [n] = ns at h
  induction h with
  | bare h =>
    subst hns
    cases h with
    | part hgrammar hfills hn =>
      rw [← hkind] at hgrammar
      rw [← hchildren] at hfills
      exact .bare (.part hgrammar hfills (hat _ hn))
  | paren hl h hr ih => exact .paren hl (ih hf hns) hr
  | _ => cases hf

end Fills

end Source

end PhpInterpreter
