import PhpInterpreter.Proofs.Outcome
import PhpInterpreter.Proofs.Source.Precedence
import PhpInterpreter.Proofs.Source.Relocation

/-!
Printing and reading back. Every expression inside a program that was read is read again from its
printed text, as the only statement there, positions aside.
-/

namespace PhpInterpreter

/-- The tree with one place for all nodes. -/
def Node.erase (n : Node) : Node := n.mapPlace fun _ => Source.Position.start.place

namespace Source

open Source.Parser

/-! ## Expressions of a program -/

def Entry.children : Entry → List Expr
  | .item _ value _ => [value]
  | .keyed _ key value _ => [key, value]

/-- The expressions an expression is made of. -/
def Expr.children : Expr → List Expr
  | .variable .. | .number .. | .string .. | .boolean .. | .null _ => []
  | .array _ _ entries => entries.flatMap Entry.children
  | .subscript _ base key => [base, key]
  | .append _ base => [base]
  | .unary _ _ operand => [operand]
  | .binary _ _ left right => [left, right]
  | .assign _ _ target value => [target, value]
  | .reference _ target source => [target, source]

/-- An expression anywhere inside another one. -/
inductive Expr.Within (whole : Expr) : Expr → Prop
  | self : Within whole whole
  | child {e c : Expr} (h : Within whole e) (hc : c ∈ e.children) : Within whole c

def Stmt.expressions : Stmt → List Expr
  | .expression _ e => [e]
  | .echo _ operands => operands
  | .global .. | .unset .. => []

/-- An expression anywhere inside a program. -/
def Program.Contains (p : Program) (e : Expr) : Prop :=
  ∃ s ∈ p.statements, ∃ whole ∈ s.expressions, whole.Within e

theorem Entry.Sound.children {entry : Entry} (h : entry.Sound) :
    ∀ c ∈ entry.children, c.Sound := by
  cases entry with
  | item =>
    rw [Entry.children, List.forall_mem_singleton]
    exact h
  | keyed =>
    rw [Entry.children, List.forall_mem_cons, List.forall_mem_singleton]
    exact h

theorem Expr.Sound.children {e : Expr} (h : e.Sound) : ∀ c ∈ e.children, c.Sound := by
  cases e with
  | array pos short entries =>
    intro c hc
    obtain ⟨entry, hentry, hmem⟩ := List.mem_flatMap.1 hc
    exact (Entry.soundAll_iff.1 h entry hentry).children c hmem
  | subscript | binary | reference =>
    rw [Expr.children, List.forall_mem_cons, List.forall_mem_singleton]
    exact h
  | append | unary =>
    rw [Expr.children, List.forall_mem_singleton]
    exact h
  | assign =>
    rw [Expr.children, List.forall_mem_cons, List.forall_mem_singleton]
    exact h.2
  | _ =>
    intro c hc
    cases hc

theorem Entry.toNode_of_mem {entries : List Entry} {items : List Datum}
    (h : Entry.toNodes entries = .ok items) : ∀ entry ∈ entries, ∃ n, entry.toNode = .ok n := by
  induction entries generalizing items with
  | nil => exact nofun
  | cons e rest ih =>
    rw [Entry.toNodes] at h
    obtain ⟨n, hn, h⟩ := exists_of_bind_eq_ok h
    obtain ⟨ns, hns, -⟩ := exists_of_bind_eq_ok h
    exact List.forall_mem_cons.2 ⟨⟨n, hn⟩, ih hns⟩

theorem Entry.toNode_children {entry : Entry} {n : Node} (h : entry.toNode = .ok n) :
    ∀ c ∈ entry.children, ∃ m, c.toNode = .ok m := by
  cases entry with
  | item pos value byRef =>
    rw [Entry.toNode] at h
    obtain ⟨v, hv, -⟩ := exists_of_bind_eq_ok h
    simp [Entry.children, hv]
  | keyed pos key value byRef =>
    rw [Entry.toNode] at h
    obtain ⟨k, hk, h⟩ := exists_of_bind_eq_ok h
    obtain ⟨v, hv, -⟩ := exists_of_bind_eq_ok h
    simp [Entry.children, hk, hv]

/-- What an expression with a tree is made of has a tree. -/
theorem Expr.toNode_children {e : Expr} {n : Node} (h : e.toNode = .ok n) :
    ∀ c ∈ e.children, ∃ m, c.toNode = .ok m := by
  cases e with
  | array pos short entries =>
    intro c hc
    obtain ⟨entry, hentry, hmem⟩ := List.mem_flatMap.1 hc
    rw [Expr.toNode] at h
    obtain ⟨items, hitems, -⟩ := exists_of_bind_eq_ok h
    obtain ⟨m, hm⟩ := Entry.toNode_of_mem hitems entry hentry
    exact Entry.toNode_children hm c hmem
  | subscript | binary | assign | reference =>
    rw [Expr.toNode] at h
    obtain ⟨l, hl, h⟩ := exists_of_bind_eq_ok h
    obtain ⟨r, hr, -⟩ := exists_of_bind_eq_ok h
    simp [Expr.children, hl, hr]
  | append | unary =>
    rw [Expr.toNode] at h
    obtain ⟨m, hm, -⟩ := exists_of_bind_eq_ok h
    simp [Expr.children, hm]
  | _ =>
    intro c hc
    cases hc

/-- What holds of the whole and goes over to the parts holds of all that is inside. -/
theorem Expr.Within.induct {P : Expr → Prop} {whole e : Expr} (h : whole.Within e)
    (hwhole : P whole) (hchildren : ∀ e, P e → ∀ c ∈ e.children, P c) : P e := by
  induction h with
  | self => exact hwhole
  | child _ hc ih => exact hchildren _ ih _ hc

theorem Program.Contains.sound {p : Program} {e : Expr} (h : p.Contains e) (hp : p.Sound) :
    e.Sound := by
  obtain ⟨s, hs, whole, hwhole, he⟩ := h
  have hsound := hp s hs
  have hexpr : whole.Sound := by
    cases s with
    | expression pos e =>
      obtain rfl := List.mem_singleton.1 hwhole
      exact hsound
    | echo pos operands => exact hsound whole hwhole
    | _ => cases hwhole
  exact he.induct hexpr fun _ => Expr.Sound.children

theorem exists_of_mapM_ok {α β ε : Type} {f : α → Except ε β} {l : List α} {bs : List β}
    (h : l.mapM f = .ok bs) : ∀ a ∈ l, ∃ b, f a = .ok b := by
  induction l generalizing bs with
  | nil => exact nofun
  | cons a rest ih =>
    rw [List.mapM_cons] at h
    obtain ⟨b, hb, h⟩ := exists_of_bind_eq_ok h
    obtain ⟨bs', hbs', -⟩ := exists_of_bind_eq_ok h
    exact List.forall_mem_cons.2 ⟨⟨b, hb⟩, ih hbs'⟩

theorem Program.Contains.toNode {p : Program} {e : Expr} {root : Node} (h : p.Contains e)
    (hp : p.toNode = .ok root) : ∃ n, e.toNode = .ok n := by
  obtain ⟨s, hs, whole, hwhole, he⟩ := h
  rw [Program.toNode] at hp
  obtain ⟨ns, hns, -⟩ := exists_of_bind_eq_ok hp
  obtain ⟨m, hm⟩ := exists_of_mapM_ok hns s hs
  have hexpr : ∃ n, whole.toNode = .ok n := by
    cases s with
    | expression pos e =>
      obtain rfl := List.mem_singleton.1 hwhole
      rw [Stmt.toNode] at hm
      obtain ⟨n, hn, -⟩ := exists_of_bind_eq_ok hm
      exact ⟨n, hn⟩
    | echo pos operands =>
      rw [Stmt.toNode] at hm
      obtain ⟨ns, hns, -⟩ := exists_of_bind_eq_ok hm
      exact exists_of_mapM_ok hns whole hwhole
    | _ => cases hwhole
  refine he.induct (P := fun e => ∃ n, e.toNode = .ok n) hexpr ?_
  rintro e ⟨n, hn⟩
  exact Expr.toNode_children hn

/-! ## Tokens of an expression -/

/-- The text is one token before every separator. -/
def IsToken (text : String) : Prop := ∀ rest, Terminal.Separated rest → Terminal.Lexes text rest

theorem isToken_of_first {t : Terminal} {text : String}
    (h : ∀ rest, Terminal.Separated rest →
      Terminal.first? (fun _ => true) (text.toList ++ rest) = some (t, text.length)) :
    IsToken text := by
  have halone := h [] rfl
  rw [List.append_nil] at halone
  exact fun rest hrest => Terminal.lexes_of_first halone (h rest hrest)

theorem isToken_of_mem {text : String} (h : text ∈ Terminal.symbols.map Prod.fst) :
    IsToken text := by
  obtain ⟨⟨s, t⟩, hmem, rfl⟩ := List.mem_map.1 h
  exact fun rest => Terminal.lexes_of_mem hmem

theorem isToken_binary (op : BinaryOp) : IsToken op.symbol := by
  apply isToken_of_mem
  cases op <;> decide +kernel

theorem isToken_unary (op : UnaryOp) : IsToken op.symbol := by
  apply isToken_of_mem
  cases op <;> decide +kernel

theorem AssignOp.Sound.isToken {op : AssignOp} (h : op.Sound) : IsToken op.symbol := by
  apply isToken_of_mem
  cases op with
  | plain => decide +kernel
  | compound op =>
    have hall : ∀ s ∈ ["**=", "??=", "+=", "-=", "*=", "/=", ".=", "%="],
        s ∈ Terminal.symbols.map Prod.fst := by decide +kernel
    exact hall _ h.assignOp_text

/-- Tokens between brackets. -/
theorem forall_isToken_between {l r : String} {texts : List String}
    (hl : l ∈ Terminal.symbols.map Prod.fst) (hr : r ∈ Terminal.symbols.map Prod.fst)
    (h : ∀ s ∈ texts, IsToken s) : ∀ s ∈ l :: (texts ++ [r]), IsToken s := by
  rw [List.forall_mem_cons, List.forall_mem_append, List.forall_mem_singleton]
  exact ⟨isToken_of_mem hl, h, isToken_of_mem hr⟩

/-- Tokens around an operator. -/
theorem forall_isToken_around {op : String} {left right : List String} (hop : IsToken op)
    (hleft : ∀ s ∈ left, IsToken s) (hright : ∀ s ∈ right, IsToken s) :
    ∀ s ∈ left ++ op :: right, IsToken s := by
  rw [List.forall_mem_append, List.forall_mem_cons]
  exact ⟨hleft, hop, hright⟩

theorem forall_isToken_enclose {own k : Nat} {texts : List String} (h : ∀ s ∈ texts, IsToken s) :
    ∀ s ∈ enclose k own texts, IsToken s := by
  rw [enclose]
  split
  · exact forall_isToken_between (by decide +kernel) (by decide +kernel) h
  · exact h

mutual

/-- Each token of an expression is one token of the language. -/
theorem Expr.isToken_tokens : ∀ e : Expr, e.Sound → ∀ s ∈ e.tokens, IsToken s
  | .variable _ name, h => by
    rw [Expr.tokens, List.forall_mem_singleton]
    exact isToken_of_first fun _ => h.first?_variable
  | .number _ text, h => by
    rw [Expr.tokens, List.forall_mem_singleton]
    exact isToken_of_first fun _ => h.first?_number
  | .string _ raw, h => by
    rw [Expr.tokens, List.forall_mem_singleton]
    rcases h with h | h
    · exact isToken_of_first fun rest _ => h.first?_quoted rfl (fun _ => rfl) (by decide) rfl rest
    · exact isToken_of_first fun rest _ => h.first?_quoted rfl (fun _ => rfl) (by decide) rfl rest
  | .boolean _ b, _ => by
    rw [Expr.tokens, List.forall_mem_singleton]
    cases b <;> exact isToken_of_mem (by decide +kernel)
  | .null _, _ => by
    rw [Expr.tokens, List.forall_mem_singleton]
    exact isToken_of_mem (by decide +kernel)
  | .array _ short entries, h => by
    have hentries := Entry.isToken_tokensOf entries h
    cases short with
    | true => exact forall_isToken_between (by decide +kernel) (by decide +kernel) hentries
    | false =>
      refine List.forall_mem_cons.2 ⟨isToken_of_mem (by decide +kernel), ?_⟩
      exact forall_isToken_between (by decide +kernel) (by decide +kernel) hentries
  | .subscript _ base key, h => by
    have hbase := Expr.isToken_tokens base h.1
    have hkey := Expr.isToken_tokens key h.2
    rw [Expr.tokens, List.forall_mem_append]
    exact ⟨forall_isToken_enclose hbase,
      forall_isToken_between (by decide +kernel) (by decide +kernel) hkey⟩
  | .append _ base, h => by
    have hbase := Expr.isToken_tokens base h
    exact forall_isToken_around (isToken_of_mem (by decide +kernel)) (forall_isToken_enclose hbase)
      (List.forall_mem_singleton.2 (isToken_of_mem (by decide +kernel)))
  | .unary _ op operand, h => by
    have hoperand := Expr.isToken_tokens operand h
    rw [Expr.tokens, List.forall_mem_cons]
    exact ⟨isToken_unary op, forall_isToken_enclose hoperand⟩
  | .binary _ op left right, h => by
    have hleft := Expr.isToken_tokens left h.1
    have hright := Expr.isToken_tokens right h.2
    exact forall_isToken_around (isToken_binary op) (forall_isToken_enclose hleft)
      (forall_isToken_enclose hright)
  | .assign _ op target value, h => by
    have htarget := Expr.isToken_tokens target h.2.1
    have hvalue := Expr.isToken_tokens value h.2.2
    exact forall_isToken_around h.1.isToken (forall_isToken_enclose htarget)
      (forall_isToken_enclose hvalue)
  | .reference _ target source, h => by
    have htarget := Expr.isToken_tokens target h.1
    have hsource := Expr.isToken_tokens source h.2
    refine forall_isToken_around (isToken_of_mem (by decide +kernel))
      (forall_isToken_enclose htarget) ?_
    exact List.forall_mem_cons.2
      ⟨isToken_of_mem (by decide +kernel), forall_isToken_enclose hsource⟩

theorem Entry.isToken_tokens : ∀ entry : Entry, entry.Sound → ∀ s ∈ entry.tokens, IsToken s
  | .item _ value byRef, h => by
    have hvalue := Expr.isToken_tokens value h
    cases byRef with
    | true =>
      exact List.forall_mem_cons.2
        ⟨isToken_of_mem (by decide +kernel), forall_isToken_enclose hvalue⟩
    | false => exact hvalue
  | .keyed _ key value byRef, h => by
    have hkey := Expr.isToken_tokens key h.1
    have hvalue := Expr.isToken_tokens value h.2
    refine forall_isToken_around (isToken_of_mem (by decide +kernel)) hkey ?_
    cases byRef with
    | true =>
      exact List.forall_mem_cons.2
        ⟨isToken_of_mem (by decide +kernel), forall_isToken_enclose hvalue⟩
    | false => exact hvalue

theorem Entry.isToken_tokensOf : ∀ entries : List Entry, Entry.SoundAll entries →
    ∀ s ∈ Entry.tokensOf entries, IsToken s
  | [], _ => nofun
  | [e], h => Entry.isToken_tokens e h.1
  | e :: e' :: rest, h =>
    forall_isToken_around (isToken_of_mem (by decide +kernel)) (Entry.isToken_tokens e h.1)
      (Entry.isToken_tokensOf (e' :: rest) h.2)

end

/-! ## Printed texts -/

/-- Tokens with single spaces between them are laid out. -/
theorem layout_join {texts more : List String} {cs : List Char} (hne : texts ≠ [])
    (htexts : ∀ s ∈ texts, IsToken s) (h : Layout more cs) (hcs : Terminal.Separated cs) :
    Layout (texts ++ more) ((Text.join " " texts).toList ++ cs) := by
  induction texts with
  | nil => exact absurd rfl hne
  | cons s rest ih =>
    obtain ⟨hs, hrest⟩ := List.forall_mem_cons.1 htexts
    cases rest with
    | nil =>
      have hjoin : Text.join " " [s] = s := by simp [Text.join]
      rw [hjoin]
      exact .token (hs cs hcs) h
    | cons s' rest =>
      have hjoin : (Text.join " " (s :: s' :: rest)).toList ++ cs =
          s.toList ++ ' ' :: ((Text.join " " (s' :: rest)).toList ++ cs) := by
        simp [Text.join, String.toList_intercalate]
      rw [hjoin]
      exact .token (hs _ rfl) (.space rfl (ih (List.cons_ne_nil _ _) hrest))

/-- An expression and a semicolon are one statement. -/
theorem feedAll_statement {texts : List String} {e : Expr} (h : Reads 0 texts e) :
    init.feedAll (texts ++ [";"]) =
      some ⟨some .start, [.expression .start e], .statement⟩ := by
  have hnil : Admits 0 [] := trivial
  obtain ⟨inner, o, htakes, hreduce⟩ := h.inside .expression hnil rfl
  have hne : texts ≠ [] := by
    rintro rfl
    cases htakes none []
  have hstart : init.feedAll texts = some ⟨some .start, [], .operator .expression inner o⟩ :=
    htakes.start hne none []
  have hend : takeOperator .expression inner o ⟨.semicolon, ";", .start⟩ =
      takeEnd .expression (reduce 0 inner o).1 (reduce 0 inner o).2 .semicolon := rfl
  rw [feedAll] at hstart
  rw [feedAll, List.foldlM_append, hstart]
  simp [feed, Token.ofText, Terminal.ofText_semicolon, hend, hreduce, takeEnd]

/-- A text that is laid out as an expression and a semicolon is read as one statement. -/
theorem parse_statement {texts : List String} {text : String} {e : Expr} (h : Reads 0 texts e)
    (htext : Layout (texts ++ [";"]) text.toList) :
    ∃ program pos e', parse text = .ok program ∧ program.statements = [.expression pos e'] ∧
      e'.erase = e.erase := by
  obtain ⟨program, hparse, hstatements⟩ := htext.parse (feedAll_statement h) rfl
  obtain ⟨s, hs, herase⟩ := List.map_eq_singleton_iff.1 hstatements
  cases s with
  | expression pos e' => exact ⟨program, pos, e', hparse, hs, (Stmt.expression.inj herase).2⟩
  | echo | global | unset => cases herase

/-- The printed text of an expression is read as that expression. -/
theorem Expr.parse_print {e : Expr} (h : e.Sound) :
    ∃ program pos e', parse (e.print ++ ";") = .ok program ∧
      program.statements = [.expression pos e'] ∧ e'.erase = e.erase := by
  have hreads : Reads 0 e.tokens e.erase := e.reads h 0 (Nat.zero_le _)
  have hne : e.tokens ≠ [] := by
    intro hnil
    rw [hnil] at hreads
    obtain ⟨inner, o, htakes, -⟩ := hreads .expression [] trivial
    cases htakes none []
  have hlayout : Layout (e.tokens ++ [";"]) (e.print ++ ";").toList := by
    rw [String.toList_append]
    have hsemicolon : Layout [";"] ";".toList := .token (Terminal.lexes_bracket (by decide) []) .nil
    exact layout_join hne (e.isToken_tokens h) hsemicolon rfl
  rw [← e.erase_erase]
  exact parse_statement hreads hlayout

/-- Expressions that differ in their positions only have trees that differ in their places only. -/
theorem Expr.toNode_of_erase {e e' : Expr} {n : Node} (h : e'.erase = e.erase)
    (hn : e.toNode = .ok n) : ∃ n', e'.toNode = .ok n' ∧ n'.erase = n.erase := by
  have hmoved (x : Expr) : x.erase.toNode = relocate (fun _ => .start) Node.erase x.toNode :=
    Expr.toNode_mapPos (f := fun _ => Position.start.place) (fun _ => rfl) x
  have hsame := hmoved e'
  rw [h, hmoved e, hn] at hsame
  cases hn' : e'.toNode with
  | error fault =>
    rw [hn'] at hsame
    cases hsame
  | ok n' =>
    rw [hn'] at hsame
    exact ⟨n', rfl, (Except.ok.inj hsame).symm⟩

/-- Printing any expression inside a program that has a tree and reading the text again gives one
statement with that expression, positions aside, and the same tree. -/
theorem tree_print {text : String} {p : Program} {root : Node} {e : Expr}
    (hp : parse text = .ok p) (hroot : p.toNode = .ok root) (he : p.Contains e) :
    ∃ q pos e' n n' whole, parse (e.print ++ ";") = .ok q ∧
      q.statements = [.expression pos e'] ∧ e'.erase = e.erase ∧
      tree (e.print ++ ";") = .ok whole ∧
      whole.field "children" =
        .list [.node (nodeAt pos "expressionstatement" [("expression", .node n')])] ∧
      e.toNode = .ok n ∧ n'.erase = n.erase := by
  obtain ⟨q, pos, e', hq, hstatements, herase⟩ := Expr.parse_print (he.sound (parse_sound hp))
  obtain ⟨n, hn⟩ := he.toNode hroot
  obtain ⟨n', hn', hnode⟩ := Expr.toNode_of_erase herase hn
  have hstmt : (Stmt.expression pos e').toNode =
      .ok (nodeAt pos "expressionstatement" [("expression", .node n')]) := by
    rw [Stmt.toNode, hn']
    rfl
  have htree : ∃ whole, q.toNode = .ok whole ∧ whole.field "children" =
      .list [.node (nodeAt pos "expressionstatement" [("expression", .node n')])] := by
    obtain ⟨pos?, statements⟩ := q
    obtain rfl : statements = [.expression pos e'] := hstatements
    rw [Program.toNode, List.mapM_cons, hstmt]
    cases pos? <;> exact ⟨_, rfl, rfl⟩
  obtain ⟨whole, hwhole, hchildren⟩ := htree
  refine ⟨q, pos, e', n, n', whole, hq, hstatements, herase, ?_, hchildren, hn, hnode⟩
  rw [tree, hq]
  exact hwhole

/-- The expression of a text that is one statement. -/
def statementOf? (text : String) : Option Expr :=
  match parse text with
  | .ok ⟨_, [.expression _ e]⟩ => some e
  | _ => none

/-- Parentheses, a sign inside a power, by-reference and keyed entries and a loose `and`. -/
theorem tree_print_mixed :
    ∃ e e', statementOf? "$z=(1+2)*-$a['k']**-2??[&$b,'x'=>0x1F] AND !true;" = some e ∧
      e.print = "$z = ( 1 + 2 ) * - $a [ 'k' ] ** - 2 ?? [ & $b , 'x' => 0x1F ] and ! true" ∧
      statementOf? (e.print ++ ";") = some e' ∧ e'.erase = e.erase := by
  have hprint : (statementOf? "$z=(1+2)*-$a['k']**-2??[&$b,'x'=>0x1F] AND !true;").map Expr.print =
      some "$z = ( 1 + 2 ) * - $a [ 'k' ] ** - 2 ?? [ & $b , 'x' => 0x1F ] and ! true" := by
    decide +kernel
  have hok : (tree "$z=(1+2)*-$a['k']**-2??[&$b,'x'=>0x1F] AND !true;").isOk = true := by
    decide +kernel
  obtain ⟨e, he, hprint⟩ := Option.map_eq_some_iff.1 hprint
  have hstatement := he
  unfold statementOf? at hstatement
  split at hstatement
  · rename_i pos? pos e₁ hparse
    obtain rfl := Option.some.inj hstatement
    have htree : (Program.toNode ⟨pos?, [.expression pos e₁]⟩).isOk = true := by
      rwa [tree, hparse] at hok
    obtain ⟨root, hroot⟩ : ∃ root, Program.toNode ⟨pos?, [.expression pos e₁]⟩ = .ok root := by
      generalize Program.toNode _ = r at htree
      cases r with
      | ok root => exact ⟨root, rfl⟩
      | error e => cases htree
    have hcontains : Program.Contains ⟨pos?, [.expression pos e₁]⟩ e₁ :=
      ⟨_, List.mem_singleton_self _, e₁, List.mem_singleton_self _, .self⟩
    obtain ⟨q, pos', e', n, n', whole, hq, hstatements, herase, -⟩ :=
      tree_print hparse hroot hcontains
    refine ⟨e₁, e', he, hprint, ?_, herase⟩
    obtain ⟨qpos?, statements⟩ := q
    obtain rfl : statements = [.expression pos' e'] := hstatements
    rw [statementOf?, hq]
  · cases hstatement

end Source

end PhpInterpreter
