import PhpInterpreter.Proofs.Machine.Program
import PhpInterpreter.Proofs.Source.Sound
import PhpInterpreter.Source.Tree

/-!
Trees of source programs are complete: each part a node is evaluated with is there, variables have
names and operators are known.
-/

namespace PhpInterpreter

/-! ## Fields -/

/-- What is read of a field. -/
def Datum.reading : Datum → Term.Reading
  | .list items => ⟨.list items, .foreign, true, Datum.toTerms items⟩
  | .node n => ⟨.node n, n.toTerm, false, []⟩
  | .dict members => ⟨.dict members, .foreign, true, members.map fun _ => .foreign⟩
  | .scalar (.string s) => ⟨.scalar (.string s), .foreign, true, s.toList.map fun _ => .foreign⟩
  | .scalar .null => .missing
  | .scalar v => ⟨.scalar v, .foreign, !v.truthy, []⟩

theorem Node.readings_cons (name : String) (d : Datum) (rest : List (String × Datum)) :
    Node.readings ((name, d) :: rest) = (name, d.reading) :: Node.readings rest := by
  match d with
  | .list _ | .node _ | .dict _ => rfl
  | .scalar v => cases v <;> rfl

theorem Node.get?_readings (name : String) (fields : List (String × Datum)) :
    Assoc.get? name (Node.readings fields) = (Assoc.get? name fields).map Datum.reading := by
  induction fields with
  | nil => rfl
  | cons p rest ih =>
    rw [Node.readings_cons, Assoc.get?_cons, Assoc.get?_cons, ih]
    split <;> rfl

theorem Datum.forall_toTerms {P : Term → Prop} {ds : List Datum} (h : ∀ d ∈ ds, P d.toTerm) :
    ∀ t ∈ Datum.toTerms ds, P t := by
  induction ds with
  | nil => exact nofun
  | cons d rest ih =>
    obtain ⟨hd, hrest⟩ := List.forall_mem_cons.1 h
    exact List.forall_mem_cons.2 ⟨hd, ih hrest⟩

theorem Term.completeAll_iff {ts : List Term} : CompleteAll ts ↔ ∀ t ∈ ts, t.Complete := by
  induction ts with
  | nil => simp [CompleteAll]
  | cons t rest ih => simp [CompleteAll, ih]

/-- The term with another head. -/
def Term.withHead (h : Head) : Term → Term
  | absent => absent
  | foreign => foreign
  | program _ iterable statements => program h iterable statements
  | statement _ expression => statement h expression
  | echo _ iterable operands => echo h iterable operands
  | global _ iterable targets => global h iterable targets
  | unset _ iterable targets => unset h iterable targets
  | literal _ value => literal h value
  | .variable _ name => .variable h name
  | array _ iterable items => array h iterable items
  | entry _ key value => entry h key value
  | subscript _ base key => subscript h base key
  | unary _ op operand => unary h op operand
  | binary _ op left right => binary h op left right
  | assign _ op target value => assign h op target value
  | other _ => other h

/-- The mark of a reference is read into the head alone. -/
theorem Term.build_withHead {kind : String} {place : Place} {b b' : Bool}
    {fields fields' : List (String × Reading)}
    (hread : ∀ name, name ≠ "byref" → Assoc.get? name fields' = Assoc.get? name fields) :
    build ⟨kind, place, b'⟩ fields' =
      (build ⟨kind, place, b⟩ fields).withHead ⟨kind, place, b'⟩ := by
  unfold build
  dsimp only
  simp (disch := decide) only [hread]
  -- Both terms now come from one match, and only their heads differ.
  split <;> rfl

theorem Node.toTerm_replace_byref (n : Node) (d : Datum) :
    ∃ h, (n.replace "byref" d).toTerm = n.toTerm.withHead h ∧ h.byref = d.truthy := by
  obtain ⟨kind, fields, line, column⟩ := n
  rw [Node.replace, Node.toTerm, Node.toTerm]
  refine ⟨_, Term.build_withHead fun name hname => ?_, ?_⟩
  · rw [Node.get?_readings, Node.get?_readings, Assoc.get?_insert, if_neg hname.symm]
    rfl
  · rw [Term.marked, Assoc.get?_insert, if_pos rfl]
    rfl

theorem Term.complete_withHead (t : Term) (h : Head) : (t.withHead h).Complete ↔ t.Complete := by
  cases t <;> rfl

theorem Node.complete_replace {n : Node} (d : Datum) (h : n.toTerm.Complete) :
    (n.replace "byref" d).toTerm.Complete := by
  obtain ⟨head, hterm, -⟩ := n.toTerm_replace_byref d
  rw [hterm]
  exact (n.toTerm.complete_withHead head).2 h

namespace Source

/-! ## Names and operators -/

theorem isName_of_spells {name : String} (h : Terminal.variable.Spells ("$" ++ name)) :
    (Datum.string name).IsName := by
  obtain ⟨c, cs, hc, htext⟩ := h.variable_toList
  have hname : name.toList = c :: cs := by simpa using htext
  refine ⟨name, rfl, ?_, ?_⟩
  · rintro rfl
    cases hname
  · rintro rfl
    obtain ⟨rfl, -⟩ := List.cons.inj hname
    revert hc
    decide

theorem AssignOp.Sound.known {op : AssignOp} (h : op.Sound)
    (hplain : Run.isPlain (Datum.string op.symbol) = false) :
    ∃ b, Run.Operator.ofDatum Run.compoundOp? (Datum.string op.symbol) = .known b := by
  cases op with
  | plain => simp [AssignOp.symbol, Datum.string, Run.isPlain] at hplain
  | compound op =>
    have hall : ∀ s ∈ ["**=", "??=", "+=", "-=", "*=", "/=", ".=", "%="],
        (Run.compoundOp? s).isSome := by decide
    obtain ⟨b, hb⟩ := Option.isSome_iff_exists.1 (hall _ h.assignOp_text)
    exact ⟨b, by simp [AssignOp.symbol, Datum.string, Run.Operator.ofDatum, hb]⟩

theorem ofDatum_symbol (op : BinaryOp) :
    Run.Operator.ofDatum BinaryOp.ofSymbol? (Datum.string op.symbol) = .known op := by
  simp [Datum.string, Run.Operator.ofDatum, BinaryOp.ofSymbol?_symbol]

theorem ofSymbol?_symbol (op : UnaryOp) : UnaryOp.ofSymbol? op.symbol = some op := by
  cases op <;> decide

/-! ## Trees -/

mutual

/-- The tree of a sound expression is complete. -/
theorem Expr.complete_toNode {e : Expr} {n : Node} (he : e.Sound) (h : e.toNode = .ok n) :
    n.toTerm.Complete := by
  match e with
  | .variable pos name =>
    obtain rfl := Except.ok.inj h
    exact isName_of_spells he
  | .number .. | .boolean .. | .null _ =>
    obtain rfl := Except.ok.inj h
    exact fun x hx => by cases hx
  | .string pos raw =>
    obtain ⟨text, -, h⟩ := exists_of_bind_eq_ok h
    obtain rfl := Except.ok.inj h
    exact fun x hx => by cases hx
  | .array pos short entries =>
    obtain ⟨items, hitems, h⟩ := exists_of_bind_eq_ok h
    obtain rfl := Except.ok.inj h
    exact ⟨rfl, Entry.completeItems_toNodes he hitems⟩
  | .subscript pos base key =>
    obtain ⟨b, hb, h⟩ := exists_of_bind_eq_ok h
    obtain ⟨k, hk, h⟩ := exists_of_bind_eq_ok h
    obtain rfl := Except.ok.inj h
    exact ⟨Expr.complete_toNode he.1 hb, fun _ => Expr.complete_toNode he.2 hk⟩
  | .append pos base =>
    have hbase : base.Sound := he
    obtain ⟨b, hb, h⟩ := exists_of_bind_eq_ok h
    obtain rfl := Except.ok.inj h
    exact ⟨Expr.complete_toNode hbase hb, nofun⟩
  | .unary pos op operand =>
    have hoperand : operand.Sound := he
    obtain ⟨v, hv, h⟩ := exists_of_bind_eq_ok h
    obtain rfl := Except.ok.inj h
    exact ⟨Expr.complete_toNode hoperand hv, op.symbol, op, rfl, ofSymbol?_symbol op⟩
  | .binary pos op left right =>
    obtain ⟨l, hl, h⟩ := exists_of_bind_eq_ok h
    obtain ⟨r, hr, h⟩ := exists_of_bind_eq_ok h
    obtain rfl := Except.ok.inj h
    exact ⟨Expr.complete_toNode he.1 hl, Expr.complete_toNode he.2 hr, op, ofDatum_symbol op⟩
  | .assign pos op target value =>
    obtain ⟨l, hl, h⟩ := exists_of_bind_eq_ok h
    obtain ⟨r, hr, h⟩ := exists_of_bind_eq_ok h
    obtain rfl := Except.ok.inj h
    exact ⟨Expr.complete_toNode he.2.1 hl, Expr.complete_toNode he.2.2 hr, he.1.known⟩
  | .reference pos target source =>
    obtain ⟨l, hl, h⟩ := exists_of_bind_eq_ok h
    obtain ⟨r, hr, h⟩ := exists_of_bind_eq_ok h
    obtain rfl := Except.ok.inj h
    refine ⟨Expr.complete_toNode he.1 hl, ?_, fun hplain => ?_⟩
    -- The source is marked after its tree is made.
    · exact Node.complete_replace _ (Expr.complete_toNode he.2 hr)
    · cases hplain

theorem Entry.completeItems_toNodes {entries : List Entry} {ds : List Datum}
    (he : Entry.SoundAll entries) (h : Entry.toNodes entries = .ok ds) :
    Term.CompleteItems (Datum.toTerms ds) := by
  match entries with
  | [] =>
    obtain rfl := Except.ok.inj h
    trivial
  | .item pos value byRef :: rest =>
    obtain ⟨n, hn, h⟩ := exists_of_bind_eq_ok h
    obtain ⟨ns, hns, h⟩ := exists_of_bind_eq_ok h
    obtain rfl := Except.ok.inj h
    obtain ⟨v, hv, hn⟩ := exists_of_bind_eq_ok hn
    obtain rfl := Except.ok.inj hn
    exact ⟨nofun, Expr.complete_toNode he.1 hv, Entry.completeItems_toNodes he.2 hns⟩
  | .keyed pos key value byRef :: rest =>
    obtain ⟨n, hn, h⟩ := exists_of_bind_eq_ok h
    obtain ⟨ns, hns, h⟩ := exists_of_bind_eq_ok h
    obtain rfl := Except.ok.inj h
    obtain ⟨k, hk, hn⟩ := exists_of_bind_eq_ok hn
    obtain ⟨v, hv, hn⟩ := exists_of_bind_eq_ok hn
    obtain rfl := Except.ok.inj hn
    exact ⟨fun _ => Expr.complete_toNode he.1.1 hk, Expr.complete_toNode he.1.2 hv,
      Entry.completeItems_toNodes he.2 hns⟩

end

/-- The items of a declaration are variables with names. -/
theorem rootNamed_of_names {names : List Name} (h : ∀ n ∈ names, n.Sound) :
    ∀ t ∈ Datum.toTerms (names.map Name.toDatum), t.RootNamed := by
  refine Datum.forall_toTerms fun d hd => ?_
  obtain ⟨n, hn, rfl⟩ := List.mem_map.1 hd
  exact isName_of_spells (h n hn)

/-- The tree of a sound statement can be executed. -/
theorem Stmt.executable_toNode {s : Stmt} {n : Node} (hs : s.Sound) (h : s.toNode = .ok n) :
    n.toTerm.Executable := by
  cases s with
  | expression pos e =>
    obtain ⟨v, hv, h⟩ := exists_of_bind_eq_ok h
    obtain rfl := Except.ok.inj h
    exact ⟨Expr.complete_toNode hs hv, rfl⟩
  | echo pos operands =>
    obtain ⟨ns, hns, h⟩ := exists_of_bind_eq_ok h
    obtain rfl := Except.ok.inj h
    refine ⟨⟨rfl, Term.completeAll_iff.2 (Datum.forall_toTerms fun d hd => ?_)⟩, rfl⟩
    obtain ⟨n, hn, rfl⟩ := List.mem_map.1 hd
    obtain ⟨e, he, hnode⟩ := exists_of_mem_mapM hns n hn
    exact Expr.complete_toNode (hs e he) hnode
  | global pos names =>
    obtain rfl := Except.ok.inj h
    exact ⟨⟨rfl, rootNamed_of_names hs⟩, rfl⟩
  | unset pos names =>
    obtain rfl := Except.ok.inj h
    exact ⟨⟨rfl, rootNamed_of_names hs⟩, rfl⟩

/-- The tree of a program has the trees of its statements and runs them. -/
theorem Program.toTerm_toNode {p : Program} {n : Node} (h : p.toNode = .ok n) :
    ∃ head ns, p.statements.mapM Stmt.toNode = .ok ns ∧
      n.field "children" = .list (ns.map .node) ∧
      n.toTerm = .program head true (Datum.toTerms (ns.map .node)) := by
  obtain ⟨ns, hns, h⟩ := exists_of_bind_eq_ok h
  dsimp only at h
  split at h
  · obtain rfl := Except.ok.inj h
    exact ⟨_, ns, hns, rfl, rfl⟩
  · obtain rfl := Except.ok.inj h
    exact ⟨_, ns, hns, rfl, rfl⟩

theorem Program.runnable_toNode {p : Program} {n : Node} (hp : p.Sound) (h : p.toNode = .ok n) :
    n.toTerm.Runnable := by
  obtain ⟨ns, hns, h⟩ := exists_of_bind_eq_ok h
  have hterms : ∀ t ∈ Datum.toTerms (ns.map .node), t.Executable := by
    refine Datum.forall_toTerms fun d hd => ?_
    obtain ⟨n, hn, rfl⟩ := List.mem_map.1 hd
    obtain ⟨s, hs, hnode⟩ := exists_of_mem_mapM hns n hn
    exact Stmt.executable_toNode (hp s hs) hnode
  dsimp only at h
  split at h
  · obtain rfl := Except.ok.inj h
    exact ⟨rfl, hterms⟩
  · obtain rfl := Except.ok.inj h
    exact ⟨rfl, hterms⟩

/-- Whatever text is read, its tree can be run. -/
theorem runnable_of_tree {text : String} {n : Node} (h : tree text = .ok n) :
    n.toTerm.Runnable := by
  unfold tree at h
  split at h
  · cases h
  · rename_i p hp
    exact Program.runnable_toNode (parse_sound hp) h

end Source

end PhpInterpreter
