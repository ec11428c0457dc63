import PhpInterpreter.Node.Walk
import PhpInterpreter.Proofs.Scope.Operation
import PhpInterpreter.Proofs.Source.Complete

/-!
Reading never writes. A tree of expressions without an assignment, evaluated for its value, leaves
the environment as it was: what is missing is remarked on, and not made.
-/

namespace PhpInterpreter

/-! ## Computations that read -/

namespace Run

variable {α β : Type} {h : Head} {left right base key operand : Term}

/-- Wherever the computation is run, and whether it returns or stops, the environment is as it
was. -/
def Reads (act : Run α) : Prop :=
  ∀ m : Machine, Ends act m (fun _ t => t.env = m.env) fun _ t => t.env = m.env

theorem reads_pure (a : α) : Reads (pure a : Run α) := fun _ => rfl

theorem reads_throw (f : Fault) : Reads (throw f : Run α) := fun _ => rfl

theorem Reads.bind {act : Run α} {f : α → Run β} (hact : Reads act) (hf : ∀ a, Reads (f a)) :
    Reads (act >>= f) := by
  intro m
  rw [ends_bind]
  refine (hact m).mono (fun a t ht => ?_) fun _ _ ht => ht
  rw [← ht]
  exact hf a t

theorem Reads.located {act : Run α} (hact : Reads act) (p : Place) : Reads (located p act) := by
  intro m
  rw [ends_located]
  exact hact m

theorem Reads.within {act : Run Unit} (hact : Reads act) (t : Term) : Reads (within t act) := by
  unfold Run.within
  split
  · exact hact.located _
  · exact hact

theorem reads_push (i : Item) : Reads (push i) := fun _ => rfl

theorem reads_pop : Reads pop := by
  intro m
  simp only [pop, ends_bind, ends_get]
  split
  · exact rfl
  · exact rfl

theorem reads_pushPending (t : Term) (intent? : Option Intent) : Reads (pushPending t intent?) := by
  intro m
  rw [ends_pushPending]
  split
  · exact rfl
  · exact rfl

theorem reads_noting (line : Json) (quiet : Bool) (act : Noting α) :
    Reads (noting line quiet act) := by
  intro m
  rw [ends_noting]
  exact (ends_trivial act []).mono (fun _ _ _ => rfl) fun _ _ _ => rfl

theorem reads_shown (i : Item) : Reads (shown i) := by
  unfold shown
  split
  · exact reads_pure _
  · exact reads_throw _

theorem reads_popView : Reads popView := by
  refine reads_pop.bind fun i => ?_
  cases i with
  | value v => exact reads_pure v
  | _ => exact (reads_shown _).bind fun _ => reads_throw _

theorem Reads.resume {act : Run Unit} (hact : Reads act) (t : Term) :
    Reads (resume (Run.within t act)) :=
  reads_pop.bind fun _ => hact.within t

theorem Reads.holding {act : Run Unit} (hact : Reads act) (v : View) : Reads (holding v act) := by
  intro m
  have h := hact { m with held := v :: m.held }
  simp only [Ends, Run.holding, ExceptT.run, ExceptT.mk, StateT.run] at h ⊢
  generalize act { m with held := v :: m.held } = p at h ⊢
  obtain ⟨r, env, stack, held, output, log⟩ := p
  cases held <;> cases r <;> exact h

theorem reads_lookup (name : String) : Reads (inScope (Scoped.lookup name none)) := by
  intro m
  rw [ends_inScope, Scoped.ends_lookup]
  exact ⟨fun _ => rfl, fun _ _ => ⟨fun _ => rfl, fun _ _ => ⟨fun _ => rfl, fun _ _ => rfl⟩⟩⟩

theorem reads_view (l : Location) : Reads (view l) := fun _ => rfl

theorem reads_variableName (d : Datum) : Reads (variableName d) := by
  obtain ⟨s, hs⟩ | ⟨e, he⟩ | ⟨b, hb⟩ := variableName_cases d
  · rw [hs]
    exact reads_pure s
  · rw [he]
    exact reads_throw _
  · rw [hb]
    exact reads_throw _

/-! ## Bodies -/

theorem reads_literalValue (d : Datum) : Reads (literalValue h d) := by
  unfold literalValue
  split
  · split
    · exact reads_pure _
    · exact reads_throw _
  · exact reads_pure _
  · exact reads_pure _
  · exact reads_pure _

/-- A name that is not bound is not declared. -/
theorem reads_variable {name : Datum} {intent : Intent} (hintent : intent ≠ .write) :
    Reads (variableBody h name (some intent)) := by
  refine (reads_variableName name).bind fun s => ?_
  split
  · rename_i heq
    exact absurd (Option.some.inj heq) hintent
  · contradiction
  · refine (reads_lookup s).bind fun l? => ?_
    cases l? with
    | some l => exact (reads_view l).bind fun v => reads_push _
    | none => exact (reads_noting _ _ _).bind fun _ => reads_push _

theorem reads_subscriptView (byref quiet : Bool) (b : View) (k : Key) :
    Reads (subscriptView h byref quiet b k) := by
  unfold subscriptView
  split
  · split
    · exact reads_throw _
    · exact (reads_noting _ _ _).bind fun _ => reads_pure _
  · split
    · exact reads_pure _
    · exact (reads_noting _ _ _).bind fun _ => reads_pure _
  · exact reads_throw _
  · exact reads_pure _

theorem reads_readSubscript {quiet : Bool} {evalBase evalKey : Run Unit} (hbase : Reads evalBase)
    (hkey : Reads evalKey) : Reads (readSubscript h quiet base key evalBase evalKey) := by
  unfold readSubscript
  refine (reads_pushPending key _).bind fun _ => (reads_pushPending base _).bind fun _ => ?_
  refine (hbase.resume base).bind fun _ => reads_popView.bind fun b => ?_
  refine ((hkey.resume key).holding b).bind fun b => reads_popView.bind fun k => ?_
  refine (reads_noting _ _ _).bind fun k => (reads_subscriptView _ _ _ _).bind fun v => ?_
  exact reads_push _

theorem reads_binary {operator : Datum} {evalLeft : Option Intent → Run Unit}
    {evalRight : Run Unit} (hleft : ∀ intent, intent ≠ .write → Reads (evalLeft (some intent)))
    (hright : Reads evalRight) : Reads (binaryBody h operator left right evalLeft evalRight) := by
  unfold binaryBody
  refine (reads_pushPending right _).bind fun _ => (reads_pushPending left _).bind fun _ => ?_
  refine (Reads.resume ?_ left).bind fun _ => reads_popView.bind fun l => ?_
  · split
    · exact hleft .isset (by decide)
    · exact hleft .read (by decide)
  split
  · exact reads_throw _
  · exact (hright.resume right).bind fun _ => reads_popView.bind fun _ => reads_throw _
  · split
    · exact reads_pop.bind fun _ => reads_push _
    · refine ((hright.resume right).holding l).bind fun l => reads_popView.bind fun r => ?_
      split
      · exact reads_push _
      · exact (reads_noting _ _ _).bind fun v => reads_push _

theorem reads_unary {operator : Datum} {evalOperand : Run Unit} (hoperand : Reads evalOperand) :
    Reads (unaryBody h operator operand evalOperand) := by
  unfold unaryBody
  refine (reads_pushPending operand _).bind fun _ => (hoperand.resume operand).bind fun _ => ?_
  refine reads_popView.bind fun v => ?_
  split
  · split
    · exact (reads_noting _ _ _).bind fun w => reads_push _
    · exact reads_throw _
  · exact reads_throw _

theorem Reads.writable {act : Run Unit} (hact : Reads act) (intent? : Option Intent) :
    Reads (do writable intent?; act) := by
  refine Reads.bind ?_ fun _ => hact
  unfold Run.writable
  split
  · exact reads_throw _
  · exact reads_pure _

end Run

/-! ## Terms -/

mutual

/-- The term has no statement and no assignment in it. -/
def Term.ReadOnly : Term → Prop
  | .absent | .foreign | .program .. | .literal .. | .variable .. | .other _ => True
  | .statement .. | .echo .. | .global .. | .unset .. | .assign .. => False
  | .array _ _ items => Term.ReadOnlyAll items
  | .unary _ _ operand => operand.ReadOnly
  | .entry _ a b | .subscript _ a b | .binary _ _ a b => a.ReadOnly ∧ b.ReadOnly

def Term.ReadOnlyAll : List Term → Prop
  | [] => True
  | t :: rest => t.ReadOnly ∧ Term.ReadOnlyAll rest

end

open Run in
mutual

/-- By recursion on terms; a base is read with the intent of the subscript, all else for its
value. -/
theorem Term.reads_eval (t : Term) (intent : Intent) (hintent : intent ≠ .write)
    (ht : t.ReadOnly) : Reads (t.eval (some intent)) := by
  have hread : Intent.read ≠ .write := by decide
  match t with
  | .absent | .foreign => exact reads_throw _
  | .literal h d => exact ((reads_literalValue d).bind fun _ => reads_push _).writable _
  | .variable h name => exact reads_variable hintent
  | .array h iterable items =>
    refine Reads.writable (Reads.bind ?_ fun _ => ?_) _
    · unfold listed
      split
      · exact reads_pure _
      · exact reads_throw _
    · exact (Term.reads_evalItems items ht .empty).bind fun _ => reads_push _
  | .subscript h base key =>
    have hkey := Term.reads_eval key .read hread ht.2
    match intent with
    | .write => contradiction
    | .read | .isset =>
      have hbase := fun i hi => Term.reads_eval base i hi ht.1
      cases key with
      | absent => exact reads_throw _
      | _ => exact reads_readSubscript (hbase _ (by decide)) hkey
  | .unary h op operand => exact (reads_unary (Term.reads_eval operand .read hread ht)).writable _
  | .binary h op left right =>
    refine (reads_binary (fun i hi => Term.reads_eval left i hi ht.1) ?_).writable _
    exact Term.reads_eval right .read hread ht.2
  | .program .. | .entry .. | .other _ => exact (reads_throw _).writable _

theorem Term.reads_evalItems (items : List Term) (hitems : Term.ReadOnlyAll items)
    (table : Table Value) : Reads (Term.evalItems items table) := by
  have hread : Intent.read ≠ .write := by decide
  match items with
  | [] => exact reads_pure _
  | item :: rest =>
    have hrest := Term.reads_evalItems rest hitems.2
    have hitem := Term.reads_eval item .read hread hitems.1
    cases item with
    | absent => exact hrest table
    | foreign => exact reads_throw _
    | entry h key value =>
      have hkey := Term.reads_eval key .read hread hitems.1.1
      have hvalue := Term.reads_eval value .read hread hitems.1.2
      have hlast : ∀ add : Value → Table Value, Reads (do
          resume (within value (value.eval (some .read)))
          let v ← popView
          Term.evalItems rest (add v.value.defined)) := fun add =>
        (hvalue.resume value).bind fun _ => reads_popView.bind fun v => hrest _
      rw [Term.evalItems.eq_def]
      dsimp only
      split
      · exact reads_throw _
      · refine (reads_pushPending value _).bind fun _ => ?_
        cases key with
        | absent => exact hlast table.append
        | _ =>
          refine (reads_pushPending _ _).bind fun _ => (hkey.resume _).bind fun _ => ?_
          refine reads_popView.bind fun k => (reads_noting _ _ _).bind fun k => ?_
          exact hlast (table.set k)
    | _ =>
      rw [Term.evalItems.eq_def]
      dsimp only
      split
      · exact reads_throw _
      · refine (reads_pushPending _ _).bind fun _ => (hitem.resume _).bind fun _ => ?_
        exact reads_popView.bind fun v => hrest _

end

/-! ## Trees -/

namespace Node

/-- The kinds of nodes that are evaluated for what they do. -/
def actingKinds : List String := ["expressionstatement", "echo", "global", "unset", "assign"]

/-- The kinds of expressions. -/
def expressionKinds : List String :=
  ["variable", "number", "string", "boolean", "nullkeyword", "array", "offsetlookup", "unary",
    "bin", "assign"]

end Node

theorem Term.readOnly_build {head : Head} {fields : List (String × Reading)}
    (hkind : head.kind ∉ Node.actingKinds)
    (hread : ∀ r, r = .missing ∨ (∃ name, (name, r) ∈ fields) →
      r.term.ReadOnly ∧ ReadOnlyAll r.items) : (build head fields).ReadOnly := by
  have hfield : ∀ name, ((Assoc.get? name fields).getD .missing).term.ReadOnly ∧
      ReadOnlyAll ((Assoc.get? name fields).getD .missing).items := by
    intro name
    refine hread _ ?_
    cases hget : Assoc.get? name fields with
    | none => exact .inl rfl
    | some r => exact .inr ⟨name, Assoc.mem_of_get? hget⟩
  unfold build
  split <;> rename_i heq
  case h_2 | h_3 | h_4 | h_5 | h_16 => simp [heq, Node.actingKinds] at hkind
  case h_11 => exact (hfield _).2
  case h_14 => exact (hfield _).1
  case h_12 | h_13 | h_15 => exact ⟨(hfield _).1, (hfield _).1⟩
  all_goals trivial

theorem Term.readOnlyAll_iff {ts : List Term} : ReadOnlyAll ts ↔ ∀ t ∈ ts, t.ReadOnly := by
  induction ts with
  | nil => simp [ReadOnlyAll]
  | cons t rest ih => simp [ReadOnlyAll, ih]

mutual

/-- A tree without statements and assignments has such a term. -/
theorem Node.readOnly_toTerm (n : Node) (h : ∀ k ∈ n.preorder, k.kind ∉ Node.actingKinds) :
    n.toTerm.ReadOnly := by
  match n with
  | .mk kind fields line column =>
    rw [Node.preorder, List.forall_mem_cons] at h
    rw [Node.toTerm]
    refine Term.readOnly_build h.1 fun r hr => ?_
    rcases hr with rfl | ⟨name, hr⟩
    · exact ⟨trivial, trivial⟩
    · exact Node.readOnly_readings fields h.2 _ hr

theorem Node.readOnly_readings (fields : List (String × Datum))
    (h : ∀ k ∈ Node.preorderFields fields, k.kind ∉ Node.actingKinds) :
    ∀ p ∈ Node.readings fields, p.2.term.ReadOnly ∧ Term.ReadOnlyAll p.2.items := by
  match fields with
  | [] => exact nofun
  | (name, d) :: rest =>
    rw [Node.readings_cons, List.forall_mem_cons]
    match d with
    | .node n =>
      rw [Node.preorderFields, List.forall_mem_append] at h
      exact ⟨⟨Node.readOnly_toTerm n h.1, trivial⟩, Node.readOnly_readings rest h.2⟩
    | .list items =>
      rw [Node.preorderFields, List.forall_mem_append] at h
      exact ⟨⟨trivial, Datum.readOnly_toTerms items h.1⟩, Node.readOnly_readings rest h.2⟩
    | .dict members =>
      refine ⟨⟨trivial, Term.readOnlyAll_iff.2 fun t ht => ?_⟩, Node.readOnly_readings rest h⟩
      obtain ⟨_, -, rfl⟩ := List.mem_map.1 ht
      trivial
    | .scalar v =>
      refine ⟨?_, Node.readOnly_readings rest h⟩
      cases v with
      | string s =>
        refine ⟨trivial, Term.readOnlyAll_iff.2 fun t ht => ?_⟩
        obtain ⟨_, -, rfl⟩ := List.mem_map.1 ht
        trivial
      | _ => exact ⟨trivial, trivial⟩

theorem Datum.readOnly_toTerms (items : List Datum)
    (h : ∀ k ∈ Node.preorderItems items, k.kind ∉ Node.actingKinds) :
    Term.ReadOnlyAll (Datum.toTerms items) := by
  match items with
  | [] => trivial
  | .node n :: rest =>
    rw [Node.preorderItems, List.forall_mem_append] at h
    exact ⟨Node.readOnly_toTerm n h.1, Datum.readOnly_toTerms rest h.2⟩
  | .scalar v :: rest =>
    refine ⟨?_, Datum.readOnly_toTerms rest h⟩
    cases v <;> trivial
  | .list _ :: rest | .dict _ :: rest => exact ⟨trivial, Datum.readOnly_toTerms rest h⟩

end

/-! ## Expressions of a source text -/

mutual

/-- What is inside a part of a tree is inside the tree. -/
theorem Node.preorder_trans {k n root : Node} (hk : k ∈ n.preorder) (hn : n ∈ root.preorder) :
    k ∈ root.preorder := by
  match root with
  | .mk kind fields line column =>
    rw [Node.preorder] at hn ⊢
    rcases List.mem_cons.1 hn with rfl | hn
    · rwa [Node.preorder] at hk
    · exact List.mem_cons_of_mem _ (Node.preorderFields_trans hk hn)

theorem Node.preorderFields_trans {k n : Node} {fields : List (String × Datum)}
    (hk : k ∈ n.preorder) (hn : n ∈ Node.preorderFields fields) :
    k ∈ Node.preorderFields fields := by
  match fields with
  | [] => cases hn
  | (_, .node m) :: rest =>
    rw [Node.preorderFields, List.mem_append] at hn ⊢
    exact hn.imp (Node.preorder_trans hk) (Node.preorderFields_trans hk)
  | (_, .list items) :: rest =>
    rw [Node.preorderFields, List.mem_append] at hn ⊢
    exact hn.imp (Node.preorderItems_trans hk) (Node.preorderFields_trans hk)
  | (_, .scalar _) :: rest | (_, .dict _) :: rest =>
    rw [Node.preorderFields] at hn ⊢
    · exact Node.preorderFields_trans hk hn
    all_goals simp

theorem Node.preorderItems_trans {k n : Node} {items : List Datum} (hk : k ∈ n.preorder)
    (hn : n ∈ Node.preorderItems items) : k ∈ Node.preorderItems items := by
  match items with
  | [] => cases hn
  | .node m :: rest =>
    rw [Node.preorderItems, List.mem_append] at hn ⊢
    exact hn.imp (Node.preorder_trans hk) (Node.preorderItems_trans hk)
  | .scalar _ :: rest | .list _ :: rest | .dict _ :: rest =>
    rw [Node.preorderItems] at hn ⊢
    · exact Node.preorderItems_trans hk hn
    all_goals simp

end

/-- A mark adds nothing to what is inside a tree. -/
theorem Node.preorderFields_insert {k : Node} {name : String} {v : Scalar}
    {fields : List (String × Datum)}
    (hk : k ∈ Node.preorderFields (Assoc.insert name (.scalar v) fields)) :
    k ∈ Node.preorderFields fields := by
  induction fields with
  | nil => exact hk
  | cons p rest ih =>
    obtain ⟨other, d⟩ := p
    rw [Assoc.insert] at hk
    split at hk
    · cases d with
      | node m => exact List.mem_append_right _ hk
      | list items => exact List.mem_append_right _ hk
      | _ => exact hk
    · cases d with
      | node m => exact List.mem_append.2 ((List.mem_append.1 hk).imp_right ih)
      | list items => exact List.mem_append.2 ((List.mem_append.1 hk).imp_right ih)
      | _ => exact ih hk

namespace Source

/-- The kinds of nodes in the tree of an expression. -/
def partKinds : List String := "entry" :: Node.expressionKinds

theorem kind_mem_of_nodeAt {pos : Position} {kind : String} {fields : List (String × Datum)}
    (hkind : kind ∈ partKinds) (h : ∀ k ∈ Node.preorderFields fields, k.kind ∈ partKinds) :
    ∀ k ∈ (nodeAt pos kind fields).preorder, k.kind ∈ partKinds :=
  List.forall_mem_cons.2 ⟨hkind, h⟩

mutual

theorem Expr.kind_mem_of_toNode {e : Expr} {n : Node} (h : e.toNode = .ok n) :
    ∀ k ∈ n.preorder, k.kind ∈ partKinds := by
  match e with
  | .variable .. | .number .. | .boolean .. | .null _ =>
    obtain rfl := Except.ok.inj h
    exact kind_mem_of_nodeAt (by decide) (List.forall_mem_nil _)
  | .string pos raw =>
    obtain ⟨text, -, h⟩ := exists_of_bind_eq_ok h
    obtain rfl := Except.ok.inj h
    exact kind_mem_of_nodeAt (by decide) (List.forall_mem_nil _)
  | .array pos short entries =>
    obtain ⟨items, hitems, h⟩ := exists_of_bind_eq_ok h
    obtain rfl := Except.ok.inj h
    refine kind_mem_of_nodeAt (by decide) (List.forall_mem_append.2 ⟨?_, List.forall_mem_nil _⟩)
    exact Entry.kind_mem_of_toNodes hitems
  | .subscript pos base key =>
    obtain ⟨b, hb, h⟩ := exists_of_bind_eq_ok h
    obtain ⟨k, hk, h⟩ := exists_of_bind_eq_ok h
    obtain rfl := Except.ok.inj h
    refine kind_mem_of_nodeAt (by decide) (List.forall_mem_append.2 ⟨?_, ?_⟩)
    · exact Expr.kind_mem_of_toNode hb
    · exact List.forall_mem_append.2 ⟨Expr.kind_mem_of_toNode hk, List.forall_mem_nil _⟩
  | .append pos operand | .unary pos op operand =>
    obtain ⟨b, hb, h⟩ := exists_of_bind_eq_ok h
    obtain rfl := Except.ok.inj h
    refine kind_mem_of_nodeAt (by decide) (List.forall_mem_append.2 ⟨?_, List.forall_mem_nil _⟩)
    exact Expr.kind_mem_of_toNode hb
  | .binary pos op left right | .assign pos op left right =>
    obtain ⟨l, hl, h⟩ := exists_of_bind_eq_ok h
    obtain ⟨r, hr, h⟩ := exists_of_bind_eq_ok h
    obtain rfl := Except.ok.inj h
    refine kind_mem_of_nodeAt (by decide) (List.forall_mem_append.2 ⟨?_, ?_⟩)
    · exact Expr.kind_mem_of_toNode hl
    · exact List.forall_mem_append.2 ⟨Expr.kind_mem_of_toNode hr, List.forall_mem_nil _⟩
  | .reference pos target source =>
    obtain ⟨l, hl, h⟩ := exists_of_bind_eq_ok h
    obtain ⟨⟨kind, fields, line, column⟩, hr, h⟩ := exists_of_bind_eq_ok h
    obtain rfl := Except.ok.inj h
    have hsource := Expr.kind_mem_of_toNode hr
    rw [Node.preorder, List.forall_mem_cons] at hsource
    refine kind_mem_of_nodeAt (by decide) (List.forall_mem_append.2 ⟨?_, ?_⟩)
    · exact Expr.kind_mem_of_toNode hl
    · refine List.forall_mem_append.2 ⟨List.forall_mem_cons.2 ⟨hsource.1, ?_⟩, ?_⟩
      · exact fun k hk => hsource.2 k (Node.preorderFields_insert hk)
      · exact List.forall_mem_nil _

theorem Entry.kind_mem_of_toNodes {entries : List Entry} {items : List Datum}
    (h : Entry.toNodes entries = .ok items) :
    ∀ k ∈ Node.preorderItems items, k.kind ∈ partKinds := by
  match entries with
  | [] =>
    obtain rfl := Except.ok.inj h
    exact List.forall_mem_nil _
  | .item pos value byRef :: rest =>
    obtain ⟨n, hn, h⟩ := exists_of_bind_eq_ok h
    obtain ⟨ns, hns, h⟩ := exists_of_bind_eq_ok h
    obtain rfl := Except.ok.inj h
    obtain ⟨v, hv, hn⟩ := exists_of_bind_eq_ok hn
    obtain rfl := Except.ok.inj hn
    refine List.forall_mem_append.2 ⟨kind_mem_of_nodeAt (by decide) ?_, ?_⟩
    · exact List.forall_mem_append.2 ⟨Expr.kind_mem_of_toNode hv, List.forall_mem_nil _⟩
    · exact Entry.kind_mem_of_toNodes hns
  | .keyed pos key value byRef :: rest =>
    obtain ⟨n, hn, h⟩ := exists_of_bind_eq_ok h
    obtain ⟨ns, hns, h⟩ := exists_of_bind_eq_ok h
    obtain rfl := Except.ok.inj h
    obtain ⟨k, hk, hn⟩ := exists_of_bind_eq_ok hn
    obtain ⟨v, hv, hn⟩ := exists_of_bind_eq_ok hn
    obtain rfl := Except.ok.inj hn
    refine List.forall_mem_append.2 ⟨kind_mem_of_nodeAt (by decide) ?_, ?_⟩
    · refine List.forall_mem_append.2 ⟨Expr.kind_mem_of_toNode hk, ?_⟩
      exact List.forall_mem_append.2 ⟨Expr.kind_mem_of_toNode hv, List.forall_mem_nil _⟩
    · exact Entry.kind_mem_of_toNodes hns

end

/-- An expression of a list of trees is one of the trees. -/
theorem exists_of_mem_preorderItems {k : Node} {ns : List Node}
    (hk : k ∈ Node.preorderItems (ns.map .node)) : ∃ n ∈ ns, k ∈ n.preorder := by
  induction ns with
  | nil => cases hk
  | cons n rest ih =>
    rcases List.mem_append.1 hk with hk | hk
    · exact ⟨n, List.mem_cons_self, hk⟩
    · obtain ⟨m, hm, hk⟩ := ih hk
      exact ⟨m, List.mem_cons_of_mem n hm, hk⟩

/-- An expression inside a statement has the parts of expressions. -/
theorem Stmt.kind_mem_of_toNode {s : Stmt} {root n : Node} (h : s.toNode = .ok root)
    (hn : n ∈ root.preorder) (hkind : n.kind ∈ Node.expressionKinds) :
    ∀ k ∈ n.preorder, k.kind ∈ partKinds := by
  -- The statement itself is none, so the node is inside one of its expressions or names.
  have hinside : ∀ {kind pos fields}, root = nodeAt pos kind fields →
      kind ∉ Node.expressionKinds → n ∈ Node.preorderFields fields := by
    rintro kind pos fields rfl hother
    rcases List.mem_cons.1 hn with rfl | hn
    · exact absurd hkind hother
    · exact hn
  have hnames : ∀ names : List Name, n ∈ Node.preorderItems (names.map Name.toDatum) →
      ∀ k ∈ n.preorder, k.kind ∈ partKinds := by
    intro names hmem
    have hmap : names.map Name.toDatum =
        (names.map fun x => variableNode x.pos x.name).map .node := by
      simp [Name.toDatum]
    rw [hmap] at hmem
    obtain ⟨v, hv, hmem⟩ := exists_of_mem_preorderItems hmem
    obtain ⟨x, -, rfl⟩ := List.mem_map.1 hv
    intro k hk
    exact kind_mem_of_nodeAt (by decide) (List.forall_mem_nil _) k (Node.preorder_trans hk hmem)
  cases s with
  | expression pos e =>
    obtain ⟨v, hv, h⟩ := exists_of_bind_eq_ok h
    have hmem := hinside (Except.ok.inj h).symm (by decide)
    rw [Node.preorderFields, Node.preorderFields, List.append_nil] at hmem
    exact fun k hk => Expr.kind_mem_of_toNode hv k (Node.preorder_trans hk hmem)
  | echo pos operands =>
    obtain ⟨ns, hns, h⟩ := exists_of_bind_eq_ok h
    have hmem := hinside (Except.ok.inj h).symm (by decide)
    rw [Node.preorderFields] at hmem
    have hmem := (List.mem_append.1 hmem).resolve_right nofun
    obtain ⟨v, hv, hmem⟩ := exists_of_mem_preorderItems hmem
    obtain ⟨e, -, hnode⟩ := exists_of_mem_mapM hns v hv
    exact fun k hk => Expr.kind_mem_of_toNode hnode k (Node.preorder_trans hk hmem)
  | global pos names =>
    have hmem := hinside (Except.ok.inj h).symm (by decide)
    rw [Node.preorderFields, Node.preorderFields, List.append_nil] at hmem
    exact hnames names hmem
  | unset pos names =>
    have hmem := hinside (Except.ok.inj h).symm (by decide)
    rw [Node.preorderFields, Node.preorderFields, List.append_nil] at hmem
    exact hnames names hmem

/-- An expression inside the tree of a source text has the parts of expressions. -/
theorem kind_mem_of_tree {text : String} {root n : Node} (h : tree text = .ok root)
    (hn : n ∈ root.preorder) (hkind : n.kind ∈ Node.expressionKinds) :
    ∀ k ∈ n.preorder, k.kind ∈ partKinds := by
  unfold tree at h
  split at h
  · contradiction
  rename_i p _
  obtain ⟨ns, hns, h⟩ := exists_of_bind_eq_ok h
  -- The program itself is no expression, so the node is inside one of its statements.
  have hmem : n ∈ Node.preorderItems (ns.map .node) := by
    have hprogram : "program" ∉ Node.expressionKinds := by decide
    dsimp only at h
    split at h <;> obtain rfl := Except.ok.inj h
    all_goals
      rcases List.mem_cons.1 hn with rfl | hn
      · exact absurd hkind hprogram
      · exact (List.mem_append.1 hn).resolve_right nofun
  obtain ⟨s, hs, hmem⟩ := exists_of_mem_preorderItems hmem
  obtain ⟨stmt, -, hstmt⟩ := exists_of_mem_mapM hns s hs
  exact stmt.kind_mem_of_toNode hstmt hmem hkind

end Source

/-! ## Evaluation -/

/-- An expression of a source text without an assignment in it, evaluated for its value or to see
whether it is set, leaves the environment as it was, whether it gives a value or stops. -/
theorem Node.evaluate_env {text : String} {root n : Node} {intent : Intent}
    (hroot : Source.tree text = .ok root) (hn : n ∈ root.preorder)
    (hkind : n.kind ∈ Node.expressionKinds) (hassign : ∀ k ∈ n.preorder, k.kind ≠ "assign")
    (hintent : intent = .read ∨ intent = .isset) (m : Machine) :
    (Run.evaluate.outcome
      { m with stack := .pending n.toTerm (some intent) :: m.stack }).2.env = m.env := by
  have hparts : ∀ k ∈ n.preorder, k.kind ∉ Node.actingKinds := by
    have hacting : ∀ kind ∈ Source.partKinds, kind ≠ "assign" → kind ∉ Node.actingKinds := by
      decide
    exact fun k hk => hacting _ (Source.kind_mem_of_tree hroot hn hkind k hk) (hassign k hk)
  have hreads : Run.Reads (n.toTerm.eval (some intent)) := by
    refine n.toTerm.reads_eval intent ?_ (n.readOnly_toTerm hparts)
    rcases hintent with rfl | rfl <;> decide
  exact (hreads.within n.toTerm m).state

/-- Looking for an element two levels below an empty array, beside a variable that is not there,
makes none of them. -/
theorem Node.evaluate_env_missing :
    ∃ root n, Source.tree "$a = []; echo $a['k'][0] . $b;" = .ok root ∧ n ∈ root.preorder ∧
      n.preorder.map Node.kind =
        ["bin", "offsetlookup", "offsetlookup", "variable", "string", "number", "variable"] ∧
      (Run.evaluate.outcome { (root.run .init).2 with
        stack := .pending n.toTerm (some .read) :: (root.run .init).2.stack }).2.env =
        (root.run .init).2.env := by
  have hfound : ((Source.tree "$a = []; echo $a['k'][0] . $b;").toOption.bind fun root =>
      root.preorder.find? (·.kind == "bin")).map (fun n => n.preorder.map Node.kind) =
      some ["bin", "offsetlookup", "offsetlookup", "variable", "string", "number", "variable"] := by
    decide +kernel
  obtain ⟨n, hfind, hparts⟩ := Option.map_eq_some_iff.1 hfound
  obtain ⟨root, hroot, hfind⟩ := Option.bind_eq_some_iff.1 hfind
  have hroot := eq_ok_of_toOption hroot
  have hn := List.mem_of_find?_eq_some hfind
  have hkind : n.kind = "bin" := by simpa using List.find?_some hfind
  refine ⟨root, n, hroot, hn, hparts, ?_⟩
  refine Node.evaluate_env hroot hn (by simp [hkind, expressionKinds]) ?_ (.inl rfl) _
  have hassign : ∀ kind ∈ n.preorder.map Node.kind, kind ≠ "assign" := by
    rw [hparts]
    decide
  exact fun k hk => hassign _ (List.mem_map_of_mem hk)

end PhpInterpreter
