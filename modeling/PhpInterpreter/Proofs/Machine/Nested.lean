import PhpInterpreter.Proofs.Machine.Agreement
import PhpInterpreter.Proofs.Scope.History
import PhpInterpreter.Proofs.Scope.Isolation

/-!
Programs run inside a scope of their own. What such a program does outside the scope, whether it
ends or stops, it does through the names its global statements list.
-/

namespace PhpInterpreter

/-! ## Global names of source programs -/

/-- Which names are listed does not depend on the mark of a reference. -/
theorem Term.globalsIn_build {P : String → Prop} {kind : String} {place : Place} {b b' : Bool}
    {fields fields' : List (String × Reading)}
    (hread : ∀ name, name ≠ "byref" → Assoc.get? name fields' = Assoc.get? name fields)
    (hg : (build ⟨kind, place, b⟩ fields).GlobalsIn P) :
    (build ⟨kind, place, b'⟩ fields').GlobalsIn P := by
  unfold build at hg ⊢
  dsimp only at hg ⊢
  simp (disch := decide) only [hread]
  revert hg
  split <;> exact id

theorem Node.globalsIn_replace {P : String → Prop} {n : Node} (d : Datum)
    (h : n.toTerm.GlobalsIn P) : (n.replace "byref" d).toTerm.GlobalsIn P := by
  obtain ⟨kind, fields, line, column⟩ := n
  rw [Node.toTerm] at h
  rw [Node.replace, Node.toTerm]
  refine Term.globalsIn_build (fun name hname => ?_) h
  rw [Node.get?_readings, Node.get?_readings, Assoc.get?_insert, if_neg hname.symm]
  rfl

theorem Term.globalsInAll_iff {P : String → Prop} {ts : List Term} :
    GlobalsInAll P ts ↔ ∀ t ∈ ts, t.GlobalsIn P := by
  induction ts with
  | nil => simp [GlobalsInAll]
  | cons t rest ih => simp [GlobalsInAll, ih]

namespace Source

/-- The names that a statement lists as global. -/
def Stmt.globals : Stmt → List String
  | .global _ names => names.map (·.name)
  | _ => []

/-- The names that the global statements of a program list. -/
def Program.globals (p : Program) : List String := p.statements.flatMap Stmt.globals

/-- A name is used as it is spelled. -/
theorem Name.Sound.variableName {n : Name} {s : String} (hn : n.Sound)
    (h : Run.variableName (Datum.string n.name) = pure s) : s = n.name := by
  obtain ⟨c, cs, hc, htext⟩ := hn.variable_toList
  have hname : n.name.toList = c :: cs := by simpa using htext
  have hdollar : c ≠ '$' := by
    rintro rfl
    revert hc
    decide
  have hrun := congrArg (fun act : Run String => (act.outcome default).1) h
  obtain ⟨name, heq, hempty, hsign⟩ := isName_of_spells hn
  obtain rfl : n.name = name := by simpa [Datum.string] using heq
  simp only [Run.variableName, Datum.string, hempty, hsign, or_self, if_false, hname,
    List.head?_cons, beq_iff_eq, Option.some.injEq, hdollar] at hrun
  exact (Except.ok.inj hrun).symm

variable {P : String → Prop}

mutual

/-- Expressions list no global names. -/
theorem Expr.globalsIn_toNode {e : Expr} {n : Node} (h : e.toNode = .ok n) :
    n.toTerm.GlobalsIn P := by
  match e with
  | .variable .. | .number .. | .boolean .. | .null _ =>
    obtain rfl := Except.ok.inj h
    trivial
  | .string pos raw =>
    obtain ⟨text, -, h⟩ := exists_of_bind_eq_ok h
    obtain rfl := Except.ok.inj h
    trivial
  | .array pos short entries =>
    obtain ⟨items, hitems, h⟩ := exists_of_bind_eq_ok h
    obtain rfl := Except.ok.inj h
    exact Entry.globalsIn_toNodes hitems
  | .subscript pos base key =>
    obtain ⟨b, hb, h⟩ := exists_of_bind_eq_ok h
    obtain ⟨k, hk, h⟩ := exists_of_bind_eq_ok h
    obtain rfl := Except.ok.inj h
    exact ⟨Expr.globalsIn_toNode hb, Expr.globalsIn_toNode hk⟩
  | .append pos base =>
    obtain ⟨b, hb, h⟩ := exists_of_bind_eq_ok h
    obtain rfl := Except.ok.inj h
    exact ⟨Expr.globalsIn_toNode hb, trivial⟩
  | .unary pos op operand =>
    obtain ⟨v, hv, h⟩ := exists_of_bind_eq_ok h
    obtain rfl := Except.ok.inj h
    have hoperand : v.toTerm.GlobalsIn P := Expr.globalsIn_toNode hv
    exact hoperand
  | .binary pos op left right =>
    obtain ⟨l, hl, h⟩ := exists_of_bind_eq_ok h
    obtain ⟨r, hr, h⟩ := exists_of_bind_eq_ok h
    obtain rfl := Except.ok.inj h
    exact ⟨Expr.globalsIn_toNode hl, Expr.globalsIn_toNode hr⟩
  | .assign pos op target value =>
    obtain ⟨l, hl, h⟩ := exists_of_bind_eq_ok h
    obtain ⟨r, hr, h⟩ := exists_of_bind_eq_ok h
    obtain rfl := Except.ok.inj h
    exact ⟨Expr.globalsIn_toNode hl, Expr.globalsIn_toNode hr⟩
  | .reference pos target source =>
    obtain ⟨l, hl, h⟩ := exists_of_bind_eq_ok h
    obtain ⟨r, hr, h⟩ := exists_of_bind_eq_ok h
    obtain rfl := Except.ok.inj h
    exact ⟨Expr.globalsIn_toNode hl, Node.globalsIn_replace _ (Expr.globalsIn_toNode hr)⟩

theorem Entry.globalsIn_toNodes {entries : List Entry} {ds : List Datum}
    (h : Entry.toNodes entries = .ok ds) : Term.GlobalsInAll P (Datum.toTerms ds) := by
  match entries with
  | [] =>
    obtain rfl := Except.ok.inj h
    trivial
  | .item pos value byRef :: rest =>
    obtain ⟨n, hn, h⟩ := exists_of_bind_eq_ok h
    obtain ⟨ns, hns, h⟩ := exists_of_bind_eq_ok h
    obtain rfl := Except.ok.inj h
    obtain ⟨v, hv, hn⟩ := exists_of_bind_eq_ok hn
    obtain rfl := Except.ok.inj hn
    exact ⟨⟨trivial, Expr.globalsIn_toNode hv⟩, Entry.globalsIn_toNodes hns⟩
  | .keyed pos key value byRef :: rest =>
    obtain ⟨n, hn, h⟩ := exists_of_bind_eq_ok h
    obtain ⟨ns, hns, h⟩ := exists_of_bind_eq_ok h
    obtain rfl := Except.ok.inj h
    obtain ⟨k, hk, hn⟩ := exists_of_bind_eq_ok hn
    obtain ⟨v, hv, hn⟩ := exists_of_bind_eq_ok hn
    obtain rfl := Except.ok.inj hn
    exact ⟨⟨Expr.globalsIn_toNode hk, Expr.globalsIn_toNode hv⟩, Entry.globalsIn_toNodes hns⟩

end

theorem Stmt.globalsIn_toNode {s : Stmt} {n : Node} (hs : s.Sound) (h : s.toNode = .ok n)
    (hP : ∀ name ∈ s.globals, P name) : n.toTerm.GlobalsIn P := by
  cases s with
  | expression pos e =>
    obtain ⟨v, hv, h⟩ := exists_of_bind_eq_ok h
    obtain rfl := Except.ok.inj h
    have hvalue : v.toTerm.GlobalsIn P := Expr.globalsIn_toNode hv
    exact hvalue
  | echo pos operands =>
    obtain ⟨ns, hns, h⟩ := exists_of_bind_eq_ok h
    obtain rfl := Except.ok.inj h
    refine Term.globalsInAll_iff.2 (Datum.forall_toTerms fun d hd => ?_)
    obtain ⟨n, hn, rfl⟩ := List.mem_map.1 hd
    obtain ⟨e, -, hnode⟩ := exists_of_mem_mapM hns n hn
    exact Expr.globalsIn_toNode hnode
  | global pos names =>
    obtain rfl := Except.ok.inj h
    refine Datum.forall_toTerms fun d hd => ?_
    obtain ⟨n, hn, rfl⟩ := List.mem_map.1 hd
    intro text htext
    rw [(hs n hn).variableName htext]
    exact hP n.name (List.mem_map.2 ⟨n, hn, rfl⟩)
  | unset pos names =>
    obtain rfl := Except.ok.inj h
    trivial

/-- The statements of a program's tree list the program's global names. -/
theorem Program.globalsIn_toNode {p : Program} {n : Node} (hp : p.Sound) (h : p.toNode = .ok n)
    (hP : ∀ name ∈ p.globals, P name) :
    ∃ head ts, n.toTerm = .program head true ts ∧ ∀ t ∈ ts, t.GlobalsIn P := by
  obtain ⟨head, ns, hns, -, hterm⟩ := Program.toTerm_toNode h
  refine ⟨head, _, hterm, Datum.forall_toTerms fun d hd => ?_⟩
  obtain ⟨n, hn, rfl⟩ := List.mem_map.1 hd
  obtain ⟨s, hs, hnode⟩ := exists_of_mem_mapM hns n hn
  refine Stmt.globalsIn_toNode (hp s hs) hnode fun name hname => hP name ?_
  exact List.mem_flatMap.2 ⟨s, hs, hname⟩

end Source

/-! ## Runs inside a scope -/

namespace Comparison

variable {α β : Type} {act : Run α} {act' : Run β} {m m' : Machine} {guard : Guard}
  {lines : Renumbering} {before : List Diagnostic}

/-- What is guarded is kept by each of the two runs. -/
theorem Both.guarded (h : (sharing guard lines before).Both act act' m m'
      fun _ _ t t' => (sharing guard lines before).Tied t t') :
    Ends act m (fun _ t => guard.env t.env) fun _ t => guard.env t.env := by
  unfold Ends
  rcases paired_iff.1 h with ⟨a, b, t, t', hr, -, ht⟩ | ⟨f, f', t, t', hr, -, -, ht⟩
  · rw [hr]
    exact ht.envs.2
  · rw [hr]
    exact ht.envs.2

end Comparison

open Environment

/-- What programs inside a scope opened in `e` keep. -/
def Guard.nested (P : String → Prop) {e : Environment} (h : Consistent e) : Guard where
  env e' := Inside P e e'
  slot e' x := ∃ source, e'.slot? e.nextScope source = some x
  global := P
  declare name h' := h'.ends_declare h.toLinked name
  unset name h' := by
    refine (h'.ends_unset h.toLinked Option.none h'.current name).mono (fun _ _ hu => hu.1) ?_
    exact fun _ _ hu => hu
  bind name h' hl := h'.ends_bind h.toLinked name (.inl hl)
  bindGlobal h' hP := h'.ends_bindGlobal h.toLinked hP
  store v h' hl := h'.ends_store h.toLinked v hl

/-- A run inside a scope keeps to the scope and the global names it lists. -/
theorem Node.ends_run_inside {P : String → Prop} {e : Environment} {n : Node} {m : Machine}
    {head : Head} {ts : List Term} (he : Consistent e) (hm : Inside P e m.env)
    (hterm : n.toTerm = .program head true ts) (hg : ∀ t ∈ ts, t.GlobalsIn P) :
    Inside P e (n.run m).2.env := by
  let C : Comparison := .sharing (Guard.nested P he) .same m.log
  have hstart : C.Tied m m := .start hm (Transcript.logs_after ..)
  have hboth : C.Both (Run.statements ts .null) (Run.statements (ts.map C.move) .null) m m
      fun _ _ t t' => C.Tied t t' := hstart.statements hg fun _ _ _ ht => ht
  have hends := hboth.guarded.state
  rw [Node.run, hterm]
  exact hends

/-- A program run inside a scope of its own, whether it ends or stops, leaves the scopes, names and
values of the environment as they were, but for the global names it lists and their values. -/
theorem Node.run_isolated {name kind text : String} {p : Source.Program} {n : Node} {m : Machine}
    (hm : Consistent m.env) (hkind : (ScopeKind.ofLabel? kind).isSome = true)
    (hp : Source.parse text = .ok p) (hn : p.toNode = .ok n) :
    ∃ index opened closed,
      (Scoped.openScope name kind).run.run m.env = (.ok index, opened) ∧
      (Scoped.closeScope index).run.run (n.run { m with env := opened }).2.env = (.ok (), closed) ∧
      Isolated (· ∈ p.globals) m.env closed := by
  obtain ⟨k, hk⟩ := Option.isSome_iff_exists.1 hkind
  obtain ⟨_, opened, hopen, rfl, hinside⟩ :=
    (hm.ends_openScope (P := (· ∈ p.globals)) name hk).returns
  obtain ⟨head, ts, hterm, hg⟩ :=
    Source.Program.globalsIn_toNode (Source.parse_sound hp) hn fun _ h => h
  have hrun := Node.ends_run_inside (m := { m with env := opened }) hm hinside hterm hg
  obtain ⟨_, closed, hclose, hisolated⟩ := (hrun.ends_closeScope hm).returns
  exact ⟨_, opened, closed, hopen, hclose, hisolated⟩

/-- A function scope in a new environment: the program lists one global name, writes to it through
a reference and stops. -/
theorem Node.run_isolated_reference :
    ∃ p n index opened closed,
      Source.parse "global $g; $x = &$g; $x = 2; $x[0] = 1 / 0;" = .ok p ∧ p.toNode = .ok n ∧
      p.globals = ["g"] ∧
      (Scoped.openScope "f" "function").run.run .init = (.ok index, opened) ∧
      (Scoped.closeScope index).run.run (n.run { Machine.init with env := opened }).2.env =
        (.ok (), closed) ∧ Isolated (· ∈ p.globals) .init closed := by
  have hparse : (Source.parse "global $g; $x = &$g; $x = 2; $x[0] = 1 / 0;").toOption.map
      (fun p => (p.globals, p.toNode.isOk)) = some (["g"], true) := by decide +kernel
  cases hp : Source.parse "global $g; $x = &$g; $x = 2; $x[0] = 1 / 0;" with
  | error e =>
    rw [hp] at hparse
    cases hparse
  | ok p =>
    rw [hp] at hparse
    obtain ⟨hglobals, hok⟩ := Prod.mk.inj (Option.some.inj hparse)
    cases hn : p.toNode with
    | error e =>
      rw [hn] at hok
      cases hok
    | ok n =>
      have hkind : (ScopeKind.ofLabel? "function").isSome = true := by decide
      obtain ⟨index, opened, closed, hopen, hclose, hisolated⟩ :=
        Node.run_isolated (m := .init) consistent_init hkind hp hn
      exact ⟨p, n, index, opened, closed, rfl, hn, hglobals, hopen, hclose, hisolated⟩

end PhpInterpreter
