import PhpInterpreter.Proofs.Machine.Call
import PhpInterpreter.Proofs.Machine.Chunk
import PhpInterpreter.Proofs.Node.Part
import PhpInterpreter.Proofs.Source.Placement

/-!
Where errors of a run point. While an error leaves the evaluations it was raised in, the innermost
one gives it its place, and no other one changes it.
-/

namespace PhpInterpreter

open Run

variable {t u : Term} {intent? : Option Intent} {intent : Intent} {m : Machine}
  {levels : List Level} {s s' : Site} {e : RunError}

theorem Term.root_inside (t : Term) : t.root.Inside t := by
  fun_induction Term.root t with
  | case1 h base key ih => exact (ih.below (Term.below_of_mem List.mem_cons_self)).inside
  | case2 t => exact .refl t

namespace Site

/-- The site is the term or somewhere inside it, or the level of a subscript that is in there. -/
def Inside (t : Term) : Site → Prop
  | node u _ _ => u.Inside t
  | level v _ _ => ∃ h base key, (Term.subscript h base key).Inside t ∧ v.place = h.place

/-- The site is somewhere inside the term; the level of a subscript may be that of the term. -/
def Within (t : Term) : Site → Prop
  | node u _ _ => u.Below t
  | level v l? m => (level v l? m).Inside t

theorem Inside.trans (h : s.Inside u) (hu : u.Inside t) : s.Inside t := by
  cases s with
  | node v _ _ => exact Term.Inside.trans h hu
  | level v _ _ =>
    obtain ⟨hd, base, key, hinside, hplace⟩ := h
    exact ⟨hd, base, key, hinside.trans hu, hplace⟩

theorem Within.inside (h : s.Within t) : s.Inside t := by
  cases s with
  | node v _ _ => exact Term.Below.inside h
  | level v _ _ => exact h

theorem Inside.within (h : s.Inside u) (hu : u.Below t) : s.Within t := by
  cases s with
  | node v _ _ => exact Term.Inside.below h hu
  | level v _ _ => exact h.trans hu.inside

theorem within_of_mem (h : t ∈ u.parts) : (node t intent? m).Within u := Term.below_of_mem h

end Site

namespace Run

theorem InTurn.exists_mem {α β : Type} {step : β → α → Run β}
    {call : β → α → Machine → Site → Prop} {xs : List α} {b : β} (h : InTurn step call xs b m s) :
    ∃ x ∈ xs, ∃ b m, call b x m s := by
  induction h with
  | here hs => exact ⟨_, List.mem_cons_self, _, _, hs⟩
  | there _ _ ih =>
    obtain ⟨x, hx, hs⟩ := ih
    exact ⟨x, List.mem_cons_of_mem _ hx, hs⟩

theorem FirstCall.within (h : FirstCall u intent m s) (hu : u ∈ t.parts) : s.Within t := by
  cases h with
  | first => exact Site.within_of_mem hu

theorem KeyCall.within (h : KeyCall t m s) : s.Within t := by
  induction h with
  | base _ ih => exact ih.inside.within (Term.below_of_mem List.mem_cons_self)
  | key => exact Site.within_of_mem (by simp [Term.parts])

/-- Levels have the places of the subscripts of the target. -/
theorem ends_evalKeys_places (t : Term) (m : Machine) :
    Ends t.evalKeys m (fun levels _ => ∀ v ∈ levels,
      ∃ h base key, (Term.subscript h base key).Inside t ∧ v.place = h.place) fun _ _ => True := by
  match t with
  | .subscript h base key =>
    rw [Term.evalKeys, ends_bind]
    refine (ends_evalKeys_places base m).mono (fun levels m₁ hlevels => ?_) fun _ _ _ => trivial
    simp only [ends_bind, ends_pure]
    refine (ends_trivial _ m₁).mono (fun key? m₂ _ v hv => ?_) fun _ _ _ => trivial
    rcases List.mem_append.1 hv with hv | hv
    · obtain ⟨hd, base', key', hinside, hplace⟩ := hlevels v hv
      have hbase : base.Below (.subscript h base key) := Term.below_of_mem List.mem_cons_self
      exact ⟨hd, base', key', hinside.trans hbase.inside, hplace⟩
    · obtain rfl := List.mem_singleton.1 hv
      exact ⟨h, base, key, .refl _, rfl⟩
  | .absent | .foreign | .program .. | .statement .. | .echo .. | .global .. | .unset ..
  | .literal .. | .variable .. | .array .. | .entry .. | .unary .. | .binary .. | .assign ..
  | .other _ => exact fun _ hv => absurd hv List.not_mem_nil

/-- What is resolved of a target is its root, or the levels of its subscripts. -/
theorem ResolveCall.within {target : Term} {m₀ m₁ : Machine} (hroot : target.root.Below t)
    (htarget : target.Inside t) (hkeys : target.evalKeys.outcome m₀ = (.ok levels, m₁))
    (h : ResolveCall target.root levels m s) : s.Within t := by
  cases h with
  | root => exact hroot
  | level _ hs =>
    obtain ⟨v, hv, l?, m₂, rfl⟩ := hs.exists_mem
    obtain ⟨hd, base, key, hinside, hplace⟩ := (ends_evalKeys_places target m₀).of_ok hkeys v hv
    exact ⟨hd, base, key, hinside.trans htarget, hplace⟩

theorem ItemCall.within {item : Term} (h : ItemCall item m s) (hitem : item ∈ t.parts) :
    s.Within t := by
  have hbelow := Term.below_of_mem hitem
  cases h with
  | value _ hs => exact (hs.within (by simp [Term.parts])).inside.within hbelow
  | key | keyed => exact (Site.within_of_mem (by simp [Term.parts])).inside.within hbelow
  | plain _ _ _ hs => exact hs.within hitem

theorem CompoundCall.within {op : BinaryOp} {target value : Term}
    (h : CompoundCall op target value m s) (htarget : target ∈ t.parts) (hvalue : value ∈ t.parts) :
    s.Within t := by
  have hbelow := Term.below_of_mem htarget
  cases h with
  | keys hs => exact hs.within.inside.within hbelow
  | value => exact Site.within_of_mem hvalue
  | target _ hkeys _ _ hs =>
    exact hs.within (target.root_inside.below hbelow) hbelow.inside hkeys

/-- What an evaluation calls is inside the node that is evaluated. -/
theorem Calls.within (h : Calls t intent? m s) : s.Within t := by
  induction h with
  | statement => exact Site.within_of_mem List.mem_cons_self
  | direct _ ih => exact ih.inside.within (Term.below_of_mem List.mem_cons_self)
  | read _ hs => cases hs <;> exact Site.within_of_mem (by simp [Term.parts])
  | keys hs => exact hs.within
  | @resolve h base key _ _ _ _ hkeys hs =>
    have hbase : base.Below (.subscript h base key) := Term.below_of_mem List.mem_cons_self
    have hroot : (Term.subscript h base key).root.Below (.subscript h base key) :=
      base.root_inside.below hbase
    exact hs.within hroot (.refl _) hkeys
  | unary _ hs => exact hs.within List.mem_cons_self
  | binary _ hs => cases hs <;> exact Site.within_of_mem (by simp [Term.parts])
  | assign _ _ _ _ hs => cases hs <;> exact Site.within_of_mem (by simp [Term.parts])
  | reference _ _ _ _ hs => exact hs.within (by simp [Term.parts])
  | compound _ _ _ hs => exact hs.within (by simp [Term.parts]) (by simp [Term.parts])
  | array _ hs =>
    obtain ⟨item, hitem, _, _, hs⟩ := hs.exists_mem
    exact hs.within hitem
  | echo _ hs =>
    obtain ⟨operand, hoperand, _, _, hs⟩ := hs.exists_mem
    exact hs.within hoperand

/-! ## Blame -/

/-- An error that leaves a statement has emptied the stack; a crash has not. -/
theorem ends_clearing {α : Type} {act : Run α} {R : α → Machine → Prop}
    {F : Fault → Machine → Prop} (hF : ∀ f m, F f m → F f { m with stack := [] })
    (h : Ends act m R F) : Ends (clearing act) m R F := by
  simp only [Ends, clearing, ExceptT.run, ExceptT.mk, StateT.run] at h ⊢
  generalize act m = p at h ⊢
  obtain ⟨r, m'⟩ := p
  cases r with
  | ok a => exact h
  | error f =>
    cases f with
    | error e => exact hF _ _ h
    | crash c => exact h

end Run

namespace Site

/-- The second site is called by the first one. -/
def Calls : Site → Site → Prop
  | node t intent? m, s => Run.Calls t intent? m s
  | level .., _ => False

/-- The error of the first site is that of a call, and of a call of that, and so on down to the
second site, which fails with it, though none of its own calls fails. -/
inductive Blames (e : RunError) : Site → Site → Prop
  | here {s : Site} (hs : s.Fails e) (hcalls : ∀ s', s.Calls s' → ∀ e', ¬ s'.Fails e') :
    Blames e s s
  | call {s s' s'' : Site} (hs : s.Fails e) (hcall : s.Calls s') (h : Blames e s' s'') :
    Blames e s s''

/-- The place of the site, if it has one, has a line. -/
def Lined (s : Site) : Prop := ∀ p, s.place? = some p → p.line.isNull = false

theorem place?_locate {p : Place} (hp : p.line.isNull = false) :
    (e.locate p).place? = e.place?.or (some p) := by
  cases hplace : e.place? <;> simp [RunError.locate, hplace, hp]

theorem fails_located_iff {α : Type} {act : Run α} {p : Place} :
    ((located p act).outcome m).1 = .error (.error e) ↔
      ∃ e₀ : RunError, (act.outcome m).1 = .error (.error e₀) ∧ e = e₀.locate p := by
  have hrun : ((located p act).outcome m).1 = (act.outcome m).1.mapError (Fault.locate p) := rfl
  rw [hrun]
  cases (act.outcome m).1 with
  | ok a => simp [Except.mapError]
  | error f =>
    cases f with
    | error e₀ => simp [Except.mapError, Fault.locate, eq_comm]
    | crash c => simp [Except.mapError, Fault.locate]

/-- A site fails with the error of its own computation, at its own place if that has none. -/
theorem Fails.cases (h : s.Fails e) : ∃ (p : Place) (e₀ : RunError), s.place? = some p ∧
    e = e₀.locate p ∧ (e₀.place? = none ∨ ∃ s', s.Calls s' ∧ s'.Fails e₀) := by
  cases s with
  | node t intent? m =>
    have hrun : ((within t (t.eval intent?)).outcome m).1 = .error (.error e) := h
    cases hhead : t.head? with
    | none =>
      -- What is no node crashes.
      cases t with
      | absent | foreign => cases hrun
      | _ => cases hhead
    | some hd =>
      rw [within, hhead] at hrun
      obtain ⟨e₀, hbare, rfl⟩ := fails_located_iff.1 hrun
      refine ⟨hd.place, e₀, by rw [place?, hhead]; rfl, rfl, ?_⟩
      rcases (traced_eval t intent? m).of_error (Prod.ext hbare rfl) with hnone | ⟨_, s', heq, hs'⟩
      · exact .inl hnone
      · obtain rfl := Fault.error.inj heq
        exact .inr ⟨s', hs'⟩
  | level v l? m =>
    obtain ⟨e₀, hbare, rfl⟩ := fails_located_iff.1 h
    exact ⟨v.place, e₀, rfl, rfl, .inl ((unplaced_descend v l? m).of_error (Prod.ext hbare rfl))⟩

theorem isSome_of_fails (h : s.Fails e) (hs : s.Lined) : e.place?.isSome := by
  obtain ⟨p, e₀, hp, rfl, -⟩ := h.cases
  rw [place?_locate (hs p hp)]
  cases e₀.place? <;> rfl

/-- A site that fails, though none of its calls fails, gives the error its place. -/
theorem place_of_fails (h : s.Fails e) (hs : s.Lined)
    (hcalls : ∀ s', s.Calls s' → ∀ e', ¬ s'.Fails e') : e.place? = s.place? := by
  obtain ⟨p, e₀, hp, rfl, hnone | ⟨s', hs', hfails⟩⟩ := h.cases
  · rw [place?_locate (hs p hp), hnone, hp]
    rfl
  · exact absurd hfails (hcalls s' hs' e₀)

/-- A site fails with the error of a call that has a place. -/
theorem fails_of_call (hcall : s.Calls s') (h : s'.Fails e) (he : e.place?.isSome) :
    s.Fails e := by
  cases s with
  | node t intent? m =>
    have hstops : StopsWith (within t (t.eval intent?)) m e := by
      unfold within
      split
      · exact stopsWith_located he (hcall.stopsWith h)
      · exact hcall.stopsWith h
    exact stopsWith_iff.1 hstops
  | level => exact hcall.elim

theorem fails_unique {e' : RunError} (h : s.Fails e) (h' : s.Fails e') : e = e' := by
  cases s with
  | node | level => simpa using h.symm.trans h'

end Site

/-- Every node in the term has a line. -/
def Term.Lined (t : Term) : Prop :=
  ∀ (u : Term) (h : Head), u.Inside t → u.head? = some h → h.place.line.isNull = false

namespace Site

theorem Inside.lined (h : s.Inside t) (ht : t.Lined) : s.Lined := by
  intro p hp
  cases s with
  | node u _ _ =>
    obtain ⟨hd, hhead, rfl⟩ := Option.map_eq_some_iff.1 hp
    exact ht u hd h hhead
  | level v _ _ =>
    obtain ⟨hd, base, key, hinside, hplace⟩ := h
    obtain rfl := Option.some.inj hp
    rw [hplace]
    exact ht _ hd hinside rfl

/-- An error is that of an innermost site, whatever evaluations it leaves on its way out. -/
theorem exists_blames (t : Term) (ht : t.Lined) (intent? : Option Intent) (m : Machine)
    (h : (node t intent? m).Fails e) : ∃ s, Blames e (node t intent? m) s := by
  by_cases hnone : ∀ s, (node t intent? m).Calls s → ∀ e', ¬ s.Fails e'
  · exact ⟨_, .here h hnone⟩
  · push Not at hnone
    obtain ⟨s, hcall, e', hs⟩ := hnone
    have hwithin := Run.Calls.within hcall
    have hfails := fails_of_call hcall hs (isSome_of_fails hs (hwithin.inside.lined ht))
    obtain rfl := fails_unique h hfails
    cases s with
    | node u j? m₁ =>
      have hu : u.Lined := fun v hd hv hhead => ht v hd (hv.trans hwithin.inside) hhead
      obtain ⟨s', hblames⟩ := exists_blames u hu j? m₁ hs
      exact ⟨s', .call h hcall hblames⟩
    | level v l? m₁ => exact ⟨_, .call h hcall (.here hs fun _ hf => hf.elim)⟩
termination_by sizeOf t
decreasing_by exact Term.Below.sizeOf_lt hwithin

/-- The innermost site is in the term, and it has given the error its place. -/
theorem Blames.place (h : Blames e s s') (hs : s.Inside t) (ht : t.Lined) :
    s'.Inside t ∧ e.place? = s'.place? := by
  induction h with
  | here hfails hcalls => exact ⟨hs, place_of_fails hfails (hs.lined ht) hcalls⟩
  | @call s s' s'' _ hcall _ ih =>
    refine ih ?_
    cases s with
    | level => exact hcall.elim
    | node u j? m₁ => exact (Run.Calls.within hcall).inside.trans hs

theorem Blames.fails (h : Blames e s s') : s'.Fails e := by
  induction h with
  | here hs => exact hs
  | call _ _ _ ih => exact ih

/-- The site is the node, or the level of the node, which is a subscript. -/
def Of (k : Node) : Site → Prop
  | node t _ _ => t = k.toTerm
  | level v _ _ => ∃ h base key, k.toTerm = .subscript h base key ∧ v.place = h.place

end Site

/-! ## Programs -/

theorem Datum.toTerms_map_node (ns : List Node) : toTerms (ns.map .node) = ns.map Node.toTerm := by
  induction ns with
  | nil => rfl
  | cons n rest ih => exact congrArg (n.toTerm :: ·) ih

theorem Node.walk_subset {n : Node} {ns : List Node} (h : n ∈ ns) : n.walk ⊆ walkPending ns := by
  obtain ⟨before, after, rfl⟩ := List.append_of_mem h
  rw [List.append_cons, walkPending_append, walkPending_append, walk]
  exact fun k hk => List.mem_append_left _ (List.mem_append_right _ hk)

theorem Node.head?_toTerm (n : Node) :
    ∃ byref, n.toTerm.head? = some ⟨n.kind, ⟨n.line, n.column⟩, byref⟩ := by
  obtain ⟨kind, fields, line, column⟩ := n
  rw [toTerm, Term.build]
  dsimp only
  split <;> exact ⟨_, rfl⟩

/-- A site in the term of a node is a node of the walk, or the level of one. -/
theorem Site.Inside.exists_node {n : Node} (h : s.Inside n.toTerm) (hs : s.Fails e) :
    ∃ k ∈ n.walk, s.Of k ∧ s.place? = some ⟨k.line, k.column⟩ := by
  cases s with
  | node u intent? m =>
    obtain ⟨p, -, hp, -⟩ := hs.cases
    have hhead : u.head?.isSome := by
      obtain ⟨hd, hhead, -⟩ := Option.map_eq_some_iff.1 hp
      rw [hhead]
      rfl
    obtain ⟨k, hk, rfl⟩ := Node.exists_of_inside h hhead
    obtain ⟨byref, hhead⟩ := k.head?_toTerm
    exact ⟨k, hk, rfl, by rw [place?, hhead]; rfl⟩
  | level v l? m =>
    obtain ⟨hd, base, key, hinside, hplace⟩ := h
    obtain ⟨k, hk, hterm⟩ := Node.exists_of_inside hinside rfl
    obtain ⟨byref, hhead⟩ := k.head?_toTerm
    rw [← hterm] at hhead
    obtain rfl := Option.some.inj hhead
    exact ⟨k, hk, ⟨_, base, key, hterm.symm, hplace⟩, congrArg some hplace⟩

namespace Run

/-- On an empty stack a statement stops with the error of its node, or the stack is empty again. -/
theorem ends_statement_fails (ht : t.isAbsent = false) (hstack : m.stack = []) :
    Ends (statement t) m (fun _ m' => m'.stack = [])
      fun f _ => ∀ e, f = .error e → (Site.node t none m).Fails e := by
  simp only [statement, ends_bind, ends_pushPending, ht, Bool.false_eq_true, if_false]
  refine ends_clearing (fun _ _ hf => hf) ?_
  have hvalue : Ends evaluate (m.facing t none) (fun _ m' => ∃ v, m'.stack = [.value v])
      fun _ _ => True := by
    refine (ends_resume_value (t := t) (m := m.facing t none) rfl (by decide)).mono ?_
      fun _ _ _ => trivial
    rintro - m' ⟨-, v, ws, -, hstack', -⟩
    exact ⟨v, by rw [hstack', hstack]; rfl⟩
  simp only [ends_bind]
  refine (hvalue.and (ends_run _ _)).mono ?_ ?_
  · rintro - m' ⟨⟨v, hstack'⟩, -⟩
    rw [ends_popView hstack']
    simp
  · rintro f m' ⟨-, hrun⟩ e rfl
    exact congrArg Prod.fst hrun

/-- The run of statements on an empty stack stops with the error of one of them. -/
theorem exists_of_statements {ts : List Term} {v : Value} {m' : Machine}
    (hts : ∀ t ∈ ts, t.isAbsent = false) (hstack : m.stack = [])
    (hrun : (statements ts v).outcome m = (.error (.error e), m')) :
    ∃ before t after v₁ m₁, ts = before ++ t :: after ∧
      (statements before v).outcome m = (.ok v₁, m₁) ∧ m₁.stack = [] ∧
      (Site.node t none m₁).Fails e := by
  induction ts generalizing v m with
  | nil => cases hrun
  | cons t rest ih =>
    rw [List.forall_mem_cons] at hts
    have hstatement := ends_statement_fails hts.1 hstack
    rw [statements, outcome_bind] at hrun
    rcases hfirst : (statement t).outcome m with ⟨_ | v₁, m₁⟩
    · rw [hfirst] at hrun
      obtain ⟨hfault, rfl⟩ := Prod.mk.inj hrun
      obtain rfl := Except.error.inj hfault
      exact ⟨[], t, rest, v, m, rfl, rfl, hstack, hstatement.of_error hfirst e rfl⟩
    · rw [hfirst] at hrun
      obtain ⟨before, u, after, v₂, m₂, rfl, hbefore, hstack₂, hfails⟩ :=
        ih hts.2 (hstatement.of_ok hfirst) hrun
      refine ⟨t :: before, u, after, v₂, m₂, rfl, ?_, hstack₂, hfails⟩
      rw [statements, outcome_bind, hfirst]
      exact hbefore

end Run

namespace Source

/-- Every node inside a source text has a line and a column. -/
theorem at_of_tree {text : String} {n k : Node} (h : tree text = .ok n)
    (hk : k ∈ Node.walkPending n.children) : ∃ pos, k.At pos := by
  obtain ⟨program, hparse, hn⟩ := exists_of_tree h
  obtain ⟨q, hscanned, rfl⟩ := scanned_of_parse hparse
  have hinit : Parser.init.Spans [] := .inl ⟨rfl, rfl⟩
  have hspans := hscanned.spans hinit
  by_cases hts : tokens .init .start text.toList = []
  · -- Without a token there is nothing inside the program.
    rw [hts] at hspans
    rcases hspans with ⟨rfl, -⟩ | ⟨_, _, _, _, ⟨t, ts⟩, -⟩
    · obtain rfl := Except.ok.inj hn
      change k ∈ Node.walkPending [] at hk
      rw [Node.walkPending] at hk
      cases hk
  · have hwhole := Parser.finish_spans hspans hts hscanned.finish? hn
    have hwalk : k ∈ Node.walkPending [n] := by
      rw [Node.walkPending_singleton]
      exact List.mem_cons_of_mem n hk
    obtain ⟨t, -, hat⟩ := hwhole.exists_token hwalk
    exact ⟨t.pos, hat⟩

/-- The children of a program are its statements. -/
theorem exists_of_tree_toTerm {text : String} {n : Node} (h : tree text = .ok n) :
    ∃ head, n.toTerm = .program head true (n.children.map Node.toTerm) := by
  obtain ⟨p, -, hn⟩ := exists_of_tree h
  obtain ⟨ns, -, hn⟩ := exists_of_bind_eq_ok hn
  have hchildren : Node.childrenIn [("children", .list (ns.map .node)), ("errors", .list [])] =
      ns := (List.append_nil _).trans (Datum.nodes_map_node ns)
  have hterms := (Datum.toTerms_map_node ns).trans (congrArg (List.map Node.toTerm) hchildren.symm)
  dsimp only at hn
  split at hn
  · obtain rfl := Except.ok.inj hn
    exact ⟨_, congrArg (Term.program _ true) hterms⟩
  · obtain rfl := Except.ok.inj hn
    exact ⟨_, congrArg (Term.program _ true) hterms⟩

/-- Every node inside a statement of a source text has a line. -/
theorem lined_of_tree {text : String} {n statement : Node} (h : tree text = .ok n)
    (hstatement : statement ∈ n.children) : statement.toTerm.Lined := by
  intro u head hu hhead
  obtain ⟨k, hk, rfl⟩ := Node.exists_of_inside hu (by rw [hhead]; rfl)
  obtain ⟨pos, hline, -⟩ := at_of_tree h (Node.walk_subset hstatement hk)
  obtain ⟨byref, hterm⟩ := k.head?_toTerm
  rw [hhead] at hterm
  obtain rfl := Option.some.inj hterm
  rw [hline]
  rfl

end Source

/-- What a run of a source text stops with is the error of one statement. It is raised at the
innermost node that is being evaluated, or at the level of a target that is being resolved; this
gives it a line and a column, and nothing on the way out changes them. -/
theorem Node.run_blames {text : String} {n : Node} {m' : Machine} (htree : Source.tree text = .ok n)
    (hstack : m.stack = []) (hrun : n.run m = (.error (.error e), m')) :
    ∃ before statement after v m₁, n.children = before ++ statement :: after ∧
      (statements (before.map Node.toTerm) .null).outcome m = (.ok v, m₁) ∧
      (∃ s, Site.Blames e (.node statement.toTerm none m₁) s) ∧
      ∀ s, Site.Blames e (.node statement.toTerm none m₁) s →
        ∃ k ∈ statement.walk, s.Of k ∧ ∃ pos, k.At pos ∧ e.place? = some ⟨k.line, k.column⟩ := by
  obtain ⟨head, hterm⟩ := Source.exists_of_tree_toTerm htree
  rw [run_eq hterm] at hrun
  have hpresent : ∀ t ∈ n.children.map toTerm, t.isAbsent = false := by
    intro t ht
    obtain ⟨k, -, rfl⟩ := List.mem_map.1 ht
    obtain ⟨byref, hhead⟩ := k.head?_toTerm
    cases hk : k.toTerm with
    | absent => rw [hk] at hhead; cases hhead
    | _ => rfl
  obtain ⟨ts, t, us, v, m₁, hsplit, hbefore, -, hfails⟩ :=
    exists_of_statements hpresent hstack hrun
  obtain ⟨before, rest, hchildren, rfl, hrest⟩ := List.map_eq_append_iff.1 hsplit
  obtain ⟨statement, after, rfl, rfl, -⟩ := List.map_eq_cons_iff.1 hrest
  have hmem : statement ∈ n.children := by
    rw [hchildren]
    exact List.mem_append_right _ List.mem_cons_self
  have hlined := Source.lined_of_tree htree hmem
  refine ⟨before, statement, after, v, m₁, hchildren, hbefore,
    Site.exists_blames _ hlined none m₁ hfails, fun s hblames => ?_⟩
  obtain ⟨hinside, hplace⟩ := hblames.place (Term.Inside.refl _) hlined
  obtain ⟨k, hk, hof, hsite⟩ := hinside.exists_node hblames.fails
  obtain ⟨pos, hpos⟩ := Source.at_of_tree htree (walk_subset hmem hk)
  exact ⟨k, hk, hof, pos, hpos, hplace.trans hsite⟩

/-- What is said of an error of the language. -/
def Fault.text? : Fault → Option String
  | .error e => some e.text
  | .crash _ => none

/-- What is said of the error that the run of a source text stops with. -/
def errorAfter (text : String) : Option String := do
  let n ← (Source.tree text).toOption
  match (n.run .init).1 with
  | .error f => f.text?
  | .ok _ => none

theorem exists_of_errorAfter {text said : String} (h : errorAfter text = some said) :
    ∃ n e m', Source.tree text = .ok n ∧ n.run .init = (.error (.error e), m') ∧ e.text = said := by
  simp only [errorAfter, Option.bind_eq_bind, Option.bind_eq_some_iff] at h
  obtain ⟨n, hn, h⟩ := h
  split at h
  · rename_i f hrun
    cases f with
    | error e => exact ⟨n, e, _, eq_ok_of_toOption hn, Prod.ext hrun rfl, Option.some.inj h⟩
    | crash c => cases h
  · cases h

/-- The modulo by zero is an item of an array that is assigned in the second statement. -/
theorem Node.run_blames_modulo :
    ∃ n e m', Source.tree "echo 1;\n$x = [1, 2 % (3 - 3)];" = .ok n ∧
      n.run .init = (.error (.error e), m') ∧ e.text = "Modulo by zero (line 2, col 10)" ∧
      ∃ before statement after m₁, n.children = before ++ statement :: after ∧
        (∃ s, Site.Blames e (.node statement.toTerm none m₁) s) ∧
        ∀ s, Site.Blames e (.node statement.toTerm none m₁) s →
          ∃ k ∈ statement.walk, s.Of k ∧ e.place? = some ⟨k.line, k.column⟩ := by
  have hafter : errorAfter "echo 1;\n$x = [1, 2 % (3 - 3)];" =
      some "Modulo by zero (line 2, col 10)" := by decide +kernel
  obtain ⟨n, e, m', htree, hrun, htext⟩ := exists_of_errorAfter hafter
  obtain ⟨before, statement, after, -, m₁, hchildren, -, hexists, hblames⟩ :=
    Node.run_blames htree rfl hrun
  refine ⟨n, e, m', htree, hrun, htext, before, statement, after, m₁, hchildren, hexists,
    fun s hs => ?_⟩
  obtain ⟨k, hk, hof, -, -, hplace⟩ := hblames s hs
  exact ⟨k, hk, hof, hplace⟩

end PhpInterpreter
