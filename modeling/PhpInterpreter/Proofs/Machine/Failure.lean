import PhpInterpreter.Proofs.Machine.Assignment
import PhpInterpreter.Proofs.Machine.Discipline
import PhpInterpreter.Proofs.Scope.Activity
import PhpInterpreter.Proofs.Scope.Isolation

/-!
What failed assignments with an operator, and failed references, leave. The target is resolved
before the operator is applied, or before it turns out that no reference can be made to it; so a
place that was not there stays made. Nothing else is left, and nothing where the place was there.
-/

namespace PhpInterpreter

open Run Environment

namespace Environment

variable {e e' : Environment} {x : String} {keys : List (Option Key)} {l : Location}

theorem Indexed.numbered (h : Indexed e) : Numbered e := ⟨h.scopes_nodup, h.scope_lt⟩

theorem Made.abides (h : e.Made x keys l e') (he : Numbered e) : Abides e e' := by
  obtain ⟨root, e₁, c, hr, -, -, rfl⟩ := h.cell
  have hdeclared : Abides e e₁ := (he.declare x none).of_ok hr
  exact hdeclared.trans (hdeclared.numbered.abides_contents fun _ => rfl)

theorem Abides.isOpen_current (h : Abides e e') (hopen : e.IsOpen e.current) :
    e'.IsOpen e'.current := by
  have hsame : e'.current = e.current := (List.cons.inj h.active).1
  rw [hsame]
  exact h.opened _ List.mem_cons_self hopen

/-- A name of an open scope can be bound to any slot. -/
theorem Numbered.ends_bind_whole (h : Numbered e) (hopen : e.IsOpen e.current)
    (hpath : l.path = []) (hchar : l.char? = none) (name : String) :
    Ends (Scoped.bind name l none) e (fun _ _ => True) fun _ _ => False := by
  have hcurrent := hopen.scope?_ne_none
  simp only [Scoped.bind, hpath, hchar, List.isEmpty_nil, Bool.not_true, Option.isSome_none,
    Bool.or_self, Bool.false_eq_true, if_false, PhpInterpreter.ends_bind, Scoped.ends_orCurrent,
    Option.getD_none, Scoped.ends_get]
  refine ⟨fun s hs => ?_, fun hnone => hcurrent hnone⟩
  split
  · trivial
  · simp only [PhpInterpreter.ends_bind, Scoped.ends_get, ends_modify]
    refine ((IsOpen.ends_unset hopen name (some e.current) rfl).and
      (h.unset name (some e.current))).mono ?_ fun _ _ hf => hf.1
    intro _ e₁ he₁
    have hstill := he₁.2.opened _ List.mem_cons_self hopen
    exact ⟨fun _ _ => trivial, fun hnone => hstill.scope?_ne_none hnone⟩

end Environment

namespace Run

variable {m m₁ : Machine} {target value source : Term} {op : BinaryOp} {levels : List Level}
  {v : View} {cause : Prop} {e' : Environment}

/-- What an assignment that failed leaves: what resolving its target left, and that is nothing
unless a place was made where there was nothing, and the cause given is the one of the failure. -/
structure Leaves (m : Machine) (root : Term) (levels : List Level) (cause : Prop)
    (e' : Environment) : Prop where
  same : e' = ((resolve root levels).outcome m).2.env
  made : e' ≠ m.env → cause ∧ ∃ h name x l, root = .variable h name ∧ variableName name = pure x ∧
    ((resolve root levels).outcome m).1 = .ok (some l) ∧ l.char? = none ∧
    m.env.load l = .undefined ∧ m.env.Made x (levels.map (·.key?)) l e'

theorem leaves_of_run {r : Except Fault (Option Location)} (ht : target.IsExpression)
    (hm : Reachable m.env) (hrun : (resolve target.root levels).outcome m = (r, m₁))
    (hsame : e' = m₁.env)
    (hcause : ∀ x l, r = .ok (some l) → l.char? = none → m.env.load l = .undefined →
      m.env.Made x (levels.map (·.key?)) l m₁.env → e' ≠ m.env → cause) :
    Leaves m target.root levels cause e' := by
  have hresolved := resolved_outcome ht hm levels
  rw [hrun] at hresolved
  subst hsame
  refine ⟨by rw [hrun], fun hne => ?_⟩
  have hplace : ∃ l, r = .ok (some l) ∧ l.char? = none := by
    by_contra hnone
    exact hne (hresolved.kept fun l hl hchar => hnone ⟨l, hl, hchar⟩)
  obtain ⟨l, hl, hchar⟩ := hplace
  obtain ⟨h, name, x, hroot, hx, hmade⟩ := hresolved.made l hl hchar
  have hload : m.env.load l = .undefined := by
    by_contra hsome
    exact hne (hmade.found hsome)
  have hthere : ((resolve target.root levels).outcome m).1 = .ok (some l) := by rw [hrun, hl]
  exact ⟨hcause x l hl hchar hload hmade hne, h, name, x, l, hroot, hx, hthere, hchar, hload, hmade⟩

/-- If resolving leads nowhere, nothing was made. -/
theorem leaves_of_nowhere {r : Except Fault (Option Location)} (ht : target.IsExpression)
    (hm : Reachable m.env) (hrun : (resolve target.root levels).outcome m = (r, m₁))
    (hsame : e' = m₁.env) (hr : ∀ l, r ≠ .ok (some l)) : Leaves m target.root levels cause e' :=
  leaves_of_run ht hm hrun hsame fun _ l hl => absurd hl (hr l)

/-! ## Assignments with an operator -/

/-- What an assignment with an operator does before its target is resolved: the keys of the target
are evaluated, and then the value, unless the target stands as it is. -/
def combined (op : BinaryOp) (target value : Term) : Run (View ⊕ View × List Level) := do
  let levels ← target.evalKeys
  match ← standing op target levels with
  | some v => return .inl v
  | none =>
    pushPending value (some .read)
    resume (within value (value.eval (some .read)))
    let v ← popView
    return .inr (v, levels)

/-- The rest of such an assignment: the target is resolved, and gets the result. -/
def combine (line : Json) (op : BinaryOp) (target : Term) (v : View) (levels : List Level) :
    Run Unit := do
  let v ← holding v do
    let l? ← resolve target.root levels
    pushLocation l?
  let l? ← popLocation
  let result ← noting line false (Value.applyBinary op (← loadOrNull l?) v.value)
  pushView (← writeTo line l? result.defined)

theorem compoundBody_eq (h : Head) (op : BinaryOp) (target value : Term) :
    compoundBody h op target value target.evalKeys target.evalRoot (value.eval (some .read)) =
      combined op target value >>= Sum.elim pushView fun p =>
        combine h.place.line op target p.1 p.2 := by
  simp only [compoundBody, combined, combine, resolve, Term.evalRoot_root, bind_assoc]
  refine bind_congr fun levels => bind_congr fun v? => ?_
  cases v? with
  | some v => rfl
  | none => simp only [bind_assoc, pure_bind, Sum.elim_inr]

theorem eval_compound {h : Head} {s : String} {intent? : Option Intent}
    (hop : compoundOp? s = some op) (hintent : intent? ≠ some .write) :
    (Term.assign h (.string s) target value).eval intent? =
      compoundBody h op target value target.evalKeys target.evalRoot (value.eval (some .read)) := by
  have hplain : isPlain (.scalar (.string s)) = false := by
    have hno : s ≠ "" ∧ s ≠ "=" := by
      constructor <;>
      · rintro rfl
        cases hop
    simp [isPlain, hno]
  rw [Datum.string, Term.eval.eq_def]
  simp only [writable, hintent, if_false, hplain, Bool.false_eq_true, Operator.ofDatum, hop,
    pure_bind]

theorem ends_combined_reachable (hm : Reachable m.env) :
    Ends (combined op target value) m (fun _ m₁ => Reachable m₁.env) fun _ _ => True := by
  let K : Contract := .tidy fun _ => True
  have hends : Ends (combined op target value) m (fun _ => K.At m [] 0) (K.Stop m) := by
    have hstart : K.At m [] 0 m := .start ⟨hm.cells, False.elim⟩
    have hvalue : K.Yields (value.eval (some .read)) false :=
      (Contract.yields_eval value (some .read) False.elim).value (by simp)
    simp only [combined, ends_bind]
    refine (Contract.gives_keys target False.elim _ _ _ m hstart).mono ?_ fun _ _ hf => hf
    intro levels m₁ hkeys
    refine (Contract.gives_standing False.elim _ _ _ m₁ hkeys.1).mono ?_ fun _ _ hf => hf
    intro v? m₂ hstands
    cases v? with
    | some v => exact hstands.1
    | none =>
      simp only [ends_bind, ends_pure]
      refine hstands.1.pushPending False.elim fun m hm => hm.resume hvalue fun m hm => ?_
      exact hm.popView fun v m hm _ _ => hm
  exact hends.mono (fun _ _ h => reachable_of_at hm h) fun _ _ _ => trivial

@[simp] theorem ends_loadOrNull (l? : Option Location) {R : Value → Machine → Prop}
    {F : Fault → Machine → Prop} :
    Ends (loadOrNull l?) m R F ↔ R ((l?.map m.env.load).getD .null) m := by
  cases l? <;> rfl

/-- Views that are held follow what is written while a target is resolved. -/
theorem ends_resolve_held (root : Term) (levels : List Level) :
    Ends (resolve root levels) m (fun _ t => ∃ ws, t.held = m.held.map (View.followAll ws))
      fun _ _ => True := by
  have hstart : Contract.free.At m [] 0 m := .start (Contract.free_env _)
  rw [resolve, ends_bind]
  refine (Contract.gives_root root False.elim _ _ _ m hstart).mono ?_ fun _ _ _ => trivial
  intro root? m₁ hroot
  refine (hroot.1.descendAll hroot.2 (fun _ _ _ _ => trivial) fun l? t ht _ => ?_).mono
    (fun _ _ h => h) fun _ _ _ => trivial
  obtain ⟨ws, vs, -, -, -, hheld, hlength, -⟩ := ht.along
  obtain rfl := List.eq_nil_of_length_eq_zero hlength
  exact ⟨ws, hheld⟩

/-- The right operand is held while the target is resolved, and stays what it was. -/
theorem ends_holding_resolve (root : Term) (levels : List Level) :
    Ends (holding v do
        let l? ← resolve root levels
        pushLocation l?) m
      (fun w t => v.Stays w ∧ ∃ l? rest m₂, t.stack = .location l? :: rest ∧
        (resolve root levels).outcome { m with held := v :: m.held } = (.ok l?, m₂) ∧
        t.env = m₂.env)
      fun _ t => ∃ f m₂, (resolve root levels).outcome { m with held := v :: m.held } =
        (.error f, m₂) ∧ t.env = m₂.env := by
  refine ends_holding (fun _ _ _ h => h) ?_
  simp only [ends_bind, ends_pushLocation]
  refine ((ends_run _ _).and (ends_resolve_held root levels)).mono ?_
    fun f m₂ h => ⟨f, m₂, h.1, rfl⟩
  rintro l? m₂ ⟨hrun, ws, hheld⟩
  exact ⟨v.followAll ws, m.held.map (View.followAll ws), hheld, v.stays_followAll ws, l?, m₂.stack,
    m₂, rfl, hrun, rfl⟩

/-- What combines with assignment is the default operator, the dot, or an arithmetic operator. -/
theorem compoundOp?_cases {s : String} (h : compoundOp? s = some op) :
    op = .coalesce ∨ op = .concat ∨ op ∈ BinaryOp.arithmetic := by
  unfold compoundOp? at h
  split at h <;> cases h <;> decide

/-- What an operator makes of null and an array does not depend on the array. -/
theorem applyBinary_null_array {s : String} (hop : compoundOp? s = some op)
    (hcoalesce : op ≠ .coalesce) (t u : Table Value) :
    Value.applyBinary op .null (.array t) = Value.applyBinary op .null (.array u) := by
  rcases compoundOp?_cases hop with rfl | rfl | harith
  · contradiction
  · rfl
  · have hfails : ∀ t, Value.arithmetic op .null (.array t) =
        throw (Fault.ofCause (.operandTypes "null" op.symbol "array")) := by
      intro t
      cases op <;> rfl
    rw [Value.applyBinary_arithmetic harith, Value.applyBinary_arithmetic harith]
    exact (hfails t).trans (hfails u).symm

/-- Whether an operator can be applied to null and an array does not depend on the array. -/
theorem applyBinary_null_of_stays {s : String} {w : View} {f : Fault}
    (hop : compoundOp? s = some op) (hw : v.Stays w)
    (h : (Value.applyBinary op .null w.value).outcome.1 = .error f) :
    (Value.applyBinary op .null v.value).outcome.1 = .error f := by
  rcases hw with hsame | ⟨-, t, u, ht, hu⟩
  · rwa [hsame] at h
  rw [hu] at h
  rw [ht]
  by_cases hcoalesce : op = .coalesce
  · subst hcoalesce
    cases h
  · rwa [applyBinary_null_array hop hcoalesce t u]

/-- Once the target is resolved, what fails leaves nothing more. A write fails only where resolving
made nothing; so if a place was made, the operator failed there. -/
theorem ends_combine {s : String} (ht : target.IsExpression) (hm : Reachable m.env)
    (hop : compoundOp? s = some op) (line : Json) (v : View) (levels : List Level) :
    Ends (combine line op target v levels) m (fun _ _ => True)
      fun f m' => Leaves { m with held := v :: m.held } target.root levels
        ((Value.applyBinary op .null v.value).outcome.1 = .error f) m'.env := by
  rw [combine, ends_bind]
  refine (ends_holding_resolve target.root levels).mono ?_ ?_
  · rintro w t ⟨hw, l?, rest, m₂, hstack, hrun, henv⟩
    rw [ends_bind, ends_popLocation hstack]
    simp only [ends_bind, ends_loadOrNull, ends_noting]
    rw [ends_iff]
    refine ⟨fun result rs _ => ?_, fun f rs hfails => ?_⟩
    · have hresolved := resolved_outcome (m := { m with held := v :: m.held }) ht hm levels
      generalize hlog : logged line false rs { t with stack := rest } = t'
      have henv' : t'.env = m₂.env := hlog ▸ henv
      rw [hrun, ← henv'] at hresolved
      refine ((ends_writeTo_resolved hm hresolved line result.defined).and
        (clean_writeTo line l? result.defined t')).mono (fun _ _ _ => trivial) ?_
      rintro f m' ⟨hkept, hclean⟩
      exact leaves_of_run ht hm hrun (hclean.trans henv') fun _ _ _ _ _ _ hne => absurd hkept hne
    · refine leaves_of_run ht hm hrun henv fun x l hl _ hload hmade _ => ?_
      obtain rfl := Except.ok.inj hl
      have hnull : t.env.load l = .null := by
        rw [henv, hmade.placed.load, hload]
        rfl
      refine applyBinary_null_of_stays hop hw ?_
      rw [Option.map_some, Option.getD_some] at hfails
      rw [← hnull]
      exact congrArg Prod.fst hfails
  · rintro _ t ⟨f, m₂, hrun, henv⟩
    exact leaves_of_nowhere ht hm hrun henv (by simp)

/-- An assignment with an operator that fails after its keys and its value are evaluated. -/
theorem ends_compound_leaves {h : Head} {s : String} {intent? : Option Intent}
    (ht : target.IsExpression) (hm : Reachable m.env) (hop : compoundOp? s = some op)
    (hintent : intent? ≠ some .write)
    (hready : (combined op target value).outcome m = (.ok (.inr (v, levels)), m₁)) :
    Ends ((Term.assign h (.scalar (.string s)) target value).eval intent?) m (fun _ _ => True)
      fun f m' => Leaves { m₁ with held := v :: m₁.held } target.root levels
        ((Value.applyBinary op .null v.value).outcome.1 = .error f) m'.env := by
  have hm₁ : Reachable m₁.env := (ends_combined_reachable hm).of_ok hready
  have heval : (Term.assign h (.scalar (.string s)) target value).eval intent? = _ :=
    eval_compound hop hintent
  rw [heval, compoundBody_eq, ends_bind]
  refine (ends_outcome hready).mono ?_ fun _ _ hf => hf.elim
  rintro _ _ ⟨rfl, rfl⟩
  exact ends_combine ht hm₁ hop _ v levels

/-! ## References -/

/-- The name is bound to the place that was resolved, if that is a slot. -/
def attach (name : Datum) : Option Location → Run Unit
  | none => fatal .referenceToElement
  | some l =>
    if l.char?.isSome then fatal .referenceToCharacter
    else if !l.path.isEmpty then fatal .referenceToElement
    else do
      let name ← variableName name
      inScope (Scoped.bind name l none)
      pushView (← view l)

/-- A reference to what can be written. -/
def refer (name : Datum) (source : Term) : Run Unit := do
  pushPending source (some .write)
  resume (within source (source.eval (some .write)))
  attach name (← popLocation)

theorem ends_keys_reachable (hm : Reachable m.env) :
    Ends source.evalKeys m (fun _ m₁ => Reachable m₁.env) fun _ _ => True := by
  have hstart : (Contract.tidy fun _ => True).At m [] 0 m := .start ⟨hm.cells, False.elim⟩
  exact (Contract.gives_keys source False.elim _ _ _ m hstart).mono
    (fun _ _ h => reachable_of_at hm h.1) fun _ _ _ => trivial

/-- The source of a reference is resolved after its keys are evaluated. -/
theorem ends_source (hs : source.IsExpression)
    (hready : source.evalKeys.outcome m = (.ok levels, m₁)) :
    Ends (within source (source.eval (some .write))) m
      (fun _ t => ∃ l? m₂, (resolve source.root levels).outcome m₁ = (.ok l?, m₂) ∧
        t = { m₂ with stack := .location l? :: m₂.stack })
      fun _ t => ∃ f m₂, (resolve source.root levels).outcome m₁ = (.error f, m₂) ∧
        t.env = m₂.env := by
  refine ends_within_same source (ends_eval_write hs ((ends_outcome hready).mono ?_
    fun _ _ hf => hf.elim))
  rintro _ _ ⟨rfl, rfl⟩
  exact (ends_run _ _).mono (fun l? m₂ hrun => ⟨l?, m₂, hrun, rfl⟩)
    fun f m₂ hrun => ⟨f, m₂, hrun, rfl⟩

/-- Binding to a slot that was resolved does not fail in an open scope; so what fails is a reference
to an element. -/
theorem ends_attach {l? : Option Location} {m₂ : Machine} {name : Datum} {x : String}
    (hs : source.IsExpression) (hm : Reachable m.env) (hx : variableName name = pure x)
    (hopen : levels = [] → m.env.IsOpen m.env.current)
    (hrun : (resolve source.root levels).outcome m = (.ok l?, m₂)) :
    Ends (attach name l?) m₂ (fun _ _ => True)
      fun f m' => Leaves m source.root levels
        (levels ≠ [] ∧ f = .fatal .referenceToElement) m'.env := by
  have hresolved := resolved_outcome hs hm levels
  rw [hrun] at hresolved
  cases l? with
  | none => exact leaves_of_nowhere hs hm hrun rfl (by simp)
  | some l =>
    simp only [attach]
    split
    · rename_i hchar
      refine leaves_of_run hs hm hrun rfl fun _ l' hl hwhole => ?_
      obtain rfl := Option.some.inj (Except.ok.inj hl)
      simp [hwhole] at hchar
    · rename_i hchar
      have hwhole : l.char? = none := by simpa using hchar
      obtain ⟨_, _, _, -, -, hmade⟩ := hresolved.made l rfl hwhole
      have hlength := hmade.placed.length
      split
      · rename_i hpath
        refine leaves_of_run hs hm hrun rfl fun _ _ _ _ _ _ _ => ⟨?_, rfl⟩
        rintro rfl
        rw [List.eq_nil_of_length_eq_zero hlength] at hpath
        cases hpath
      · rename_i hpath
        have hnil : l.path = [] := by simpa using hpath
        have hlevels : levels = [] := by
          rw [hnil, List.length_map] at hlength
          exact List.eq_nil_of_length_eq_zero hlength.symm
        have habides := hmade.abides hm.attained.indexed.numbered
        have hstill := habides.isOpen_current (hopen hlevels)
        simp only [hx, ends_bind, ends_pure, ends_inScope, ends_view, ends_pushView]
        exact (habides.numbered.ends_bind_whole hstill hnil hwhole x).mono (fun _ _ h => h)
          fun _ _ hf => hf.elim

theorem ends_refer {name : Datum} {x : String} (hs : source.IsExpression) (hm : Reachable m.env)
    (hx : variableName name = pure x)
    (hready : source.evalKeys.outcome m = (.ok levels, m₁))
    (hopen : levels = [] → m₁.env.IsOpen m₁.env.current) :
    Ends (refer name source) m (fun _ _ => True)
      fun f m' => Leaves m₁ source.root levels
        (levels ≠ [] ∧ f = .fatal .referenceToElement) m'.env := by
  have hm₁ : Reachable m₁.env := (ends_keys_reachable hm).of_ok hready
  have hpresent : source.isAbsent = false := by
    cases source with
    | absent => exact hs.elim
    | _ => rfl
  simp only [refer, ends_bind, ends_pushPending, hpresent, Bool.false_eq_true, if_false, resume]
  rw [ends_pop rfl]
  refine (ends_source hs hready).mono ?_ ?_
  · rintro _ _ ⟨l?, m₂, hrun, rfl⟩
    rw [ends_popLocation rfl]
    exact ends_attach hs hm₁ hx hopen hrun
  · rintro _ t ⟨f, m₂, hrun, henv⟩
    exact leaves_of_nowhere hs hm₁ hrun henv (by simp)

/-- A reference that fails after the keys of its source are evaluated. -/
theorem ends_reference_leaves {h hd : Head} {d name : Datum} {x : String} {intent? : Option Intent}
    (hs : source.IsExpression) (hm : Reachable m.env) (hplain : isPlain d = true)
    (hbyref : source.byref = true) (hx : variableName name = pure x)
    (hintent : intent? ≠ some .write)
    (hready : source.evalKeys.outcome m = (.ok levels, m₁))
    (hopen : levels = [] → m₁.env.IsOpen m₁.env.current) :
    Ends ((Term.assign h d (.variable hd name) source).eval intent?) m (fun _ _ => True)
      fun f m' => Leaves m₁ source.root levels
        (levels ≠ [] ∧ f = .fatal .referenceToElement) m'.env := by
  have hforeign : source ≠ .foreign := by
    rintro rfl
    exact hs
  have heval : (Term.assign h d (.variable hd name) source).eval intent? =
      referenceBody (.variable hd name) source (source.eval (some .write)) := by
    rw [Term.eval.eq_def]
    simp only [writable, hintent, if_false, hplain, if_true, hbyref, pure_bind]
  rw [heval]
  -- The body of a reference to a variable or a subscript is `refer`, by definition.
  cases source with
  | subscript _ _ _ => exact ends_refer hs hm hx hready hopen
  | «variable» _ _ => exact ends_refer hs hm hx hready hopen
  | absent | foreign | program | statement | echo | global | unset | entry | other => exact hs.elim
  | _ =>
    -- Nothing else has keys, or leads to a place.
    obtain ⟨rfl, rfl⟩ : levels = [] ∧ m = m₁ := by
      rw [Term.evalKeys] at hready
      · cases hready
        exact ⟨rfl, rfl⟩
      · simp
    have hresolved := resolved_outcome hs hm []
    have hkept := hresolved.kept fun l hl hchar => by
      obtain ⟨_, _, _, hroot, -⟩ := hresolved.made l hl hchar
      cases hroot
    exact ⟨hkept.symm, fun hne => absurd rfl hne⟩

end Run

/-- An assignment with an operator, or a reference, that fails after its parts were evaluated leaves
what resolving its target left. A place stays made only if the operator failed on null there, or the
reference was to an element; all else is as it was. -/
theorem failed_assignment_leaves {m : Machine} {place : Source.Expr} {n : Node}
    (hm : Reachable m.env) (hn : place.toNode = .ok n) :
    (∀ h s op value intent? v levels m₁ f m', compoundOp? s = some op → intent? ≠ some .write →
      (combined op n.toTerm value).outcome m = (.ok (.inr (v, levels)), m₁) →
      ((Term.assign h (.string s) n.toTerm value).eval intent?).outcome m = (.error f, m') →
      Leaves { m₁ with held := v :: m₁.held } n.toTerm.root levels
        ((Value.applyBinary op .null v.value).outcome.1 = .error f) m'.env) ∧
    ∀ h hd op name x source intent? levels m₁ f m',
      source = (n.replace "byref" (.bool true)).toTerm → isPlain op = true →
      variableName name = pure x → intent? ≠ some .write →
      source.evalKeys.outcome m = (.ok levels, m₁) →
      (levels = [] → m₁.env.IsOpen m₁.env.current) →
      ((Term.assign h op (.variable hd name) source).eval intent?).outcome m = (.error f, m') →
      Leaves m₁ source.root levels (levels ≠ [] ∧ f = .fatal .referenceToElement) m'.env := by
  have ht := Source.Expr.isExpression_toNode hn
  constructor
  · intro h s op value intent? v levels m₁ f m' hop hintent hready hrun
    exact (ends_compound_leaves ht hm hop hintent hready).of_error hrun
  · rintro h hd op name x source intent? levels m₁ f m' rfl hop hx hintent hready hopen hrun
    obtain ⟨head, hterm, hmark⟩ := n.toTerm_replace_byref (.bool true)
    rw [hterm] at hready hrun ⊢
    have hs := (n.toTerm.isExpression_withHead head).2 ht
    have hbyref := (ht.byref_withHead head).trans hmark
    exact (ends_reference_leaves hs hm hop hbyref hx hintent hready hopen).of_error hrun

/-- The slots of a name before and after a computation that fails on a new machine. -/
def slotsAround (name : String) (m₁ : Machine) (act : Run Unit) :
    Option (Option Int × Option Int) :=
  if (act.outcome .init).1.isOk then none
  else some (m₁.env.slot? 0 name, (act.outcome .init).2.env.slot? 0 name)

/-- The number zero, as a term. -/
def zeroTerm : Term := .literal ⟨"number", default, false⟩ (.string "0")

/-- The slots of a name before and after `%= 0` of a place fails. -/
def slotsAroundModulo (name : String) (place : Source.Expr) : Option (Option Int × Option Int) := do
  let n ← place.toNode.toOption
  let ready := (combined .mod n.toTerm zeroTerm).outcome .init
  let p ← ready.1.toOption
  let _ ← p.getRight?
  slotsAround name ready.2 ((Term.assign default (.string "%=") n.toTerm zeroTerm).eval none)

/-- The variable `$r`, as a term. -/
def referenceTerm : Term := .variable default (.string "r")

/-- The slots of a name before and after `$r = &` of an element fails. -/
def slotsAroundReference (name : String) (place : Source.Expr) :
    Option (Option Int × Option Int) := do
  let n ← place.toNode.toOption
  let source := (n.replace "byref" (.bool true)).toTerm
  let ready := source.evalKeys.outcome .init
  let levels ← ready.1.toOption
  if levels.isEmpty then none
  else slotsAround name ready.2 ((Term.assign default (.string "=") referenceTerm source).eval none)

theorem exists_of_slotsAround {name : String} {m₁ : Machine} {act : Run Unit} {a b : Option Int}
    (h : slotsAround name m₁ act = some (a, b)) (hab : a ≠ b) :
    ∃ f m', act.outcome .init = (.error f, m') ∧ m'.env ≠ m₁.env := by
  unfold slotsAround at h
  rcases hrun : act.outcome .init with ⟨r, m'⟩
  rw [hrun] at h
  cases r with
  | ok u => cases h
  | error f =>
    obtain ⟨rfl, rfl⟩ := Prod.mk.inj (Option.some.inj h)
    exact ⟨f, m', rfl, fun hsame => hab (congrArg (·.slot? 0 name) hsame).symm⟩

theorem exists_of_slotsAroundModulo {name : String} {place : Source.Expr} {a b : Option Int}
    (h : slotsAroundModulo name place = some (a, b)) (hab : a ≠ b) :
    ∃ n v levels m₁ f m', place.toNode = .ok n ∧
      (combined .mod n.toTerm zeroTerm).outcome .init = (.ok (.inr (v, levels)), m₁) ∧
      ((Term.assign default (.string "%=") n.toTerm zeroTerm).eval none).outcome .init =
        (.error f, m') ∧ m'.env ≠ m₁.env := by
  simp only [slotsAroundModulo, Option.bind_eq_bind, Option.bind_eq_some_iff] at h
  obtain ⟨n, hn, p, hp, ⟨v, levels⟩, hright, h⟩ := h
  obtain ⟨f, m', hrun, hne⟩ := exists_of_slotsAround h hab
  obtain rfl := Sum.getRight?_eq_some_iff.1 hright
  exact ⟨n, v, levels, _, f, m', eq_ok_of_toOption hn, Prod.ext (eq_ok_of_toOption hp) rfl, hrun,
    hne⟩

theorem exists_of_slotsAroundReference {name : String} {place : Source.Expr} {a b : Option Int}
    (h : slotsAroundReference name place = some (a, b)) (hab : a ≠ b) :
    ∃ n source levels m₁ f m', place.toNode = .ok n ∧
      source = (n.replace "byref" (.bool true)).toTerm ∧
      source.evalKeys.outcome .init = (.ok levels, m₁) ∧ levels ≠ [] ∧
      ((Term.assign default (.string "=") referenceTerm source).eval none).outcome .init =
        (.error f, m') ∧ m'.env ≠ m₁.env := by
  simp only [slotsAroundReference, Option.bind_eq_bind, Option.bind_eq_some_iff] at h
  obtain ⟨n, hn, levels, hlevels, h⟩ := h
  split at h
  · cases h
  · rename_i hsome
    obtain ⟨f, m', hrun, hne⟩ := exists_of_slotsAround h hab
    exact ⟨n, _, levels, _, f, m', eq_ok_of_toOption hn, rfl,
      Prod.ext (eq_ok_of_toOption hlevels) rfl, by simpa using hsome, hrun, hne⟩

/-- The place `$t['k']`. -/
def elementPlace : Source.Expr :=
  .subscript default (.variable default "t") (.string default "'k'")

/-- On a new machine `$t['k'] %= 0` and `$r = &$t['k']` fail, and the element they made stays. -/
theorem failed_assignment_leaves_element :
    (∃ n v levels m₁ f m' l, elementPlace.toNode = .ok n ∧
      (combined .mod n.toTerm zeroTerm).outcome .init = (.ok (.inr (v, levels)), m₁) ∧
      ((Term.assign default (.string "%=") n.toTerm zeroTerm).eval none).outcome .init =
        (.error f, m') ∧ (Value.applyBinary .mod .null v.value).outcome.1 = .error f ∧
      m₁.env.load l = .undefined ∧ m'.env.load l = .null) ∧
    ∃ n source levels m₁ m' l, elementPlace.toNode = .ok n ∧
      source = (n.replace "byref" (.bool true)).toTerm ∧
      source.evalKeys.outcome .init = (.ok levels, m₁) ∧
      ((Term.assign default (.string "=") referenceTerm source).eval none).outcome .init =
        (.error (.fatal .referenceToElement), m') ∧
      m₁.env.load l = .undefined ∧ m'.env.load l = .null := by
  constructor
  · have hslots : slotsAroundModulo "t" elementPlace = some (none, some 1) := by decide +kernel
    obtain ⟨n, v, levels, m₁, f, m', hn, hready, hrun, hne⟩ :=
      exists_of_slotsAroundModulo hslots (by simp)
    have hleaves := (failed_assignment_leaves Reachable.init hn).1 default "%=" .mod zeroTerm none v
      levels m₁ f m' rfl (by simp) hready hrun
    obtain ⟨hcause, _, _, x, l, -, -, -, -, hload, hmade⟩ := hleaves.made hne
    have hnull : m'.env.load l = .null := hmade.placed.load.trans (by rw [hload]; rfl)
    exact ⟨n, v, levels, m₁, f, m', l, hn, hready, hrun, hcause, hload, hnull⟩
  · have hslots : slotsAroundReference "t" elementPlace = some (none, some 1) := by decide +kernel
    obtain ⟨n, source, levels, m₁, f, m', hn, hsource, hready, hsome, hrun, hne⟩ :=
      exists_of_slotsAroundReference hslots (by simp)
    have hleaves := (failed_assignment_leaves Reachable.init hn).2 default default (.string "=")
      (.string "r") "r" source none levels m₁ f m' hsource rfl rfl (by simp) hready
      (fun hnone => absurd hnone hsome) hrun
    obtain ⟨⟨-, rfl⟩, _, _, x, l, -, -, -, -, hload, hmade⟩ := hleaves.made hne
    have hnull : m'.env.load l = .null := hmade.placed.load.trans (by rw [hload]; rfl)
    exact ⟨n, source, levels, m₁, m', l, hn, hsource, hready, hrun, hload, hnull⟩

/-- The variable that `$x %= 0` declares stays, though nothing declared it before. -/
theorem failed_modulo_declares :
    ∃ n v levels m₁ f m', (Source.Expr.variable default "x").toNode = .ok n ∧
      (combined .mod n.toTerm zeroTerm).outcome .init = (.ok (.inr (v, levels)), m₁) ∧
      ((Term.assign default (.string "%=") n.toTerm zeroTerm).eval none).outcome .init =
        (.error f, m') ∧ m'.env ≠ m₁.env := by
  have hslots : slotsAroundModulo "x" (.variable default "x") = some (none, some 1) := by
    decide +kernel
  exact exists_of_slotsAroundModulo hslots (by simp)

end PhpInterpreter
