import PhpInterpreter.Proofs.Machine.Resolution
import PhpInterpreter.Proofs.Machine.Sight

/-!
Looking at a target in two ways. An assignment peeks at its target under keys it has evaluated
before; reading evaluates the base of each subscript before its key. Both walk down the same value,
so they see the same, or stop both.
-/

namespace PhpInterpreter

open Run Environment

/-! ## Chains of subscripts -/

namespace Term

theorem eq_absent {t : Term} (ht : t.isAbsent = true) : t = .absent := by
  cases t with
  | absent => rfl
  | _ => cases ht

/-- A variable, or subscripts on one whose keys have no assignment in them. -/
def Chain : Term → Prop
  | .variable .. => True
  | .subscript _ base key => base.Chain ∧ key.ReadOnly
  | _ => False

/-- No part of the chain is marked as a reference. -/
def Unmarked : Term → Prop
  | .subscript h base _ => h.byref = false ∧ base.Unmarked
  | t => t.byref = false

/-- Every subscript has a key. -/
def Keyed : Term → Prop
  | .subscript _ base key => base.Keyed ∧ key.isAbsent = false
  | _ => True

theorem Chain.isAbsent {t : Term} (ht : t.Chain) : t.isAbsent = false := by
  cases t with
  | absent => exact ht.elim
  | _ => rfl

theorem Unmarked.byref {t : Term} (ht : t.Unmarked) : t.byref = false := by
  cases t with
  | subscript h base key => simp [Term.byref, head?, ht.1]
  | _ => exact ht

end Term

/-- The level has a key whose number has too many digits to be told. -/
def Level.Unwritten (level : Level) : Prop := ∃ k, level.key? = some k ∧ k.Unwritten

namespace Value

variable {checked : Bool} {v w x : Value} {levels : List Level} {intent : Intent} {f : Fault}

/-- What lies one level down. -/
def step (checked : Bool) (v : Value) (level : Level) : Except Fatal Value :=
  match level.key? with
  | none => .error .appendRead
  | some k => v.under (checked && level.byref) k

/-- What lies some levels down; characters at marked levels are refused if that is checked. -/
def walk (checked : Bool) (v : Value) (levels : List Level) : Except Fatal Value :=
  levels.foldlM (step checked) v

theorem walk_nil : v.walk checked [] = .ok v := rfl

theorem walk_cons (level : Level) (rest : List Level) :
    v.walk checked (level :: rest) = v.step checked level >>= fun w => w.walk checked rest :=
  List.foldlM_cons

theorem walk_concat (level : Level) :
    v.walk checked (levels ++ [level]) =
      v.walk checked levels >>= fun w => w.step checked level := by
  simp [walk, List.foldlM_append]

/-- Without a mark there is nothing to check. -/
theorem walk_unmarked (h : ∀ level ∈ levels, level.byref = false) :
    v.walk true levels = v.walk false levels := by
  induction levels generalizing v with
  | nil => rfl
  | cons level rest ih =>
    obtain ⟨hlevel, hrest⟩ := List.forall_mem_cons.1 h
    simp only [walk_cons, step, hlevel, Bool.and_false, ih hrest]

theorem isNull_defined (v : Value) : v.defined.isNull = v.isNull := by
  cases v <;> rfl

/-- How reading a value under some levels can stop: by an error of the language, where they lead
nowhere; or nothing lies under them, and a loud read cannot tell a number of theirs. -/
def Stuck (v : Value) (intent : Intent) (levels : List Level) (f : Fault) : Prop :=
  (f.isFatal ∧ ∃ c, v.walk true levels = .error c) ∨
  intent ≠ .isset ∧ f = .crash .digitLimit ∧ (∃ level ∈ levels, level.Unwritten) ∧
    ∀ x, v.walk true levels = .ok x → x = .undefined

theorem Stuck.locate (h : v.Stuck intent levels f) (p : Place) :
    v.Stuck intent levels (f.locate p) := by
  rcases h with ⟨hf, hc⟩ | ⟨hintent, rfl, h⟩
  · exact .inl ⟨by rwa [Fault.isFatal_locate], hc⟩
  · exact .inr ⟨hintent, rfl, h⟩

theorem Stuck.isFatal (h : v.Stuck .isset levels f) :
    f.isFatal ∧ ∃ c, v.walk true levels = .error c := h.resolve_right fun h => h.1 rfl

/-- Reading what is there is not stuck. -/
theorem not_stuck (h : v.walk true levels = .ok x) (hx : x ≠ .undefined) :
    ¬ v.Stuck intent levels f := by
  rintro (⟨-, c, hc⟩ | ⟨-, -, -, hnone⟩)
  · cases h.symm.trans hc
  · exact hx (hnone x h)

/-- Where a walk leads somewhere, reading can only be stuck at a number. -/
theorem Stuck.untold (h : v.Stuck intent levels f) (hx : v.walk true levels = .ok x) :
    f = .crash .digitLimit ∧ ∃ level ∈ levels, level.Unwritten := by
  rcases h with ⟨-, c, hc⟩ | ⟨-, hf, hlevel, -⟩
  · cases hx.symm.trans hc
  · exact ⟨hf, hlevel⟩

/-- Below nothing there is nothing. -/
theorem Stuck.concat (h : v.Stuck intent levels f) (level : Level) :
    v.Stuck intent (levels ++ [level]) f := by
  rw [Stuck, walk_concat]
  rcases h with ⟨hf, c, hc⟩ | ⟨hintent, rfl, ⟨l, hl, hunwritten⟩, hnone⟩
  · exact .inl ⟨hf, c, by rw [hc]; rfl⟩
  · refine .inr ⟨hintent, rfl, ⟨l, List.mem_append_left _ hl, hunwritten⟩, fun x hx => ?_⟩
    obtain ⟨y, hy, hx⟩ := exists_of_bind_eq_ok hx
    rw [hnone y hy, step] at hx
    split at hx
    · cases hx
    · exact (Except.ok.inj hx).symm

end Value

namespace Run

variable {e : Environment} {act : Run Unit} {E : Fault → Prop} {t : Term} {levels : List Level}
  {intent : Intent}

theorem Stops.exists_fault {α : Type} {act : Run α} (h : Stops e act E) : ∃ f, E f := by
  obtain ⟨f, _, -, hf⟩ := h ⟨e, [], [], "", []⟩ rfl
  exact ⟨f, hf⟩

theorem Settles.stops {α : Type} {act : Run α} {Q : Outcome α} (h : Settles e act Q E)
    (hQ : ∀ a items e' ws, ¬ Q a items e' ws) : Stops e act E := by
  rcases h with ⟨a, items, e', ws, -, h⟩ | h
  · exact absurd h (hQ a items e' ws)
  · exact h

theorem Stops.of_settles {α : Type} {act : Run α} (h : Settles e act (fun _ _ _ _ => False) E) :
    Stops e act E := Settles.stops h fun _ _ _ _ hf => hf

theorem Finds.stops {α : Type} {act : Run α} (h : Finds e act (fun _ => False) E) : Stops e act E :=
  Settles.stops h fun _ _ _ _ hQ => hQ.2.2.2

theorem Gives.stops (h : Gives e act (fun _ => False) E) : Stops e act E :=
  Settles.stops h fun _ _ _ _ ⟨_, _, _, _, hf⟩ => hf

theorem Settles.returns {α : Type} {act : Run α} {a : α} {items : List Item} {e' : Environment}
    {ws : List Write}
    (h : Settles e act (fun b items' e₁ ws' => b = a ∧ items' = items ∧ e₁ = e' ∧ ws' = ws)
      fun _ => False) : Returns e act a items e' ws := by
  rcases h with ⟨_, _, _, _, hact, rfl, rfl, rfl, rfl⟩ | h
  · exact hact
  · exact h.exists_fault.elim fun _ hf => hf.elim

theorem returns_iff {α : Type} {act : Run α} {a : α} :
    Returns e act a [] e [] ↔ Finds e act (· = a) fun _ => False := by
  refine ⟨fun h => h.settles ⟨rfl, rfl, rfl, rfl⟩, fun h => ?_⟩
  rcases finds_iff.1 h with ⟨_, hact, rfl⟩ | h
  · exact hact
  · exact h.exists_fault.elim fun _ hf => hf.elim

theorem Returns.finds {α : Type} {act : Run α} {a : α} {P : α → Prop}
    (h : Returns e act a [] e []) (ha : P a) : Finds e act P E := h.settles ⟨rfl, rfl, rfl, ha⟩

/-- What a computation notes, and whether it stops, does not depend on where it is logged. -/
theorem noting_cases {α : Type} (act : Noting α) :
    (∃ a, ∀ e line quiet, Returns e (noting line quiet act) a [] e []) ∨
      ∀ e line quiet, Stops e (noting line quiet act) fun _ => True := by
  rcases hact : act.run.run [] with ⟨r, remarks⟩
  cases r with
  | ok a =>
    refine .inl ⟨a, fun e line quiet => returns_iff.2 (finds_noting ?_)⟩
    simp [Ends, hact]
  | error f =>
    refine .inr fun e line quiet => Finds.stops (finds_noting ?_)
    simp [Ends, hact]

/-! ## Reading and peeking -/

/-- The value of a target under keys that are already evaluated. -/
def peek (target : Term) (levels : List Level) : Run View := do
  peekAll levels (← peekRoot target)

/-- Peeking walks down the value, whatever is marked. -/
theorem finds_peekAll (levels : List Level) (v : View) :
    Finds e (peekAll levels v) (fun w => v.value.walk false levels = .ok w.value)
      fun f => f.isFatal ∧ ∃ c, v.value.walk false levels = .error c := by
  induction levels generalizing v with
  | nil => exact finds_pure rfl
  | cons level rest ih =>
    obtain ⟨place, byref, key?⟩ := level
    rw [Value.walk_cons]
    cases key? with
    | none => exact settles_throw ⟨rfl, _, rfl⟩
    | some k =>
      -- What is below is looked for in what lies under the key.
      have hnext : ∀ {act : Run View} (w : View), act = peekAll rest w →
          v.value.under false k = .ok w.value →
          Finds e act (fun x => (v.value.step false ⟨place, byref, some k⟩ >>= fun w =>
              w.walk false rest) = .ok x.value)
            fun f => f.isFatal ∧ ∃ c, (v.value.step false ⟨place, byref, some k⟩ >>= fun w =>
              w.walk false rest) = .error c := by
        rintro _ w rfl hw
        rw [Value.step, Bool.false_and]
        dsimp only
        rw [hw]
        exact ih w
      unfold peekAll
      cases hv : v.value with
      | array t =>
        rw [hv] at hnext
        dsimp only
        cases hk : t.get? k with
        | some x => exact hnext ⟨x, _⟩ rfl (by rw [Value.under, hk]; rfl)
        | none => exact hnext (.fresh .undefined) rfl (by rw [Value.under, hk]; rfl)
      | string s =>
        rw [hv] at hnext
        refine Finds.bind (finds_noting ((Value.ends_charAt true s k []).mono ?_ fun _ _ hf => ?_))
        · rintro _ _ rfl
          exact hnext (.fresh _) rfl rfl
        · cases hf.1.1
      | object i c => exact settles_throw ⟨rfl, _, rfl⟩
      | _ =>
        rw [hv] at hnext
        exact hnext (.fresh .undefined) rfl rfl

/-- The target is read as a walk under these keys from where its variable stands. If the variable
cannot be looked up, reading stops too. -/
def Sees (e : Environment) (t : Term) (intent : Intent) (levels : List Level) : Prop :=
  (∃ root, Returns e (peekRoot t) root [] e [] ∧ Gives e (t.eval (some intent))
    (fun v => v.Stands e ∧
      ∃ x, root.value.walk true levels = .ok x ∧ v.value.defined = x.defined)
    (root.value.Stuck intent levels)) ∨
  (Stops e (peekRoot t) (fun f => f.isFatal) ∧
    Stops e (t.eval (some intent)) fun f => f.isFatal) ∨
  (Stops e (peekRoot t) (fun f => ∃ b, f = .breach b) ∧
    Stops e (t.eval (some intent)) fun _ => True)

theorem eval_variable {h : Head} {name : Datum} (hintent : intent ≠ .write) :
    (Term.variable h name).eval (some intent) =
      variableName name >>= fun s => inScope (Scoped.lookup s none) >>= fun
        | some l => view l >>= pushView
        | none => (do
          noting h.place.line (intent == .isset) (Noting.remark (.undefinedVariable s))
          pushValue .undefined) := by
  cases intent with
  | write => contradiction
  | read | isset => rfl

theorem peekRoot_variable (h : Head) (name : Datum) :
    peekRoot (.variable h name) =
      variableName name >>= fun s => inScope (Scoped.lookup s none) >>= fun
        | some l => view l
        | none => pure (.fresh .undefined) := rfl

theorem sees_variable {h : Head} {name : Datum} (hintent : intent ≠ .write) :
    Sees e (.variable h name) intent [] := by
  rw [Sees, eval_variable hintent, peekRoot_variable]
  obtain ⟨s, hs⟩ | ⟨c, hc⟩ | ⟨b, hb⟩ := variableName_cases name
  · rw [hs, pure_bind, pure_bind]
    rcases finds_iff.1 (finds_lookup (e := e) s) with ⟨l?, hlookup, hl⟩ | hstops
    · cases l? with
      | some l =>
        refine .inl ⟨⟨e.load l, some l⟩, returns_iff.2 ?_, ?_⟩
        · exact Finds.bind (hlookup.finds (finds_view rfl))
        · refine Finds.bind (hlookup.finds (Finds.bind (finds_view (gives_pushView ?_))))
          exact ⟨.load (hl l rfl), _, Value.walk_nil, rfl⟩
      | none =>
        refine .inl ⟨.fresh .undefined, returns_iff.2 ?_, ?_⟩
        · exact Finds.bind (hlookup.finds (finds_pure rfl))
        · refine Finds.bind (hlookup.finds (Finds.bind ((finds_remark _ _ _).mono (fun _ _ _ => ?_)
            fun _ hf => hf)))
          exact gives_pushView ⟨.fresh _, _, Value.walk_nil, rfl⟩
    · exact .inr (.inr ⟨hstops.bind, (hstops.mono fun _ _ => trivial).bind⟩)
  · rw [hc]
    exact .inr (.inl ⟨stops_throw rfl, stops_throw rfl⟩)
  · rw [hb]
    exact .inr (.inr ⟨stops_throw ⟨b, rfl⟩, stops_throw trivial⟩)

/-- A subscript without a key cannot be read. -/
theorem sees_append {h : Head} {base : Term} (hintent : intent ≠ .write)
    (hbase : Sees e base intent levels) :
    Sees e (.subscript h base .absent) intent (levels ++ [levelOf h base none]) := by
  have hread : (Term.subscript h base .absent).eval (some intent) = fatal .appendRead := by
    cases intent with
    | write => contradiction
    | read | isset => rfl
  have hwalk : ∀ v : Value, ∃ c, v.walk true (levels ++ [levelOf h base none]) = .error c := by
    intro v
    rw [Value.walk_concat]
    cases v.walk true levels with
    | ok x => exact ⟨_, rfl⟩
    | error c => exact ⟨c, rfl⟩
  rw [Sees, hread]
  rcases hbase with ⟨root, hroot, -⟩ | ⟨hroot, -⟩ | ⟨hroot, -⟩
  · exact .inl ⟨root, hroot, settles_throw (.inl ⟨rfl, hwalk _⟩)⟩
  · exact .inr (.inl ⟨hroot, stops_throw rfl⟩)
  · exact .inr (.inr ⟨hroot, stops_throw trivial⟩)

theorem eval_subscript {h : Head} {base key : Term} (hintent : intent ≠ .write)
    (hkey : key.isAbsent = false) : (Term.subscript h base key).eval (some intent) =
      readSubscript h (intent == .isset) base key (base.eval (some intent))
        (key.eval (some .read)) := by
  rw [Term.eval.eq_def]
  cases intent with
  | write => contradiction
  | read | isset =>
    cases key with
    | absent => cases hkey
    | _ => rfl

/-- One subscript more, whose key is evaluated. -/
theorem sees_subscript {h : Head} {base key : Term} {k : View} {x : Key}
    (hintent : intent ≠ .write) (hpresent : base.isAbsent = false) (habsent : key.isAbsent = false)
    (hbase : Sees e base intent levels)
    (hkey : Returns e (within key (key.eval (some .read))) () [.value k] e [])
    (hk : ∀ line quiet, Returns e (noting line quiet k.value.toKey) x [] e []) :
    Sees e (.subscript h base key) intent (levels ++ [levelOf h base (some x)]) := by
  -- After the base, the key is the one that was evaluated for the levels.
  have hread : ∀ {P Q : View → Prop} {E : Fault → Prop}, (∀ f p, E f → E (f.locate p)) →
      Gives e (base.eval (some intent)) P E →
      (∀ b, P b → Finds e (subscriptView h (h.byref || base.byref) (intent == .isset) b x) Q E) →
      Gives e ((Term.subscript h base key).eval (some intent)) Q E := by
    intro P Q E hE hb hview
    rw [eval_subscript hintent habsent]
    refine Gives.readSubscript (by simp [hpresent, habsent]) ?_
    have hwithin : Gives e (within base (base.eval (some intent))) P E := Settles.within hb hE base
    refine hwithin.mono (fun b _ hb => gives_iff.2 (.inl ⟨k, hkey, ?_⟩)) fun _ hf => hf
    refine Finds.bind ((hk _ _).finds (Finds.bind ((hview b hb).mono (fun v _ hv => ?_)
      fun _ hf => hf)))
    exact gives_pushView hv
  have hstops : ∀ {E : Fault → Prop}, (∀ f p, E f → E (f.locate p)) →
      Stops e (base.eval (some intent)) E →
        Stops e ((Term.subscript h base key).eval (some intent)) E :=
    fun hE hb => Gives.stops (hread (P := fun _ => False) hE (.inr hb) nofun)
  rcases hbase with ⟨root, hroot, hb⟩ | ⟨hroot, hb⟩ | ⟨hroot, hb⟩
  · refine .inl ⟨root, hroot, ?_⟩
    refine hread (fun f p hf => hf.locate p)
      (hb.mono (fun _ _ hb => hb) fun _ hf => hf.concat _) ?_
    rintro b ⟨hstands, y, hy, hdefined⟩
    have hunder : y.under (h.byref || base.byref) x =
        b.value.under (h.byref || base.byref) x := by
      rw [← Value.under_defined _ _ y, ← hdefined, Value.under_defined]
    have hwalk : root.value.walk true (levels ++ [levelOf h base (some x)]) =
        b.value.under (h.byref || base.byref) x := by
      rw [Value.walk_concat, hy, ← hunder]
      rfl
    refine (finds_subscriptView hstands).mono (fun v _ hv => hwalk ▸ hv) fun f hf => ?_
    rw [Value.Stuck, hwalk]
    refine hf.imp_right ?_
    rintro ⟨⟨hquiet, rfl, hunwritten⟩, hnone⟩
    refine ⟨by simpa using hquiet, rfl, ⟨levelOf h base (some x), by simp, x, rfl, hunwritten⟩,
      fun z hz => ?_⟩
    exact Except.ok.inj (hz.symm.trans hnone)
  · exact .inr (.inl ⟨hroot, hstops (fun f p hf => by rwa [Fault.isFatal_locate]) hb⟩)
  · exact .inr (.inr ⟨hroot, hstops (fun _ _ _ => trivial) hb⟩)

/-- A subscript cannot be read if its base or its key cannot. -/
theorem stops_subscript {h : Head} {base key : Term} {P : View → Prop} (hintent : intent ≠ .write)
    (hbase : Gives e (base.eval (some intent)) P fun _ => True)
    (hkey : ∀ b, P b → Gives e (within key (key.eval (some .read)))
      (fun k => ∀ line quiet, Stops e (noting line quiet k.value.toKey) fun _ => True)
      fun _ => True) :
    Stops e ((Term.subscript h base key).eval (some intent)) fun _ => True := by
  cases habsent : key.isAbsent with
  | true =>
    cases key with
    | absent =>
      cases intent with
      | write => contradiction
      | read | isset => exact stops_throw trivial
    | _ => cases habsent
  | false =>
    rw [eval_subscript hintent habsent]
    refine Settles.stops (Q := fun _ _ _ _ => False) ?_ fun _ _ _ _ hf => hf
    have hwithin : Gives e (within base (base.eval (some intent))) P fun _ => True :=
      Settles.within hbase (fun _ _ _ => trivial) base
    refine Gives.readSubscript (fun _ => trivial) (hwithin.mono (fun b _ hb => ?_) fun _ hf => hf)
    exact (hkey b hb).mono (fun k _ hk => (hk _ _).bind.settles) fun _ hf => hf

/-- Where nothing lies under a key that cannot be told, reading stops. -/
theorem stops_subscript_untold {h : Head} {base key : Term} {t : Table Value} {x : Key}
    (hpresent : base.isAbsent = false) (habsent : key.isAbsent = false)
    (hbase : Gives e (within base (base.eval (some .read))) (fun b => b.value = .array t)
      (· = .crash .digitLimit))
    (hkey : Gives e (within key (key.eval (some .read))) (fun k => k.value.toKey = pure x)
      (· = .crash .digitLimit)) (hmissing : t.get? x = none) (hx : x.Unwritten) :
    Stops e ((Term.subscript h base key).eval (some .read)) (· = .crash .digitLimit) := by
  rw [eval_subscript (by decide) habsent]
  refine Stops.of_settles (Gives.readSubscript (by simp [hpresent, habsent])
    (hbase.mono (fun b _ hb => hkey.mono (fun k _ hk => ?_) fun _ hf => hf) fun _ hf => hf))
  rw [hk]
  refine Finds.bind (finds_noting ?_)
  simp only [ends_pure, subscriptView, hb, hmissing]
  refine Finds.bind (Finds.bind ((finds_mention x.tells_missing _).mono (fun _ _ htold => ?_)
    fun _ hf => hf.2.1))
  exact absurd hx (htold.resolve_left Bool.false_ne_true)

theorem keyOf_eq {h : Head} {key : Term} (hkey : key.isAbsent = false) (evalKey : Run Unit) :
    keyOf h key evalKey = (do
      within key evalKey
      let k ← popView
      return some (← noting h.place.line false k.value.toKey)) := by
  cases key with
  | absent => cases hkey
  | _ => rfl

end Run

theorem Term.Chain.readOnly {t : Term} (ht : t.Chain) : t.ReadOnly := by
  match t with
  | .variable .. => trivial
  | .subscript _ base _ => exact ⟨Term.Chain.readOnly (t := base) ht.1, ht.2⟩

/-- The keys of a target are evaluated, and then it is read as a walk under them; or a key stops,
and then reading stops too. -/
theorem Term.Chain.sees {t : Term} (ht : t.Chain) {intent : Intent} (hintent : intent ≠ .write)
    (e : Environment) :
    (Stops e t.evalKeys (fun _ => True) ∧ Stops e (t.eval (some intent)) fun _ => True) ∨
      ∃ levels, Returns e t.evalKeys levels [] e [] ∧ Sees e t intent levels := by
  match t with
  | .variable h name => exact .inr ⟨[], returns_iff.2 (finds_pure rfl), sees_variable hintent⟩
  | .subscript h base key =>
    have hkeys : (Term.subscript h base key).evalKeys = (do
        let levels ← base.evalKeys
        let key? ← keyOf h key (key.eval (some .read))
        return levels ++ [levelOf h base key?]) := by
      rw [Term.evalKeys]
    rw [hkeys]
    rcases Term.Chain.sees ht.1 hintent e with ⟨hstops, hbase⟩ | ⟨levels, hlevels, hbase⟩
    · exact .inl ⟨hstops.bind, stops_subscript hintent (P := fun _ => False) (.inr hbase) nofun⟩
    cases habsent : key.isAbsent with
    | true =>
      obtain rfl := Term.eq_absent habsent
      refine .inr ⟨_, returns_iff.2 ?_, sees_append hintent hbase⟩
      exact Finds.bind (hlevels.finds (finds_pure rfl))
    | false =>
      have hread := Term.shows_eval e base intent hintent (Term.Chain.readOnly ht.1)
      rw [keyOf_eq habsent]
      rcases gives_iff.1 ((Term.shows_eval e key .read (by decide) ht.2).within key) with
        ⟨k, hk, -⟩ | hstops
      · rcases noting_cases k.value.toKey with ⟨x, hx⟩ | hstops
        · refine .inr ⟨_, returns_iff.2 ?_,
            sees_subscript hintent (Term.Chain.isAbsent ht.1) habsent hbase hk (hx e)⟩
          refine Finds.bind (hlevels.finds (Finds.bind ?_))
          refine Gives.popView (gives_iff.2 (.inl ⟨k, hk, ?_⟩))
          exact Finds.bind ((hx _ _ _).finds (finds_pure (finds_pure rfl)))
        · refine .inl ⟨?_, stops_subscript hintent hread fun _ _ =>
            gives_iff.2 (.inl ⟨k, hk, hstops e⟩)⟩
          refine hlevels.bind_stops (Stops.bind (Settles.stops (Q := fun _ _ _ _ => False) ?_ ?_))
          · exact Gives.popView (gives_iff.2 (.inl ⟨k, hk, (hstops _ _ _).bind.settles⟩))
          · exact fun _ _ _ _ hf => hf
      · refine .inl ⟨?_, stops_subscript hintent hread fun _ _ => .inr hstops⟩
        exact hlevels.bind_stops (hstops.bind.bind)

namespace Run

variable {m m₁ : Machine} {target value : Term} {levels : List Level}

theorem ends_keyOf {h : Head} {key : Term} {evalKey : Run Unit} :
    Ends (keyOf h key evalKey) m (fun key? _ => key.isAbsent = false → key?.isSome)
      fun _ _ => True := by
  cases hkey : key.isAbsent with
  | true => exact (ends_trivial _ m).mono (fun _ _ _ => nofun) fun _ _ _ => trivial
  | false =>
    rw [keyOf_eq hkey]
    simp only [ends_bind, ends_pure]
    refine (ends_trivial _ m).mono (fun _ m' _ => ?_) fun _ _ _ => trivial
    refine (ends_trivial _ m').mono (fun _ m' _ => ?_) fun _ _ _ => trivial
    exact (ends_trivial _ m').mono (fun _ _ _ _ => rfl) fun _ _ _ => trivial

/-- Levels have the marks and the keys of their subscripts. -/
theorem ends_evalKeys_levels (t : Term) (m : Machine) :
    Ends t.evalKeys m (fun levels _ => (t.Unmarked → ∀ level ∈ levels, level.byref = false) ∧
      (t.Keyed → ∀ level ∈ levels, level.key?.isSome)) fun _ _ => True := by
  match t with
  | .subscript h base key =>
    rw [Term.evalKeys, ends_bind]
    refine (ends_evalKeys_levels base m).mono ?_ fun _ _ _ => trivial
    rintro levels m₁ ⟨hmarks, hkeys⟩
    simp only [ends_bind, ends_pure]
    refine ends_keyOf.mono (fun key? _ hkey => ?_) fun _ _ _ => trivial
    refine ⟨fun ht => ?_, fun ht => ?_⟩
    · refine List.forall_mem_append.2 ⟨hmarks ht.2, List.forall_mem_singleton.2 ?_⟩
      simp [levelOf, ht.1, Term.Unmarked.byref ht.2]
    · exact List.forall_mem_append.2 ⟨hkeys ht.1, List.forall_mem_singleton.2 (hkey ht.2)⟩
  | .absent | .foreign | .program .. | .statement .. | .echo .. | .global .. | .unset ..
  | .literal .. | .variable .. | .array .. | .entry .. | .unary .. | .binary .. | .assign ..
  | .other _ =>
    exact ⟨fun _ _ hlevel => absurd hlevel List.not_mem_nil,
      fun _ _ hlevel => absurd hlevel List.not_mem_nil⟩

/-! ## Skipping an operand -/

/-- Whatever evaluating the operand would do, the computation does the same. -/
def Skips (body : Run Unit → Run Unit) (m : Machine) : Prop :=
  ∀ act act', (body act).outcome m = (body act').outcome m

theorem skips_bind_of_ok {α : Type} {first : Run α} {a : α} {f : Run Unit → α → Run Unit}
    (h : first.outcome m = (.ok a, m₁)) :
    Skips (fun act => first >>= f act) m ↔ Skips (f · a) m₁ := by
  simp only [Skips, outcome_bind_of_ok h]

theorem skips_bind_of_error {α : Type} {first : Run α} {fault : Fault} {f : Run Unit → α → Run Unit}
    (h : first.outcome m = (.error fault, m₁)) : Skips (fun act => first >>= f act) m := by
  simp only [Skips, outcome_bind_of_error h, implies_true]

theorem outcome_within_crash (t : Term) (c : Crash) (m : Machine) :
    (within t (crash c)).outcome m = (.error (.crash c), m) := by
  unfold within
  split <;> rfl

/-- An operand that is evaluated is not skipped, wherever its crash shows. -/
theorem not_skips {body : Run Unit → Run Unit}
    (h : ∀ c, ∃ m', (body (crash c)).outcome m = (.error (.crash c), m')) : ¬ Skips body m := by
  intro hskips
  obtain ⟨m₁, h₁⟩ := h .notANode
  obtain ⟨m₂, h₂⟩ := h .wrongShape
  have hsame := hskips (crash .notANode) (crash .wrongShape)
  rw [h₁, h₂] at hsame
  cases hsame

section Coalesce

variable {e : Environment} {h : Head} {v : View} {E : Fault → Prop}

/-- An assignment with `??` skips its value if its target is not null, or cannot be seen. -/
theorem skips_assign (hm : m.env = e) (hkeys : Returns e target.evalKeys levels [] e [])
    (hpeek : Returns e (peek target levels) v [] e []) (hpresent : value.isAbsent = false) :
    Skips (fun act => compoundBody h .coalesce target value target.evalKeys target.evalRoot act) m ↔
      v.value.isNull = false := by
  have hstanding : ∀ levels, standing .coalesce target levels =
      peek target levels >>= fun v => pure (if v.value.isNull then none else some v) := by
    intro levels
    simp [standing, peek]
  obtain ⟨said, hkeys⟩ := hkeys m hm
  obtain ⟨said', hpeek⟩ := hpeek (m.after [] e [] said) rfl
  unfold compoundBody
  rw [skips_bind_of_ok hkeys]
  simp only [hstanding, bind_assoc, pure_bind]
  rw [skips_bind_of_ok hpeek]
  cases hnull : v.value.isNull with
  | false => exact iff_of_true (fun _ _ => rfl) rfl
  | true =>
    refine iff_of_false (not_skips fun c => ?_) (by simp)
    simp only [if_true, pushPending_resume, hpresent, Bool.false_eq_true, if_false]
    exact ⟨_, outcome_bind_of_error (outcome_within_crash value c _)⟩

theorem skips_assign_of_stops (hm : m.env = e) (hkeys : Returns e target.evalKeys levels [] e [])
    (hpeek : Stops e (peek target levels) E) :
    Skips (fun act => compoundBody h .coalesce target value target.evalKeys target.evalRoot act)
      m := by
  have hstanding : Stops e (standing .coalesce target levels) E := by
    have hbind : standing .coalesce target levels =
        peek target levels >>= fun v => pure (if v.value.isNull then none else some v) := by
      simp [standing, peek]
    rw [hbind]
    exact hpeek.bind
  obtain ⟨said, hkeys⟩ := hkeys m hm
  obtain ⟨f, m', hstanding, -⟩ := hstanding (m.after [] e [] said) rfl
  unfold compoundBody
  rw [skips_bind_of_ok hkeys]
  exact skips_bind_of_error hstanding

/-- The operator `??`, whose operands are there. -/
theorem coalesceBody_eq (htarget : target.isAbsent = false) (hpresent : value.isAbsent = false)
    (act : Run Unit) :
    binaryBody h (.string "??") target value (fun i => target.eval i) act =
      push (.pending value (some .read)) >>= fun _ =>
        within target (target.eval (some .isset)) >>= fun _ => popView >>= fun l =>
          if l.value.isNull then
            holding l (resume (within value act)) >>= fun _ => popView >>= fun r =>
              pushView ⟨r.value.defined, r.home?⟩
          else pop >>= fun _ => pushView l := by
  have hop : Operator.ofDatum BinaryOp.ofSymbol? (.string "??") = .known .coalesce := rfl
  simp only [binaryBody, hop, pushPending_eq value, hpresent, Bool.false_eq_true, if_false,
    pushPending_resume, htarget]
  refine bind_congr fun _ => bind_congr fun _ => bind_congr fun l => ?_
  cases hl : l.value <;> simp [Value.shortCircuit, Value.isNull]

/-- The operator `??` skips its right operand if the left one is not null, or cannot be seen. -/
theorem skips_coalesce (hm : m.env = e)
    (hread : Returns e (target.eval (some .isset)) () [.value v] e [])
    (htarget : target.isAbsent = false) (hpresent : value.isAbsent = false) :
    Skips (fun act => binaryBody h (.string "??") target value (fun i => target.eval i) act) m ↔
      v.value.isNull = false := by
  let waiting (m : Machine) : Machine :=
    { m with stack := .pending value (some .read) :: m.stack }
  have hpush : (push (.pending value (some .read))).outcome m = (.ok (), waiting m) := rfl
  obtain ⟨said, hread⟩ := hread (waiting m) hm
  subst hm
  rw [Machine.after_nil (waiting m)] at hread
  have hwithin : (within target (target.eval (some .isset))).outcome (waiting m) =
      (.ok (), { waiting m with
        stack := .value v :: (waiting m).stack, log := m.log ++ said }) := by
    unfold within
    split
    · rw [outcome_located, hread]
      rfl
    · exact hread
  have hpop : popView.outcome
      { waiting m with stack := .value v :: (waiting m).stack, log := m.log ++ said } =
      (.ok v, waiting { m with log := m.log ++ said }) := rfl
  simp only [coalesceBody_eq htarget hpresent]
  rw [skips_bind_of_ok hpush, skips_bind_of_ok hwithin, skips_bind_of_ok hpop]
  cases hnull : v.value.isNull with
  | false => exact iff_of_true (fun _ _ => rfl) rfl
  | true =>
    refine iff_of_false (not_skips fun c => ?_) (by simp)
    simp only [if_true]
    refine ⟨{ m with log := m.log ++ said }, outcome_bind_of_error ?_⟩
    have hcrash := outcome_within_crash value c
      { m with held := v :: m.held, log := m.log ++ said }
    have hresume : (resume (within value (crash c))).outcome
        { waiting { m with log := m.log ++ said } with held := v :: m.held } =
        (within value (crash c)).outcome
          { m with held := v :: m.held, log := m.log ++ said } := rfl
    rw [outcome_holding]
    simp only [waiting] at hresume ⊢
    rw [hresume, hcrash]
    rfl

theorem skips_coalesce_of_stops (hm : m.env = e)
    (hread : Stops e (target.eval (some .isset)) E)
    (htarget : target.isAbsent = false) (hpresent : value.isAbsent = false) :
    Skips (fun act => binaryBody h (.string "??") target value (fun i => target.eval i) act) m := by
  have hwithin : Stops e (within target (target.eval (some .isset))) fun _ => True :=
    Settles.stops (Q := fun _ _ _ _ => False) (Settles.within (.inr (hread.mono fun _ _ => trivial))
      (fun _ _ _ => trivial) target) fun _ _ _ _ hf => hf
  have hpush : (push (.pending value (some .read))).outcome m =
      (.ok (), { m with stack := .pending value (some .read) :: m.stack }) := rfl
  obtain ⟨f, m', hrun, -⟩ := hwithin { m with stack := .pending value (some .read) :: m.stack } hm
  simp only [coalesceBody_eq htarget hpresent]
  rw [skips_bind_of_ok hpush]
  exact skips_bind_of_error hrun

/-- An operand that is absent is never evaluated. -/
theorem skips_absent (op : BinaryOp) (operator : Datum) :
    Skips (fun act => compoundBody h op target .absent target.evalKeys target.evalRoot act) m ∧
      Skips (fun act => binaryBody h operator target .absent (fun i => target.eval i) act) m := by
  constructor
  · intro act act'
    refine congrArg (fun body : Run Unit => body.outcome m) ?_
    refine bind_congr fun levels => bind_congr fun v? => ?_
    cases v? <;> rfl
  · exact fun _ _ => rfl

end Coalesce

/-! ## Two ways to look at a target -/

/-- What two ways of looking at a target come to on a machine: they see values that are equal once
undefined counts as null, or both stop with an error of the language. If the variable is lost, both
stop. -/
inductive SameSight (m : Machine) (lost : Prop) :
    Except Fault View → Except Fault Unit × Machine → Prop
  | seen {v w : View} {said : List Diagnostic} (h : w.value.defined = v.value.defined) :
      SameSight m lost (.ok v) (.ok (), { m with
        stack := .value w :: m.stack
        log := m.log ++ said })
  | refused {f f' : Fault} {m' : Machine} (hf : f.isFatal) (hf' : f'.isFatal) :
      SameSight m lost (.error f) (.error f', m')
  | lost {f f' : Fault} {m' : Machine} (h : lost) : SameSight m lost (.error f) (.error f', m')

/-- What is seen at a target, together with the levels that were evaluated for it. -/
theorem sees_of_outcome {intent : Intent} (ht : target.Chain) (hintent : intent ≠ .write)
    (hkeys : target.evalKeys.outcome m = (.ok levels, m₁)) :
    Returns m.env target.evalKeys levels [] m.env [] ∧ Sees m.env target intent levels ∧
      m₁.env = m.env := by
  rcases ht.sees hintent m.env with ⟨hstops, -⟩ | ⟨levels', hlevels, hsees⟩
  · obtain ⟨f, m', hrun, -⟩ := hstops m rfl
    cases hrun.symm.trans hkeys
  · obtain ⟨said, hrun⟩ := hlevels m rfl
    cases hrun.symm.trans hkeys
    exact ⟨hlevels, hsees, rfl⟩

/-- What peeking at a target and reading it come to, with the levels of its keys: both see values
that are equal once undefined counts as null, or both stop, with errors of the language unless the
variable is lost. -/
inductive Glance (e : Environment) (target : Term) (intent : Intent) (levels : List Level) : Prop
  | seen {v w : View} (hpeek : Returns e (peek target levels) v [] e [])
      (hread : Returns e (target.eval (some intent)) () [.value w] e [])
      (hdefined : w.value.defined = v.value.defined) : Glance e target intent levels
  | refused (hpeek : Stops e (peek target levels) fun f => f.isFatal)
      (hread : Stops e (target.eval (some intent)) fun f => f.isFatal) :
      Glance e target intent levels
  | lost (hroot : Stops e (peekRoot target) fun f => ∃ b, f = .breach b)
      (hread : Stops e (target.eval (some intent)) fun _ => True) : Glance e target intent levels

/-- Without marks, reading quietly and peeking see the same. -/
theorem Sees.glance {e : Environment} (h : Sees e target .isset levels)
    (hmark : ∀ level ∈ levels, level.byref = false) : Glance e target .isset levels := by
  rcases h with ⟨root, hroot, hread⟩ | ⟨hroot, hread⟩ | hlost
  · replace hread := hread.mono (fun _ _ hw => hw) fun _ hf => Value.Stuck.isFatal hf
    rw [Value.walk_unmarked hmark] at hread
    rcases gives_iff.1 hread with ⟨w, hw, -, x, hx, hdefined⟩ | hstops
    · rcases finds_iff.1 (finds_peekAll (e := e) levels root) with ⟨v, hv, hwalk⟩ | hstops
      · obtain rfl : x = v.value := Except.ok.inj (hx.symm.trans hwalk)
        exact .seen (hroot.bind hv) hw hdefined
      · obtain ⟨_, -, c, hc⟩ := hstops.exists_fault
        cases hx.symm.trans hc
    · obtain ⟨_, -, c, hc⟩ := hstops.exists_fault
      refine .refused (hroot.bind_stops ?_) (hstops.mono fun _ hf => hf.1)
      rcases finds_iff.1 (finds_peekAll (e := e) levels root) with ⟨v, -, hwalk⟩ | hstops
      · cases hc.symm.trans hwalk
      · exact hstops.mono fun _ hf => hf.1
  · exact .refused hroot.bind hread
  · exact .lost hlost.1 hlost.2

theorem Glance.sameSight (h : Glance m.env target .isset levels) (henv : m₁.env = m.env) :
    SameSight m (∃ b, ((peekRoot target).outcome m₁).1 = .error (.breach b))
      ((peek target levels).outcome m₁).1 ((target.eval (some .isset)).outcome m) := by
  cases h with
  | seen hpeek hread hdefined =>
    obtain ⟨said, hpeek⟩ := hpeek m₁ henv
    obtain ⟨said', hread⟩ := hread m rfl
    rw [hpeek, hread, Machine.after_nil]
    exact .seen hdefined
  | refused hpeek hread =>
    obtain ⟨f, _, hpeek, hf⟩ := hpeek m₁ henv
    obtain ⟨f', _, hread, hf'⟩ := hread m rfl
    rw [hpeek, hread]
    exact .refused hf hf'
  | lost hroot hread =>
    obtain ⟨_, _, hpeek, -⟩ := hroot.bind (f := peekAll levels) m₁ henv
    obtain ⟨_, _, hroot, b, rfl⟩ := hroot m₁ henv
    obtain ⟨f', _, hread, -⟩ := hread m rfl
    rw [peek, hpeek, hread]
    exact .lost ⟨b, by rw [hroot]⟩

/-- Where one way of looking at a target stops, so does the other. -/
theorem Glance.cases {e : Environment} {intent : Intent} (h : Glance e target intent levels) :
    (∃ v w, Returns e (peek target levels) v [] e [] ∧
      Returns e (target.eval (some intent)) () [.value w] e [] ∧
      w.value.defined = v.value.defined) ∨
    Stops e (peek target levels) (fun _ => True) ∧
      Stops e (target.eval (some intent)) fun _ => True := by
  cases h with
  | seen hpeek hread hdefined => exact .inl ⟨_, _, hpeek, hread, hdefined⟩
  | refused hpeek hread =>
    exact .inr ⟨hpeek.mono fun _ _ => trivial, hread.mono fun _ _ => trivial⟩
  | lost hroot hread => exact .inr ⟨(hroot.mono fun _ _ => trivial).bind, hread⟩

/-- An assignment with `??` skips its value where the operator skips its right operand: where the
target is not null, or cannot be seen. -/
theorem Glance.skips_iff (hglance : Glance m.env target .isset levels) (henv : m₁.env = m.env)
    (hlevels : Returns m.env target.evalKeys levels [] m.env [])
    (htarget : target.isAbsent = false) (hpresent : value.isAbsent = false) (h h' : Head) :
    (Skips (fun act => compoundBody h .coalesce target value target.evalKeys target.evalRoot act)
        m ↔
      Skips (fun act => binaryBody h' (.string "??") target value (fun i => target.eval i) act)
        m) ∧
    (Skips (fun act => compoundBody h .coalesce target value target.evalKeys target.evalRoot act)
        m ↔
      ∀ v, ((peek target levels).outcome m₁).1 = .ok v → v.value.isNull = false) := by
  rcases hglance.cases with ⟨v, w, hv, hw, hdefined⟩ | ⟨hpeek, hread⟩
  · obtain ⟨said, hpeek⟩ := hv m₁ henv
    have hassign := skips_assign (h := h) rfl hlevels hv hpresent
    have hcoalesce := skips_coalesce (h := h') rfl hw htarget hpresent
    have hsame : w.value.isNull = v.value.isNull := by
      rw [← w.value.isNull_defined, hdefined, v.value.isNull_defined]
    refine ⟨hassign.trans (hsame ▸ hcoalesce.symm), hassign.trans ?_⟩
    simp [hpeek]
  · have hcoalesce := skips_coalesce_of_stops (h := h') rfl hread htarget hpresent
    have hassign : Skips (fun act =>
        compoundBody h .coalesce target value target.evalKeys target.evalRoot act) m :=
      skips_assign_of_stops rfl hlevels hpeek
    refine ⟨iff_of_true hassign hcoalesce, iff_of_true hassign fun v hv => ?_⟩
    obtain ⟨f, _, hrun, -⟩ := hpeek m₁ henv
    rw [hrun] at hv
    cases hv

theorem peekRoot_root (t : Term) : peekRoot t.root = peekRoot t := by
  fun_induction Term.root t with
  | case1 h base key ih => rw [ih, peekRoot]
  | case2 => rfl

/-- Where names lead to cells, a variable that has a name can be looked up. -/
theorem peekRoot_ne_breach {x : String} {h : Head} {name : Datum} (hm : Linked m.env)
    (hx : variableName name = pure x) (b : Breach) :
    ((peekRoot (.variable h name)).outcome m).1 ≠ .error (.breach b) := by
  have hends : Ends (peekRoot (.variable h name)) m (fun _ _ => True) fun _ _ => False := by
    obtain ⟨s, hs : m.env.scope? (none.getD m.env.current) = some s⟩ :=
      Option.ne_none_iff_exists'.1 hm.current_open.scope?_ne_none
    simp only [peekRoot, hx, pure_bind, ends_bind, ends_inScope]
    refine (Scoped.ends_lookup_linked hm hs).mono (fun l? _ _ => ?_)
      fun _ _ hf => hf
    cases l? <;> exact trivial
  intro herror
  exact hends.of_error (Prod.ext herror rfl)

end Run

theorem Term.Chain.exists_root {t : Term} (ht : t.Chain) : ∃ h name, t.root = .variable h name := by
  match t with
  | .variable h name => exact ⟨h, name, rfl⟩
  | .subscript _ base _ => exact Term.Chain.exists_root (t := base) ht.1

/-- Peeking at a target under the keys that were evaluated for it, and reading it to see whether it
is set, see the same value, or both stop with an error of the language. So an assignment with `??`
skips its value exactly where the operator does: where the target is not null. -/
theorem peek_agrees {m m₁ : Machine} {target : Term} {levels : List Level} (ht : target.Chain)
    (hmark : target.Unmarked) (hkeys : target.evalKeys.outcome m = (.ok levels, m₁)) :
    SameSight m (∃ b, ((peekRoot target).outcome m₁).1 = .error (.breach b))
      ((peek target levels).outcome m₁).1 ((target.eval (some .isset)).outcome m) ∧
    (Linked m.env → (∀ h name, target.root = .variable h name → ∃ x, variableName name = pure x) →
      ∀ b, ((peekRoot target).outcome m₁).1 ≠ .error (.breach b)) ∧
    ∀ h h' value,
      (Skips (fun act => compoundBody h .coalesce target value target.evalKeys target.evalRoot act)
          m ↔
        Skips (fun act => binaryBody h' (.string "??") target value (fun i => target.eval i) act)
          m) ∧
      (value.isAbsent = false →
        (Skips
            (fun act => compoundBody h .coalesce target value target.evalKeys target.evalRoot act)
            m ↔
          ∀ v, ((peek target levels).outcome m₁).1 = .ok v → v.value.isNull = false)) := by
  obtain ⟨hlevels, hsees, henv⟩ := sees_of_outcome ht (by decide : Intent.isset ≠ .write) hkeys
  have hglance := hsees.glance (((ends_evalKeys_levels target m).of_ok hkeys).1 hmark)
  refine ⟨hglance.sameSight henv, fun hlinked hname => ?_, fun h h' value => ?_⟩
  · obtain ⟨hd, name, hroot⟩ := ht.exists_root
    obtain ⟨x, hx⟩ := hname hd name hroot
    rw [← peekRoot_root, hroot]
    exact peekRoot_ne_breach (henv ▸ hlinked) hx
  · cases hpresent : value.isAbsent with
    | true =>
      obtain rfl : value = .absent := by
        cases value with
        | absent => rfl
        | _ => cases hpresent
      exact ⟨iff_of_true (skips_absent .coalesce (.string "??")).1
        (skips_absent .coalesce (.string "??")).2, nofun⟩
    | false =>
      obtain ⟨hskips, hnull⟩ := hglance.skips_iff henv hlevels ht.isAbsent hpresent h h'
      exact ⟨hskips, fun _ => hnull⟩

/-- The target `$s['k'][1]`. -/
def letterTarget : Term :=
  .subscript ⟨"offsetlookup", default, false⟩
    (.subscript ⟨"offsetlookup", default, false⟩
      (.variable ⟨"variable", default, false⟩ (.string "s"))
      (.literal ⟨"string", default, false⟩ (.string "k")))
    (.literal ⟨"number", default, false⟩ (.string "1"))

/-- What is seen at a target after a text was run. -/
def peekAfter (text : String) (target : Term) : Option String := do
  let n ← (Source.tree text).toOption
  let levels ← (target.evalKeys.outcome (n.run .init).2).1.toOption
  let v ← ((peek target levels).outcome (target.evalKeys.outcome (n.run .init).2).2).1.toOption
  return v.value.display

/-- A letter of a string in an array is there, so neither operator evaluates its right operand. -/
theorem peek_agrees_letter :
    ∃ n levels m₁ v, Source.tree "$s = ['k' => 'ab'];" = .ok n ∧
      letterTarget.evalKeys.outcome (n.run .init).2 = (.ok levels, m₁) ∧
      ((peek letterTarget levels).outcome m₁).1 = .ok v ∧ v.value.display = "'b'" ∧
      SameSight (n.run .init).2 (∃ b, ((peekRoot letterTarget).outcome m₁).1 = .error (.breach b))
        ((peek letterTarget levels).outcome m₁).1
        ((letterTarget.eval (some .isset)).outcome (n.run .init).2) ∧
      ∀ h h' value,
        Skips (fun act => compoundBody h .coalesce letterTarget value letterTarget.evalKeys
            letterTarget.evalRoot act) (n.run .init).2 ↔
          Skips (fun act => binaryBody h' (.string "??") letterTarget value
            (fun i => letterTarget.eval i) act) (n.run .init).2 := by
  have hpeek : peekAfter "$s = ['k' => 'ab'];" letterTarget = some "'b'" := by decide +kernel
  simp only [peekAfter, Option.bind_eq_bind, Option.bind_eq_some_iff, Option.pure_def,
    Option.some.injEq] at hpeek
  obtain ⟨n, hn, levels, hlevels, v, hv, hb⟩ := hpeek
  have hkeys : letterTarget.evalKeys.outcome (n.run .init).2 =
      (.ok levels, (letterTarget.evalKeys.outcome (n.run .init).2).2) :=
    Prod.ext (eq_ok_of_toOption hlevels) rfl
  have hchain : letterTarget.Chain := ⟨⟨trivial, trivial⟩, trivial⟩
  obtain ⟨hsame, -, hskips⟩ := peek_agrees hchain ⟨rfl, rfl, rfl⟩ hkeys
  exact ⟨n, levels, _, v, eq_ok_of_toOption hn, hkeys, eq_ok_of_toOption hv, hb, hsame,
    fun h h' value => (hskips h h' value).1⟩

end PhpInterpreter
