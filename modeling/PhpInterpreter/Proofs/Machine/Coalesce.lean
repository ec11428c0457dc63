import PhpInterpreter.Proofs.Machine.Expansion

/-!
Assignments with `??` that fire. A plain assignment copies its value before its target is resolved,
an assignment with `??` only after that. So the two differ where the value is an array in its place,
and resolving the target makes an element in it.
-/

namespace PhpInterpreter

open Run Environment

/-! ## Values and terms -/

/-- What a checked walk comes to, an unchecked one comes to as well. -/
theorem Value.walk_unchecked {v w : Value} {levels : List Level} (h : v.walk true levels = .ok w) :
    v.walk false levels = .ok w := by
  have hstep : ∀ (level : Level) (v w : Value), v.step true level = .ok w →
      v.step false level = .ok w := by
    intro level v w h
    unfold Value.step at h ⊢
    cases hk : level.key? with
    | none => rw [hk] at h; cases h
    | some k =>
      rw [hk] at h
      cases v with
      | string s =>
        cases hmark : level.byref with
        | true => rw [hmark] at h; cases h
        | false => rwa [hmark] at h
      | _ => exact h
  induction levels generalizing v with
  | nil => exact h
  | cons level rest ih =>
    rw [walk_cons] at h ⊢
    cases hx : v.step true level with
    | error c => rw [hx] at h; cases h
    | ok x =>
      rw [hx] at h
      rw [hstep level v x hx]
      exact ih h

theorem Value.defined_of_isNull {v : Value} (h : v.isNull = true) : v.defined = .null := by
  cases v with
  | undefined | null => rfl
  | _ => cases h

theorem Term.Chain.isExpression {t : Term} (ht : t.Chain) : t.IsExpression := by
  match t with
  | .variable .. => trivial
  | .subscript _ base _ => exact Term.Chain.isExpression (t := base) ht.1

/-- There is no array under null. -/
theorem Value.descend_ne_array {v : Value} (h : v.defined = .null) (path : List Key)
    (t : Table Value) : v.descend path ≠ .array t := by
  cases path with
  | nil =>
    rw [Value.descend]
    rintro rfl
    cases h
  | cons k path =>
    cases v with
    | undefined | null => rw [Value.descend] <;> simp
    | _ => cases h

/-! ## Cells -/

/-- A name that leads to a slot that was there before is not declared. -/
theorem Environment.Indexed.declare_held {e e₁ : Environment} {x : String} {r : Location} {i : Int}
    (h : Indexed e) (hrun : (Scoped.declare x none).run.run e = (.ok r, e₁))
    (hheld : e.Holds i r.slot) : r.scope = i ∧ e₁ = e := by
  have hends : Ends (Scoped.declare x none) e
      (fun r e₁ => e.Holds i r.slot → r.scope = i ∧ e₁ = e) fun _ _ => True := by
    rw [Scoped.ends_declare]
    refine ⟨fun _ => trivial, fun s hs => ⟨fun _ hheld => ?_, fun slot _ =>
      ⟨fun _ => trivial, fun o ho hheld => ⟨?_, rfl⟩⟩⟩⟩
    · exact absurd (h.slot_lt _ _ hheld) (Int.lt_irrefl _)
    · exact Option.some.inj (ho.symm.trans ((h.owner_iff slot i).2 hheld))
  exact hends.of_ok hrun hheld

theorem Location.eq_below {home l : Location} {rest : List Key} (hscope : home.scope = l.scope)
    (hslot : home.slot = l.slot) (hchar : home.char? = l.char?)
    (hpath : home.path ++ rest = l.path) : l = { home with path := home.path ++ rest } := by
  rw [hscope, hslot, hchar, hpath]

/-- What lies further down a cell. -/
theorem Environment.load_append {l : Location} (hwhole : l.char? = none) (e : Environment)
    (rest : List Key) :
    e.load { l with path := l.path ++ rest } = (e.load l).descend rest := by
  have hload := load_getD (e := e) hwhole l.path
  rw [load_getD hwhole, Value.descend_append, ← hload]

namespace View

variable {e e' : Environment} {v : View} {home l : Location} {t : Table Value} {x : Value}
  {ws : List Write}

/-- An array that is seen in its place is in a cell. -/
theorem Stands.exists_cell (h : v.Stands e) (hhome : v.home? = some home)
    (ht : v.value = .array t) :
    home.char? = none ∧ e.load home = .array t ∧
      ∃ c, e.cell? home = some c ∧ c.descend home.path = .array t := by
  obtain ⟨hwhole, hload⟩ := h home hhome
  rw [ht] at hload
  have hload : e.load home = .array t := eq_of_defined hload.symm (by simp)
  refine ⟨hwhole, hload, ?_⟩
  cases hc : e.cell? home with
  | none =>
    have hcell : (e.scope? home.scope).bind (fun s => Assoc.get? home.slot s.cells) = none := hc
    simp [Environment.load, hcell] at hload
  | some c => exact ⟨c, rfl, (load_eq hc hwhole).symm.trans hload⟩

/-- A view follows a write below its home and shows what is there then. -/
theorem follow_below (hhome : v.home? = some home) (hwhole : home.char? = none)
    (hvalue : v.value = e.load home) (hscope : home.scope = l.scope) (habove : home.Above l)
    (hstore : (Scoped.store l x).run.run e = (.ok (), e')) :
    (v.follow l x).home? = some home ∧ (v.follow l x).value = e'.load home := by
  obtain ⟨hslot, ⟨rest, hpath⟩, hne⟩ := habove
  obtain ⟨-, old, new, hold, hnew, rfl⟩ := exists_of_store hstore
  have hcell : e.cell? home = some old := by
    rw [cell?, hscope, hslot]
    exact hold
  have hcell' : (Scoped.written l new e).cell? home = some new := by
    rw [cell?, hscope, hslot]
    exact cell?_written hold
  have hfollow : v.follow l x = ⟨(v.value.setAt? rest x).getD v.value, some home⟩ := by
    have habove : ¬ l.path <+: home.path := by
      intro hprefix
      exact hne (List.Sublist.eq_of_length_le (List.IsPrefix.sublist ⟨rest, hpath⟩)
        hprefix.length_le)
    simp only [follow, hhome, hslot, ne_eq, not_true_eq_false, if_false]
    rw [if_neg (mt List.isPrefixOf_iff_prefix.1 habove),
      if_pos (List.isPrefixOf_iff_prefix.2 ⟨rest, hpath⟩), ← hpath, List.drop_left]
  rw [← hpath] at hnew
  rw [hfollow, hvalue, load_eq hcell hwhole, load_eq hcell' hwhole, Value.setAt?_append hnew]
  exact ⟨rfl, rfl⟩

/-- It follows many such writes. -/
theorem followAll_below (hhome : v.home? = some home) (hwhole : home.char? = none)
    (hvalue : v.value = e.load home) (hstores : Stores e ws e')
    (hbelow : ∀ w ∈ ws, home.scope = w.1.scope ∧ home.Above w.1) :
    (v.followAll ws).home? = some home ∧ (v.followAll ws).value = e'.load home := by
  induction hstores with
  | nil => exact ⟨hhome, hvalue⟩
  | @snoc e₁ e₂ ws l x _ hstore ih =>
    obtain ⟨hws, hlast⟩ := List.forall_mem_append.1 hbelow
    obtain ⟨hscope, habove⟩ := List.forall_mem_singleton.1 hlast
    obtain ⟨hhome', hvalue'⟩ := ih hws
    rw [followAll_append]
    exact follow_below hhome' hwhole hvalue' hscope habove hstore

end View

namespace Run

variable {e e' e₁ : Environment} {m m₁ : Machine} {target value : Term} {levels : List Level}
  {ws : List Write} {l home : Location} {v : View}

/-! ## Settled computations on one machine -/

/-- A settled computation that returned on one machine. -/
theorem Settles.of_outcome {α : Type} {act : Run α} {a : α} {Q : Outcome α} {E : Fault → Prop}
    (h : Settles m.env act Q E) (hrun : act.outcome m = (.ok a, m₁)) :
    ∃ items ws said, Returns m.env act a items m₁.env ws ∧ Q a items m₁.env ws ∧
      m₁ = m.after items m₁.env ws said := by
  rcases h with ⟨a', items, e', ws, hact, hQ⟩ | hstops
  · obtain ⟨said, hrun'⟩ := hact m rfl
    obtain ⟨ha, rfl⟩ := Prod.mk.inj (hrun'.symm.trans hrun)
    obtain rfl := Except.ok.inj ha
    exact ⟨items, ws, said, hact, hQ, rfl⟩
  · obtain ⟨f, m', hrun', -⟩ := hstops m rfl
    cases hrun'.symm.trans hrun

theorem Returns.items_eq {α : Type} {act : Run α} {a a' : α} {items items' : List Item}
    {ws ws' : List Write} (h : Returns e act a items e' ws) (h' : Returns e act a' items' e₁ ws') :
    items = items' := by
  obtain ⟨said, hrun⟩ := h ⟨e, [], [], "", []⟩ rfl
  obtain ⟨said', hrun'⟩ := h' ⟨e, [], [], "", []⟩ rfl
  have hstack := congrArg (fun p => p.2.stack) (hrun.symm.trans hrun')
  simpa [Machine.after] using hstack

theorem Gives.of_returns {act : Run Unit} {P : View → Prop} {E : Fault → Prop} (h : Gives e act P E)
    (hv : Returns e act () [.value v] e' ws) : P v := by
  rcases gives_iff.1 h with ⟨v', hv', hP⟩ | hstops
  · obtain rfl : v' = v := by simpa using hv'.items_eq hv
    exact hP
  · exact absurd hstops hv.not_stops

/-- Only errors are placed. -/
theorem Returns.of_within {t : Term} {act : Run Unit} {items : List Item}
    (h : Returns e (Run.within t act) () items e' ws) : Returns e act () items e' ws := by
  unfold Run.within at h
  split at h
  · intro m hm
    obtain ⟨said, hrun⟩ := h m hm
    refine ⟨said, ?_⟩
    rw [outcome_located] at hrun
    rcases hact : act.outcome m with ⟨a | f, m'⟩
    all_goals
      rw [hact] at hrun
      cases hrun
    rfl
  · exact h

theorem returns_noting_pure {α : Type} (a : α) (line : Json) (quiet : Bool) :
    Returns e (noting line quiet (pure a)) a [] e [] := returns_iff.2 (finds_noting rfl)

/-- A target that does not stand is null where it is seen. -/
theorem finds_standing (ht : target.Chain) (levels : List Level) (e : Environment) :
    Finds e (standing .coalesce target levels) (fun v? => v? = none →
      ∃ root z, Returns e (peekRoot target) root [] e [] ∧
        root.value.walk false levels = .ok z ∧ z.isNull = true) fun _ => True := by
  have hpeek : standing .coalesce target levels = peekRoot target >>= fun root =>
      peekAll levels root >>= fun v => pure (if v.value.isNull then none else some v) := rfl
  obtain ⟨h, name, hroot⟩ := ht.exists_root
  rw [hpeek, ← peekRoot_root, hroot]
  rcases root_cases e h name with ⟨root, hlooked, -⟩ | ⟨hstops, -⟩
  · refine Finds.bind (hlooked.finds (Finds.bind ((finds_peekAll levels root).mono
      (fun v _ hwalk => finds_pure fun hnone => ⟨root, v.value, hlooked, hwalk, ?_⟩)
      fun _ _ => trivial)))
    by_contra hsome
    simp [hsome] at hnone
  · exact hstops.bind.settles

/-! ## Where the target is made -/

/-- A whole place that was resolved is in the slot of its variable, and was made. -/
theorem Reaches.made {y : Value} (h : Reaches e target y (some l) e' ws) (hm : Reachable e)
    (ht : target.Chain) (hplace : Returns e (resolve target.root levels) (some l) [] e' ws)
    (hwhole : l.char? = none) :
    ∃ x r e₁, (Scoped.declare x none).run.run e = (.ok r, e₁) ∧ l.scope = r.scope ∧
      l.slot = r.slot ∧ Lands e₁ y (some l) e' ws ∧ e.Made x (levels.map (·.key?)) l e' := by
  obtain ⟨hd, name, x, r, e₁, hroot, hx, hrun, hlands⟩ := h
  obtain ⟨said, houtcome⟩ := hplace ⟨e, [], [], "", []⟩ rfl
  have hresolved := resolved_outcome (m := ⟨e, [], [], "", []⟩) ht.isExpression hm levels
  rw [houtcome] at hresolved
  obtain ⟨hd', name', x', hroot', hx', hmade⟩ := hresolved.made l rfl hwhole
  obtain ⟨-, rfl⟩ := Term.variable.inj (hroot.symm.trans hroot')
  have hname : (pure x : Run String) = pure x' := hx.symm.trans hx'
  obtain rfl : x = x' :=
    Except.ok.inj (congrArg (fun act : Run String => (act.outcome default).1) hname)
  obtain ⟨root, e₁', c, hrun', hl, -⟩ := hmade.cell
  obtain ⟨hr, -⟩ := Prod.mk.inj (hrun.symm.trans hrun')
  obtain rfl := Except.ok.inj hr
  exact ⟨x, r, e₁, hrun, by rw [hl], by rw [hl], hlands, hmade⟩

/-- If the slot of the place is that of an array that is seen, its variable was declared before. -/
theorem Reaches.lands {y : Value} {t : Table Value} (h : Reaches e target y (some l) e' ws)
    (hm : Reachable e) (ht : target.Chain)
    (hplace : Returns e (resolve target.root levels) (some l) [] e' ws) (hwhole : l.char? = none)
    (hstands : v.Stands e) (hhome : v.home? = some home) (hshown : v.value = .array t)
    (hslot : home.slot = l.slot) : home.scope = l.scope ∧ Lands e y (some l) e' ws := by
  obtain ⟨x, r, e₁, hrun, hscope, hslot', hlands, -⟩ := h.made hm ht hplace hwhole
  obtain ⟨-, -, c, hc, -⟩ := hstands.exists_cell hhome hshown
  have hheld : e.Holds home.scope r.slot := by
    rw [← hslot', ← hslot]
    exact holds_iff.2 ⟨c, hc⟩
  obtain ⟨hsame, rfl⟩ := hm.attained.indexed.declare_held hrun hheld
  exact ⟨hsame.symm.trans hscope.symm, hlands⟩

/-- What is written on the way to a place in an array is written in the array: whatever was missing
cannot have the array below it. -/
theorem Lands.writes_above {x : Value} {t : Table Value} (h : Lands e x (some l) e' ws)
    (hwhole : home.char? = none) (hload : e.load home = .array t) (hscope : home.scope = l.scope)
    (habove : home.Above l) : ∀ w ∈ ws, home.scope = w.1.scope ∧ home.Above w.1 := by
  intro w hw
  obtain ⟨_, ⟨⟩, -, -, -, -, hpath⟩ := h.of_writes (List.ne_nil_of_mem hw)
  obtain ⟨hscope', hslot', hprefix, hwhole', hempty⟩ := hpath w hw
  have habove' : ¬ w.1.path <+: home.path := by
    rintro ⟨q, hq⟩
    have hhome := Location.eq_below (hscope'.trans hscope.symm) (hslot'.trans habove.1.symm)
      (hwhole'.trans hwhole.symm) hq
    rw [hhome, load_append hwhole'] at hload
    exact Value.descend_ne_array hempty q t hload
  refine ⟨hscope.trans hscope'.symm, habove.1.trans hslot'.symm, ?_, ?_⟩
  · exact (List.prefix_or_prefix_of_prefix habove.2.1 hprefix).resolve_right habove'
  · rintro heq
    exact habove' (heq ▸ List.prefix_rfl)

/-- A plain assignment whose parts are settled. -/
theorem Settles.assigned {h : Head} {l? : Option Location} {Q : Outcome Unit} {E : Fault → Prop}
    (ht : target.Chain) (hkeys : Returns e target.evalKeys levels [] e [])
    (hplace : Returns e (resolve target.root levels) l? [] e' ws)
    (hE : ∀ f p, E f → E (f.locate p))
    (habsent : value.isAbsent = true → E (.breach .missingOperand))
    (hvalue : Gives e (Run.within value (value.eval (some .read)))
      (Completes (fun x => pure x.defined) l? e' ws Q E) E) :
    Settles e (assignBody h target value (target.eval (some .write)) (value.eval (some .read)))
      Q E := by
  refine Settles.assign ht hE habsent (hvalue.mono (fun v _ hv => ?_) fun _ hf => hf)
  refine Finds.bind (hkeys.finds (hplace.settles ⟨rfl, ?_⟩))
  rcases hv with ⟨r, hr, hwrite⟩ | hstops
  · obtain rfl := (returns_noting_pure v.value.defined default false).eq (hr e _ _)
    rw [Value.defined_eq_self (Value.defined_ne_undefined v.value)] at hwrite
    exact hwrite _
  · exact absurd (hstops e default false) (returns_noting_pure _ _ _).not_stops

/-- The place of the array that is seen when the value is read, if there is one. -/
def seenArray? (m : Machine) (value : Term) : Option Location :=
  match ((do value.eval (some .read); popView).outcome m).1 with
  | .ok ⟨.array _, home?⟩ => home?
  | _ => none

/-- The place that is made when the target is resolved, if one is. -/
def madePlace? (m : Machine) (target : Term) (levels : List Level) : Option Location :=
  match ((resolve target.root levels).outcome m).1 with
  | .ok (some l) =>
    match l.char?, m.env.load l with
    | none, .undefined => some l
    | _, _ => none
  | _ => none

/-- The value is an array that is seen in its place, and the target is made in it. -/
def Overtaken (m : Machine) (target value : Term) (levels : List Level) : Prop :=
  ∃ home l, seenArray? m value = some home ∧ madePlace? m target levels = some l ∧ home.Above l

theorem seenArray?_eq (h : Returns m.env (value.eval (some .read)) () [.value v] m.env []) :
    seenArray? m value = match v.value with
      | .array _ => v.home?
      | _ => none := by
  have hpop : Returns m.env (do value.eval (some .read); popView) v [] m.env [] := by
    have hpure : (do value.eval (some .read); popView) =
        value.eval (some .read) >>= fun _ => popView >>= pure := by simp only [bind_pure]
    rw [hpure]
    exact Settles.returns (Gives.popView (gives_iff.2
      (.inl ⟨v, h, settles_pure ⟨rfl, rfl, rfl, rfl⟩⟩)))
  obtain ⟨said, hrun⟩ := hpop m rfl
  rw [seenArray?, hrun]
  obtain ⟨x, home?⟩ := v
  cases x <;> rfl

theorem exists_of_seenArray? (hvalue : value.ReadOnly) (h : seenArray? m value = some home) :
    ∃ v t, Returns m.env (value.eval (some .read)) () [.value v] m.env [] ∧ v.Stands m.env ∧
      v.home? = some home ∧ v.value = .array t := by
  rcases gives_iff.1 (Term.shows_eval m.env value .read (by decide) hvalue) with
    ⟨v, hv, hstands⟩ | hstops
  · rw [seenArray?_eq hv] at h
    cases hshown : v.value with
    | array t => exact ⟨v, t, hv, hstands, by simpa [hshown] using h, hshown⟩
    | _ => simp [hshown] at h
  · obtain ⟨f, m', hrun, -⟩ := hstops.bind (f := fun _ => popView) m rfl
    rw [seenArray?, hrun] at h
    cases h

theorem madePlace?_eq_some : madePlace? m target levels = some l ↔
    (∃ m', (resolve target.root levels).outcome m = (.ok (some l), m')) ∧ l.char? = none ∧
      m.env.load l = .undefined := by
  unfold madePlace?
  rcases hrun : (resolve target.root levels).outcome m with ⟨f | l?, m'⟩
  · simp
  · cases l? with
    | none => simp
    | some l' =>
      constructor
      · intro h
        dsimp only at h
        split at h
        · obtain rfl := Option.some.inj h
          exact ⟨⟨m', rfl⟩, ‹_›, ‹_›⟩
        · cases h
      · rintro ⟨⟨_, hl⟩, hchar, hload⟩
        cases hl
        simp only [hchar, hload]

/-- The value that is held changes only if the target is made in it. -/
theorem value_followAll_of_not_overtaken {y : Value} {l? : Option Location} (hm : Reachable m.env)
    (ht : target.Chain) (h : ¬ Overtaken m target value levels)
    (hvalue : Returns m.env (value.eval (some .read)) () [.value v] m.env [])
    (hstands : v.Stands m.env) (hplace : Returns m.env (resolve target.root levels) l? [] e' ws)
    (hreaches : Reaches m.env target y l? e' ws) : (v.followAll ws).value = v.value := by
  refine (v.value_followAll_or ws).resolve_right ?_
  rintro ⟨home, t, hhome, hshown, w, hw, habove⟩
  obtain ⟨_, _, _, _, _, -, -, -, hlands⟩ := id hreaches
  obtain ⟨l, rfl, hwhole, -, -, -, hpath⟩ := hlands.of_writes (List.ne_nil_of_mem hw)
  obtain ⟨-, hsame, hprefix, -, -⟩ := hpath w hw
  have habove : home.Above l := by
    refine ⟨habove.1.trans hsame, habove.2.1.trans hprefix, fun heq => habove.2.2 ?_⟩
    exact List.Sublist.eq_of_length_le habove.2.1.sublist (heq ▸ hprefix.length_le)
  obtain ⟨-, hlands⟩ := hreaches.lands hm ht hplace hwhole hstands hhome hshown habove.1
  obtain ⟨_, ⟨⟩, -, hmissing, -⟩ := hlands.of_writes (List.ne_nil_of_mem hw)
  obtain ⟨said, hplace⟩ := hplace m rfl
  refine h ⟨home, l, ?_, madePlace?_eq_some.2 ⟨⟨_, hplace⟩, hwhole, hmissing⟩, habove⟩
  rw [seenArray?_eq hvalue, hshown]
  exact hhome

/-- If the target is not made in the value, an assignment with `??` that fires is a plain one. -/
theorem agree_of_not_overtaken {h h' : Head} {root : View} {z : Value} (hm : Reachable m.env)
    (ht : target.Chain) (hkeyed : target.Keyed) (hvalue : value.ReadOnly)
    (hkeys : Returns m.env target.evalKeys levels [] m.env [])
    (hstanding : Returns m.env (standing .coalesce target levels) none [] m.env [])
    (hroot : Returns m.env (peekRoot target) root [] m.env [])
    (hwalk : root.value.walk false levels = .ok z) (hnull : z.isNull = true)
    (hovertaken : ¬ Overtaken m target value levels) :
    Agree m.env
      (compoundBody h .coalesce target value target.evalKeys target.evalRoot
        (value.eval (some .read)))
      (assignBody h' target value (target.eval (some .write)) (value.eval (some .read))) := by
  have hshows := Term.shows_eval m.env value .read (by decide) hvalue
  have hwithin := hshows.within value
  have hboth : Stops m.env (resolve target.root levels) (fun _ => True) → Agree m.env _ _ :=
    fun hstops => .inr ⟨stops_compound (h := h) hkeys hstanding hwithin hstops,
      stops_assign (h := h') ht hwithin (hkeys.bind_stops hstops)⟩
  rcases resolve_cases ht hkeyed hkeys with ⟨root', hroot', hplace⟩ | ⟨-, hstops⟩
  · rcases hplace with ⟨l?, _, e', ws, hplace, rfl, y, hy, hreaches⟩ | hstops
    · obtain rfl := hroot.eq hroot'
      obtain rfl := Except.ok.inj (hwalk.symm.trans (Value.walk_unchecked hy))
      obtain ⟨_, _, _, _, _, -, -, -, hlands⟩ := id hreaches
      refine agree_of_completes hwithin fun Q E hE habsent hv =>
        ⟨Settles.resolved hkeys hstanding hplace habsent (fun v hv => ?_) hv,
          Settles.assigned ht hkeys hplace hE habsent hv⟩
      have hsame := value_followAll_of_not_overtaken hm ht hovertaken hv.of_within
        (hshows.of_returns hv.of_within) hplace hreaches
      rw [hsame, Value.applyBinary, hlands.shown, Value.defined_of_isNull hnull]
      rfl
    · exact hboth hstops
  · exact hboth hstops

/-- What was made, and an array that is seen, are in one cell. -/
theorem value_followAll_of_overtaken {y : Value} {t : Table Value} (hm : Reachable e)
    (ht : target.Chain) (hstands : v.Stands e) (hhome : v.home? = some home)
    (hshown : v.value = .array t)
    (hplace : Returns e (resolve target.root levels) (some l) [] e' ws)
    (hreaches : Reaches e target y (some l) e' ws) (hwhole : l.char? = none)
    (hmissing : e.load l = .undefined) (habove : home.Above l) :
    (v.followAll ws).value ≠ .array t := by
  obtain ⟨hscope, hlands⟩ := hreaches.lands hm ht hplace hwhole hstands hhome hshown habove.1
  obtain ⟨hwhole', hload, -⟩ := hstands.exists_cell hhome hshown
  have hws : ws ≠ [] := by
    rintro rfl
    obtain ⟨_, _, _, -, -, -, -, hmade⟩ := hreaches.made hm ht hplace hwhole
    obtain rfl := hlands.env_eq
    exact hmade.present hmissing
  obtain ⟨_, ⟨⟩, -, -, hnull, hstores, -⟩ := hlands.of_writes hws
  obtain ⟨-, hfollowed⟩ := View.followAll_below hhome hwhole' (hshown.trans hload.symm) hstores
    (hlands.writes_above hwhole' hload hscope habove)
  obtain ⟨rest, hrest⟩ := habove.2.1
  have hl := Location.eq_below hscope habove.1 (hwhole'.trans hwhole.symm) hrest
  rw [hfollowed]
  intro harray
  rw [hl, load_append hwhole'] at hmissing hnull
  rw [hload] at hmissing
  rw [harray, hmissing] at hnull
  cases hnull

/-- A write to a place that was made returns. -/
theorem returns_writeTo_made {x : String} {keys : List (Option Key)} (hm : Reachable e)
    (hmade : e.Made x keys l e') (hwhole : l.char? = none) (w : Value) :
    ∃ e'', ∀ line, Returns e' (writeTo line (some l) w) ⟨w, some l⟩ [] e'' ([(l, w)] ++ []) := by
  rcases store_cases e' l w with ⟨e'', hrun⟩ | hstops
  · refine ⟨e'', fun line => ?_⟩
    rw [writeTo_whole hwhole]
    exact hrun.bind (f := fun _ => pure (View.mk w (some l))) (returns_iff.2 (finds_pure rfl))
  · obtain ⟨f, m', hrun, -⟩ := hstops ⟨e', [], [], "", []⟩ rfl
    have hends := ends_store_made (m := ⟨e', [], [], "", []⟩) hm hmade w
    exact (hends.of_error hrun).elim

/-- If the target is made in the value, an assignment with `??` writes the array with what was made
in it, a plain one the array as it was. -/
theorem not_endAlike_of_overtaken {h h' : Head} (hm : Reachable m.env) (ht : target.Chain)
    (hkeyed : target.Keyed) (hvalue : value.ReadOnly)
    (hkeys : Returns m.env target.evalKeys levels [] m.env [])
    (hstanding : Returns m.env (standing .coalesce target levels) none [] m.env [])
    {root : View} {z : Value} (hroot : Returns m.env (peekRoot target) root [] m.env [])
    (hwalk : root.value.walk false levels = .ok z) (hnull : z.isNull = true)
    (hovertaken : Overtaken m target value levels) :
    ¬ EndAlike
      ((compoundBody h .coalesce target value target.evalKeys target.evalRoot
        (value.eval (some .read))).outcome m)
      ((assignBody h' target value (target.eval (some .write)) (value.eval (some .read))).outcome
        m) := by
  obtain ⟨home, l, hseen, hmade, habove⟩ := hovertaken
  obtain ⟨v, t, hv, hstands, hhome, hshown⟩ := exists_of_seenArray? hvalue hseen
  obtain ⟨⟨m₂, hplace⟩, hwhole, hmissing⟩ := madePlace?_eq_some.1 hmade
  have hv := hv.within value
  rcases resolve_cases ht hkeyed hkeys with ⟨root', hroot', hplaces⟩ | ⟨-, hstops⟩
  swap
  · obtain ⟨f, m', hrun, -⟩ := hstops m rfl
    cases hrun.symm.trans hplace
  obtain rfl := hroot.eq hroot'
  obtain ⟨_, ws, said', hresolved, ⟨rfl, y, hy, hreaches⟩, -⟩ := hplaces.of_outcome hplace
  obtain rfl := Except.ok.inj (hwalk.symm.trans (Value.walk_unchecked hy))
  obtain ⟨x, _, _, -, -, -, hlands, hmade⟩ := hreaches.made hm ht hresolved hwhole
  have hne := value_followAll_of_overtaken hm ht hstands hhome hshown hresolved hreaches hwhole
    hmissing habove
  obtain ⟨e₂, hcombined⟩ :=
    returns_writeTo_made hm hmade hwhole (v.followAll ws).value.defined.defined
  obtain ⟨e₃, hcopied⟩ := returns_writeTo_made hm hmade hwhole v.value.defined.defined
  have hcompletes : Completes (fun _ => pure (v.followAll ws).value.defined) _ _ ws _ _ v :=
    completes_of_returns (fun _ _ _ => returns_noting_pure _ _ _) hcombined
  have hleft := Settles.returns (Settles.resolved (h := h) hkeys hstanding hresolved
    (by simp [hv.present]) (fun v' hv' => ?_) (gives_iff.2 (.inl ⟨v, hv, hcompletes⟩)))
  · have hright := Settles.returns (Settles.assigned (h := h') ht hkeys hresolved (fun _ _ hf => hf)
      (by simp [hv.present]) (gives_iff.2 (.inl ⟨v, hv,
        completes_of_returns (fun _ _ _ => returns_noting_pure _ _ _) hcopied⟩)))
    intro halike
    have hitems := halike.items_eq hleft hright
    simp only [List.cons.injEq, Item.value.injEq, View.mk.injEq, hshown] at hitems
    have hsame : (v.followAll ws).value.defined = .array t :=
      eq_of_defined (w := .array t) hitems.1.1 (by simp)
    exact hne (eq_of_defined hsame (by simp))
  · obtain rfl : v' = v := by simpa using hv'.items_eq hv
    rw [Value.applyBinary, hlands.shown, Value.defined_of_isNull hnull]
    rfl

/-- What is no node can be evaluated by neither. -/
theorem endAlike_foreign {h h' : Head} {intent? : Option Intent}
    (hkeys : Returns m.env target.evalKeys levels [] m.env [])
    (hstanding : Returns m.env (standing .coalesce target levels) none [] m.env [])
    (hintent : intent? ≠ some .write) :
    EndAlike
      ((compoundBody h .coalesce target .foreign target.evalKeys target.evalRoot
        (Term.foreign.eval (some .read))).outcome m)
      (((Term.assign h' (.string "=") target .foreign).eval intent?).outcome m) := by
  have hcrash : Stops m.env (Run.within .foreign (Term.foreign.eval (some .read)))
      fun _ => True := stops_throw trivial
  obtain ⟨f, m', hrun, -⟩ := Stops.of_settles
    (Settles.compound (h := h) hkeys hstanding (fun _ => trivial) (.inr hcrash)) m rfl
  have hassign : (Term.assign h' (.string "=") target .foreign).eval intent? = crash .notANode := by
    rw [Term.eval]
    simp only [writable, hintent, if_false, pure_bind]
    rfl
  rw [hrun, hassign]
  exact .stopped

theorem not_overtaken_foreign : ¬ Overtaken m target .foreign levels := by
  rintro ⟨home, _, hseen, _⟩
  have hforeign : Term.foreign.ReadOnly := trivial
  obtain ⟨v, _, hv, -⟩ := exists_of_seenArray? hforeign hseen
  exact hv.not_stops (E := fun _ => True) (stops_throw trivial)

end Run

/-- An assignment with `??` that finds its target missing or null ends as the plain assignment does,
unless its value is an array that is seen in its place, and the target is made in this array; then
it does not. -/
theorem coalesce_agrees_iff {m m₁ : Machine} {h h' : Head} {target value : Term}
    {levels : List Level} {intent? intent'? : Option Intent} (hm : Reachable m.env)
    (ht : target.Chain) (hkeyed : target.Keyed) (hvalue : value.ReadOnly)
    (hmark : value.byref = false) (hintent : intent? ≠ some .write)
    (hintent' : intent'? ≠ some .write) (hkeys : target.evalKeys.outcome m = (.ok levels, m₁))
    (hstanding : ((standing .coalesce target levels).outcome m₁).1 = .ok none) :
    EndAlike (((Term.assign h (.string "??=") target value).eval intent?).outcome m)
        (((Term.assign h' (.string "=") target value).eval intent'?).outcome m) ↔
      ¬ Overtaken m target value levels := by
  obtain ⟨hlevels, -, henv⟩ := sees_of_outcome ht (by decide : Intent.read ≠ .write) hkeys
  rcases hstands : (standing .coalesce target levels).outcome m₁ with ⟨_, m₂⟩
  rw [hstands] at hstanding
  obtain rfl := hstanding
  obtain ⟨_, _, _, hnone, ⟨rfl, henv', rfl, hnull⟩, -⟩ :=
    (finds_standing ht levels m₁.env).of_outcome hstands
  obtain ⟨root, z, hroot, hwalk, hnull⟩ := hnull rfl
  rw [henv', henv] at hnone
  rw [henv] at hroot
  rw [eval_compound rfl hintent]
  by_cases hforeign : value = .foreign
  · subst hforeign
    exact iff_of_true (endAlike_foreign hlevels hnone hintent') not_overtaken_foreign
  rw [eval_assign rfl hforeign hmark hintent']
  refine ⟨fun halike hovertaken => ?_, fun hnot => ?_⟩
  · exact not_endAlike_of_overtaken hm ht hkeyed hvalue hlevels hnone hroot hwalk hnull hovertaken
      halike
  · exact (agree_of_not_overtaken hm ht hkeyed hvalue hlevels hnone hroot hwalk hnull hnot).endAlike

/-- The variable `$a`, as a term. -/
def arrayTerm : Term := .variable ⟨"variable", default, false⟩ (.string "a")

/-- The target `$a['x']`. -/
def arrayTarget : Term :=
  .subscript ⟨"offsetlookup", default, false⟩ arrayTerm
    (.literal ⟨"string", default, false⟩ (.string "x"))

/-- The place of the array that is seen in a value, and the place that is made for a target that
does not stand, after a text was run. -/
def overtakenAfter (text : String) (target value : Term) : Option (Location × Location) := do
  let n ← (Source.tree text).toOption
  let levels ← (target.evalKeys.outcome (n.run .init).2).1.toOption
  let v? ← ((standing .coalesce target levels).outcome
    (target.evalKeys.outcome (n.run .init).2).2).1.toOption
  if v?.isNone then
    return (← seenArray? (n.run .init).2 value, ← madePlace? (n.run .init).2 target levels)
  else none

/-- After `$a = [1]`, the assignments `$a['x'] ??= $a` and `$a['x'] = $a` do not end alike. -/
theorem coalesce_agrees_iff_self :
    ∃ n levels m₁, Source.tree "$a = [1];" = .ok n ∧
      arrayTarget.evalKeys.outcome (n.run .init).2 = (.ok levels, m₁) ∧
      ((standing .coalesce arrayTarget levels).outcome m₁).1 = .ok none ∧
      Overtaken (n.run .init).2 arrayTarget arrayTerm levels ∧
      ¬ EndAlike
        (((Term.assign default (.string "??=") arrayTarget arrayTerm).eval none).outcome
          (n.run .init).2)
        (((Term.assign default (.string "=") arrayTarget arrayTerm).eval none).outcome
          (n.run .init).2) := by
  have hplaces : overtakenAfter "$a = [1];" arrayTarget arrayTerm =
      some (⟨0, 1, [], none⟩, ⟨0, 1, [.str "x"], none⟩) := by decide +kernel
  simp only [overtakenAfter, Option.bind_eq_bind, Option.bind_eq_some_iff] at hplaces
  obtain ⟨n, hn, levels, hlevels, v?, hv, hplaces⟩ := hplaces
  split at hplaces
  swap
  · cases hplaces
  rename_i hnone
  obtain rfl : v? = none := by simpa using hnone
  simp only [Option.bind_eq_some_iff, Option.pure_def, Option.some.injEq, Prod.mk.injEq] at hplaces
  obtain ⟨home, hseen, l, hmade, rfl, rfl⟩ := hplaces
  have hovertaken : Overtaken (n.run .init).2 arrayTarget arrayTerm levels :=
    ⟨_, _, hseen, hmade, rfl, by simp, by simp⟩
  have hkeys : arrayTarget.evalKeys.outcome (n.run .init).2 =
      (.ok levels, (arrayTarget.evalKeys.outcome (n.run .init).2).2) :=
    Prod.ext (eq_ok_of_toOption hlevels) rfl
  have hchain : arrayTarget.Chain := ⟨trivial, trivial⟩
  have hkeyed : arrayTarget.Keyed := ⟨trivial, rfl⟩
  have hvalue : arrayTerm.ReadOnly := trivial
  exact ⟨n, levels, _, eq_ok_of_toOption hn, hkeys, eq_ok_of_toOption hv, hovertaken, fun halike =>
    (coalesce_agrees_iff (Reachable.init.run (m := .init) n) hchain hkeyed hvalue rfl (by decide)
      (by decide) hkeys (eq_ok_of_toOption hv)).1 halike hovertaken⟩

end PhpInterpreter
