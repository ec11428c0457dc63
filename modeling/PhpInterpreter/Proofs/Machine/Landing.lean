import PhpInterpreter.Proofs.Machine.Failure
import PhpInterpreter.Proofs.Machine.Peek
import PhpInterpreter.Proofs.Machine.View

/-!
Where resolving a target lands. Going down level by level, the place that is reached holds what a
walk down the value sees; what is missing is made with null, by writes along the path to it only.
-/

namespace PhpInterpreter

open Run Environment

/-! ## Loads and stores -/

namespace Environment

variable {e e' e'' : Environment} {l : Location} {v : Value} {ws : List Write}

/-- Values that were stored one after the other. -/
inductive Stores : Environment → List Write → Environment → Prop
  | nil (e : Environment) : Stores e [] e
  | snoc {e e' e'' : Environment} {ws : List Write} {l : Location} {v : Value} (h : Stores e ws e')
      (hstore : (Scoped.store l v).run.run e' = (.ok (), e'')) : Stores e (ws ++ [(l, v)]) e''

/-- What was stored is there. -/
theorem load_of_store (h : (Scoped.store l v).run.run e = (.ok (), e')) :
    l.char? = none ∧ e'.load l = v := by
  obtain ⟨hwhole, old, new, hold, hnew, rfl⟩ := exists_of_store h
  exact ⟨hwhole, (load_eq (cell?_written hold) hwhole).trans (Value.descend_setAt? hnew)⟩

theorem load_atChar {s : String} (hl : l.char? = none) (hs : e.load l = .string s) (n : Int) :
    e.load (l.atChar n) = Value.characterAt s n := by
  cases hc : e.cell? l with
  | none =>
    have hcell : (e.scope? l.scope).bind (fun s => Assoc.get? l.slot s.cells) = none := hc
    simp [load, hcell] at hs
  | some v =>
    have hcell : (e.scope? l.scope).bind (fun s => Assoc.get? l.slot s.cells) = some v := hc
    rw [load_eq hc hl] at hs
    rw [Value.characterAt]
    split <;> rename_i hchar
    · simp [load, Location.atChar, hcell, hs, hchar]
    · simp [load, Location.atChar, hcell, hs, hchar]

end Environment

namespace Run

variable {e e' e₀ : Environment} {l : Location} {l? : Option Location} {v x y : Value} {k : Key}
  {ws : List Write} {level : Level}

/-- The computation is settled; how it stops does not matter. -/
abbrev Comes {α : Type} (e : Environment) (act : Run α) (Q : Outcome α) : Prop :=
  Settles e act Q fun _ => True

theorem comes_store (l : Location) (v : Value) :
    Comes e (store l v) fun _ items e' ws =>
      items = [] ∧ ws = [(l, v)] ∧ (Scoped.store l v).run.run e = (.ok (), e') :=
  settles_store (ends_iff.2 ⟨fun _ _ h => ⟨rfl, rfl, h⟩, fun _ _ _ => trivial⟩)

/-- An element is found, or it is made with null. -/
theorem comes_element (t : Table Value) (l : Location) (k : Key) :
    Comes e (element t l (some k)) fun child items e' ws => items = [] ∧ child = l.child k ∧
      (t.get? k ≠ none ∧ e' = e ∧ ws = [] ∨
        t.get? k = none ∧ ws = [(l.child k, .null)] ∧
          (Scoped.store (l.child k) .null).run.run e = (.ok (), e')) := by
  have helement : element t l (some k) = if (t.get? k).isSome then pure (l.child k) else do
      store (l.child k) .null
      return l.child k := by
    have hcontains : t.contains k = (t.get? k).isSome := rfl
    cases hk : t.get? k <;> simp [element, hcontains, hk]
  rw [helement]
  split
  · rename_i hk
    exact settles_pure ⟨rfl, rfl, .inl ⟨Option.isSome_iff_ne_none.1 hk, rfl, rfl⟩⟩
  · rename_i hk
    refine Settles.bind ((comes_store (l.child k) .null).mono ?_ fun _ hf => hf)
    rintro _ _ e' _ - ⟨rfl, rfl, hstore⟩
    exact settles_pure ⟨rfl, rfl, .inr ⟨by simpa using hk, rfl, hstore⟩⟩

/-- The character that is reached in a string. Before its start, telling so may stop. -/
theorem finds_character {s : String} (hk : level.key? = some k) (l : Location) :
    Finds e (character level l s)
      (fun l' => level.byref = false ∧ l' = l.atChar (k.position s) ∧
        (k.position s < 0 → ¬ k.Unwritten))
      fun f => level.byref = true ∨ f.Untold false k ∧ k.position s < 0 := by
  have hfinish : ∀ offset position : Int, offset = k.offset → position = k.position s →
      Finds e (do
        if position < 0 then
          noting level.place.line false
            (Noting.mention false ((integerText offset).map .offsetBeforeStart))
        return l.atChar position : Run Location)
        (fun l' => l' = l.atChar (k.position s) ∧ (k.position s < 0 → ¬ k.Unwritten))
        fun f => f.Untold false k ∧ k.position s < 0 := by
    rintro _ _ rfl rfl
    split
    · rename_i hbefore
      refine Finds.bind ((finds_mention (k.tells_offset _) _).mono (fun _ _ htold => ?_)
        fun f hf => ⟨hf, hbefore⟩)
      exact finds_pure ⟨rfl, fun _ => htold.resolve_left Bool.false_ne_true⟩
    · exact finds_pure ⟨rfl, fun hbefore => absurd hbefore ‹_›⟩
  unfold character
  split
  · exact settles_throw (.inl ‹_›)
  · rename_i hbyref
    have hbyref : level.byref = false := by simpa using hbyref
    simp only [hk, hbyref, true_and]
    cases k with
    | int n =>
      dsimp only
      rw [pure_bind]
      exact (hfinish n _ rfl rfl).mono (fun _ _ hl => hl) fun _ hf => .inr hf
    | str t =>
      refine Finds.bind ((finds_remark _ _ _).mono (fun _ _ _ => ?_) fun _ hf => hf)
      dsimp only
      rw [pure_bind]
      exact (hfinish 0 _ rfl rfl).mono (fun _ _ hl => hl) fun _ hf => .inr hf

/-! ## The way down -/

/-- Where going down has landed, from an environment in which a walk has come to `x`: at a place
that holds this, in the same environment; at a place that was made, where there was nothing; or at
none, where only null was seen. -/
inductive Lands (e : Environment) (x : Value) :
    Option Location → Environment → List Write → Prop
  | found {l : Location} (hx : x.defined = (e.load l).defined) : Lands e x (some l) e []
  | made {l : Location} {e' : Environment} {ws : List Write} (hwhole : l.char? = none)
      (hx : x.defined = .null) (hmissing : e.load l = .undefined) (hnull : e'.load l = .null)
      (hstores : Stores e (ws ++ [(l, .null)]) e')
      (hpath : ∀ w ∈ ws, w.1.scope = l.scope ∧ w.1.slot = l.slot ∧ w.1.path <+: l.path ∧
        w.1.char? = none ∧ (e.load w.1).defined = .null) :
      Lands e x (some l) e' (ws ++ [(l, .null)])
  | nowhere (hx : x.defined = .null) : Lands e x none e []

theorem Lands.shown (h : Lands e x l? e' ws) :
    ((l?.map e'.load).getD .null).defined = x.defined := by
  cases h with
  | found hx => exact hx.symm
  | made _ hx _ hnull =>
    rw [hx, Option.map_some, Option.getD_some, hnull]
    rfl
  | nowhere hx => exact hx.symm

/-- Nothing is written where there is something. -/
theorem Lands.writes_nil (h : Lands e x l? e' ws) (hx : x.defined ≠ .null) : ws = [] := by
  cases h with
  | made _ hnull => exact absurd hnull hx
  | _ => rfl

theorem Lands.env_eq (h : Lands e x l? e' []) : e' = e := by
  generalize hws : ([] : List Write) = ws at h
  cases h with
  | made => simp at hws
  | _ => rfl

/-- What was written was all missing, and is on the way to a place that is there now. -/
theorem Lands.of_writes (h : Lands e x l? e' ws) (hws : ws ≠ []) :
    ∃ l, l? = some l ∧ l.char? = none ∧ e.load l = .undefined ∧ e'.load l = .null ∧
      Stores e ws e' ∧ ∀ w ∈ ws, w.1.scope = l.scope ∧ w.1.slot = l.slot ∧ w.1.path <+: l.path ∧
        w.1.char? = none ∧ (e.load w.1).defined = .null := by
  cases h with
  | @made l _ ws hwhole _ hmissing hnull hstores hpath =>
    refine ⟨l, rfl, hwhole, hmissing, hnull, hstores, ?_⟩
    refine List.forall_mem_append.2 ⟨hpath, List.forall_mem_singleton.2 ?_⟩
    exact ⟨rfl, rfl, List.prefix_rfl, hwhole, by rw [hmissing]; rfl⟩
  | _ => exact absurd rfl hws

/-- Null becomes an array, and an element is made in it. -/
theorem Lands.comes_null (h : Lands e x l? e' ws) {l : Location} (hl : l? = some l)
    (hwhole : l.char? = none) (hnull : (e'.load l).defined = .null) (k : Key) :
    Comes e' (do
        store l (.array .empty)
        return some (← element .empty l (some k)))
      fun l?' items e'' ws' => items = [] ∧ Lands e .undefined l?' e'' (ws ++ ws') := by
  -- What led here, and the two writes: the array and its element.
  have hbefore : Stores e ws e' ∧ (e.load l).defined = .null ∧
      ∀ w ∈ ws, w.1.scope = l.scope ∧ w.1.slot = l.slot ∧ w.1.path <+: l.path ∧
        w.1.char? = none ∧ (e.load w.1).defined = .null := by
    have hwrites := h.of_writes
    cases h with
    | found hx =>
      obtain rfl := Option.some.inj hl
      exact ⟨.nil e, hnull, nofun⟩
    | made =>
      obtain ⟨l', hl', -, hmissing, -, hstores, hpath⟩ := hwrites (by simp)
      obtain rfl := Option.some.inj (hl.symm.trans hl')
      exact ⟨hstores, by rw [hmissing]; rfl, hpath⟩
    | nowhere => cases hl
  obtain ⟨hstores, hempty, hpath⟩ := hbefore
  refine Settles.bind ((comes_store l (.array .empty)).mono ?_ fun _ hf => hf)
  rintro _ _ e₁ _ - ⟨rfl, rfl, harray⟩
  refine Settles.bind ((comes_element .empty l k).mono ?_ fun _ hf => hf)
  rintro _ _ e₂ _ - ⟨rfl, rfl, ⟨hsome, -⟩ | ⟨-, rfl, hchild⟩⟩
  · exact absurd rfl hsome
  · refine settles_pure ⟨rfl, ?_⟩
    have hmissing : e.load (l.child k) = .undefined := by
      rw [load_child hwhole]
      cases hload : e.load l with
      | array t => rw [hload] at hempty; cases hempty
      | _ => rfl
    have hwrites : ws ++ ([(l, Value.array .empty)] ++ ([(l.child k, Value.null)] ++ [])) =
        (ws ++ [(l, Value.array .empty)]) ++ [(l.child k, Value.null)] := by
      simp
    rw [hwrites]
    refine .made hwhole rfl hmissing (load_of_store hchild).2 ((hstores.snoc harray).snoc hchild) ?_
    refine List.forall_mem_append.2 ⟨fun w hw => ?_, List.forall_mem_singleton.2 ?_⟩
    · obtain ⟨hscope, hslot, hprefix, hchar, hload⟩ := hpath w hw
      exact ⟨hscope, hslot, hprefix.trans (List.prefix_append ..), hchar, hload⟩
    · exact ⟨rfl, rfl, List.prefix_append .., hwhole, hempty⟩

/-- A value that is equal to another one once it is defined is the same value, if it is not null. -/
theorem eq_of_defined {v w : Value} (h : v.defined = w) (hw : w ≠ .null) : v = w := by
  cases v with
  | undefined => exact absurd h.symm hw
  | _ => exact h

theorem under_of_null (hx : x.defined = .null) (refused : Bool) (k : Key) :
    x.under refused k = .ok .undefined := by
  rw [← Value.under_defined, hx]
  rfl

theorem descend_whole {l : Location} (hwhole : l.char? = none) (level : Level) :
    descend level (some l) = load l >>= fun
      | .undefined | .null => do
        store l (.array .empty)
        return some (← element .empty l level.key?)
      | .array t => return some (← element t l level.key?)
      | .bool _ | .number _ => do
        noting level.place.line false (Noting.remark .scalarAsArray)
        return none
      | .string s => return some (← character level l s)
      | .object _ c => fatal (.objectAsArray c) := by
  exact if_neg (by simp [hwhole])

/-- One level down from a place where there was something. -/
theorem comes_descend_found {l : Location} (hwhole : l.char? = none)
    (hx : x.defined = (e.load l).defined) (hsome : x.defined ≠ .null) (hk : level.key? = some k)
    (hy : x.under level.byref k = .ok y) :
    Comes e (descend level (some l)) fun l?' items e'' ws => items = [] ∧ Lands e y l?' e'' ws := by
  have hunder : (e.load l).under level.byref k = .ok y := by
    rw [← Value.under_defined, ← hx, Value.under_defined, hy]
  rw [descend_whole hwhole, hk]
  refine Finds.bind (finds_load ?_)
  cases hload : e.load l with
  | undefined | null => exact absurd (hx.trans (by rw [hload]; rfl)) hsome
  | array t =>
    rw [hload] at hunder
    obtain rfl := Except.ok.inj hunder
    refine Settles.bind ((comes_element t l k).mono ?_ fun _ hf => hf)
    have hchild : e.load (l.child k) = (t.get? k).getD .undefined := by
      rw [load_child hwhole, hload]
    rintro _ _ e₁ _ - ⟨rfl, rfl, ⟨-, rfl, rfl⟩ | ⟨hnone, rfl, hstore⟩⟩
    · exact settles_pure ⟨rfl, .found (by rw [hchild])⟩
    · rw [hnone, Option.getD_none] at hchild ⊢
      have hmade : Lands e .undefined (some (l.child k)) e₁ ([] ++ [(l.child k, Value.null)]) :=
        .made hwhole rfl hchild (load_of_store hstore).2 ((Stores.nil e).snoc hstore) nofun
      exact settles_pure ⟨rfl, hmade⟩
  | bool b | number n =>
    rw [hload] at hunder
    obtain rfl := Except.ok.inj hunder
    refine Finds.bind ((finds_remark _ _ _).mono (fun _ _ _ => ?_) fun _ hf => hf)
    exact settles_pure ⟨rfl, .nowhere rfl⟩
  | string s =>
    refine Finds.bind ((finds_character hk l).mono ?_ fun _ _ => trivial)
    rintro _ - ⟨hbyref, rfl, -⟩
    rw [hload, hbyref] at hunder
    obtain rfl := Except.ok.inj hunder
    exact settles_pure ⟨rfl, .found (by rw [load_atChar hwhole hload])⟩
  | object i c => exact settles_throw trivial

/-- One level down. -/
theorem Lands.comes_descend (h : Lands e x l? e' ws) (hk : level.key? = some k)
    (hy : x.under level.byref k = .ok y) :
    Comes e' (descend level l?) fun l?' items e'' ws' =>
      items = [] ∧ Lands e y l?' e'' (ws ++ ws') := by
  cases l? with
  | none =>
    cases h with
    | nowhere hx =>
      obtain rfl := Except.ok.inj ((under_of_null hx _ _).symm.trans hy)
      exact settles_pure ⟨rfl, .nowhere rfl⟩
  | some l =>
    by_cases hchar : l.char?.isSome
    · have hfatal : descend level (some l) = fatal .characterAsArray := by simp [descend, hchar]
      rw [hfatal]
      exact settles_throw trivial
    have hwhole : l.char? = none := by simpa using hchar
    by_cases hsome : x.defined = .null
    · obtain rfl := Except.ok.inj ((under_of_null hsome _ _).symm.trans hy)
      have hnull : (e'.load l).defined = .null := h.shown.trans hsome
      have hmade := h.comes_null rfl hwhole hnull k
      rw [descend_whole hwhole, hk]
      refine Finds.bind (finds_load ?_)
      cases hload : e'.load l with
      | undefined | null => exact hmade
      | _ => rw [hload] at hnull; cases hnull
    · cases h with
      | found hx => exact comes_descend_found hwhole hx hsome hk hy
      | made _ hx => exact absurd hx hsome

/-- Where the walk is refused, so is the way down. -/
theorem Lands.stops_descend {c : Fatal} (h : Lands e x l? e' ws) (hk : level.key? = some k)
    (hc : x.under level.byref k = .error c) : Stops e' (descend level l?) fun _ => True := by
  have hsome : x.defined ≠ .null := by
    intro hx
    cases (under_of_null hx _ _).symm.trans hc
  cases h with
  | @found l hx =>
    by_cases hchar : l.char?.isSome
    · have hfatal : descend level (some l) = fatal .characterAsArray := by simp [descend, hchar]
      rw [hfatal]
      exact stops_throw trivial
    have hwhole : l.char? = none := by simpa using hchar
    rw [← Value.under_defined, hx, Value.under_defined] at hc
    rw [descend_whole hwhole]
    refine Finds.stops (Finds.bind (finds_load ?_))
    cases hload : e.load l with
    | string s =>
      rw [hload] at hc
      refine Finds.bind ((finds_character hk l).mono ?_ fun _ _ => trivial)
      rintro _ - ⟨hbyref, -⟩
      rw [hbyref] at hc
      cases hc
    | object i c => exact settles_throw trivial
    | _ => rw [hload] at hc; cases hc
  | made _ hx => exact absurd hx hsome
  | nowhere hx => exact absurd hx hsome

/-- All levels down, along a walk; or the walk is refused, and so is the way down. -/
theorem Lands.comes_descendAll {levels : List Level}
    (hkeys : ∀ level ∈ levels, level.key?.isSome) (h : Lands e x l? e' ws) :
    Comes e' (descendAll levels l?) fun l?' items e'' ws' =>
      items = [] ∧ ∃ y, x.walk true levels = .ok y ∧ Lands e y l?' e'' (ws ++ ws') := by
  induction levels generalizing x l? e' ws with
  | nil => exact settles_pure ⟨rfl, x, rfl, by rwa [List.append_nil]⟩
  | cons level rest ih =>
    obtain ⟨hkey, hrest⟩ := List.forall_mem_cons.1 hkeys
    obtain ⟨k, hk⟩ := Option.isSome_iff_exists.1 hkey
    have hstep : x.step true level = x.under level.byref k := by
      rw [Value.step, hk]
      rfl
    rw [descendAll]
    cases hunder : x.under level.byref k with
    | error c =>
      exact Settles.bind (Settles.located _ (Stops.settles (h.stops_descend hk hunder)))
    | ok y =>
      refine Settles.bind (Settles.located _ ((h.comes_descend hk hunder).mono ?_ fun _ hf => hf))
      rintro l?' _ e₁ ws₁ - ⟨rfl, hlands⟩
      refine (ih hrest hlands).mono ?_ fun _ hf => hf
      rintro l?'' _ e₂ ws₂ - ⟨rfl, z, hz, hlast⟩
      refine ⟨rfl, z, ?_, by rwa [← List.append_assoc]⟩
      rw [Value.walk_cons, hstep, hunder]
      exact hz

/-! ## Roots -/

/-- Declaring a name finds what looking it up finds, or makes a slot with null. -/
theorem ends_lookup_declare (x : String) :
    Ends (Scoped.lookup x none) e
      (fun l? e' => e' = e ∧ Ends (Scoped.declare x none) e
        (fun r e₁ => l? = some r ∧ e₁ = e ∨ l? = none ∧ e₁.load r = .null) fun _ _ => False)
      fun _ _ => Ends (Scoped.declare x none) e (fun _ _ => False) fun _ _ => True := by
  rw [Scoped.ends_lookup]
  refine ⟨fun hnone => ?_, fun s hs => ⟨fun hfree => ⟨rfl, ?_⟩, fun slot hname =>
    ⟨fun howner => ?_, fun o ho => ⟨rfl, ?_⟩⟩⟩⟩
  · exact Scoped.ends_declare.2 ⟨fun _ => trivial,
      fun s hs => absurd (hs.symm.trans hnone) (Option.some_ne_none _)⟩
  -- From here on the scope is there.
  all_goals
    refine Scoped.ends_declare.2 ⟨fun hnone => absurd (hs.symm.trans hnone) (Option.some_ne_none _),
      fun s' hs' => ?_⟩
    obtain rfl := Option.some.inj (hs.symm.trans hs')
  · refine ⟨fun _ => .inr ⟨rfl, ?_⟩, fun slot hname =>
      absurd (hname.symm.trans hfree) (Option.some_ne_none _)⟩
    have hnew : (Scoped.declared (none.getD e.current) x e).value? (none.getD e.current)
        e.nextSlot = some .null := by
      rw [value?_declared hs, if_pos ⟨rfl, rfl⟩]
    rw [load_eq (l := ⟨none.getD e.current, e.nextSlot, [], none⟩) hnew rfl, Value.descend]
  · refine ⟨fun hfree => absurd (hname.symm.trans hfree) (Option.some_ne_none _),
      fun slot' hname' => ?_⟩
    obtain rfl := Option.some.inj (hname.symm.trans hname')
    exact ⟨fun _ => trivial, fun o ho => absurd (ho.symm.trans howner) (Option.some_ne_none _)⟩
  · refine ⟨fun hfree => absurd (hname.symm.trans hfree) (Option.some_ne_none _),
      fun slot' hname' => ?_⟩
    obtain rfl := Option.some.inj (hname.symm.trans hname')
    refine ⟨fun howner => absurd (ho.symm.trans howner) (Option.some_ne_none _),
      fun o' ho' => .inl ⟨?_, rfl⟩⟩
    rw [Option.some.inj (ho.symm.trans ho')]

/-- What is left of declaring a name on the machine. -/
theorem returns_declare {p : Place} {x : String} {r : Location} {e₁ : Environment}
    (hrun : (Scoped.declare x none).run.run e = (.ok r, e₁)) :
    Returns e (located p (inScope (Scoped.declare x none) >>= fun r => pushLocation (some r)) >>=
      fun _ => popLocation) (some r) [] e₁ [] := by
  have hplace : located p (inScope (Scoped.declare x none) >>= fun r => pushLocation (some r)) >>=
      (fun _ => popLocation) = located p ((inScope (Scoped.declare x none) >>= fun r =>
        pure (some r)) >>= pushLocation) >>= fun _ => popLocation >>= pure := by
    simp only [bind_assoc, pure_bind, bind_pure]
  rw [hplace]
  refine Settles.returns (Settles.popLocation (Settles.located _ (Settles.pushLocation
    (Settles.bind ((returns_inScope hrun).settles (settles_pure ?_))))))
  exact ⟨rfl, some r, rfl, settles_pure ⟨rfl, rfl, rfl, rfl⟩⟩

/-- A variable is looked up and declared alike: where its name leads, the place holds what is seen
when it is looked up. -/
theorem root_cases (e : Environment) (h : Head) (name : Datum) :
    (∃ root, Returns e (peekRoot (.variable h name)) root [] e [] ∧
      Comes e (Term.evalRoot (.variable h name)) fun l? items e₁ ws =>
        items = [] ∧ ws = [] ∧ Lands e₁ root.value l? e₁ [] ∧ ∃ x r, variableName name = pure x ∧
          (Scoped.declare x none).run.run e = (.ok r, e₁)) ∨
    Stops e (peekRoot (.variable h name)) (fun _ => True) ∧
      Stops e (Term.evalRoot (.variable h name)) fun _ => True := by
  rw [Term.evalRoot, variableBody, peekRoot]
  obtain ⟨x, hx⟩ | ⟨c, hc⟩ | ⟨b, hb⟩ := variableName_cases name
  case inr.inl =>
    rw [hc]
    exact .inr ⟨(stops_throw trivial).bind, ((stops_throw trivial).bind.located h.place).bind⟩
  case inr.inr =>
    rw [hb]
    exact .inr ⟨(stops_throw trivial).bind, ((stops_throw trivial).bind.located h.place).bind⟩
  have hends := ends_lookup_declare (e := e) x
  simp only [hx, pure_bind]
  rcases hlookup : (Scoped.lookup x none).run.run e with ⟨b | l?, e₂⟩
  · refine .inr ⟨(stops_inScope hlookup trivial).bind, ?_⟩
    have hstops : Stops e (inScope (Scoped.declare x none)) fun _ => True := by
      rcases hrun : (Scoped.declare x none).run.run e with ⟨b' | r, e₁⟩
      · exact stops_inScope hrun trivial
      · exact ((hends.of_error hlookup).of_ok hrun).elim
    exact (hstops.bind.located h.place).bind
  · obtain ⟨rfl, hends⟩ := hends.of_ok hlookup
    obtain ⟨r, e₁, hrun, hcase⟩ := hends.returns
    have hplace : ∀ x' : Value, Lands e₁ x' (some r) e₁ [] → Comes e₂
        (located h.place (inScope (Scoped.declare x none) >>= fun r => pushLocation (some r)) >>=
          fun _ => popLocation)
        fun l? items e₁ ws => items = [] ∧ ws = [] ∧ Lands e₁ x' l? e₁ [] ∧
          ∃ x' r, pure x = (pure x' : Run String) ∧
            (Scoped.declare x' none).run.run e₂ = (.ok r, e₁) := by
      intro x' hlands
      exact (returns_declare hrun).settles ⟨rfl, rfl, hlands, x, r, rfl, hrun⟩
    rcases hcase with ⟨rfl, rfl⟩ | ⟨rfl, hnull⟩
    · refine .inl ⟨⟨e₁.load r, some r⟩, returns_iff.2 ?_, hplace _ (.found rfl)⟩
      exact Finds.bind ((returns_inScope hlookup).finds (finds_view rfl))
    · refine .inl ⟨.fresh .undefined, returns_iff.2 ?_, hplace _ (.found (by rw [hnull]; rfl))⟩
      exact Finds.bind ((returns_inScope hlookup).finds (finds_pure rfl))

/-! ## Targets -/

section Target

variable {target value : Term} {levels : List Level} {h : Head} {Q : Outcome Unit}
  {E : Fault → Prop}

/-- Where a target is resolved: its variable is declared, and a walk from there that comes to `y`
has landed. -/
def Reaches (e : Environment) (target : Term) (y : Value) (l? : Option Location)
    (e' : Environment) (ws : List Write) : Prop :=
  ∃ h name x r e₁, target.root = .variable h name ∧ variableName name = pure x ∧
    (Scoped.declare x none).run.run e = (.ok r, e₁) ∧ Lands e₁ y l? e' ws

/-- A target is resolved along the walk from where its variable stands. -/
theorem resolve_cases (ht : target.Chain) (hkeyed : target.Keyed)
    (hkeys : Returns e target.evalKeys levels [] e []) :
    (∃ root, Returns e (peekRoot target) root [] e [] ∧
      Comes e (resolve target.root levels) fun l? items e' ws =>
        items = [] ∧ ∃ y, root.value.walk true levels = .ok y ∧ Reaches e target y l? e' ws) ∨
    Stops e (peekRoot target) (fun _ => True) ∧
      Stops e (resolve target.root levels) fun _ => True := by
  have hsome : ∀ level ∈ levels, level.key?.isSome := by
    obtain ⟨said, hrun⟩ := hkeys ⟨e, [], [], "", []⟩ rfl
    exact ((ends_evalKeys_levels target _).of_ok hrun).2 hkeyed
  obtain ⟨h, name, hroot⟩ := ht.exists_root
  rw [← peekRoot_root, hroot]
  rcases root_cases e h name with ⟨root, hpeek, hplace⟩ | ⟨hpeek, hplace⟩
  · refine .inl ⟨root, hpeek, Settles.bind (hplace.mono ?_ fun _ hf => hf)⟩
    rintro l? _ e₁ _ - ⟨rfl, rfl, hlands, x, r, hx, hrun⟩
    refine (hlands.comes_descendAll hsome).mono ?_ fun _ hf => hf
    rintro l?' _ e₂ ws - ⟨rfl, y, hy, hlast⟩
    exact ⟨rfl, y, hy, h, name, x, r, e₁, hroot, hx, hrun, hlast⟩
  · exact .inr ⟨hpeek, hplace.bind⟩

theorem eval_subscript_write (head : Head) (base key : Term) :
    (Term.subscript head base key).eval (some .write) =
      ((Term.subscript head base key).evalKeys >>= resolve (Term.subscript head base key).root) >>=
        Run.pushLocation := by
  simp only [Term.eval, Term.evalKeys, resolve, Term.root, Term.evalRoot_root, bind_assoc,
    pure_bind]

/-- A target that is evaluated to be written is resolved under its keys. -/
theorem Settles.place {β : Type} {R : Outcome β} {g : Option Location → Run β} (ht : target.Chain)
    (hE : ∀ f p, E f → E (f.locate p))
    (h : Settles e (target.evalKeys >>= resolve target.root) (fun l? items e' ws => items = [] ∧
      Settles e' (g l?) (fun b items' e'' ws' => R b items' e'' (ws ++ ws')) E) E) :
    Settles e (do
      Run.within target (target.eval (some .write))
      let l? ← Run.popLocation
      g l?) R E := by
  cases target with
  | subscript head base key =>
    rw [eval_subscript_write]
    refine Settles.popLocation (Settles.within (Settles.pushLocation
      (h.mono ?_ fun _ hf => hf)) hE _)
    rintro l? _ e' ws - ⟨rfl, hg⟩
    exact ⟨rfl, l?, rfl, hg⟩
  | «variable» head name =>
    have hwrite : (Term.variable head name).evalKeys >>= resolve (Term.variable head name).root =
        Run.within (.variable head name) ((Term.variable head name).eval (some .write)) >>= fun _ =>
          Run.popLocation := by
      rw [Term.evalKeys, pure_bind]
      · simp only [resolve, Term.root, Term.evalRoot, descendAll, bind_pure]
        rfl
      · simp
    rw [hwrite] at h
    rw [← bind_assoc]
    refine Settles.bind (h.mono ?_ fun _ hf => hf)
    rintro l? _ e' ws - ⟨rfl, hg⟩
    simpa only [List.map_nil, List.append_nil] using hg
  | _ => exact ht.elim

/-- A plain assignment writes its value where the target is resolved. -/
theorem Settles.assign (ht : target.Chain) (hE : ∀ f p, E f → E (f.locate p))
    (habsent : value.isAbsent = true → E (.breach .missingOperand))
    (hvalue : Gives e (Run.within value (value.eval (some .read))) (fun v =>
      Settles e (target.evalKeys >>= resolve target.root) (fun l? items e' ws => items = [] ∧
        Settles e' (writeTo h.place.line l? v.value.defined >>= pushView)
          (fun b items' e'' ws' => Q b items' e'' (ws ++ ws')) E) E) E) :
    Settles e (assignBody h target value (target.eval (some .write)) (value.eval (some .read)))
      Q E := by
  unfold assignBody
  rw [pushPending_eq target, if_neg (by simp [ht.isAbsent])]
  refine Gives.beneath habsent (hvalue.mono (fun v _ hplace => ?_) fun _ hf => hf)
  rw [push_resume]
  exact Settles.place ht hE hplace

/-- Once the target of an assignment with an operator is resolved, the operator is applied to what
is there, and the result is written. -/
theorem Settles.combine {op : BinaryOp} {line : Json} {v : View}
    (hplace : Settles e (resolve target.root levels) (fun l? items e' ws => items = [] ∧
      Settles e' (do
          let result ← noting line false
            (Value.applyBinary op (← loadOrNull l?) (v.followAll ws).value)
          pushView (← writeTo line l? result.defined))
        (fun b items' e'' ws' => Q b items' e'' (ws ++ ws')) E) E) :
    Settles e (Run.combine line op target v levels) Q E := by
  refine Settles.holding (Settles.pushLocation (hplace.mono ?_ fun _ hf => hf))
  rintro l? _ e' ws - ⟨rfl, hwrite⟩
  exact ⟨rfl, l?, rfl, hwrite⟩

/-- An assignment with an operator whose target does not stand evaluates its value. -/
theorem Settles.compound {op : BinaryOp} (hkeys : Returns e target.evalKeys levels [] e [])
    (hstanding : Returns e (standing op target levels) none [] e [])
    (habsent : value.isAbsent = true → E (.breach .missingOperand))
    (hvalue : Gives e (Run.within value (value.eval (some .read)))
      (fun v => Settles e (Run.combine h.place.line op target v levels) Q E) E) :
    Settles e (compoundBody h op target value target.evalKeys target.evalRoot
      (value.eval (some .read))) Q E := by
  rw [compoundBody_eq, combined, bind_assoc]
  refine Finds.bind (hkeys.finds ?_)
  rw [bind_assoc]
  refine Finds.bind (hstanding.finds ?_)
  simp only [bind_assoc, pure_bind, Sum.elim_inr]
  exact Gives.operand habsent fun _ => hvalue

/-- An assignment stops where its target cannot be resolved. -/
theorem stops_assign (ht : target.Chain)
    (hvalue : Shows e (Run.within value (value.eval (some .read))))
    (hstops : Stops e (target.evalKeys >>= resolve target.root) fun _ => True) :
    Stops e (assignBody h target value (target.eval (some .write)) (value.eval (some .read)))
      fun _ => True :=
  Stops.of_settles (Settles.assign ht (fun _ _ hf => hf) (fun _ => trivial)
    (hvalue.mono (fun _ _ _ => hstops.settles) fun _ hf => hf))

theorem stops_compound {op : BinaryOp} (hkeys : Returns e target.evalKeys levels [] e [])
    (hstanding : Returns e (standing op target levels) none [] e [])
    (hvalue : Shows e (Run.within value (value.eval (some .read))))
    (hstops : Stops e (resolve target.root levels) fun _ => True) :
    Stops e (compoundBody h op target value target.evalKeys target.evalRoot
      (value.eval (some .read))) fun _ => True :=
  Stops.of_settles (Settles.compound hkeys hstanding (fun _ => trivial)
    (hvalue.mono (fun _ _ _ => Settles.combine hstops.settles) fun _ hf => hf))

/-- A store comes to the same wherever it is made. -/
theorem store_cases (e : Environment) (l : Location) (v : Value) :
    (∃ e', Returns e (store l v) () [] e' [(l, v)]) ∨ Stops e (store l v) fun _ => True := by
  rcases comes_store (e := e) l v with ⟨_, _, e', _, hrun, rfl, rfl, -⟩ | hstops
  · exact .inl ⟨e', hrun⟩
  · exact .inr hstops

/-- A character is written if its offset is no larger than an integer; whether more of the text is
remarked on does not matter. -/
theorem Settles.writeCharacter {l : Location} {offset : Int} {v : Value} {s text : String}
    {c : Char} {more : List Char} {line : Json} {Q : Outcome Value} (hoffset : ¬ offset < 0)
    (hs : e.load l.container = .string s)
    (htext : Returns e (noting line false v.toText) text [] e []) (hc : text.toList = c :: more)
    (hlimit : maxInt < offset → E (.crash .outOfRange))
    (hstore : ¬ maxInt < offset → Settles e (do
      Run.store l.container (.string (String.ofList (writeAt s.toList offset.toNat c)))
      return Value.string c.toString) Q E) :
    Settles e (Run.writeCharacter line l offset v) Q E := by
  unfold Run.writeCharacter
  rw [if_neg hoffset]
  refine Finds.bind (finds_load ?_)
  rw [hs]
  refine Finds.bind (htext.finds ?_)
  rw [hc]
  have hlast : Settles e (do
      if maxInt < offset then crash .outOfRange
      else
        Run.store l.container (.string (String.ofList (writeAt s.toList offset.toNat c)))
        return Value.string c.toString) Q E := by
    split
    · exact settles_throw (hlimit ‹_›)
    · exact hstore ‹_›
  cases more with
  | nil =>
    simp only [List.isEmpty_nil, Bool.not_true, Bool.false_eq_true, if_false]
    exact hlast
  | cons d ds =>
    simp only [List.isEmpty_cons, Bool.not_false, if_true]
    exact Finds.bind ((finds_remark _ _ _).mono (fun _ _ _ => hlast) fun _ hf => hf)

/-- What becomes of a character that is written does not depend on where it is logged. -/
theorem writeCharacter_cases (e : Environment) (l : Location) (offset : Int) (v : Value) :
    (∃ w e' ws, ∀ line, Returns e (writeCharacter line l offset v) w [] e' ws) ∨
      ∀ line, Stops e (writeCharacter line l offset v) fun _ => True := by
  by_cases hoffset : offset < 0
  · refine .inl ⟨.null, e, [], fun _ => returns_iff.2 ?_⟩
    rw [Run.writeCharacter, if_pos hoffset]
    exact finds_pure rfl
  cases hs : e.load l.container with
  | string s =>
    rcases noting_cases v.toText with ⟨text, htext⟩ | hstops
    · cases hc : text.toList with
      | nil =>
        refine .inr fun line => ?_
        rw [Run.writeCharacter, if_neg hoffset]
        refine Finds.stops (Finds.bind (finds_load ?_))
        rw [hs]
        refine Finds.bind ((htext e line false).finds ?_)
        rw [hc]
        exact settles_throw trivial
      | cons c more =>
        have hwrite := fun (Q : Outcome Value) (E : Fault → Prop) line =>
          Settles.writeCharacter (Q := Q) (E := E) hoffset hs (htext e line false) hc
        by_cases hlimit : maxInt < offset
        · exact .inr fun line => Settles.stops
            (hwrite (fun _ _ _ _ => False) _ line (fun _ => trivial) (absurd hlimit))
            fun _ _ _ _ hf => hf
        · generalize Value.string (String.ofList (writeAt s.toList offset.toNat c)) = new at hwrite
          rcases store_cases e l.container new with ⟨e', hrun⟩ | hstops
          · refine .inl ⟨.string c.toString, e', [(l.container, new)] ++ [], fun line => ?_⟩
            refine Settles.returns (hwrite _ _ line (fun h => absurd h hlimit) fun _ => ?_)
            exact Returns.settles (hrun.bind (f := fun _ => pure (Value.string c.toString))
              (returns_iff.2 (finds_pure rfl))) ⟨rfl, rfl, rfl, rfl⟩
          · exact .inr fun line => Settles.stops
              (hwrite (fun _ _ _ _ => False) _ line (fun _ => trivial)
                fun _ => hstops.bind.settles)
              fun _ _ _ _ hf => hf
    · refine .inr fun line => ?_
      rw [Run.writeCharacter, if_neg hoffset]
      refine Finds.stops (Finds.bind (finds_load ?_))
      rw [hs]
      exact (hstops e line false).bind.settles
  | _ =>
    refine .inr fun line => ?_
    rw [Run.writeCharacter, if_neg hoffset]
    refine Finds.stops (Finds.bind (finds_load ?_))
    rw [hs]
    exact settles_throw trivial

/-- What a write comes to, or whether it stops, does not depend on where it is logged. -/
theorem writeTo_cases (e : Environment) (l? : Option Location) (v : Value) :
    (∃ w e' ws, ∀ line, Returns e (writeTo line l? v) w [] e' ws) ∨
      ∀ line, Stops e (writeTo line l? v) fun _ => True := by
  unfold writeTo
  cases l? with
  | none => exact .inl ⟨_, e, [], fun _ => returns_iff.2 (finds_pure rfl)⟩
  | some l =>
    cases hchar : l.char? with
    | some offset =>
      simp only [hchar]
      rcases writeCharacter_cases e l offset v with ⟨w, e', ws, hrun⟩ | hstops
      · refine .inl ⟨.fresh w, e', ws ++ [], fun line => ?_⟩
        exact (hrun line).bind (f := fun w => pure (View.fresh w)) (returns_iff.2 (finds_pure rfl))
      · exact .inr fun line => (hstops line).bind
    | none =>
      simp only [hchar]
      rcases store_cases e l v with ⟨e', hrun⟩ | hstops
      · refine .inl ⟨⟨v, some l⟩, e', [(l, v)] ++ [], fun _ => ?_⟩
        exact hrun.bind (f := fun _ => pure (View.mk v (some l))) (returns_iff.2 (finds_pure rfl))
      · exact .inr fun _ => hstops.bind

end Target

end Run

end PhpInterpreter
