import PhpInterpreter.Proofs.Machine.Program
import PhpInterpreter.Proofs.Machine.Readback
import PhpInterpreter.Proofs.Scope.Survival
import PhpInterpreter.Proofs.Value.Path

/-!
Writing to a variable under keys, and reading it again. The way down to the place that is written
makes arrays and elements where there are none, all in the cell of the variable; so whatever the
depth, the write changes this one cell, along the path, and reading along the path finds the value.
-/

namespace PhpInterpreter

open Run Environment

/-! ## Environments -/

theorem Action.Own.owned {a : Action} {e : Environment} (h : a.Own e) :
    a.Owned e ∧ ∀ l v, a ≠ .store l v := by
  cases a with
  | bind name l i? =>
    cases i? with
    | none =>
      obtain ⟨source, -, -, -, howner, hpath, hchar⟩ := h
      exact ⟨⟨hpath, hchar, l.scope, howner⟩, by simp⟩
    | some j => exact False.elim h
  | store l v => exact False.elim h
  | _ => exact ⟨trivial, by simp⟩

namespace Environment

variable {e e' : Environment} {ws : List Write} {name : String} {root l : Location} {v w : Value}

/-- The environments that operations lead to, in any order and whether they succeed or not, if
names are bound to slots with an owner and tidy values are stored under normal keys. -/
inductive Reachable : Environment → Prop
  | init : Reachable init
  | act {e : Environment} {a : Action} (h : Reachable e) (ha : a.Owned e)
      (hstore : ∀ l v, a = .store l v → (v.Tidy fun _ => True) ∧ ∀ k ∈ l.path, k.Normal) :
      Reachable (a.apply e)

namespace Reachable

theorem effect (he : Effect e ws e') (hw : (Contract.tidy fun _ => True).Writes ws)
    (h : Reachable e) : Reachable e' := by
  induction he with
  | refl => exact h
  | act ha => exact h.act ha.owned.1 fun l v hstore => absurd hstore (ha.owned.2 l v)
  | @store e e' l v hr =>
    have hact : Reachable ((Action.store l v).apply e) := by
      refine h.act trivial ?_
      rintro _ _ ⟨⟩
      exact hw (l, v) List.mem_cons_self
    rwa [Action.apply, hr] at hact
  | trans _ _ ih ih' =>
    have hfirst := ih (fun w hin => hw w (List.mem_append_left _ hin)) h
    exact ih' (fun w hin => hw w (List.mem_append_right _ hin)) hfirst

theorem attained (h : Reachable e) : Attained e := by
  induction h with
  | init => exact .init
  | act _ ha _ ih => exact ih.act ha

theorem cells (h : Reachable e) : (Contract.tidy fun _ => True).Cells e := by
  induction h with
  | init => exact Contract.cells_init _
  | act _ _ hstore ih => exact ih.apply hstore

/-- Running a tree, on any stack, is a row of operations. -/
theorem run {m : Machine} (h : Reachable m.env) (n : Node) : Reachable (n.run m).2.env := by
  obtain ⟨ws, he, hw⟩ := Contract.run_effect (.tidy fun _ => True) n ⟨h.cells, False.elim⟩ id
  exact h.effect he hw

theorem tidy {i slot : Int} (h : Reachable e) :
    ((e.value? i slot).getD .null).Tidy fun _ => True := by
  cases hv : e.value? i slot with
  | none => exact .null
  | some v =>
    obtain ⟨s, hs, hslot⟩ := Option.bind_eq_some_iff.1 hv
    exact h.cells _ (Assoc.mem_of_get? hs) _ (Assoc.mem_of_get? hslot)

end Reachable

theorem written_written (l : Location) (v w : Value) (e : Environment) :
    Scoped.written l v (Scoped.written l w e) = Scoped.written l v e := by
  simp only [Scoped.written, modifyScope, Assoc.modify_modify]

theorem written_self (h : e.value? l.scope l.slot = some v) : Scoped.written l v e = e := by
  obtain ⟨s, hs, hslot⟩ := Option.bind_eq_some_iff.1 h
  have hsame : Assoc.modify l.scope
      (fun s => { s with cells := Assoc.modify l.slot (fun _ => v) s.cells }) e.scopes =
      e.scopes := by
    refine Assoc.modify_eq_self fun t ht => ?_
    obtain rfl : s = t := Option.some.inj (hs.symm.trans ht)
    rw [Assoc.modify_eq_self fun u hu => Option.some.inj (hslot.symm.trans hu)]
  rw [Scoped.written, modifyScope, hsame]

theorem value?_written_self (h : e.value? l.scope l.slot = some v) :
    (Scoped.written l w e).value? l.scope l.slot = some w := by
  rw [value?_written, if_pos ⟨rfl, rfl⟩, h]
  rfl

theorem load_written (h : e.value? l.scope l.slot = some v) (hwhole : l.char? = none)
    (path : List Key) : (Scoped.written l w e).load { l with path := path } = w.descend path :=
  load_eq (value?_written_self h) hwhole

theorem load_getD (hwhole : l.char? = none) (path : List Key) :
    e.load { l with path := path } =
      ((e.value? l.scope l.slot).getD .undefined).descend path := by
  cases hv : e.value? l.scope l.slot with
  | some v => exact load_eq hv hwhole
  | none =>
    have hcell : (e.scope? l.scope).bind (fun s => Assoc.get? l.slot s.cells) = none := hv
    rw [load, hcell]
    exact (Value.descend_undefined path).symm

/-- The environment `e'` is `e` with the name declared in the current scope, where it stands for the
slot at `root`. -/
structure Declares (e : Environment) (name : String) (root : Location) (e' : Environment) :
    Prop where
  bound : e'.Names e'.current name root
  cell : e'.value? root.scope root.slot = some ((e.value? root.scope root.slot).getD .null)
  cells : ∀ i slot, (i, slot) ≠ (root.scope, root.slot) → e'.value? i slot = e.value? i slot
  names : ∀ i n l, e.Names i n l → e'.Names i n l

theorem Indexed.declared_names {i : Int} {s : Scope} {n : String} (h : Indexed e)
    (hs : e.scope? e.current = some s) (hfree : Assoc.get? name s.names = none)
    (hn : e.Names i n l) : (Scoped.declared e.current name e).Names i n l := by
  obtain ⟨t, ht, hname, howner, hwhole⟩ := hn
  have hslot : (Scoped.declared e.current name e).slot? i n = some l.slot := by
    rw [slot?_declared hs, if_neg, slot?, ht]
    · exact hname
    · rintro ⟨rfl, rfl⟩
      obtain rfl : s = t := Option.some.inj (hs.symm.trans ht)
      exact Option.some_ne_none _ (hname.symm.trans hfree)
  obtain ⟨t', ht', hname'⟩ := Option.bind_eq_some_iff.1 hslot
  refine ⟨t', ht', hname', ?_, hwhole⟩
  have hlt := h.slot_lt _ _ ((h.owner_iff _ _).1 howner)
  exact (Assoc.get?_insert ..).trans ((if_neg (Int.ne_of_gt hlt)).trans howner)

theorem Indexed.ends_declare (h : Indexed e) (name : String) :
    Ends (Scoped.declare name none) e (fun root e' => Declares e name root e') fun _ _ => True := by
  rw [Scoped.ends_declare]
  refine ⟨fun _ => trivial, fun s hs => ⟨fun hfree => ?_, fun slot hname => ⟨fun _ => trivial, ?_⟩⟩⟩
  · have hnew : e.value? e.current e.nextSlot = none := by
      cases hv : e.value? e.current e.nextSlot with
      | none => rfl
      | some v => exact absurd (h.slot_lt _ _ (holds_iff.2 ⟨v, hv⟩)) (Int.lt_irrefl _)
    refine ⟨Scoped.names_declared hs, ?_, fun i slot hne => ?_, fun i n l hn => ?_⟩
    · rw [value?_declared hs, if_pos ⟨rfl, rfl⟩]
      exact congrArg (fun v? => some (Option.getD v? .null)) hnew.symm
    · rw [value?_declared hs, if_neg]
      rintro ⟨rfl, rfl⟩
      exact hne rfl
    · exact h.declared_names hs hfree hn
  · intro o ho
    obtain ⟨v, hv⟩ := holds_iff.1 ((h.owner_iff slot o).1 ho)
    refine ⟨⟨s, hs, hname, ho, rfl, rfl⟩, ?_, fun _ _ _ => rfl, fun _ _ _ hn => hn⟩
    rw [hv, Option.getD_some]

end Environment

/-! ## The way down -/

section Down

open Scoped (written)

variable {e : Environment} {root : Location} {old c c' : Value} {m : Machine}
  {log : List Diagnostic} {keys : List (Option Key)} {path : List Key} {t : Table Value}

/-- A store in the cell of `root`. -/
theorem Run.ends_store_written {x : Value} (hcell : e.value? root.scope root.slot = some old)
    (hwhole : root.char? = none) (hm : m.env = written root c e)
    (hset : c.setAt? path x = some c') :
    Ends (store { root with path := path } x) m
      (fun _ m' => m'.env = written root c' e ∧ m'.log = m.log) fun _ _ => False := by
  have hvalue : m.env.value? root.scope root.slot = some c := by rw [hm, value?_written_self hcell]
  obtain ⟨s, hs, hslot⟩ := Option.bind_eq_some_iff.1 hvalue
  simp only [Run.store, ends_bind, ends_inScope, Scoped.ends_store, ends_modify]
  refine ⟨fun hsome => by simp [hwhole] at hsome, fun _ => ⟨fun hnone => by simp [hs] at hnone, ?_⟩⟩
  intro s' hs'
  obtain rfl : s = s' := Option.some.inj (hs.symm.trans hs')
  refine ⟨fun hnone => by simp [hslot] at hnone, fun c₀ hc₀ => ?_⟩
  obtain rfl : c = c₀ := Option.some.inj (hslot.symm.trans hc₀)
  refine ⟨fun hnone => by simp [hset] at hnone, fun c₁ hc₁ => ⟨?_, trivial⟩⟩
  obtain rfl : c' = c₁ := Option.some.inj (hset.symm.trans hc₁)
  rw [hm]
  exact written_written root c' c e

/-- Down some levels: if a whole place was reached, it lies in the cell of `root`, which was written
along the path to it, and all else is as in `e`. -/
def Under (e : Environment) (log : List Diagnostic) (root : Location) (old : Value)
    (keys : List (Option Key)) (l? : Option Location) (m : Machine) : Prop :=
  ∀ l, l? = some l → l.char? = none → ∃ c path, l = { root with path := path } ∧
    m.env = written root c e ∧ m.log = log ∧ Value.Along Value.Along.Found keys path old c

/-- The element of an array in the cell of `root`. -/
theorem Run.ends_element (hcell : e.value? root.scope root.slot = some old)
    (hwhole : root.char? = none) (hm : m.env = written root c e) (hlog : m.log = log)
    (h : Value.Along (Value.Along.Opened t) keys path old c) (key? : Option Key) :
    Ends (element t { root with path := path } key?) m
      (fun l m' => Under e log root old (keys ++ [key?]) (some l) m') fun _ _ => False := by
  have hmake : ∀ k, t.contains k = false → (key? = some k ∨ key? = none ∧ k = .int t.next) →
      Ends (store { root with path := path ++ [k] } .null) m
        (fun _ m' => Under e log root old (keys ++ [key?])
          (some { root with path := path ++ [k] }) m') fun _ _ => False := by
    intro k hk hkey
    obtain ⟨o, ho⟩ := h.end_related
    obtain ⟨c', hset⟩ := Option.isSome_iff_exists.1 (Value.settable_concat ho.2.1 k .null)
    refine (ends_store_written hcell hwhole hm hset).mono ?_ fun _ _ hf => hf
    rintro - m' ⟨hm', hlog'⟩ _ ⟨⟩ -
    exact ⟨c', path ++ [k], rfl, hm', hlog'.trans hlog, h.made hk hkey hset⟩
  unfold element
  split
  · simp only [ends_bind, ends_pure]
    exact hmake _ h.next_free (.inr ⟨rfl, rfl⟩)
  · rename_i k
    cases hk : t.contains k with
    | false =>
      simp only [Bool.not_false, if_true, ends_bind, ends_pure]
      exact hmake k hk (.inl rfl)
    | true =>
      simp only [Bool.not_true, Bool.false_eq_true, if_false, ends_pure]
      rintro _ ⟨⟩ -
      exact ⟨c, path ++ [k], rfl, hm, hlog, h.found hk⟩

/-- A character of a string is no whole place. -/
theorem Run.ends_character (level : Level) (l : Location) (s : String) :
    Ends (character level l s) m (fun l' _ => l'.char? ≠ none) fun _ _ => True := by
  have hfinish : ∀ (offset position : Int) (m : Machine),
      Ends (do
        if position < 0 then
          noting level.place.line false
            (Noting.mention false ((integerText offset).map .offsetBeforeStart))
        return l.atChar position) m (fun l' _ => l'.char? ≠ none) fun _ _ => True := by
    intro offset position m
    have hplace : (l.atChar position).char? ≠ none := by simp [Location.atChar]
    split
    · simp only [ends_bind, ends_pure]
      exact (ends_trivial _ _).mono (fun _ _ _ => hplace) fun _ _ h => h
    · exact hplace
  unfold character
  split
  · trivial
  · split
    · trivial
    · rename_i key _
      cases key with
      | int k =>
        simp only [ends_bind, ends_pure]
        exact hfinish k _ m
      | str k =>
        simp only [ends_bind, ends_pure]
        exact (ends_trivial _ _).mono (fun _ m' _ => hfinish 0 _ m') fun _ _ h => h

/-- One level down. -/
theorem Run.ends_descend (hcell : e.value? root.scope root.slot = some old)
    (hwhole : root.char? = none) {l? : Option Location} (h : Under e log root old keys l? m)
    (level : Level) :
    Ends (descend level l?) m
      (fun l? m' => Under e log root old (keys ++ [level.key?]) l? m') fun _ _ => True := by
  have hnone : ∀ m', Under e log root old (keys ++ [level.key?]) none m' := by
    rintro m' _ ⟨⟩
  unfold descend
  split
  · exact hnone m
  · rename_i l
    split
    · trivial
    · rename_i hchar
      obtain ⟨c, path, rfl, hm, hlog, halong⟩ := h l rfl (by simpa using hchar)
      have hload : m.env.load { root with path := path } = c.descend path := by
        rw [hm, load_written hcell hwhole]
      have hempty : (c.descend path).isNull = true →
          Ends (do
            store { root with path := path } (.array .empty)
            return some (← element .empty { root with path := path } level.key?)) m
            (fun l? m' => Under e log root old (keys ++ [level.key?]) l? m') fun _ _ => True := by
        intro hnull
        obtain ⟨c', hset⟩ := Option.isSome_iff_exists.1 (halong.settable (.array .empty))
        simp only [ends_bind, ends_pure]
        refine (ends_store_written hcell hwhole hm hset).mono ?_ fun _ _ hf => hf.elim
        rintro - m' ⟨hm', hlog'⟩
        have hopened := halong.opened_empty hnull hset
        exact (ends_element hcell hwhole hm' (hlog'.trans hlog) hopened level.key?).mono
          (fun _ _ hu => hu) fun _ _ hf => hf.elim
      simp only [ends_bind, ends_load, hload]
      cases hc : c.descend path with
      | undefined | null => exact hempty (by rw [hc]; rfl)
      | array t =>
        simp only [ends_bind, ends_pure]
        exact (ends_element hcell hwhole hm hlog (halong.opened hc) level.key?).mono
          (fun _ _ hu => hu) fun _ _ hf => hf.elim
      | bool b | number x =>
        simp only [ends_bind, ends_pure]
        exact (ends_trivial _ _).mono (fun _ m' _ => hnone m') fun _ _ hf => hf
      | string s =>
        simp only [ends_bind, ends_pure]
        refine (ends_character level _ s).mono ?_ fun _ _ hf => hf
        rintro _ m' hchar _ ⟨⟩ hplace
        exact absurd hplace hchar
      | object i c => trivial

/-- All levels down. -/
theorem Run.ends_descendAll (hcell : e.value? root.scope root.slot = some old)
    (hwhole : root.char? = none) {l? : Option Location} (h : Under e log root old keys l? m)
    (levels : List Level) :
    Ends (descendAll levels l?) m
      (fun l? m' => Under e log root old (keys ++ levels.map (·.key?)) l? m') fun _ _ => True := by
  induction levels generalizing keys l? m with
  | nil =>
    rw [List.map_nil, List.append_nil]
    exact h
  | cons level rest ih =>
    simp only [descendAll, ends_bind, ends_located]
    refine (ends_descend hcell hwhole h level).mono (fun l? m' h' => ?_) fun _ _ _ => trivial
    rw [List.map_cons, List.append_cons]
    exact ih h'

/-- The root of the way down: the name of a variable is declared. -/
theorem Run.ends_evalRoot (h : Head) (name : Datum) (hm : Indexed m.env) :
    Ends (Term.evalRoot (.variable h name)) m
      (fun l? m' => ∃ x root, variableName name = pure x ∧ l? = some root ∧
        Declares m.env x root m'.env ∧ m'.log = m.log) fun _ _ => True := by
  obtain ⟨x, hx⟩ | ⟨e, he⟩ | ⟨b, hb⟩ := variableName_cases name
  · simp only [Term.evalRoot, variableBody, hx, ends_bind, ends_located, ends_pure, ends_inScope,
      ends_pushLocation]
    refine (hm.ends_declare x).mono (fun root e' hd => ?_) fun _ _ _ => trivial
    rw [ends_popLocation rfl]
    exact ⟨x, root, rfl, rfl, hd, rfl⟩
  · simp only [Term.evalRoot, variableBody, he, ends_bind, ends_located, ends_fatal]
  · simp only [Term.evalRoot, variableBody, hb, ends_bind, ends_located, ends_breach]

end Down

/-! ## Reading again -/

/-- Read in the environment, the term leaves the view on the stack and changes nothing else. -/
structure Term.Shows (e : Environment) (t : Term) (v : View) : Prop where
  present : t.isAbsent = false
  eval : ∀ m : Machine, m.env = e → Ends (t.eval (some .read)) m
    (fun _ m' => m' = { m with stack := .value v :: m.stack }) fun _ _ => False

/-- The term under subscripts, from the inside out. -/
def Term.under (t : Term) (subscripts : List (Head × Term)) : Term :=
  subscripts.foldl (fun t p => .subscript p.1 t p.2) t

namespace Term.Shows

variable {e : Environment} {base key : Term} {k : Key} {w : Value}

theorem of_names {name : Datum} {x : String} {l : Location} (hx : variableName name = pure x)
    (hl : e.Names e.current x l) (h : Head) : Shows e (.variable h name) ⟨e.load l, some l⟩ := by
  refine ⟨rfl, fun m hm => ?_⟩
  subst hm
  have hlookup : Ends (Scoped.lookup x none) m.env (fun l? e => l? = some l ∧ e = m.env)
      fun _ _ => False := by
    have hrun : (Scoped.lookup x none).run.run m.env = (.ok (some l), m.env) := lookup_of_names hl
    simp [Ends, hrun]
  simp only [Term.eval, variableBody, hx, ends_bind, ends_pure, ends_inScope]
  refine hlookup.mono ?_ fun _ _ hf => hf
  rintro _ _ ⟨rfl, rfl⟩
  simp

theorem subscript {t : Table Value} {home? : Option Location}
    (hbase : Shows e base ⟨.array t, home?⟩) (hkey : key.Denotes k.toValue) (hk : k.Normal)
    (hw : t.get? k = some w) (h : Head) :
    Shows e (.subscript h base key) ⟨w, home?.map (·.child k)⟩ := by
  refine ⟨rfl, fun m hm => ?_⟩
  subst hm
  have hpresent : key ≠ .absent := by
    rintro rfl
    cases hkey.present
  have heval : Term.eval (.subscript h base key) (some .read) =
      readSubscript h false base key (base.eval (some .read)) (key.eval (some .read)) := by
    rw [Term.eval]
    · rfl
    · simp
    · exact hpresent
  simp only [heval, readSubscript, ends_bind, ends_pushPending, hkey.present, hbase.present,
    Bool.false_eq_true, if_false]
  have hbase' := hbase.eval { m with stack := .pending key (some .read) :: m.stack } rfl
  refine ends_resume_within rfl (hbase'.mono ?_ fun _ _ hf => hf)
  rintro - _ rfl
  rw [ends_popView rfl]
  refine ends_holding (fun _ _ _ hf => hf) (hkey.ends_resume rfl ⟨_, _, rfl, ?_⟩)
  rw [ends_popView rfl, ends_noting]
  refine hk.ends_toKey.mono ?_ fun _ _ hf => hf
  rintro _ _ ⟨rfl, rfl⟩
  simp [subscriptView, hw, logged_nil]

/-- Reading down the path of a write. -/
theorem under {R : Value → Value → Prop} {keys : List (Option Key)} {path : List Key}
    {old c : Value} {l : Location} {subscripts : List (Head × Term)}
    (hc : Value.Along R keys path old c) (hbase : Shows e base ⟨c, some l⟩)
    (hkeys : ∀ k ∈ path, k.Normal)
    (hsubscripts : List.Forall₂ (fun p k => p.2.Denotes k.toValue) subscripts path) :
    Shows e (base.under subscripts) ⟨c.descend path, some { l with path := l.path ++ path }⟩ := by
  induction hc generalizing base l subscripts with
  | nil =>
    cases hsubscripts
    rw [Value.descend, List.append_nil]
    exact hbase
  | @cons _ _ k path _ _ _ _ _ _ _ hinner _ ih =>
    cases hsubscripts with
    | @cons p _ subscripts _ hkey hrest =>
      obtain ⟨hk, hkeys⟩ := List.forall_mem_cons.1 hkeys
      rw [Value.descend, hinner, List.append_cons]
      exact ih (hbase.subscript hkey hk hinner p.1) hkeys hrest

end Term.Shows

/-! ## Writing -/

/-- The environment `e'` is `e` with `v` written to `l`, a place in the cell of a variable. The keys
that lead there are given, or left to the arrays. -/
structure Environment.Placed (e : Environment) (keys : List (Option Key)) (l : Location) (v : Value)
    (e' : Environment) : Prop where
  load : e'.load l = v
  cells : ∀ i slot, (i, slot) ≠ (l.scope, l.slot) → e'.value? i slot = e.value? i slot
  names : ∀ i n x, e.Names i n x → e'.Names i n x
  beside : ∀ q, ¬ q <+: l.path → ¬ l.path <+: q →
    e'.load { l with path := q } = e.load { l with path := q }
  length : l.path.length = keys.length
  /-- An array on the path differs from what was there in the next key, which was there before or is
  new and last. -/
  levels : ∀ p k rest, l.path = p ++ k :: rest → ∃ t t',
    (e.load { l with path := p }).table? = some t ∧ e'.load { l with path := p } = .array t' ∧
      t.Differs k t' ∧
      (keys[p.length]? = some (some k) ∨
        keys[p.length]? = some none ∧ k = .int t.next ∧ t.contains k = false)

theorem Environment.Declares.placed {e e' : Environment} {name : String} {root : Location}
    {keys : List (Option Key)} {path : List Key} {v c : Value} (h : Declares e name root e')
    (hwhole : root.char? = none)
    (hc : Value.Along (fun _ new => new = v) keys path
      ((e.value? root.scope root.slot).getD .null) c) :
    e.Placed keys { root with path := path } v (Scoped.written root c e') where
  load := by
    obtain ⟨-, hend⟩ := hc.end_related
    exact (load_written h.cell hwhole path).trans hend
  cells i slot hne := by
    rw [value?_written, if_neg, h.cells i slot hne]
    rintro ⟨rfl, rfl⟩
    exact hne rfl
  names i n x hn := (h.names i n x hn).written root c
  beside q hq hpath := by
    have hne : q ≠ [] := by
      rintro rfl
      exact hq List.nil_prefix
    calc (Scoped.written root c e').load { root with path := q }
      _ = c.descend q := load_written h.cell hwhole q
      _ = ((e.value? root.scope root.slot).getD .null).descend q := hc.descend_of_beside hq hpath
      _ = ((e.value? root.scope root.slot).getD .undefined).descend q :=
        Value.descend_getD_null _ hne
      _ = e.load { root with path := q } := (load_getD hwhole q).symm
  length := hc.length_eq.symm
  levels p k rest hp := by
    obtain ⟨t, t', ht, ht', hdiffers⟩ := hc.differs hp
    refine ⟨t, t', ?_, (load_written h.cell hwhole p).trans ht', hdiffers⟩
    exact ((congrArg _ (load_getD hwhole p)).trans
      (Value.table?_descend_getD_null _ p).symm).trans ht

/-- Resolving a variable under levels: its name is declared, and the way down is in its cell. -/
theorem Run.ends_resolve {m : Machine} (h : Head) (name : Datum) (levels : List Level)
    (hm : Reachable m.env) :
    Ends (Term.evalRoot (.variable h name) >>= descendAll levels) m
      (fun l? m' => ∃ x root e', variableName name = pure x ∧ Declares m.env x root e' ∧
        Under e' m.log root ((m.env.value? root.scope root.slot).getD .null)
          (levels.map (·.key?)) l? m') fun _ _ => True := by
  rw [ends_bind]
  refine (ends_evalRoot h name hm.attained.indexed).mono ?_ fun _ _ _ => trivial
  rintro _ m' ⟨x, root, hx, rfl, hd, hlog⟩
  obtain ⟨-, -, -, -, hpath, hwhole⟩ := id hd.bound
  have hstart : Under m'.env m.log root ((m.env.value? root.scope root.slot).getD .null) []
      (some root) m' := by
    rintro _ ⟨⟩ -
    refine ⟨_, [], ?_, (written_self hd.cell).symm, hlog, .nil ⟨rfl, hm.tidy⟩⟩
    rw [← hpath]
  exact (ends_descendAll hd.cell hwhole hstart levels).mono
    (fun _ _ hu => ⟨x, root, m'.env, hx, hd, hu⟩) fun _ _ _ => trivial

theorem Run.writeTo_whole {l : Location} (h : l.char? = none) (line : Json) (v : Value) :
    writeTo line (some l) v = (do store l v; return ⟨v, some l⟩) := by
  simp only [writeTo, h]

/-- A variable is written under keys, in any environment that operations lead to. If the keys lead
to a slot or an element, the value is written there without a remark and nothing beside the path
changes, in this cell or another; and the variable read under the same keys shows the value. -/
theorem writeTo_resolved {m m₁ : Machine} {h : Head} {name : Datum} {levels : List Level}
    {l : Location} (hm : Reachable m.env)
    (hkeys : ∀ level ∈ levels, ∀ k, level.key? = some k → k.Normal)
    (hresolve : (Term.evalRoot (.variable h name) >>= descendAll levels).outcome m =
      (.ok (some l), m₁)) (hplace : l.char? = none) (line : Json) (v : Value) :
    ∃ m₂, (writeTo line (some l) v).outcome m₁ = (.ok ⟨v, some l⟩, m₂) ∧ m₂.log = m.log ∧
      m.env.Placed (levels.map (·.key?)) l v m₂.env ∧
      ∀ (head : Head) (subscripts : List (Head × Term)) (m₃ : Machine), m₃.env = m₂.env →
        List.Forall₂ (fun p k => p.2.Denotes k.toValue) subscripts l.path →
        (((Term.variable head name).under subscripts).eval (some .read)).outcome m₃ =
          (.ok (), { m₃ with stack := .value ⟨v, some l⟩ :: m₃.stack }) := by
  obtain ⟨x, root, e, hx, hd, hunder⟩ := (ends_resolve h name levels hm).of_ok hresolve
  obtain ⟨c, path, rfl, hm₁, hlog, halong⟩ := hunder l rfl hplace
  obtain ⟨-, -, -, -, hpath, hwhole⟩ := id hd.bound
  obtain ⟨c', hset⟩ := Option.isSome_iff_exists.1 (halong.settable v)
  have hwrite : Ends (writeTo line (some { root with path := path }) v) m₁
      (fun w m₂ => w = ⟨v, some { root with path := path }⟩ ∧
        m₂.env = Scoped.written root c' e ∧ m₂.log = m₁.log) fun _ _ => False := by
    simp only [writeTo_whole hplace, ends_bind, ends_pure, true_and]
    exact ends_store_written hd.cell hwhole hm₁ hset
  obtain ⟨_, m₂, hrun, rfl, hm₂, hlog₂⟩ := hwrite.returns
  have hwritten : Value.Along (fun _ new => new = v) (levels.map (·.key?)) path
      ((m.env.value? root.scope root.slot).getD .null) c' := by
    refine halong.setAt (q := []) (by rwa [List.append_nil]) fun _ w _ hw => ?_
    simpa [Value.setAt?] using hw.symm
  refine ⟨m₂, hrun, hlog₂.trans hlog, ?_, fun head subscripts m₃ hm₃ hsubscripts => ?_⟩
  · rw [hm₂]
    exact hd.placed hwhole hwritten
  · have hnormal : ∀ k ∈ path, k.Normal := by
      refine hwritten.normal fun k hk => ?_
      obtain ⟨level, hlevel, hkey⟩ := List.mem_map.1 hk
      exact hkeys level hlevel k hkey
    have hshown := Term.Shows.of_names hx (hd.bound.written root c') head
    have hroot : (Scoped.written root c' e).load root = c' := by
      rw [load_eq (cell?_written hd.cell) hwhole, hpath, Value.descend]
    rw [hroot] at hshown
    have hread := (hshown.under hwritten hnormal hsubscripts).eval m₃ (hm₃.trans hm₂)
    obtain ⟨_, _, hrun₃, rfl⟩ := hread.returns
    rw [Value.descend_setAt? hset, hpath] at hrun₃
    exact hrun₃

/-- The levels of `['k'][]`. -/
def keyThenAppend : List Level := [⟨default, false, some (.str "k")⟩, ⟨default, false, none⟩]

/-- The subscripts of `['k'][1]`. -/
def keyThenOne : List (Head × Term) :=
  [(default, .literal ⟨"string", default, false⟩ (.string "k")),
    (default, .literal ⟨"number", default, false⟩ (.scalar (.number (.int 1))))]

/-- Where the levels of a variable lead after a text was run on a new machine. -/
def placeAfter (text name : String) (levels : List Level) : Option (Option Location) := do
  let n ← (Source.tree text).toOption
  let resolve := Term.evalRoot (.variable default (.string name)) >>= descendAll levels
  (resolve.outcome (n.run .init).2).1.toOption

/-- An array assigned from another one keeps its contents when that one is appended to, one level
down. -/
theorem writeTo_resolved_copy :
    ∃ n m₁ m₂ l, Source.tree "$a = ['k' => [1]]; $b = $a;" = .ok n ∧
      l = ⟨0, 1, [.str "k", .int 1], none⟩ ∧
      (Term.evalRoot (.variable default (.string "$a")) >>= descendAll keyThenAppend).outcome
        (n.run .init).2 = (.ok (some l), m₁) ∧
      (writeTo .null (some l) (.int 5)).outcome m₁ = (.ok ⟨.int 5, some l⟩, m₂) ∧
      (((Term.variable default (.string "$a")).under keyThenOne).eval (some .read)).outcome m₂ =
        (.ok (), { m₂ with stack := .value ⟨.int 5, some l⟩ :: m₂.stack }) ∧
      m₂.env.load ⟨0, 2, [], none⟩ = (n.run .init).2.env.load ⟨0, 2, [], none⟩ := by
  have hplace : placeAfter "$a = ['k' => [1]]; $b = $a;" "$a" keyThenAppend =
      some (some ⟨0, 1, [.str "k", .int 1], none⟩) := by decide +kernel
  simp only [placeAfter, Option.bind_eq_bind, Option.bind_eq_some_iff] at hplace
  obtain ⟨n, hn, hresult⟩ := hplace
  have hresult := eq_ok_of_toOption hresult
  rcases hresolve : (Term.evalRoot (.variable default (.string "$a")) >>=
    descendAll keyThenAppend).outcome (n.run .init).2 with ⟨r, m₁⟩
  rw [hresolve] at hresult
  obtain rfl : r = _ := hresult
  have hnormal : ∀ level ∈ keyThenAppend, ∀ k, level.key? = some k → k.Normal := by
    simp [keyThenAppend, show (Key.str "k").Normal from rfl]
  obtain ⟨m₂, hrun, -, hplaced, hread⟩ :=
    writeTo_resolved (Reachable.init.run (m := .init) n) hnormal hresolve rfl .null (.int 5)
  have hcell := hplaced.cells 0 2 (by simp)
  refine ⟨n, m₁, m₂, _, eq_ok_of_toOption hn, rfl, hresolve, hrun, ?_, ?_⟩
  · refine hread default keyThenOne m₂ rfl (.cons ?_ (.cons ?_ .nil))
    · exact denotes_literal rfl rfl
    · exact denotes_literal rfl rfl
  · exact ((load_getD (l := ⟨0, 2, [], none⟩) rfl []).trans (by rw [hcell])).trans
      (load_getD (l := ⟨0, 2, [], none⟩) rfl []).symm

end PhpInterpreter
