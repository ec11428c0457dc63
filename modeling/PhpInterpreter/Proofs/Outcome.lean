import PhpInterpreter.Machine.Program

/-!
How computations with state and errors end. `Ends act s Q E` says what holds of the result and the
state if `act` returns, and of the error and the state if it stops; the equivalences below push it
through sequencing, so a body is run symbolically by `simp`.
-/

namespace PhpInterpreter

variable {ε σ α β : Type}

/-- From `s`, `act` returns with `Q` or stops with `E`. -/
def Ends (act : ExceptT ε (StateM σ) α) (s : σ) (Q : α → σ → Prop) (E : ε → σ → Prop) : Prop :=
  match act.run.run s with
  | (.ok a, t) => Q a t
  | (.error e, t) => E e t

variable {s : σ} {Q : α → σ → Prop} {E : ε → σ → Prop}

@[simp] theorem ends_pure (a : α) : Ends (pure a : ExceptT ε (StateM σ) α) s Q E ↔ Q a s := Iff.rfl

@[simp] theorem ends_throw (e : ε) :
    Ends (throw e : ExceptT ε (StateM σ) α) s Q E ↔ E e s := Iff.rfl

@[simp] theorem ends_bind (act : ExceptT ε (StateM σ) α) (f : α → ExceptT ε (StateM σ) β)
    {R : β → σ → Prop} :
    Ends (act >>= f) s R E ↔ Ends act s (fun a t => Ends (f a) t R E) E := by
  simp only [Ends, ExceptT.run_bind, StateT.run_bind]
  rcases act.run.run s with ⟨r, t⟩
  cases r <;> rfl

@[simp] theorem ends_map (f : α → β) (act : ExceptT ε (StateM σ) α) {R : β → σ → Prop} :
    Ends (f <$> act) s R E ↔ Ends act s (fun a t => R (f a) t) E := by
  rw [← bind_pure_comp, ends_bind]
  rfl

@[simp] theorem ends_get {R : σ → σ → Prop} :
    Ends (get : ExceptT ε (StateM σ) σ) s R E ↔ R s s := Iff.rfl

@[simp] theorem ends_getThe {R : σ → σ → Prop} :
    Ends (getThe σ : ExceptT ε (StateM σ) σ) s R E ↔ R s s := Iff.rfl

@[simp] theorem ends_set (t : σ) {R : PUnit → σ → Prop} :
    Ends (set t : ExceptT ε (StateM σ) PUnit) s R E ↔ R ⟨⟩ t := Iff.rfl

@[simp] theorem ends_modify (f : σ → σ) {R : PUnit → σ → Prop} :
    Ends (modify f : ExceptT ε (StateM σ) PUnit) s R E ↔ R ⟨⟩ (f s) := Iff.rfl

@[simp] theorem ends_modifyGet (f : σ → α × σ) :
    Ends (modifyGet f : ExceptT ε (StateM σ) α) s Q E ↔ Q (f s).1 (f s).2 := Iff.rfl

theorem Ends.mono {act : ExceptT ε (StateM σ) α} {Q' : α → σ → Prop} {E' : ε → σ → Prop}
    (h : Ends act s Q E) (hQ : ∀ a t, Q a t → Q' a t) (hE : ∀ e t, E e t → E' e t) :
    Ends act s Q' E' := by
  unfold Ends at h ⊢
  generalize act.run.run s = p at h ⊢
  obtain ⟨r, t⟩ := p
  cases r with
  | ok a => exact hQ a t h
  | error e => exact hE e t h

theorem Ends.and {act : ExceptT ε (StateM σ) α} {Q' : α → σ → Prop} {E' : ε → σ → Prop}
    (h : Ends act s Q E) (h' : Ends act s Q' E') :
    Ends act s (fun a t => Q a t ∧ Q' a t) (fun e t => E e t ∧ E' e t) := by
  unfold Ends at h h' ⊢
  generalize act.run.run s = p at h h' ⊢
  obtain ⟨r, t⟩ := p
  cases r with
  | ok a => exact ⟨h, h'⟩
  | error e => exact ⟨h, h'⟩

/-- What holds of the state either way holds of the state after the computation. -/
theorem Ends.state {act : ExceptT ε (StateM σ) α} {P : σ → Prop}
    (h : Ends act s (fun _ => P) (fun _ => P)) : P (act.run.run s).2 := by
  unfold Ends at h
  generalize act.run.run s = p at h ⊢
  obtain ⟨r, t⟩ := p
  cases r <;> exact h

theorem ends_iff {act : ExceptT ε (StateM σ) α} :
    Ends act s Q E ↔
      (∀ a t, act.run.run s = (.ok a, t) → Q a t) ∧
        ∀ e t, act.run.run s = (.error e, t) → E e t := by
  unfold Ends
  generalize act.run.run s = p
  obtain ⟨r, t⟩ := p
  cases r with
  | ok a => exact ⟨fun h => ⟨by rintro _ _ ⟨⟩; exact h, nofun⟩, fun h => h.1 a t rfl⟩
  | error e => exact ⟨fun h => ⟨nofun, by rintro _ _ ⟨⟩; exact h⟩, fun h => h.2 e t rfl⟩

theorem ends_trivial (act : ExceptT ε (StateM σ) α) (s : σ) :
    Ends act s (fun _ _ => True) fun _ _ => True := by
  rw [ends_iff]
  exact ⟨fun _ _ _ => trivial, fun _ _ _ => trivial⟩

theorem Ends.of_ok {act : ExceptT ε (StateM σ) α} {a : α} {t : σ} (h : Ends act s Q E)
    (hr : act.run.run s = (.ok a, t)) : Q a t := (ends_iff.1 h).1 a t hr

theorem Ends.of_error {act : ExceptT ε (StateM σ) α} {e : ε} {t : σ} (h : Ends act s Q E)
    (hr : act.run.run s = (.error e, t)) : E e t := (ends_iff.1 h).2 e t hr

theorem Ends.returns {act : ExceptT ε (StateM σ) α} (h : Ends act s Q fun _ _ => False) :
    ∃ a t, act.run.run s = (.ok a, t) ∧ Q a t := by
  unfold Ends at h
  generalize act.run.run s = p at h ⊢
  obtain ⟨r, t⟩ := p
  cases r with
  | ok a => exact ⟨a, t, rfl, h⟩
  | error e => exact h.elim

/-! ## Computations without state -/

theorem exists_of_bind_eq_ok {x : Except ε α} {f : α → Except ε β} {b : β}
    (h : x >>= f = .ok b) : ∃ a, x = .ok a ∧ f a = .ok b := by
  cases x with
  | ok a => exact ⟨a, rfl, h⟩
  | error e => cases h

theorem eq_ok_of_toOption {x : Except ε α} {a : α} (h : x.toOption = some a) : x = .ok a := by
  cases x with
  | ok b => exact congrArg _ (Option.some.inj h)
  | error e => cases h

theorem exists_of_mem_mapM {f : α → Except ε β} {l : List α} {bs : List β}
    (h : l.mapM f = .ok bs) : ∀ b ∈ bs, ∃ a ∈ l, f a = .ok b := by
  induction l generalizing bs with
  | nil =>
    obtain rfl := Except.ok.inj h
    exact nofun
  | cons a rest ih =>
    rw [List.mapM_cons] at h
    obtain ⟨b, hb, h⟩ := exists_of_bind_eq_ok h
    obtain ⟨bs', hbs', h⟩ := exists_of_bind_eq_ok h
    obtain rfl := Except.ok.inj h
    refine List.forall_mem_cons.2 ⟨⟨a, List.mem_cons_self, hb⟩, fun b' hb' => ?_⟩
    obtain ⟨a', ha', hf⟩ := ih hbs' b' hb'
    exact ⟨a', List.mem_cons_of_mem a ha', hf⟩

theorem exists_of_mapM_concat {f : α → Except ε β} {l : List α} {a : α} {bs : List β}
    (h : (l ++ [a]).mapM f = .ok bs) :
    ∃ bs' b, l.mapM f = .ok bs' ∧ f a = .ok b ∧ bs = bs' ++ [b] := by
  rw [List.mapM_append] at h
  obtain ⟨bs', hbs', h⟩ := exists_of_bind_eq_ok h
  obtain ⟨last, hlast, h⟩ := exists_of_bind_eq_ok h
  rw [List.mapM_cons] at hlast
  obtain ⟨b, hb, hlast⟩ := exists_of_bind_eq_ok hlast
  obtain rfl := Except.ok.inj hlast
  obtain rfl := Except.ok.inj h
  exact ⟨bs', b, hbs', hb, rfl⟩

/-! ## The machine's own combinators -/

namespace Run

variable {m : Machine} {R : α → Machine → Prop} {F : Fault → Machine → Prop}

theorem exists_of_isOk {act : Run α} (h : (act.outcome m).1.isOk = true) :
    ∃ a m', act.outcome m = (.ok a, m') := by
  generalize act.outcome m = p at h ⊢
  obtain ⟨r, m'⟩ := p
  cases r with
  | ok a => exact ⟨a, m', rfl⟩
  | error f => simp [Except.isOk, Except.toBool] at h

/-- A variable node has a name or none. -/
theorem variableName_cases (d : Datum) :
    (∃ s, variableName d = pure s) ∨ (∃ e, variableName d = fatal e) ∨
      ∃ b, variableName d = breach b := by
  unfold variableName
  split
  · exact .inr (.inl ⟨_, rfl⟩)
  · split
    · exact .inr (.inr ⟨_, rfl⟩)
    · exact .inl ⟨_, rfl⟩
  · exact .inr (.inr ⟨_, rfl⟩)

@[simp] theorem ends_fatal (e : Fatal) : Ends (fatal e : Run α) m R F ↔ F (.fatal e) m := Iff.rfl

@[simp] theorem ends_breach (b : Breach) :
    Ends (breach b : Run α) m R F ↔ F (.breach b) m := Iff.rfl

@[simp] theorem ends_crash (c : Crash) : Ends (crash c : Run α) m R F ↔ F (.crash c) m := Iff.rfl

@[simp] theorem ends_located (p : Place) (act : Run α) :
    Ends (located p act) m R F ↔ Ends act m R fun f t => F (f.locate p) t := by
  simp only [Ends, located, ExceptT.run, ExceptT.mk, StateT.run]
  rcases act m with ⟨r, t⟩
  cases r <;> rfl

@[simp] theorem ends_inScope (act : Scoped α) :
    Ends (inScope act) m R F ↔
      Ends act m.env (fun a e => R a { m with env := e })
        fun b e => F (.breach b) { m with env := e } := by
  simp only [Ends, inScope, ExceptT.run, ExceptT.mk, StateT.run]
  rcases act m.env with ⟨r, t⟩
  cases r <;> rfl

/-- The machine with the remarks of a computation logged for a line, unless it is quiet. -/
def logged (line : Json) (quiet : Bool) (remarks : List Remark) (m : Machine) : Machine :=
  { m with log := if quiet then m.log else m.log ++ remarks.map (⟨·, line⟩) }

@[simp] theorem ends_noting (line : Json) (quiet : Bool) (act : Noting α) :
    Ends (noting line quiet act) m R F ↔
      Ends act [] (fun a rs => R a (logged line quiet rs m)) fun f rs =>
        F f (logged line quiet rs m) := by
  simp only [Ends, noting, Noting.outcome, ExceptT.run, ExceptT.mk, StateT.run]
  rcases act [] with ⟨r, rs⟩
  cases r <;> rfl

@[simp] theorem ends_push (i : Item) {R : Unit → Machine → Prop} :
    Ends (push i) m R F ↔ R () { m with stack := i :: m.stack } := Iff.rfl

@[simp] theorem ends_pushView (v : View) {R : Unit → Machine → Prop} :
    Ends (pushView v) m R F ↔ R () { m with stack := .value v :: m.stack } := Iff.rfl

@[simp] theorem ends_pushValue (v : Value) {R : Unit → Machine → Prop} :
    Ends (pushValue v) m R F ↔ R () { m with stack := .value (.fresh v) :: m.stack } := Iff.rfl

@[simp] theorem ends_pushLocation (l? : Option Location) {R : Unit → Machine → Prop} :
    Ends (pushLocation l?) m R F ↔ R () { m with stack := .location l? :: m.stack } := Iff.rfl

@[simp] theorem ends_print (s : String) {R : Unit → Machine → Prop} :
    Ends (print s) m R F ↔ R () { m with output := m.output ++ s } := Iff.rfl

@[simp] theorem ends_load (l : Location) {R : Value → Machine → Prop} :
    Ends (load l) m R F ↔ R (m.env.load l) m := Iff.rfl

@[simp] theorem ends_view (l : Location) {R : View → Machine → Prop} :
    Ends (view l) m R F ↔ R ⟨m.env.load l, some l⟩ m := Iff.rfl

theorem ends_pop {i : Item} {rest : List Item} {R : Item → Machine → Prop}
    (h : m.stack = i :: rest) : Ends pop m R F ↔ R i { m with stack := rest } := by
  simp [pop, h]

theorem ends_popView {v : View} {rest : List Item} {R : View → Machine → Prop}
    (h : m.stack = .value v :: rest) : Ends popView m R F ↔ R v { m with stack := rest } := by
  simp [popView, ends_pop h]

theorem ends_popLocation {l? : Option Location} {rest : List Item}
    {R : Option Location → Machine → Prop} (h : m.stack = .location l? :: rest) :
    Ends popLocation m R F ↔ R l? { m with stack := rest } := by
  simp [popLocation, ends_pop h]

theorem ends_pushPending {t : Term} {intent? : Option Intent} {R : Unit → Machine → Prop} :
    Ends (pushPending t intent?) m R F ↔
      if t.isAbsent then F (.breach .missingOperand) m
      else R () { m with stack := .pending t intent? :: m.stack } := by
  cases t <;> rfl

/-- Evaluating the node on top of the stack, if that cannot stop. -/
theorem ends_resume_within {t : Term} {i? : Option Intent} {rest : List Item} {act : Run Unit}
    {R : Unit → Machine → Prop} (hstack : m.stack = .pending t i? :: rest)
    (h : Ends act { m with stack := rest } R fun _ _ => False) :
    Ends (resume (within t act)) m R F := by
  simp only [resume, ends_bind, ends_pop hstack]
  unfold within
  split
  · rw [ends_located]
    exact h.mono (fun _ _ hm => hm) fun _ _ hf => hf.elim
  · exact h.mono (fun _ _ hm => hm) fun _ _ hf => hf.elim

/-- Holding an operand puts it on the list and takes it off again, whatever happens. -/
theorem ends_holding {v : View} {act : Run Unit} {R : View → Machine → Prop}
    (hF : ∀ f t held, F f t → F f { t with held := held })
    (h : Ends act { m with held := v :: m.held }
      (fun _ t => ∃ w rest, t.held = w :: rest ∧ R w { t with held := rest }) F) :
    Ends (holding v act) m R F := by
  simp only [Ends, holding, ExceptT.run, ExceptT.mk, StateT.run] at h ⊢
  generalize act { m with held := v :: m.held } = p at h ⊢
  obtain ⟨r, t⟩ := p
  cases r with
  | ok a =>
    obtain ⟨w, rest, ht, hw⟩ := h
    simp only [ht]
    exact hw
  | error f =>
    cases ht : t.held with
    | nil =>
      simp only [ht]
      exact h
    | cons w rest =>
      simp only [ht]
      exact hF f t rest h

end Run

end PhpInterpreter
