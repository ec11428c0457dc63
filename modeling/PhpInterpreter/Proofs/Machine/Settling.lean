import PhpInterpreter.Proofs.Machine.Effect
import PhpInterpreter.Proofs.Machine.Reading
import PhpInterpreter.Proofs.Scope.Cell

/-!
Computations that are settled by the environment. Whatever waits on the stack, is held or was logged
before, such a computation comes to the same result, leaves the same items on the stack, and leads
to the same environment by the same writes; what waits only follows these writes. Expressions
without an assignment are settled: they leave a value or stop, and write nothing.
-/

namespace PhpInterpreter

open Run

namespace Machine

/-- The machine later on: with new items on its stack, in another environment and with more in its
log; the views that waited have followed what was written. -/
def after (m : Machine) (items : List Item) (e : Environment) (ws : List Write)
    (said : List Diagnostic) : Machine :=
  ⟨e, items ++ m.stack.map (Item.followAll ws), m.held.map (View.followAll ws), m.output,
    m.log ++ said⟩

theorem after_nil (m : Machine) (items : List Item) (said : List Diagnostic) :
    m.after items m.env [] said = { m with stack := items ++ m.stack, log := m.log ++ said } := by
  simp [after, Item.followAll_nil, View.followAll_nil]

theorem after_self (m : Machine) : m.after [] m.env [] [] = m := by
  simp [after, Item.followAll_nil, View.followAll_nil]

theorem after_after (m : Machine) (items items' : List Item) (e e' : Environment)
    (ws ws' : List Write) (said said' : List Diagnostic) :
    (m.after items e ws said).after items' e' ws' said' =
      m.after (items' ++ items.map (Item.followAll ws')) e' (ws ++ ws') (said ++ said') := by
  have hitems : Item.followAll ws' ∘ Item.followAll ws = Item.followAll (ws ++ ws') :=
    funext fun i => (i.followAll_append ws ws').symm
  have hviews : View.followAll ws' ∘ View.followAll ws = View.followAll (ws ++ ws') :=
    funext fun v => (v.followAll_append ws ws').symm
  simp [after, hitems, hviews]

end Machine

namespace Run

variable {α β : Type} {act : Run α} {f : α → Run β} {a : α} {b : β} {e e' e'' : Environment}
  {items items' : List Item} {ws ws' : List Write} {m : Machine}

/-! ## Settled outcomes -/

/-- What a settled computation comes to: its result, the items it leaves on the stack, the
environment and what it wrote. -/
abbrev Outcome (α : Type) : Type := α → List Item → Environment → List Write → Prop

/-- In the environment `e` the computation returns this on every machine. -/
def Returns (e : Environment) (act : Run α) (a : α) (items : List Item) (e' : Environment)
    (ws : List Write) : Prop :=
  ∀ m : Machine, m.env = e → ∃ said, act.outcome m = (.ok a, m.after items e' ws said)

/-- In the environment `e` the computation stops on every machine. -/
def Stops (e : Environment) (act : Run α) (E : Fault → Prop) : Prop :=
  ∀ m : Machine, m.env = e → ∃ f m', act.outcome m = (.error f, m') ∧ E f

/-- In the environment `e` the computation comes to one and the same outcome on every machine, or it
stops on every machine. -/
def Settles (e : Environment) (act : Run α) (Q : Outcome α) (E : Fault → Prop) : Prop :=
  (∃ a items e' ws, Returns e act a items e' ws ∧ Q a items e' ws) ∨ Stops e act E

/-- The computation is settled and changes nothing. -/
def Finds (e : Environment) (act : Run α) (P : α → Prop) (E : Fault → Prop) : Prop :=
  Settles e act (fun a items e' ws => items = [] ∧ e' = e ∧ ws = [] ∧ P a) E

/-- The computation is settled and leaves a view on the stack, and changes nothing else. -/
def Gives (e : Environment) (act : Run Unit) (P : View → Prop) (E : Fault → Prop) : Prop :=
  Settles e act (fun _ items e' ws => ∃ v, items = [.value v] ∧ e' = e ∧ ws = [] ∧ P v) E

variable {Q : Outcome α} {R : Outcome β} {P : α → Prop} {E : Fault → Prop}

theorem Returns.settles (h : Returns e act a items e' ws) (hQ : Q a items e' ws) :
    Settles e act Q E := .inl ⟨a, items, e', ws, h, hQ⟩

theorem Stops.settles (h : Stops e act E) : Settles e act Q E := .inr h

theorem finds_iff : Finds e act P E ↔ (∃ a, Returns e act a [] e [] ∧ P a) ∨ Stops e act E := by
  refine or_congr_left ⟨?_, fun ⟨a, hact, ha⟩ => ⟨a, [], e, [], hact, rfl, rfl, rfl, ha⟩⟩
  rintro ⟨a, _, _, _, hact, rfl, rfl, rfl, ha⟩
  exact ⟨a, hact, ha⟩

theorem gives_iff {act : Run Unit} {P : View → Prop} : Gives e act P E ↔
    (∃ v, Returns e act () [.value v] e [] ∧ P v) ∨ Stops e act E := by
  refine or_congr_left
    ⟨?_, fun ⟨v, hact, hv⟩ => ⟨(), [.value v], e, [], hact, v, rfl, rfl, rfl, hv⟩⟩
  rintro ⟨_, _, _, _, hact, v, rfl, rfl, rfl, hv⟩
  exact ⟨v, hact, hv⟩

theorem Stops.mono {E' : Fault → Prop} (h : Stops e act E) (hE : ∀ f, E f → E' f) :
    Stops e act E' := by
  intro m hm
  obtain ⟨f, m', hrun, hf⟩ := h m hm
  exact ⟨f, m', hrun, hE f hf⟩

theorem Settles.mono {Q' : Outcome α} {E' : Fault → Prop} (h : Settles e act Q E)
    (hQ : ∀ a items e' ws, Returns e act a items e' ws → Q a items e' ws → Q' a items e' ws)
    (hE : ∀ f, E f → E' f) : Settles e act Q' E' := by
  rcases h with ⟨a, items, e', ws, hact, h⟩ | h
  · exact hact.settles (hQ a items e' ws hact h)
  · exact (h.mono hE).settles

theorem Finds.mono {P' : α → Prop} {E' : Fault → Prop} (h : Finds e act P E)
    (hP : ∀ a, Returns e act a [] e [] → P a → P' a) (hE : ∀ f, E f → E' f) :
    Finds e act P' E' := by
  refine Settles.mono h ?_ hE
  rintro a _ _ _ hact ⟨rfl, rfl, rfl, ha⟩
  exact ⟨rfl, rfl, rfl, hP a hact ha⟩

theorem Gives.mono {act : Run Unit} {P P' : View → Prop} {E' : Fault → Prop} (h : Gives e act P E)
    (hP : ∀ v, Returns e act () [.value v] e [] → P v → P' v) (hE : ∀ f, E f → E' f) :
    Gives e act P' E' := by
  refine Settles.mono h ?_ hE
  rintro _ _ _ _ hact ⟨v, rfl, rfl, rfl, hv⟩
  exact ⟨v, rfl, rfl, rfl, hP v hact hv⟩

theorem Returns.eq {a' : α} (h : Returns e act a items e' ws)
    (h' : Returns e act a' items' e'' ws') :
    a = a' := by
  obtain ⟨said, hrun⟩ := h ⟨e, [], [], "", []⟩ rfl
  obtain ⟨said', hrun'⟩ := h' ⟨e, [], [], "", []⟩ rfl
  exact Except.ok.inj (congrArg Prod.fst (hrun.symm.trans hrun'))

theorem Returns.not_stops (h : Returns e act a items e' ws) : ¬ Stops e act E := by
  intro hstops
  obtain ⟨said, hrun⟩ := h ⟨e, [], [], "", []⟩ rfl
  obtain ⟨f, m', hrun', -⟩ := hstops ⟨e, [], [], "", []⟩ rfl
  cases hrun.symm.trans hrun'

/-! ## Sequences -/

theorem outcome_bind_of_ok {m' : Machine} (h : act.outcome m = (.ok a, m')) :
    (act >>= f).outcome m = (f a).outcome m' := by
  have hrun : act.run.run m = (.ok a, m') := h
  simp only [outcome, ExceptT.run_bind, StateT.run_bind, hrun]
  rfl

theorem outcome_bind_of_error {fault : Fault} {m' : Machine}
    (h : act.outcome m = (.error fault, m')) : (act >>= f).outcome m = (.error fault, m') := by
  have hrun : act.run.run m = (.error fault, m') := h
  simp only [outcome, ExceptT.run_bind, StateT.run_bind, hrun]
  rfl

theorem Stops.bind (h : Stops e act E) : Stops e (act >>= f) E := by
  intro m hm
  obtain ⟨fault, m', hrun, hfault⟩ := h m hm
  exact ⟨fault, m', outcome_bind_of_error hrun, hfault⟩

theorem Returns.bind_stops (h : Returns e act a items e' ws) (h' : Stops e' (f a) E) :
    Stops e (act >>= f) E := by
  intro m hm
  obtain ⟨said, hrun⟩ := h m hm
  obtain ⟨fault, m', hrun', hfault⟩ := h' (m.after items e' ws said) rfl
  exact ⟨fault, m', (outcome_bind_of_ok hrun).trans hrun', hfault⟩

theorem Returns.bind (h : Returns e act a items e' ws) (h' : Returns e' (f a) b items' e'' ws') :
    Returns e (act >>= f) b (items' ++ items.map (Item.followAll ws')) e'' (ws ++ ws') := by
  intro m hm
  obtain ⟨said, hrun⟩ := h m hm
  obtain ⟨said', hrun'⟩ := h' (m.after items e' ws said) rfl
  rw [Machine.after_after] at hrun'
  exact ⟨said ++ said', (outcome_bind_of_ok hrun).trans hrun'⟩

theorem Settles.bind
    (h : Settles e act (fun a items e' ws => Settles e' (f a) (fun b items' e'' ws' =>
      R b (items' ++ items.map (Item.followAll ws')) e'' (ws ++ ws')) E) E) :
    Settles e (act >>= f) R E := by
  rcases h with ⟨a, items, e', ws, hact, h⟩ | h
  · rcases h with ⟨b, items', e'', ws', hf, h⟩ | h
    · exact (hact.bind hf).settles h
    · exact (hact.bind_stops h).settles
  · exact h.bind.settles

theorem Finds.bind (h : Finds e act (fun a => Settles e (f a) R E) E) :
    Settles e (act >>= f) R E := by
  refine Settles.bind (Settles.mono h ?_ fun _ h => h)
  rintro a _ _ _ - ⟨rfl, rfl, rfl, h⟩
  refine Settles.mono h (fun b items e' ws _ hb => ?_) fun _ h => h
  rwa [List.map_nil, List.append_nil]

/-! ## Steps -/

theorem settles_pure (h : Q a [] e []) : Settles e (pure a) Q E := by
  refine Returns.settles (fun m hm => ⟨[], ?_⟩) h
  subst hm
  rw [Machine.after_self]
  rfl

theorem finds_pure (h : P a) : Finds e (pure a) P E := settles_pure ⟨rfl, rfl, rfl, h⟩

theorem stops_throw {f : Fault} (h : E f) : Stops e (throw f : Run α) E := fun m _ => ⟨f, m, rfl, h⟩

theorem settles_throw {f : Fault} (h : E f) : Settles e (throw f : Run α) Q E :=
  (stops_throw h).settles

theorem outcome_located (p : Place) (act : Run α) (m : Machine) :
    (located p act).outcome m =
      ((act.outcome m).1.mapError (Fault.locate p), (act.outcome m).2) := rfl

theorem Stops.located (p : Place) (h : Stops e act fun f => E (f.locate p)) :
    Stops e (located p act) E := by
  intro m hm
  obtain ⟨f, m', hrun, hf⟩ := h m hm
  exact ⟨f.locate p, m', by rw [outcome_located, hrun]; rfl, hf⟩

theorem Settles.located (p : Place) (h : Settles e act Q fun f => E (f.locate p)) :
    Settles e (located p act) Q E := by
  rcases h with ⟨a, items, e', ws, hact, h⟩ | h
  · refine Returns.settles (fun m hm => ?_) h
    obtain ⟨said, hrun⟩ := hact m hm
    exact ⟨said, by rw [outcome_located, hrun]; rfl⟩
  · exact (h.located p).settles

/-- What a computation notes does not depend on the machine. -/
theorem finds_noting {act : Noting α} {line : Json} {quiet : Bool}
    (h : Ends act [] (fun a _ => P a) fun f _ => E f) : Finds e (noting line quiet act) P E := by
  have hrun : ∀ m, (noting line quiet act).outcome m =
      ((act.run.run []).1, logged line quiet (act.run.run []).2 m) := fun _ => rfl
  unfold Ends at h
  rcases hact : act.run.run [] with ⟨r, remarks⟩
  rw [hact] at h
  simp only [hact] at hrun
  cases r with
  | error f => exact Stops.settles fun m _ => ⟨f, _, hrun m, h⟩
  | ok a =>
    refine Returns.settles (fun m hm => ⟨if quiet then [] else remarks.map (⟨·, line⟩), ?_⟩)
      ⟨rfl, rfl, rfl, h⟩
    subst hm
    rw [hrun, Machine.after_nil]
    cases quiet <;> simp [logged]

theorem returns_inScope {act : Scoped α} (h : act.run.run e = (.ok a, e')) :
    Returns e (inScope act) a [] e' [] := by
  have hrun : ∀ m, (inScope act).outcome m = ((act.run.run m.env).1.mapError Fault.breach,
      { m with env := (act.run.run m.env).2 }) := fun _ => rfl
  refine fun m hm => ⟨[], ?_⟩
  rw [hrun, hm, h]
  simp [Machine.after, Item.followAll_nil, View.followAll_nil, Except.mapError]

theorem stops_inScope {act : Scoped α} {b : Breach} (h : act.run.run e = (.error b, e'))
    (hb : E (.breach b)) : Stops e (inScope act) E := by
  have hrun : ∀ m, (inScope act).outcome m = ((act.run.run m.env).1.mapError Fault.breach,
      { m with env := (act.run.run m.env).2 }) := fun _ => rfl
  refine fun m hm => ⟨.breach b, { m with env := e' }, ?_, hb⟩
  rw [hrun, hm, h]
  rfl

theorem settles_inScope {act : Scoped α}
    (h : Ends act e (fun a e' => Q a [] e' []) fun b _ => E (.breach b)) :
    Settles e (inScope act) Q E := by
  rcases hact : act.run.run e with ⟨a | b, e'⟩
  · exact (stops_inScope hact (h.of_error hact)).settles
  · exact (returns_inScope hact).settles (h.of_ok hact)

theorem finds_load {P : Value → Prop} {l : Location} (h : P (e.load l)) :
    Finds e (load l) P E := by
  refine Returns.settles (fun m hm => ⟨[], ?_⟩) ⟨rfl, rfl, rfl, h⟩
  subst hm
  rw [Machine.after_self]
  rfl

theorem finds_view {P : View → Prop} {l : Location} (h : P ⟨e.load l, some l⟩) :
    Finds e (view l) P E := Finds.bind (finds_load (finds_pure h))

theorem settles_store {Q : Outcome Unit} {l : Location} {v : Value}
    (h : Ends (Scoped.store l v) e (fun _ e' => Q () [] e' [(l, v)]) fun b _ => E (.breach b)) :
    Settles e (store l v) Q E := by
  refine Settles.bind (settles_inScope (h.mono (fun _ e₁ hQ => ?_) fun _ _ hb => hb))
  refine Returns.settles (show Returns e₁ _ () [] e₁ [(l, v)] from fun m hm => ⟨[], ?_⟩) hQ
  subst hm
  rw [Machine.after, List.append_nil]
  rfl

theorem returns_pushView (v : View) : Returns e (pushView v) () [.value v] e [] := by
  refine fun m hm => ⟨[], ?_⟩
  subst hm
  rw [Machine.after_nil, List.append_nil]
  rfl

theorem gives_pushView {P : View → Prop} {v : View} (h : P v) : Gives e (pushView v) P E :=
  (returns_pushView v).settles ⟨v, rfl, rfl, rfl, h⟩

theorem Stops.push (h : Stops e act E) (i : Item) : Stops e (Run.push i >>= fun _ => act) E :=
  fun m hm => h { m with stack := i :: m.stack } hm

theorem pushPending_eq (t : Term) (intent? : Option Intent) :
    pushPending t intent? =
      if t.isAbsent then breach .missingOperand else push (.pending t intent?) := by
  cases t <;> rfl

/-! ## Operands -/

/-- A node that waits on the stack is evaluated at once, whatever it waits for. -/
theorem pushPending_resume (t : Term) (intent? : Option Intent) (act : Run Unit)
    (rest : Run β) :
    (do pushPending t intent?; resume act; rest) =
      if t.isAbsent then breach .missingOperand else (do act; rest) := by
  cases t <;> rfl

theorem push_resume (i : Item) (act : Run Unit) (rest : Run β) :
    (do push i; resume act; rest) = (do act; rest) := rfl

theorem push_holding_resume (i : Item) (v : View) (act : Run Unit) (f : View → Run β) :
    (do push i; let v ← holding v (resume act); f v) = (do let v ← holding v act; f v) := rfl

theorem push_pop (i : Item) (f : Item → Run β) : (do push i; let i ← pop; f i) = f i := rfl

section Operand

variable {t : Term} {intent? : Option Intent} {eval : Run Unit} {v : View} {g : View → Run β}

/-- A computation that first only logs something, and then does what another one does. -/
theorem Settles.of_logging {act act' : Run α}
    (h : ∀ m : Machine, m.env = e → ∃ said,
      act.outcome m = act'.outcome { m with log := m.log ++ said })
    (hact : Settles e act' Q E) : Settles e act Q E := by
  rcases hact with ⟨a, items, e', ws, hact, hQ⟩ | hact
  · refine Returns.settles (fun m hm => ?_) hQ
    obtain ⟨said, hsame⟩ := h m hm
    obtain ⟨said', hrun⟩ := hact { m with log := m.log ++ said } hm
    refine ⟨said ++ said', (hsame.trans hrun).trans ?_⟩
    simp only [Machine.after, List.append_assoc]
  · refine Stops.settles fun m hm => ?_
    obtain ⟨said, hsame⟩ := h m hm
    obtain ⟨f, m', hrun, hf⟩ := hact { m with log := m.log ++ said } hm
    exact ⟨f, m', hsame.trans hrun, hf⟩

theorem Gives.popView (h : Gives e eval (fun v => Settles e (g v) R E) E) :
    Settles e (do eval; let v ← popView; g v) R E := by
  rcases gives_iff.1 h with ⟨v, hact, h⟩ | h
  · refine Settles.of_logging (fun m hm => ?_) h
    obtain ⟨said, hrun⟩ := hact m hm
    subst hm
    rw [Machine.after_nil] at hrun
    exact ⟨said, outcome_bind_of_ok hrun⟩
  · exact h.bind.settles

theorem Gives.operand (habsent : t.isAbsent = true → E (.breach .missingOperand))
    (h : t.isAbsent = false → Gives e (within t eval) (fun v => Settles e (g v) R E) E) :
    Settles e (do pushPending t intent?; resume (within t eval); let v ← Run.popView; g v) R E := by
  rw [pushPending_resume]
  cases hpresent : t.isAbsent with
  | true => exact settles_throw (habsent hpresent)
  | false =>
    rw [if_neg (by simp)]
    exact (h hpresent).popView

/-- What waits on the stack does not matter to an operand. -/
theorem Gives.beneath {i : Item} (habsent : t.isAbsent = true → E (.breach .missingOperand))
    (h : Gives e (within t eval) (fun v => Settles e (push i >>= fun _ => g v) R E) E) :
    Settles e (do
      push i
      pushPending t intent?
      resume (within t eval)
      let v ← Run.popView
      g v) R E := by
  simp only [pushPending_resume]
  split
  · exact ((stops_throw (habsent ‹_›)).push _).settles
  rcases gives_iff.1 h with ⟨v, hact, h⟩ | h
  · refine Settles.of_logging (fun m hm => ?_) h
    obtain ⟨said, hrun⟩ := hact { m with stack := i :: m.stack } hm
    subst hm
    rw [Machine.after_nil { m with stack := i :: m.stack } _ said] at hrun
    exact ⟨said, outcome_bind_of_ok hrun⟩
  · exact (h.bind.push _).settles

/-- Nor does it to a computation with a result. -/
theorem Finds.beneath {i : Item}
    (h : Finds e act (fun a => Settles e (push i >>= fun _ => f a) R E) E) :
    Settles e (do push i; let a ← act; f a) R E := by
  rcases finds_iff.1 h with ⟨a, hact, h⟩ | h
  · refine Settles.of_logging (fun m hm => ?_) h
    obtain ⟨said, hrun⟩ := hact { m with stack := i :: m.stack } hm
    subst hm
    rw [Machine.after_nil { m with stack := i :: m.stack } _ said] at hrun
    exact ⟨said, outcome_bind_of_ok hrun⟩
  · exact (h.bind.push i).settles

theorem outcome_holding (v : View) (act : Run Unit) (m : Machine) :
    (holding v act).outcome m =
      match act.outcome { m with held := v :: m.held } with
      | (r, m') =>
        match m'.held with
        | w :: rest => (r.map fun _ => w, { m' with held := rest })
        | [] => (r.map fun _ => v, m') := rfl

theorem Stops.holding (h : Stops e eval E) : Stops e (Run.holding v eval) E := by
  intro m hm
  obtain ⟨f, m', hrun, hf⟩ := h { m with held := v :: m.held } hm
  rcases hheld : m'.held with _ | ⟨w, rest⟩
  · exact ⟨f, _, by rw [outcome_holding, hrun]; simp only [hheld]; rfl, hf⟩
  · exact ⟨f, _, by rw [outcome_holding, hrun]; simp only [hheld]; rfl, hf⟩

/-- An operand that is held does not matter either. -/
theorem Gives.holding {g : View → View → Run β}
    (h : Gives e eval (fun w => Settles e (g v w) R E) E) :
    Settles e (do let v ← Run.holding v eval; let w ← Run.popView; g v w) R E := by
  rcases gives_iff.1 h with ⟨w, hact, h⟩ | h
  · refine Settles.of_logging (fun m hm => ?_) h
    obtain ⟨said, hrun⟩ := hact { m with held := v :: m.held } hm
    subst hm
    rw [Machine.after_nil { m with held := v :: m.held } _ said] at hrun
    have hholding : (Run.holding v eval).outcome m =
        (.ok v, { m with stack := .value w :: m.stack, log := m.log ++ said }) := by
      rw [outcome_holding, hrun]
      rfl
    exact ⟨said, outcome_bind_of_ok hholding⟩
  · exact h.holding.bind.settles

end Operand

/-! ## Places -/

section Place

variable {l? : Option Location} {eval : Run Unit} {v : View}

theorem Settles.pushLocation {act : Run (Option Location)} {Q : Outcome Unit}
    (h : Settles e act (fun l? items e' ws => items = [] ∧ Q () [.location l?] e' ws) E) :
    Settles e (act >>= Run.pushLocation) Q E := by
  refine Settles.bind (h.mono ?_ fun _ hf => hf)
  rintro l? _ e' ws - ⟨rfl, hQ⟩
  have hpushed : Returns e' (Run.pushLocation l?) () [.location l?] e' [] := by
    refine fun m hm => ⟨[], ?_⟩
    subst hm
    rw [Machine.after_nil, List.append_nil]
    rfl
  refine hpushed.settles ?_
  rwa [List.map_nil, List.append_nil, List.append_nil]

theorem Returns.popLocation (h : Returns e eval () [.location l?] e' ws) :
    Returns e (do eval; Run.popLocation) l? [] e' ws := by
  intro m hm
  obtain ⟨said, hrun⟩ := h m hm
  exact ⟨said, outcome_bind_of_ok hrun⟩

theorem Settles.popLocation {g : Option Location → Run β}
    (h : Settles e eval (fun _ items e' ws => ∃ l?, items = [.location l?] ∧
      Settles e' (g l?) (fun b items' e'' ws' => R b items' e'' (ws ++ ws')) E) E) :
    Settles e (do eval; let l? ← Run.popLocation; g l?) R E := by
  rw [← bind_assoc]
  rcases h with ⟨_, _, e', ws, heval, l?, rfl, hg⟩ | h
  · refine Settles.bind (heval.popLocation.settles ?_)
    exact hg.mono (fun b items e'' ws' _ hb => by rwa [List.map_nil, List.append_nil]) fun _ h => h
  · exact h.bind.bind.settles

/-- An operand that is held follows what is written meanwhile. -/
theorem Returns.holding (h : Returns e eval () [.location l?] e' ws) :
    Returns e (do let w ← Run.holding v eval; let l? ← Run.popLocation; return (w, l?))
      (v.followAll ws, l?) [] e' ws := by
  intro m hm
  obtain ⟨said, hrun⟩ := h { m with held := v :: m.held } hm
  have hholding : (Run.holding v eval).outcome m =
      (.ok (v.followAll ws), m.after [.location l?] e' ws said) := by
    rw [outcome_holding, hrun]
    rfl
  exact ⟨said, outcome_bind_of_ok hholding⟩

theorem Settles.holding {g : View → Option Location → Run β}
    (h : Settles e eval (fun _ items e' ws => ∃ l?, items = [.location l?] ∧
      Settles e' (g (v.followAll ws) l?) (fun b items' e'' ws' => R b items' e'' (ws ++ ws')) E)
      E) :
    Settles e (do let w ← Run.holding v eval; let l? ← Run.popLocation; g w l?) R E := by
  have hpair : (do let w ← Run.holding v eval; let l? ← Run.popLocation; g w l?) =
      (do let w ← Run.holding v eval; let l? ← Run.popLocation; return (w, l?)) >>=
        fun p => g p.1 p.2 := by
    simp only [bind_assoc, pure_bind]
  rcases h with ⟨_, _, e', ws, heval, l?, rfl, hg⟩ | h
  · rw [hpair]
    refine Settles.bind (heval.holding.settles ?_)
    exact hg.mono (fun b items e'' ws' _ hb => by rwa [List.map_nil, List.append_nil]) fun _ h => h
  · exact h.holding.bind.settles

end Place

end Run

end PhpInterpreter
