import PhpInterpreter.Proofs.Machine.Session
import PhpInterpreter.Proofs.Source.Complete
import PhpInterpreter.Proofs.Value.Identity

/-!
Runs of source programs in sessions are safe: no contract of the evaluator or the environment is
ever broken, and the stack is empty again afterwards.
-/

namespace PhpInterpreter

/-- An error of the language, or a limit of numbers and texts. -/
def Fault.Proper : Fault → Prop
  | .error e => ∀ b, e.cause ≠ .breach b
  | .crash c => c.IsLimit

theorem RunError.cause_locate (e : RunError) (p : Place) : (e.locate p).cause = e.cause := by
  unfold RunError.locate
  split <;> rfl

namespace Contract

/-- Complete trees on consistent environments stop only with faults that are proper, but for
objects whose class has the name of a built-in type. -/
def safe (P : String → Prop) : Contract :=
  { tidy P with
    fault := fun f =>
      f.Proper ∨ (f = .crash .incomparable ∧ ∃ name ∈ Value.typeNames, P name)
    strict := True
    lenient := fun hs => (hs trivial).elim
    loose := fun hs => (hs trivial).elim
    fatal := fun _ => .inl nofun
    operandTypes := fun _ _ _ => .inl nofun
    limit := .inl
    identical := fun ha hb h => by
      obtain ⟨rfl, hname⟩ := ha.identical_error hb h
      exact .inr ⟨rfl, hname⟩
    locate := fun {f} p hf => by
      cases f with
      | crash c => exact hf
      | error e =>
        refine hf.imp (fun hproper b => ?_) fun h => nomatch h.1
        rw [RunError.cause_locate]
        exact hproper b }

end Contract

namespace Run

variable {t : Term} {m : Machine}

/-- The stack is empty after an error of the language. -/
def Cleared (f : Fault) (m : Machine) : Prop := ∀ e, f = .error e → f.Proper → m.stack = []

theorem cleared_breach (b : Breach) (m : Machine) : Cleared (.breach b) m :=
  fun _ _ hproper => (hproper b rfl).elim

/-- No error of the language leaves anything on the stack. -/
theorem ends_clearing_emptied {α : Type} (act : Run α) (m : Machine) :
    Ends (clearing act) m (fun _ _ => True) fun f m' => ∀ e, f = .error e → m'.stack = [] := by
  simp only [Ends, clearing, ExceptT.run, ExceptT.mk, StateT.run]
  generalize act m = p
  obtain ⟨r, m'⟩ := p
  cases r with
  | ok a => trivial
  | error f =>
    cases f with
    | error e => exact fun _ _ => rfl
    | crash c => exact fun _ h => by cases h

theorem ends_statement_cleared (t : Term) (m : Machine) :
    Ends (statement t) m (fun _ _ => True) Cleared := by
  simp only [statement, ends_bind, ends_pushPending]
  split
  · exact cleared_breach _ m
  · refine (ends_clearing_emptied _ _).mono (fun v m _ => ?_) fun _ _ h e he _ => h e he
    simp only [ends_get]
    split
    · trivial
    · simp only [clear, ends_bind, ends_modify, ends_breach]
      exact cleared_breach _ _

theorem ends_statements_cleared (ts : List Term) (v : Value) (m : Machine) :
    Ends (statements ts v) m (fun _ _ => True) Cleared := by
  induction ts generalizing v m with
  | nil => trivial
  | cons t rest ih =>
    simp only [statements, ends_bind]
    exact (ends_statement_cleared t m).mono (fun v m _ => ih v m) fun _ _ h => h

theorem ends_program_cleared (t : Term) (m : Machine) :
    Ends (program t) m (fun _ _ => True) Cleared := by
  unfold program
  split
  · simp only [ends_bind, listed]
    split
    · exact ends_statements_cleared _ _ m
    · exact fun _ h => by cases h
  · exact ends_statements_cleared _ _ m

end Run

/-- Some cell holds an object of the class, at any depth. -/
def Environment.HoldsClass (e : Environment) (className : String) : Prop :=
  ∃ p ∈ e.scopes, ∃ c ∈ p.2.cells, ∃ path handle, c.2.descend path = .object handle className

namespace Node

open Environment

variable {n : Node} {m : Machine}

/-- The run ends on an empty stack, with a value or with an error of the language, or with a crash
of `Q`. -/
def EndsWell (n : Node) (m : Machine) (Q : Crash → Prop) : Prop :=
  match n.run m with
  | (.ok _, m') => m'.stack = []
  | (.error (.error e), m') => (∀ b, e.cause ≠ .breach b) ∧ m'.stack = []
  | (.error (.crash c), _) => Q c

theorem EndsWell.mono {Q Q' : Crash → Prop} (h : n.EndsWell m Q) (hQ : ∀ c, Q c → Q' c) :
    n.EndsWell m Q' := by
  unfold EndsWell at h ⊢
  split at h
  · exact h
  · exact h
  · exact hQ _ h

theorem safe_env (h : Reached m.env) : (Contract.safe m.env.HoldsClass).Env m.env where
  cells := by
    have htidy : (Contract.tidy fun _ => True).Cells m.env :=
      h.cells id fun handle _ => .object handle trivial
    intro p hp c hc
    refine (htidy p hp c hc).of_objects fun path handle d hpath => ?_
    exact ⟨p, hp, c, hc, path, handle, hpath⟩
  consistent _ := h.consistent

/-- A program that is run on an empty stack, where objects of some classes can be found. -/
theorem endsWell_of_env {P : String → Prop} {text : String} (htree : Source.tree text = .ok n)
    (henv : (Contract.safe P).Env m.env) (hstack : m.stack = []) :
    n.EndsWell m fun c => c.IsLimit ∨ c = .incomparable ∧ ∃ name ∈ Value.typeNames, P name := by
  have hends := Contract.ends_program henv fun _ => ⟨Source.runnable_of_tree htree, .inr hstack⟩
  have hboth := hends.and (Run.ends_program_cleared n.toTerm m)
  obtain ⟨hok, herror⟩ := ends_iff.1 hboth
  unfold EndsWell
  split
  · rename_i v m' hrun
    obtain ⟨ws, -, -, hrest⟩ := (hok v m' hrun).1.follows
    simpa [hstack, Contract.Frame.items] using hrest
  · rename_i e m' hrun
    obtain ⟨⟨hfault, -⟩, hcleared⟩ := herror _ m' hrun
    have hproper : (Fault.error e).Proper := hfault.resolve_right fun hcrash => nomatch hcrash.1
    exact ⟨hproper, hcleared e rfl hproper⟩
  · rename_i c m' hrun
    obtain ⟨⟨hfault, -⟩, -⟩ := herror _ m' hrun
    exact hfault.imp id fun hcrash => ⟨Fault.crash.inj hcrash.1, hcrash.2⟩

/-- A program of a session that is run on an empty stack. -/
theorem endsWell_of_reached {text : String} (htree : Source.tree text = .ok n)
    (h : Reached m.env) (hstack : m.stack = []) :
    n.EndsWell m fun c =>
      c.IsLimit ∨ c = .incomparable ∧ ∃ name ∈ Value.typeNames, m.env.HoldsClass name :=
  endsWell_of_env htree (safe_env h) hstack

/-! ## Objects that cannot be compared -/

/-- A new session in which the variable `o` holds an object. -/
def objectSession (className : String) : Machine :=
  { Machine.init with env := ((Scoped.holdObject className "o" none none).run.run .init).2 }

theorem reached_objectSession (className : String) : Reached (objectSession className).env :=
  .object .init className "o" none fun _ hs => by
    obtain rfl := Option.some.inj hs
    rfl

theorem eq_of_holdsClass {className c : String}
    (h : (objectSession className).env.HoldsClass c) : c = className := by
  have hcells : (objectSession className).env.scopes.flatMap (fun p => p.2.cells) =
      [(1, .object 1 className)] := rfl
  obtain ⟨p, hp, cell, hcell, path, handle, hpath⟩ := h
  have hmem : cell ∈ (objectSession className).env.scopes.flatMap fun p => p.2.cells :=
    List.mem_flatMap.2 ⟨p, hp, hcell⟩
  rw [hcells, List.mem_singleton] at hmem
  subst hmem
  cases path with
  | nil =>
    simp only [Value.descend, Value.object.injEq] at hpath
    exact hpath.2.symm
  | cons k rest => simp [Value.descend] at hpath

/-- A program that compares the object with a value of a built-in type. -/
def comparison : String → String
  | "null" => "$o === null;"
  | "bool" => "$o === true;"
  | "int" => "$o === 1;"
  | "float" => "$o === 1.5;"
  | "string" => "$o === '';"
  | _ => "$o === [];"

/-- Whether the text is a program that crashes because values cannot be compared. -/
def crashes (text : String) (m : Machine) : Bool :=
  match Source.tree text with
  | .error _ => false
  | .ok n =>
    match (n.run m).1 with
    | .error (.crash .incomparable) => true
    | _ => false

theorem crashes_comparison :
    ∀ c ∈ Value.typeNames, crashes (comparison c) (objectSession c) = true := by
  decide +kernel

theorem not_endsWell_of_crashes {text : String} (h : crashes text m = true) :
    ∃ n, Source.tree text = .ok n ∧ ¬ n.EndsWell m Crash.IsLimit := by
  unfold crashes at h
  split at h
  · cases h
  · rename_i n hn
    refine ⟨n, hn, fun hwell => ?_⟩
    unfold EndsWell at hwell
    split at h
    · rename_i hrun
      split at hwell <;> rename_i heq <;> simp [heq] at hrun
      subst hrun
      simp [Crash.IsLimit] at hwell
    · cases h

/-- Programs of sessions end well, but for a comparison with an object whose class has the name of
a built-in type: classes with such names are exactly those that have to be kept out. -/
theorem endsWell_iff_noTypeName (P : String → Prop) :
    (∀ text n m, Source.tree text = .ok n → Reached m.env → m.stack = [] →
      n.EndsWell m fun c =>
        c.IsLimit ∨ c = .incomparable ∧ ∃ name ∈ Value.typeNames, m.env.HoldsClass name) ∧
    ((∀ text n m, Source.tree text = .ok n → Reached m.env → m.stack = [] →
      (∀ c, m.env.HoldsClass c → P c) → n.EndsWell m Crash.IsLimit) ↔
        ∀ c ∈ Value.typeNames, ¬ P c) := by
  refine ⟨fun text n m htree h hstack => endsWell_of_reached htree h hstack, ?_, ?_⟩
  · intro hwell c hc hP
    obtain ⟨n, hn, hcrash⟩ := not_endsWell_of_crashes (crashes_comparison c hc)
    refine hcrash (hwell _ n _ hn (reached_objectSession c) rfl fun d hd => ?_)
    rw [eq_of_holdsClass hd]
    exact hP
  · intro hP text n m htree h hstack hclasses
    refine (endsWell_of_reached htree h hstack).mono fun c hc => hc.resolve_right ?_
    rintro ⟨-, name, hname, hholds⟩
    exact hP name hname (hclasses name hholds)

/-- An object of another class can be compared, and its use as an array is an error of the
language. -/
theorem endsWell_point :
    ∃ n, Source.tree "$b = $o === 1; $o[0] = $b;" = .ok n ∧
      n.EndsWell (objectSession "Point") Crash.IsLimit := by
  have hok : (Source.tree "$b = $o === 1; $o[0] = $b;").isOk = true := by decide +kernel
  cases htree : Source.tree "$b = $o === 1; $o[0] = $b;" with
  | error e =>
    rw [htree] at hok
    cases hok
  | ok n =>
    have hnames : ∀ c ∈ Value.typeNames, ¬ c = "Point" := by decide
    refine ⟨n, rfl, (endsWell_iff_noTypeName (· = "Point")).2.2 hnames _ n _ htree ?_ rfl ?_⟩
    · exact reached_objectSession "Point"
    · exact fun c hc => eq_of_holdsClass hc

end Node

end PhpInterpreter
