import PhpInterpreter.Proofs.Machine.Evaluation

/-!
Runs of programs within a contract: statement after statement the machine comes back to the stack it
started with, and wherever a run stops, the environment is within the contract.
-/

namespace PhpInterpreter

/-- A statement of a complete program. -/
def Term.Executable (t : Term) : Prop := t.Ready none ∧ t.isAbsent = false

/-- A program whose statements are all there. -/
def Term.Runnable : Term → Prop
  | .program _ iterable ts => iterable = true ∧ ∀ t ∈ ts, t.Executable
  | t => t.Executable

namespace Contract

open Environment Run

variable {K : Contract} {m₀ m : Machine} {t : Term}

theorem ends_clearing_stop {α : Type} {act : Run α} {R : α → Machine → Prop}
    (h : Ends act m R (K.Stop m₀)) : Ends (clearing act) m R (K.Stop m₀) := by
  simp only [Ends, clearing, ExceptT.run, ExceptT.mk, StateT.run] at h ⊢
  generalize act m = p at h ⊢
  obtain ⟨r, m'⟩ := p
  cases r with
  | ok a => exact h
  | error f => cases f <;> exact h

/-- No fault is ruled out, or the stack is empty. -/
def Unhindered (K : Contract) (m : Machine) : Prop := (∀ f, K.fault f) ∨ m.stack = []

/-- A statement leaves the stack as it was, so on an empty stack nothing leaks. -/
theorem At.statement {R : Value → Machine → Prop} (hm : K.At m₀ [] 0 m)
    (hs : K.strict → t.Executable ∧ K.Unhindered m₀)
    (hR : ∀ v m', K.At m₀ [] 0 m' → R v m') : Ends (statement t) m R (K.Stop m₀) := by
  simp only [Run.statement, ends_bind]
  refine hm.pushPending (fun h => (hs h).1.2) fun m hm => ends_clearing_stop ?_
  have hyields := yields_eval t none fun h => (hs h).1.1
  simp only [evaluate, ends_bind, ends_pure]
  refine hm.pop fun m hm _ => ends_within_stop t ?_
  refine (hyields.value (by simp) m₀ [] 0 m hm).mono ?_ fun _ _ hf => hf
  rintro - m hm
  refine hm.popView fun v m hm _ _ => ?_
  simp only [ends_get]
  split
  · exact hR _ m hm
  · rename_i hleak
    simp only [clear, ends_bind, ends_modify]
    refine (At.stop hm ?_ : K.Stop m₀ _ m)
    refine fault_of_strict fun h => (hs h).2.elim (fun hfault => hfault _) fun hempty => ?_
    refine (hleak ?_).elim
    obtain ⟨ws, -, -, hstack⟩ := hm.follows
    simp [hstack, hempty, Frame.items]

theorem At.statements {ts : List Term} {v : Value} {R : Value → Machine → Prop}
    (hm : K.At m₀ [] 0 m) (hs : K.strict → (∀ t ∈ ts, t.Executable) ∧ K.Unhindered m₀)
    (hR : ∀ v m', K.At m₀ [] 0 m' → R v m') : Ends (statements ts v) m R (K.Stop m₀) := by
  induction ts generalizing v m with
  | nil => exact hR v m hm
  | cons t rest ih =>
    simp only [Run.statements, ends_bind]
    refine hm.statement (fun h => ⟨(hs h).1 t List.mem_cons_self, (hs h).2⟩) fun v m hm => ih hm ?_
    exact fun h => ⟨fun t' ht => (hs h).1 t' (List.mem_cons_of_mem t ht), (hs h).2⟩

/-- A program stops within the contract, if it stops, and comes back to the stack it started with
if it ends. -/
theorem ends_program (hm : K.Env m.env) (hs : K.strict → t.Runnable ∧ K.Unhindered m) :
    Ends (program t) m (fun _ m' => K.At m [] 0 m') (K.Stop m) := by
  have hstart := At.start hm
  have hone : (∀ h iterable ts, t ≠ .program h iterable ts) →
      Ends (Run.statements [t] .null) m (fun _ m' => K.At m [] 0 m') (K.Stop m) := by
    intro hother
    refine hstart.statements (fun h => ⟨?_, (hs h).2⟩) fun _ m' hm' => hm'
    intro t' ht'
    obtain rfl := List.mem_singleton.1 ht'
    have hrun := (hs h).1
    unfold Term.Runnable at hrun
    split at hrun
    · exact (hother _ _ _ rfl).elim
    · exact hrun
  unfold program
  split
  · simp only [ends_bind]
    refine hstart.listed (fun h => (hs h).1.1) ?_
    exact hstart.statements (fun h => ⟨(hs h).1.2, (hs h).2⟩) fun _ m' hm' => hm'
  · rename_i hother
    exact hone hother

/-- What a run of any tree does to the environment. -/
theorem run_effect (K : Contract) (n : Node) (hm : K.Env m.env) (hs : ¬ K.strict) :
    ∃ ws, Effect m.env ws (n.run m).2.env ∧ K.Writes ws := by
  have hends : Ends (program n.toTerm) m
      (fun _ m' => ∃ ws, Effect m.env ws m'.env ∧ K.Writes ws)
      (fun _ m' => ∃ ws, Effect m.env ws m'.env ∧ K.Writes ws) := by
    refine (ends_program hm fun h => (hs h).elim).mono (fun _ m' hm' => ?_) ?_
    · obtain ⟨ws, he, hw, -⟩ := hm'.follows
      exact ⟨ws, he, hw hs⟩
    · rintro - m' ⟨-, -, ws, he, hw⟩
      exact ⟨ws, he, hw hs⟩
  exact hends.state

end Contract

end PhpInterpreter
